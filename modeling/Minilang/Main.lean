import Minilang.CommandLine

/-!
# The program

Reads the files that the arguments name, does what the arguments say, and prints and writes what
comes of it.
-/

namespace Minilang.Main

def leadingNames (name : Bytes) : List Bytes :=
  let cuts := (List.range name.length).filter fun (i : Nat) => name[i + 1]? ∈ [none, some 47]
  cuts.map fun (i : Nat) => name.take (i + 1)

def load (files : FileStore) (name : Bytes) : IO FileStore := do
  match String.fromUTF8? ⟨name.toArray⟩ with
  | none => return files
  | some text =>
    let place := (FileName.ofBytes name).location
    if ← ((← IO.currentDir) / text).isDir then return files.insertDirectory place
    else
      try
        let contents ← IO.FS.readBinFile text
        return files.insert place contents.toList
      catch _ => return files

/-- The files that arguments name, also after an equals sign, and the directories on the way. -/
def loadFiles (args : List Bytes) : IO FileStore := do
  let values := args.filterMap fun (arg : Bytes) => (CommandLine.splitFlag arg).2
  ((args ++ values).flatMap leadingNames).foldlM load FileStore.empty

def storeFiles (before after : FileStore) : IO Unit :=
  for (l, contents) in after.files do
    if (l, contents) ∉ before.files then
      match String.fromUTF8? ⟨l.text.toArray⟩ with
      | some name => IO.FS.writeBinFile name ⟨contents.toArray⟩
      | none => return ()

def put (stream : IO.FS.Stream) (text : Bytes) : IO Unit := do
  stream.write ⟨text.toArray⟩
  stream.flush

end Minilang.Main

open Minilang in
/-- The program. -/
def main (args : List String) : IO UInt32 := do
  let args := args.map Bytes.ofString
  let files ← Main.loadFiles args
  let (error?, session) := CommandLine.outcome (CommandLine.perform args) files
  Main.storeFiles files session.files
  Main.put (← IO.getStdout) session.stdout
  Main.put (← IO.getStderr) session.stderr
  match error? with
  | none => return 0
  | some e =>
    Main.put (← IO.getStderr) (Bytes.concat ["quill: ", e.message, "\n"])
    return 1
