import Std.Data.HashMap

/-!
# Ordered maps

A finite map that remembers the order in which its keys were first stored.  Keys and values stand in
two arrays of the same size, and a table gives the place of each key.  Storing under a key that is
already there replaces its value and keeps its place.
-/

namespace Minilang

/-- A finite map with its keys in the order of their first insertion. -/
structure OrderedMap (α β : Type) [BEq α] [Hashable α] where
  keys : Array α
  values : Array β
  places : Std.HashMap α Nat

namespace OrderedMap

variable {α β : Type} [BEq α] [Hashable α] (m : OrderedMap α β) (k : α)

def empty : OrderedMap α β := ⟨#[], #[], ∅⟩

instance : Inhabited (OrderedMap α β) := ⟨empty⟩

def size : Nat :=
  m.keys.size

def index? : Option Nat :=
  m.places[k]?

def load? : Option β :=
  (m.index? k).bind (m.values[·]?)

def contains : Bool :=
  m.places.contains k

def push : OrderedMap α β → α → β → OrderedMap α β
  | ⟨keys, values, places⟩, k, v =>
    let n := keys.size
    ⟨keys.push k, values.push v, places.insert k n⟩

/-- The map with a value stored under a key, and the place of the key. -/
def storeAt (v : β) : OrderedMap α β × Nat :=
  match m.index? k with
  | some i => ({ m with values := m.values.setIfInBounds i v }, i)
  | none =>
    let n := m.size
    (m.push k v, n)

def store (v : β) : OrderedMap α β :=
  (m.storeAt k v).1

/-- The map with a key that is stored with the given value if it is new, the place of the key, and
whether it is new. -/
def internAt (v : β) : OrderedMap α β × Nat × Bool :=
  match m.index? k with
  | some i => (m, i, false)
  | none =>
    let (m', i) := m.storeAt k v
    (m', i, true)

def intern (v : β) : OrderedMap α β × Nat :=
  let (m', i, _) := m.internAt k v
  (m', i)

def toList : List (α × β) :=
  m.keys.toList.zip m.values.toList

def ofList (entries : List (α × β)) : OrderedMap α β :=
  entries.foldl (fun m e => m.store e.1 e.2) empty

/-- A map of its own with the same entries. -/
def clone : OrderedMap α β :=
  ofList m.toList

def at? (i : Nat) : Option (α × β) :=
  match m.keys[i]?, m.values[i]? with
  | some k, some v => some (k, v)
  | _, _ => none

end OrderedMap

end Minilang
