import Minilang.Proofs.Bytecode.Files

/-!
# Files that end too early

A file that is cut anywhere is refused.  No item of the format is looked at for this: a reader only
sees the bytes from the front, so what it makes of bytes it makes of them with more bytes behind
them, and if it does not fail for want of bytes, it fails in the same way (`Stable`).  Had the
reader made a program of a part of a file, it would have made the same program of the whole file and
left bytes over, and reading a whole file leaves none.
-/

namespace Minilang.Bytecode

open List

/-- There are not enough bytes. -/
def ByteError.isEnd : ByteError → Bool
  | .endOfFile | .truncated => true
  | .overflow | .invalidLength _ | .unknownTag _ => false

/-! ### Readers with more bytes behind -/

variable {n : Nat} {α : Type} {item : Reader α}

section Readers

variable {β : Type}

/-- What follows from the result on some bytes for the result on these and more bytes. -/
def Persists (more : Bytes) (r s : Except ByteError (α × Bytes)) : Prop :=
  match r with
  | .ok (a, rest) => s = .ok (a, rest ++ more)
  | .error e => e.isEnd = true ∨ s = .error e

/-- A reader has the same result if more bytes follow, unless it fails because the bytes end. -/
def Stable (r : Reader α) : Prop :=
  ∀ bytes more, Persists more (r.run bytes) (r.run (bytes ++ more))

namespace Stable

lemma pure (a : α) : Stable (pure a) :=
  fun _ _ => rfl

lemma throw (e : ByteError) : Stable (throw e : Reader α) :=
  fun _ _ => .inr rfl

variable {r : Reader α}

lemma bind {k : α → Reader β} (hr : Stable r) (hk : ∀ a, Stable (k a)) : Stable (r >>= k) := by
  intro bytes more
  have hfirst := hr bytes more
  rw [StateT.run_bind, StateT.run_bind]
  cases hrun : r.run bytes with
  | ok first =>
    rw [hrun] at hfirst
    have hmore : r.run (bytes ++ more) = .ok (first.1, first.2 ++ more) := hfirst
    rw [hmore]
    exact hk first.1 first.2 more
  | error e =>
    rw [hrun] at hfirst
    refine hfirst.imp id fun hmore => ?_
    rw [hmore]
    rfl

lemma map (hr : Stable r) (f : α → β) : Stable (r >>= fun a => Pure.pure (f a)) :=
  hr.bind fun a => .pure (f a)

/-- **A reader that takes all bytes of a file fails on every part of it, because the bytes end.** -/
theorem cut (hr : Stable r) {bytes : Bytes} {a : α} (h : Reads r bytes a)
    (hn : n < bytes.length) : ∃ e, e.isEnd = true ∧ r.run (bytes.take n) = .error e := by
  have hwhole : r.run (bytes.take n ++ bytes.drop n) = .ok (a, []) := by
    simpa using h []
  have hpart := hr (bytes.take n) (bytes.drop n)
  rw [hwhole] at hpart
  cases hrun : r.run (bytes.take n) with
  | ok first =>
    rw [hrun] at hpart
    have hleft : [] = first.2 ++ bytes.drop n := (Prod.mk.inj (Except.ok.inj hpart)).2
    have hdrop : bytes.drop n = [] := (append_eq_nil_iff.mp hleft.symm).2
    exact absurd (drop_eq_nil_iff.mp hdrop) (Nat.not_le.mpr hn)
  | error e =>
    rw [hrun] at hpart
    exact ⟨e, hpart.resolve_right (by simp), rfl⟩

end Stable

end Readers

/-! ### The readers of the format -/

lemma stable_groups (room : Nat) : ∀ shift value : Nat, Stable (readGroups room shift value) := by
  induction room with
  | zero => exact fun _ _ => .throw _
  | succ room ih =>
    intro shift value bytes more
    cases bytes with
    | nil =>
      refine .inl ?_
      split <;> rfl
    | cons b rest =>
      rw [cons_append, run_readGroups_cons, run_readGroups_cons]
      split
      · split
        · exact .inr rfl
        · rfl
      · exact ih _ _ rest more

lemma stable_word : Stable readWord :=
  (stable_groups maxGroups 0 0).map _

lemma stable_int : Stable readInt :=
  stable_word.map _

lemma stable_signed : Stable readSigned :=
  stable_word.map _

lemma stable_byte : Stable readByte := by
  intro bytes more
  cases bytes with
  | nil => exact .inl rfl
  | cons b rest => rfl

lemma run_readBytes (n : Nat) (bytes : Bytes) : (readBytes n).run bytes =
      if (bytes.take n).length = n then .ok (bytes.take n, bytes.drop n)
      else .error (if (bytes.take n).isEmpty then .endOfFile else .truncated) := by
  simp only [readBytes, StateT.run_bind, StateT.run_get, pure_bind]
  split <;> rfl

lemma stable_bytes (n : Nat) : Stable (readBytes n) := by
  intro bytes more
  rw [run_readBytes, run_readBytes]
  by_cases hn : n ≤ bytes.length
  · have hfront : (bytes ++ more).take n = bytes.take n := take_append_of_le_length hn
    have hback : (bytes ++ more).drop n = bytes.drop n ++ more := drop_append_of_le_length hn
    have hlength : (bytes.take n).length = n := length_take_of_le hn
    simp only [hfront, hback, hlength]
    rfl
  · have hshort : (bytes.take n).length ≠ n := by
      rw [length_take]
      omega
    rw [if_neg hshort]
    refine .inl ?_
    split <;> rfl

lemma stable_length : Stable readLength := by
  refine stable_word.bind fun w => ?_
  by_cases h : maxItems < w.toNat
  · rw [if_pos h]
    exact .throw _
  · rw [if_neg h]
    exact .pure _

lemma stable_text : Stable readText :=
  stable_length.bind stable_bytes

lemma stable_items (hitem : Stable item) (n : Nat) :
    ∀ done : Array α, Stable (readItems item n done) := by
  induction n with
  | zero => exact fun done => .pure done
  | succ n ih => exact fun done => hitem.bind fun x => ih (done.push x)

lemma stable_list (hitem : Stable item) : Stable (readList item) :=
  stable_length.bind fun n => stable_items hitem n #[]

lemma stable_const : Stable readConst := by
  refine stable_byte.bind fun tag => ?_
  split
  · exact stable_signed.map _
  · exact (stable_bytes 8).map _
  · exact stable_byte.map _
  · exact stable_text.map _
  · exact stable_text.bind fun _ => stable_int.map _
  · exact .throw _

lemma stable_instruction : Stable readInstruction := by
  refine (stable_bytes 3).bind fun bytes => ?_
  split
  · exact .pure _
  · exact .throw _

lemma stable_pos : Stable readPos :=
  stable_int.bind fun _ => stable_int.bind fun _ => stable_int.map _

lemma stable_span : Stable readSpan :=
  stable_pos.bind fun _ => stable_pos.map _

lemma stable_func : Stable readFunc :=
  stable_text.bind fun _ => stable_int.bind fun _ => stable_int.bind fun _ =>
    (stable_list stable_instruction).bind fun _ => (stable_list stable_span).map _

lemma stable_program : Stable readProgram :=
  (stable_list stable_const).bind fun _ => (stable_list stable_func).bind fun _ => stable_int.map _

/-! ### Cut files -/

/-- The number of bytes before the program in a file: the mark and the version. -/
def headerSize : Nat :=
  mark.length + (putText Version.current).length

/-- Why the first `n` bytes of a file are no file, if the bytes of an item end with `e`. -/
def cutError (n : Nat) (e : ByteError) : DecodeError :=
  if n < mark.length then .notAFile
  else if n < headerSize then .noVersion e
  else .malformed e

variable {check : Bytes → Except Version.Error Unit} {body : Bytes} {e : ByteError}

lemma decode_cut_mark (hn : n < mark.length) (body : Bytes) :
    decodeWith check ((mark ++ body).take n) = .error .notAFile := by
  have hmark : ((mark ++ body).take n).take mark.length ≠ mark := by
    intro h
    have hlength := congrArg length h
    rw [length_take, length_take] at hlength
    omega
  rw [decodeWith, if_pos hmark]

lemma decode_cut_version (hversion : readText.run body = .error e) :
    decodeWith check (mark ++ body) = .error (.noVersion e) := by
  have hmark : (mark ++ body).take mark.length = mark := take_left
  have hbody : (mark ++ body).drop mark.length = body := drop_left
  simp only [decodeWith, hmark, hbody, hversion, ne_eq, not_true, if_false]

lemma decode_cut_program (hcheck : check Version.current = .ok ())
    (hprogram : readProgram.run body = .error e) :
    decodeWith check (mark ++ (putText Version.current ++ body)) = .error (.malformed e) := by
  rw [decodeWith_current hcheck, decodeProgram, hprogram]

/-- **A file that is cut anywhere is refused**, for every check that accepts the version that is
written.  A program that has a place in a file is written, and no part of the file from its front is
read as a program: the error is that of the mark, of the version or of the program, where the file
is cut, and its cause is that the bytes end. -/
theorem decode_cut (hcheck : check Version.current = .ok ()) {p : Program} (hp : Storable p) :
    ∃ bytes, encode p = .ok bytes ∧ ∀ n < bytes.length,
      ∃ e, e.isEnd = true ∧ decodeWith check (bytes.take n) = .error (cutError n e) := by
  obtain ⟨body, hencode, hbody⟩ := encode_parts hp.toStorableParts
  refine ⟨_, hencode, fun n hn => ?_⟩
  rw [List.length_append, List.length_append] at hn
  by_cases hmark : n < mark.length
  · refine ⟨.endOfFile, rfl, ?_⟩
    rw [decode_cut_mark hmark, cutError, if_pos hmark]
  have hheader : headerSize = mark.length + (putText Version.current).length := rfl
  have htake : (mark ++ (putText Version.current ++ body)).take n =
      mark ++ (putText Version.current ++ body).take (n - mark.length) := by
    rw [List.take_append, List.take_of_length_le (by omega)]
  rw [htake]
  by_cases hversion : n < headerSize
  · obtain ⟨e, he, hrun⟩ := stable_text.cut reads_version (n := n - mark.length) (by omega)
    refine ⟨e, he, ?_⟩
    rw [List.take_append_of_le_length (by omega), decode_cut_version hrun, cutError, if_neg hmark,
      if_pos hversion]
  · obtain ⟨e, he, hrun⟩ := stable_program.cut hbody (n := n - headerSize) (by omega)
    refine ⟨e, he, ?_⟩
    rw [List.take_append, List.take_of_length_le (by omega), Nat.sub_sub, ← hheader,
      decode_cut_program hcheck hrun, cutError, if_neg hmark, if_neg hversion]

theorem decode_cut_corners : Version.check Version.current = .ok () ∧ Storable corners ∧
    ∃ bytes, encode corners = .ok bytes ∧ ∀ n < bytes.length,
      ∃ e, e.isEnd = true ∧ decode (bytes.take n) = .error (cutError n e) :=
  have hcheck : Version.check Version.current = .ok () := rfl
  ⟨hcheck, storable_corners, decode_cut hcheck storable_corners⟩

end Minilang.Bytecode
