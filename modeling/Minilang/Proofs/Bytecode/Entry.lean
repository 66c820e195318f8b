import Minilang.Machine.Run
import Minilang.Proofs.Bytecode.Files

/-!
# The entry of a program that is read from a file

A file has the number of the function that begins the program as an unsigned word, and the word is
taken for a signed number before it is compared with the number of functions.  So an entry is never
too large, but one from the upper half of the words is negative and passes
(`decode_negative_entry`).  The machine refuses to start such a program, and no other one for its
entry (`entry_of_decode`).
-/

namespace Minilang

/-- The fault of a program that has no function of the number of its entry. -/
def Machine.entryFault (entry : Int) : Fault :=
  ⟨.invalidOpcode, [], 0, .none,
    Bytes.concat ["entry function ", Decimal.ofInt entry, " out of range"]⟩

namespace Bytecode

variable {p : Program} {cap : Int} {check : Bytes → Except Version.Error Unit}

lemma start_of_neg (h : p.entry < 0) :
    Machine.start p cap = .error (Machine.entryFault p.entry) := by
  rw [Machine.start, if_pos h]
  rfl

lemma start_of_func {f : Func} (h : 0 ≤ p.entry) (hf : p.funcs[p.entry.toNat]? = some f) :
    Machine.start p cap ≠ .error (Machine.entryFault p.entry) := by
  rw [Machine.start, if_neg (Int.not_lt.mpr h), hf]
  simp only []
  split <;> simp [Machine.entryFault]

/-- **A program from a file has an entry below the number of its functions**, whatever versions are
accepted.  The entry is the number of a function unless it is negative, and then, and only then, the
machine fails to start the program since its entry is out of range. -/
theorem entry_of_decode {bytes : Bytes} (h : decodeWith check bytes = .ok p) :
    p.entry < p.funcs.size ∧
      (0 ≤ p.entry → ∃ (k : Nat) (f : Func), p.entry = k ∧ p.funcs[k]? = some f) ∧
      ∀ cap, Machine.start p cap = .error (Machine.entryFault p.entry) ↔ p.entry < 0 := by
  have hlt : p.entry < p.funcs.size := (storable_of_decode h).1.entry_lt
  have hfunc (h0 : 0 ≤ p.entry) : ∃ f, p.funcs[p.entry.toNat]? = some f :=
    ⟨_, Array.getElem?_eq_getElem (by omega)⟩
  refine ⟨hlt, fun h0 => ?_, fun cap => ⟨fun hstart => ?_, start_of_neg⟩⟩
  · obtain ⟨f, hf⟩ := hfunc h0
    exact ⟨p.entry.toNat, f, (Int.toNat_of_nonneg h0).symm, hf⟩
  · by_contra h0
    obtain ⟨f, hf⟩ := hfunc (Int.not_lt.mp h0)
    exact start_of_func (Int.not_lt.mp h0) hf hstart

/-- A file with one function, and the largest word for its entry. -/
def negativeEntry : Bytes :=
  mark ++ (putText Version.current ++ ([0] ++ [1, 4, 109, 97, 105, 110, 0, 0, 0, 0] ++
    [255, 255, 255, 255, 255, 255, 255, 255, 255, 1]))

/-- **A file may have a negative entry.**  Every check that accepts the version of the file lets it
through, and there is such a check: the file is read, and the program cannot be run. -/
theorem decode_negative_entry :
    (∀ check : Bytes → Except Version.Error Unit, check Version.current = .ok () →
      ∃ p, decodeWith check negativeEntry = .ok p ∧ p.entry = -1 ∧
        ∀ cap tracing steps,
          (Machine.run p cap tracing steps).outcome = .failed (Machine.entryFault (-1))) ∧
    Version.check Version.current = .ok () := by
  refine ⟨fun check hcheck => ?_, rfl⟩
  rw [negativeEntry, decodeWith_current hcheck]
  exact ⟨_, rfl, rfl, fun _ _ _ => rfl⟩

theorem entry_of_decode_negative : ∃ p, decode negativeEntry = .ok p ∧ p.entry < p.funcs.size ∧
    (0 ≤ p.entry → ∃ (k : Nat) (f : Func), p.entry = k ∧ p.funcs[k]? = some f) ∧
    ∀ cap, Machine.start p cap = .error (Machine.entryFault p.entry) ↔ p.entry < 0 :=
  ⟨_, rfl, entry_of_decode (show decodeWith Version.check negativeEntry = .ok _ from rfl)⟩

end Bytecode

end Minilang
