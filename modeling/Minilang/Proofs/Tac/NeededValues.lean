import Minilang.Proofs.Tac.LoweredCode
import Minilang.Proofs.Tac.LoweredProgram
import Minilang.Proofs.Typing.Checked

/-!
# What a checked program may lack

A checked program may use an expression that has no value where a value is needed, and then it has
no code.  This is all that a checked program may lack: it has code if no expression is `missing`,
and otherwise the lowering fails at the first of them (`lower_checked`).
-/

namespace Minilang

open List

namespace Tac

lemma lowerFuncs_checked {tree : Minilang.Program Unit} {package : Package}
    (hcheck : Typing.checkProgram tree = .ok package) :
    match Lowering.lowerFuncs package.lowering [] package.program.funcs with
    | .ok _ => package.missing = []
    | .error e => Lowering.Fails package.missing e := by
  obtain ⟨bs, sig, hsig, -, -, -, htyped⟩ := Typing.checkProgram_typed hcheck
  have hdecls := htyped (fun span name => (span, name) ∈ package.selectors) fun _ h => h
  exact Lowering.lowerFuncs_lacks hdecls (.ofDecls hdecls hsig) []

/-- **A checked program has code, unless a value that it needs is missing.**  Then the lowering
fails at the first expression without a value, and it fails for no other reason. -/
theorem lower_checked {tree : Minilang.Program Unit} {package : Package}
    (hcheck : Typing.checkProgram tree = .ok package) :
    match package.missing with
    | [] => ∃ p, lower package = .ok p
    | y :: _ => ∃ func, lower package = .error (.rejected ⟨y.span, func, .noValue y.text⟩) := by
  have hlacks := lowerFuncs_checked hcheck
  rw [lower, lowerWith_eq]
  cases hfs : Lowering.lowerFuncs package.lowering [] package.program.funcs with
  | ok fs =>
    rw [hfs] at hlacks
    rw [show package.missing = [] from hlacks]
    exact ⟨⟨fs⟩, rfl⟩
  | error e =>
    rw [hfs] at hlacks
    obtain ⟨y, rest, func, hmissing, rfl⟩ := hlacks
    rw [hmissing]
    exact ⟨func, rfl⟩

/-- A program with a loop, a function literal and blocks that return early. -/
def searching : Bytes :=
  "fn first(xs: [int], p: fn(int) -> bool) -> int \x7b
    for x in xs \x7b if p(x) \x7b return x; \x7d \x7d
    let none: int = if len(xs) == 0 \x7b return 0 \x7d else \x7b -1 \x7d;
    none
  \x7d
  fn main() -> int \x7b first([1, 2, 3], fn(n: int) -> bool \x7b n > 1 \x7d) \x7d"

/-- The values that `searching` needs are there. -/
theorem lower_checked_searching : ∃ tree package p, parse searching = .ok tree ∧
    Typing.checkProgram tree = .ok package ∧ package.missing = [] ∧ lower package = .ok p := by
  obtain ⟨tree, package, htree, hcheck, hmissing⟩ :=
    @Package.of_any_ofText? searching (fun package => package.missing.isEmpty) (by decide +kernel)
  have hlower := lower_checked hcheck
  rw [List.isEmpty_iff.mp hmissing] at hlower
  obtain ⟨p, hp⟩ := hlower
  exact ⟨tree, package, p, htree, hcheck, List.isEmpty_iff.mp hmissing, hp⟩

/-- A program that needs the value of a block that returns early. -/
def returning : Bytes :=
  "fn main() -> int \x7b let x: int = \x7b return 1; \x7d; x \x7d"

/-- **A checked program may have no code.**  The block of `returning` is checked to have any type,
and it has no value. -/
theorem lower_returning : ∃ tree package span, parse returning = .ok tree ∧
    Typing.checkProgram tree = .ok package ∧
    lower package = .error (.rejected ⟨span, "main", .noValue "(block (return 1))"⟩) := by
  obtain ⟨tree, package, htree, hcheck, hlower⟩ := @Package.of_any_ofText? returning (fun package =>
    match lower package with
    | .error (.rejected ⟨_, func, .noValue text⟩) => func = "main" ∧ text = "(block (return 1))"
    | _ => false) (by decide +kernel)
  split at hlower
  · rename_i span func text herror
    obtain ⟨rfl, rfl⟩ := of_decide_eq_true hlower
    exact ⟨tree, package, span, htree, hcheck, herror⟩
  · cases hlower

end Tac

end Minilang
