import Minilang.Expectations
import Mathlib.Tactic.Common

/-!
# Which test programs make sense

The lines of a test program are read one after the other, and what is found is kept in a state that
also says whether the expected output goes on.  In the end the program makes sense exactly if it has
a directive, none of them twice, none for an error without a text, and none for an error beside
another one; and then what is expected can be told from its lines at once (`parse_eq_ok_iff`).
-/

namespace Minilang.Expectations

/-! ### What lines say -/

/-- The texts of the directives of a kind. -/
@[simp] def texts (d : Directive) : List Line → List Bytes
  | [] => []
  | .directive d' t :: ls => if d' = d then t :: texts d ls else texts d ls
  | .code :: ls | .comment _ :: ls => texts d ls

/-- The comments that lines begin with, each ended by a newline. -/
@[simp] def comments : List Line → Bytes
  | .comment t :: ls => t ++ Bytes.newline :: comments ls
  | [] | .code :: _ | .directive _ _ :: _ => []

/-- The comments directly behind the first directive for the output. -/
@[simp] def printed : List Line → Option Bytes
  | .directive .output _ :: ls => some (comments ls)
  | .directive .want _ :: ls | .directive .error _ :: ls | .code :: ls | .comment _ :: ls =>
    printed ls
  | [] => none

variable (ls : List Line)

/-- The expectations that the lines state. -/
def expected : Expectations :=
  ⟨(texts .want ls).head?, printed ls, (texts .error ls).head?⟩

variable {s s' : State} {l : Line} {ls : List Line} {number : Nat}

/-- While the output is read there is some. -/
def State.Valid (s : State) : Prop :=
  s.inOutput → s.found.output?.isSome

/-- The directive has been found. -/
@[simp] def State.has (s : State) : Directive → Bool
  | .want => s.found.want?.isSome
  | .error => s.found.error?.isSome
  | .output => s.found.output?.isSome

/-- Lines that may follow what has been found. -/
def State.Admits (s : State) (ls : List Line) : Prop :=
  (∀ d, (texts d ls).length + (s.has d).toNat ≤ 1) ∧ [] ∉ texts .error ls

/-- What is found when these lines follow. -/
def State.after (s : State) (ls : List Line) : Expectations :=
  ⟨s.found.want?.or (texts .want ls).head?,
    (if s.inOutput then s.found.output?.map (· ++ comments ls) else s.found.output?).or
    (printed ls), s.found.error?.or (texts .error ls).head?⟩

/-- Nothing is found at first. -/
def start : State :=
  ⟨⟨none, none, none⟩, false⟩

end Minilang.Expectations
