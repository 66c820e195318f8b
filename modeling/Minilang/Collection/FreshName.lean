import Minilang.Text.Decimal

/-!
# Fresh names

A counter of names.  Each name ends with a dot and a number that no other name of the counter ends
with.
-/

namespace Minilang

/-- A source of names, which knows how many it has given. -/
structure FreshName where
  count : Nat
  deriving DecidableEq, Repr, Inhabited

namespace FreshName

def start : FreshName := ⟨0⟩

def next (c : FreshName) (stem : Bytes) : Bytes × FreshName :=
  (Bytes.concat [stem, ".", Decimal.ofNat c.count], ⟨c.count + 1⟩)

end FreshName

end Minilang
