import Minilang.Proofs.Tree.Writing
import Minilang.Tree.Parser

/-!
# Values up to their places

Two runs of the parser are compared either exactly or up to places.
-/

namespace Minilang

/-- Values that may have places in them, and what they are without. -/
class Unplace (β : Type) where
  unplaced : β → β

section Instances

variable {β γ : Type}

instance : Unplace Bool := ⟨id⟩
instance : Unplace Span := ⟨fun _ => .none⟩
instance : Unplace (Located β) := ⟨fun l => ⟨.none, l.val⟩⟩
instance : Unplace Name := ⟨Name.unplaced⟩
instance : Unplace TypeExpr := ⟨TypeExpr.unplaced⟩
instance : Unplace Param := ⟨Param.unplaced⟩
instance : Unplace (Expr Unit) := ⟨Expr.unplaced⟩
instance : Unplace (Block Unit) := ⟨Block.unplaced⟩
instance : Unplace (Stmt Unit) := ⟨Stmt.unplaced⟩
instance : Unplace (FieldValue Unit) := ⟨FieldValue.unplaced⟩
instance : Unplace VariantDecl := ⟨VariantDecl.unplaced⟩
instance : Unplace (Decl Unit) := ⟨Decl.unplaced⟩
instance : Unplace (Program Unit) := ⟨Program.unplaced⟩
instance [Unplace β] : Unplace (Option β) := ⟨Option.map Unplace.unplaced⟩
instance [Unplace β] : Unplace (List β) := ⟨List.map Unplace.unplaced⟩
instance [Unplace β] [Unplace γ] :
    Unplace (β × γ) := ⟨fun x => (Unplace.unplaced x.1, Unplace.unplaced x.2)⟩

instance : Unplace Parser.Item where
  unplaced
    | .finish value => .finish (value.map Expr.unplaced)
    | .stmt s => .stmt s.unplaced
    | .skip => .skip

end Instances

/-- The same value up to places and, if the comparison is exact, the same value. -/
def Alike {β : Type} [Unplace β] (exact : Bool) (x y : β) : Prop :=
  Unplace.unplaced x = Unplace.unplaced y ∧ (exact = true → x = y)

variable {β : Type} [Unplace β] {exact : Bool}

namespace Alike

lemma refl {x : β} : Alike exact x x :=
  ⟨rfl, fun _ => rfl⟩

lemma ret {s s' : Span} {x x' : Option (Expr Unit)} (hs : Alike exact s s')
    (hx : Alike exact x x') : Alike exact (Stmt.ret s x) (.ret s' x') := by
  cases x <;> cases x' <;> simp_all +contextual [Alike, Unplace.unplaced, Stmt.unplaced]

variable {x y : Expr Unit}

lemma isTarget (h : Alike exact x y) : x.isTarget = y.isTarget := by
  rw [← Expr.isTarget_unplaced x, ← Expr.isTarget_unplaced y]
  exact congrArg Expr.isTarget h.1

lemma isBlockLike (h : Alike exact x y) : x.isBlockLike = y.isBlockLike := by
  rw [← Expr.isBlockLike_unplaced x, ← Expr.isBlockLike_unplaced y]
  exact congrArg Expr.isBlockLike h.1

end Alike

end Minilang
