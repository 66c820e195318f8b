import Minilang.Tree.Node
import Mathlib.Order.Basic
import Mathlib.Data.Int.Order.Basic

/-!
# Outlines of trees

The spans of a tree as a tree of their own, and what it means that they are nested.
-/

namespace Minilang

open List

/-- The span of a node, and the outlines of its parts. -/
inductive Outline where
  | node (span : Span) (parts : List Outline)

variable {α : Type}

/-- The span of a name. -/
def Name.outline (n : Name) : List Outline :=
  [.node n.span []]

mutual

/-- The spans of a type. -/
def TypeExpr.outline : TypeExpr → List Outline
  | .named s _ => [.node s []]
  | .array s elem => [.node s elem.outline]
  | .func s params none => [.node s (TypeExpr.listOutline params)]
  | .func s params (some r) => [.node s (TypeExpr.listOutline params ++ r.outline)]

/-- The spans of types. -/
def TypeExpr.listOutline : List TypeExpr → List Outline
  | [] => []
  | t :: ts => t.outline ++ TypeExpr.listOutline ts

end

/-- The spans of a type that may be absent. -/
def TypeExpr.optOutline (t : Option TypeExpr) : List Outline :=
  t.elim [] TypeExpr.outline

/-- The spans of a parameter. -/
def Param.outline (p : Param) : List Outline :=
  [.node p.span (p.name.outline ++ p.type.outline)]

mutual

/-- The spans of an expression. -/
def Expr.outline : Expr α → List Outline
  | .lit s _ _ | .var s _ _ => [.node s []]
  | .binary s _ _ x y | .assign s _ x y | .index s _ x y => [.node s (x.outline ++ y.outline)]
  | .unary s _ _ x => [.node s x.outline]
  | .call s _ callee args => [.node s (callee.outline ++ Expr.listOutline args)]
  | .cond s _ test t none => [.node s (test.outline ++ t.outline)]
  | .cond s _ test t (some e) => [.node s (test.outline ++ t.outline ++ e.outline)]
  | .block b => b.outline
  | .field s _ x name => [.node s (x.outline ++ name.outline)]
  | .array s _ elems => [.node s (Expr.listOutline elems)]
  | .lambda s _ params result body =>
    [.node s (params.flatMap Param.outline ++ TypeExpr.optOutline result ++ body.outline)]
  | .struct s _ type fields => [.node s (type.outline ++ FieldValue.listOutline fields)]

/-- The spans of expressions. -/
def Expr.listOutline : List (Expr α) → List Outline
  | [] => []
  | x :: xs => x.outline ++ Expr.listOutline xs

/-- The spans of fields. -/
def FieldValue.listOutline : List (FieldValue α) → List Outline
  | [] => []
  | .mk s name value :: fs => .node s (name.outline ++ value.outline) :: FieldValue.listOutline fs

/-- The spans of a block. -/
def Block.outline : Block α → List Outline
  | .mk s _ stmts none => [.node s (Stmt.listOutline stmts)]
  | .mk s _ stmts (some v) => [.node s (Stmt.listOutline stmts ++ v.outline)]

/-- The spans of a statement. -/
def Stmt.outline : Stmt α → List Outline
  | .letVar s name type value =>
    [.node s (name.outline ++ TypeExpr.optOutline type ++ value.outline)]
  | .ret s none => [.node s []]
  | .ret s (some v) => [.node s v.outline]
  | .loop s test body => [.node s (test.outline ++ body.outline)]
  | .forRange s name start stop body =>
    [.node s (name.outline ++ start.outline ++ stop.outline ++ body.outline)]
  | .forEach s name array body => [.node s (name.outline ++ array.outline ++ body.outline)]
  | .expr x => [.node x.span x.outline]

/-- The spans of statements. -/
def Stmt.listOutline : List (Stmt α) → List Outline
  | [] => []
  | s :: ss => s.outline ++ Stmt.listOutline ss

end

/-- The spans of a field. -/
def FieldValue.outline : FieldValue α → List Outline
  | .mk s name value => [.node s (name.outline ++ value.outline)]

/-- The spans of a variant. -/
def VariantDecl.outline (v : VariantDecl) : List Outline :=
  [.node v.span (v.name.outline ++ TypeExpr.listOutline v.payload)]

/-- The spans of a declaration. -/
def Decl.outline : Decl α → List Outline
  | .func f =>
    [.node f.span (f.name.outline ++
      (f.params.flatMap Param.outline ++ TypeExpr.optOutline f.result) ++ f.body.outline)]
  | .struct s name fields => [.node s (name.outline ++ fields.flatMap Param.outline)]
  | .enum s name variants => [.node s (name.outline ++ variants.flatMap VariantDecl.outline)]
  | .alias s name type => [.node s (name.outline ++ type.outline)]

/-- The spans of a program. -/
def Program.outline (p : Program α) : List Outline :=
  [.node p.span (p.decls.flatMap Decl.outline)]

lemma Expr.outline_eq (x : Expr α) : ∃ parts, x.outline = [.node x.span parts] := by
  cases x with
  | block b =>
    obtain ⟨s, n, ss, _ | v⟩ := b <;> simp [outline, Block.outline, span, Block.span]
  | cond s n test t e => cases e <;> simp [outline, span]
  | _ => simp [outline, span]

lemma TypeExpr.listOutline_eq (ts : List TypeExpr) : listOutline ts = ts.flatMap outline := by
  induction ts with
  | nil => rfl
  | cons t ts ih => rw [listOutline, ih, flatMap_cons]

lemma Expr.listOutline_eq (xs : List (Expr α)) : listOutline xs = xs.flatMap outline := by
  induction xs with
  | nil => rfl
  | cons x xs ih => rw [listOutline, ih, flatMap_cons]

lemma FieldValue.listOutline_eq (fs : List (FieldValue α)) :
    listOutline fs = fs.flatMap outline := by
  induction fs with
  | nil => rfl
  | cons f fs ih =>
    cases f
    rw [listOutline, ih]
    rfl

lemma Stmt.listOutline_eq (ss : List (Stmt α)) : listOutline ss = ss.flatMap outline := by
  induction ss with
  | nil => rfl
  | cons s ss ih => rw [listOutline, ih, flatMap_cons]

/-! ### Nodes -/

namespace Outline

/-- The span of the root. -/
def span : Outline → Span
  | .node s _ => s

/-- The outlines below the root. -/
def parts : Outline → List Outline
  | .node _ parts => parts

mutual

/-- All outlines in an outline, each before those of its parts. -/
def all : Outline → List Outline
  | .node s parts => .node s parts :: listAll parts

/-- All outlines in some. -/
def listAll : List Outline → List Outline
  | [] => []
  | o :: os => o.all ++ listAll os

end

@[simp]
lemma listAll_append (os os' : List Outline) : listAll (os ++ os') = listAll os ++ listAll os' := by
  induction os with
  | nil => rfl
  | cons o os ih => rw [cons_append, listAll, listAll, ih, append_assoc]

lemma listAll_flatMap {β : Type} (f : β → List Outline) (xs : List β) :
    listAll (xs.flatMap f) = xs.flatMap fun x => listAll (f x) := by
  induction xs with
  | nil => rfl
  | cons x xs ih => rw [flatMap_cons, flatMap_cons, listAll_append, ih]

/-! The outline has the nodes of the tree, in their order. -/

section Nodes

attribute [local simp] all listAll span Node.plain Node.noted Name.node Name.outline
  listAll_flatMap map_flatMap

lemma spans_typeExpr : (∀ t : TypeExpr, (listAll t.outline).map span = (t.nodes (α := α)).map
      Node.span) ∧
    ∀ ts, (listAll (TypeExpr.listOutline ts)).map span = (TypeExpr.listNodes (α := α) ts).map
    Node.span := by
  apply TypeExpr.outline.mutual_induct <;> intros <;>
    simp_all [TypeExpr.outline, TypeExpr.listOutline, TypeExpr.nodes, TypeExpr.listNodes]

lemma spans_optType (t : Option TypeExpr) :
    (listAll (TypeExpr.optOutline t)).map span = (TypeExpr.optNodes (α := α) t).map Node.span := by
  cases t with
  | none => rfl
  | some t => exact spans_typeExpr.1 t

lemma spans_param (kind : NodeKind) (p : Param) :
    (listAll p.outline).map span = (p.nodes (α := α) kind).map Node.span := by
  simpa [Param.outline, Param.nodes] using spans_typeExpr.1 p.type

lemma spans_expr : (∀ x : Expr α, (listAll x.outline).map span = x.nodes.map Node.span) ∧
    (∀ fs : List (FieldValue α), (listAll (FieldValue.listOutline fs)).map span =
      (FieldValue.listNodes fs).map Node.span) ∧
    (∀ b : Block α, (listAll b.outline).map span = b.nodes.map Node.span) ∧
    (∀ ss : List (Stmt α), (listAll (Stmt.listOutline ss)).map span = (Stmt.listNodes ss).map
      Node.span) ∧
    (∀ s : Stmt α, (listAll s.outline).map span = s.nodes.map Node.span) ∧
    ∀ xs : List (Expr α), (listAll (Expr.listOutline xs)).map span =
    (Expr.listNodes xs).map Node.span := by
  apply Expr.outline.mutual_induct <;> intros <;>
    simp_all [Expr.outline, Expr.listOutline, FieldValue.listOutline, Block.outline, Stmt.outline,
      Stmt.listOutline, Expr.nodes, Expr.listNodes, FieldValue.listNodes, Block.nodes, Stmt.nodes,
      Stmt.listNodes, spans_optType (α := α), spans_param (α := α) .param]

lemma spans_decl (d : Decl α) : (listAll d.outline).map span = d.nodes.map Node.span := by
  cases d with
  | struct s name fields => simp [Decl.outline, Decl.nodes, spans_param (α := α) .field]
  | _ =>
    simp [Decl.outline, Decl.nodes, FuncDecl.nodes, VariantDecl.outline, VariantDecl.nodes,
      spans_typeExpr (α := α), spans_optType (α := α), spans_param (α := α) .param,
      spans_expr.2.2.1]

lemma spans_program (p : Program α) : (listAll p.outline).map span = p.nodes.map Node.span := by
  simp [Program.outline, Program.nodes, spans_decl]

end Nodes

/-! ### Nesting -/

mutual

/-- A node that begins and ends with some of the given pieces, and its parts inside, one after the
other. -/
def Nested (pieces : List Span) : Outline → Prop
  | .node s parts => (∃ p ∈ pieces, p.first = s.first) ∧ (∃ p ∈ pieces, p.last = s.last) ∧
      s.first.offset ≤ s.last.offset ∧ Fits pieces (s.first.offset - 1) s.last.offset parts

/-- Nested outlines one after the other, behind one offset and up to another. -/
def Fits (pieces : List Span) (lo hi : Int) : List Outline → Prop
  | [] => lo ≤ hi
  | o :: os => lo < o.span.first.offset ∧ o.Nested pieces ∧ Fits pieces o.span.last.offset hi os

end

variable {pieces : List Span} {lo lo' mid hi hi' : Int} {o : Outline} {os os' : List Outline}

lemma Nested.forward (h : o.Nested pieces) : o.span.first.offset ≤ o.span.last.offset := by
  cases o
  exact h.2.2.1

namespace Fits

lemma le (h : Fits pieces lo hi os) : lo ≤ hi := by
  induction os generalizing lo with
  | nil => exact h
  | cons o os ih =>
    obtain ⟨hlo, ho, hos⟩ := h
    have := ho.forward
    have := ih hos
    omega

lemma mono (h : Fits pieces lo hi os) (hlo : lo' ≤ lo) (hhi : hi ≤ hi') :
    Fits pieces lo' hi' os := by
  induction os generalizing lo lo' with
  | nil => exact (hlo.trans h).trans hhi
  | cons o os ih => exact ⟨hlo.trans_lt h.1, h.2.1, ih h.2.2 le_rfl⟩

lemma append (h : Fits pieces lo mid os) (h' : Fits pieces mid hi os') :
    Fits pieces lo hi (os ++ os') := by
  induction os generalizing lo with
  | nil => exact h'.mono h le_rfl
  | cons o os ih => exact ⟨h.1, h.2.1, ih h.2.2⟩

lemma node {s : Span} (hfirst : ∃ p ∈ pieces, p.first = s.first)
    (hlast : ∃ p ∈ pieces, p.last = s.last)
    (hs : s.first.offset ≤ s.last.offset) (hos : Fits pieces (s.first.offset - 1) s.last.offset os)
    (hlo : lo < s.first.offset) (hhi : s.last.offset ≤ hi) : Fits pieces lo hi [.node s os] :=
  ⟨hlo, ⟨hfirst, hlast, hs, hos⟩, hhi⟩

lemma parts (h : Fits pieces lo hi os) :
    (∀ o ∈ os, lo < o.span.first.offset ∧ o.span.last.offset ≤ hi) ∧
    os.Pairwise fun o o' => o.span.last.offset < o'.span.first.offset := by
  induction os generalizing lo with
  | nil => simp
  | cons o os ih =>
    obtain ⟨hlo, ho, hos⟩ := h
    obtain ⟨hparts, hpairs⟩ := ih hos
    have := ho.forward
    refine ⟨forall_mem_cons.mpr ⟨⟨hlo, hos.le⟩, fun o' ho' => ⟨?_, (hparts o' ho').2⟩⟩, ?_⟩
    · exact hlo.trans_le (this.trans (hparts o' ho').1.le)
    · exact pairwise_cons.mpr ⟨fun o' ho' => (hparts o' ho').1, hpairs⟩

lemma of_mem_all : (∀ o : Outline, o.Nested pieces → ∀ o' ∈ o.all, o'.Nested pieces ∧
      o.span.first.offset ≤ o'.span.first.offset ∧ o'.span.last.offset ≤ o.span.last.offset) ∧
    ∀ os lo hi, Fits pieces lo hi os → ∀ o' ∈ listAll os, o'.Nested pieces ∧
      lo < o'.span.first.offset ∧ o'.span.last.offset ≤ hi := by
  refine all.mutual_induct _ _ ?_ ?_ ?_
  · intro s parts ih h o' ho'
    rcases mem_cons.mp ho' with rfl | ho'
    · exact ⟨h, le_rfl, le_rfl⟩
    · obtain ⟨hnested, hfirst, hlast⟩ := ih _ _ h.2.2.2 o' ho'
      exact ⟨hnested, Int.sub_one_lt_iff.mp hfirst, hlast⟩
  · intro lo hi _ o' ho'
    cases ho'
  · intro o os ih ihs lo hi h o' ho'
    have := h.2.1.forward
    rcases mem_append.mp ho' with ho' | ho'
    · obtain ⟨hnested, hfirst, hlast⟩ := ih h.2.1 o' ho'
      exact ⟨hnested, h.1.trans_le hfirst, hlast.trans h.2.2.le⟩
    · obtain ⟨hnested, hfirst, hlast⟩ := ihs _ _ h.2.2 o' ho'
      exact ⟨hnested, h.1.trans (this.trans_lt hfirst), hlast⟩

end Fits

end Outline

end Minilang
