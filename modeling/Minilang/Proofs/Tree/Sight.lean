import Minilang.Typing.Note
import Mathlib.Tactic.Common

/-!
# Declarations in sight

Which declaration a name stands for, told from a checked tree alone.

The items of an expression are its parts, in the order in which they are evaluated, and the
variables that it declares.  Only blocks declare variables: a `let` for the statements after it and
the value of the block, a loop for its body.  A function literal has no parts, as its body belongs
to a function of its own, and neither has what only names a builtin function or a variant.

A declaration is given by the items that lead to its block and by its own index among the items of
the block.  An expression has declarations in sight, the innermost first.
-/

namespace Minilang

open List

/-- The value of a field. -/
def FieldValue.value {α : Type} : FieldValue α → Expr α
  | .mk _ _ x => x

/-- How a variable is declared. -/
inductive Binder where
  | param (type : TypeExpr)
  /-- A `let` with the type that is written. -/
  | value (type : Option TypeExpr) (v : Expr Note)
  /-- The variable of a loop over integers. -/
  | number
  /-- The variable of a loop over the elements of an array. -/
  | element (array : Expr Note)

/-- What an expression consists of. -/
inductive Item where
  /-- A part; `bound` has the variables of the expression that the part sees, the latest first, with
  their indices among the items. -/
  | part (bound : List (Bytes × Nat)) (x : Expr Note)
  /-- A variable.  Its first value comes from the code at `span`. -/
  | decl (span : Span) (name : Bytes) (binder : Binder)

/-! ### Items -/

variable {x : Expr Note} {params : List Param} {body : Block Note} {k : Nat}

/-- The items of a statement after `k` others, with the variables in sight before it. -/
def Stmt.items (k : Nat) (bound : List (Bytes × Nat)) : Stmt Note → List Item
  | .letVar s x type v => [.part bound v, .decl s x.text (.value type v)]
  | .ret _ none => []
  | .ret _ (some v) => [.part bound v]
  | .loop _ test b => [.part bound test, .part bound (.block b)]
  | .forRange _ x a z b =>
    [.part bound a, .part bound z, .decl x.span x.text .number,
      .part ((x.text, k + 2) :: bound) (.block b)]
  | .forEach _ x a b =>
    [.part bound a, .decl x.span x.text (.element a), .part ((x.text, k + 1) :: bound) (.block b)]
  | .expr x => [.part bound x]

/-- The variable that a statement declares for what follows it. -/
def Stmt.binds (k : Nat) : Stmt Note → List (Bytes × Nat)
  | .letVar _ x _ _ => [(x.text, k + 1)]
  | _ => []

/-- The items of statements. -/
def stmtsItems (k : Nat) (bound : List (Bytes × Nat)) : List (Stmt Note) → List Item
  | [] => []
  | s :: ss => s.items k bound ++ stmtsItems (k + (s.items k bound).length) (s.binds k ++ bound) ss

/-- What is bound after statements. -/
def boundAfter (k : Nat) (bound : List (Bytes × Nat)) : List (Stmt Note) → List (Bytes × Nat)
  | [] => bound
  | s :: ss => boundAfter (k + (s.items k bound).length) (s.binds k ++ bound) ss

/-- The parts of the left side of an assignment. -/
def Expr.targetParts : Expr Note → List (Expr Note)
  | .field _ _ x _ => [x]
  | .index _ _ x i => [x, i]
  | _ => []

/-- The parts of an expression other than a block, which all see the same variables. -/
def Expr.parts : Expr Note → List (Expr Note)
  | .lit .. | .var .. | .lambda .. | .block _ => []
  | .binary _ _ _ x y => [x, y]
  | .unary _ _ _ x => [x]
  | .call _ n callee args =>
    match n.role with
    | .plain => callee :: args
    | _ => args
  | .cond _ _ test t e => test :: .block t :: e.toList
  | .assign _ _ target v => target.targetParts ++ [v]
  | .field _ n x _ =>
    match n.role with
    | .variant _ => []
    | _ => [x]
  | .array _ _ es => es
  | .index _ _ x i => [x, i]
  | .struct _ _ _ fs => fs.map FieldValue.value

/-- The items of an expression. -/
def Expr.items : Expr Note → List Item
  | .block (.mk _ _ ss v) => stmtsItems 0 [] ss ++ v.toList.map (.part (boundAfter 0 [] ss))
  | x => x.parts.map (.part [])

lemma Expr.items_eq_parts (h : ∀ b, x ≠ .block b) : x.items = x.parts.map (.part []) := by
  cases x with
  | block b => exact absurd rfl (h b)
  | _ => rfl

/-- The items of a function: its parameters and its body. -/
def functionItems (params : List Param) (body : Block Note) : List Item :=
  params.map (fun p => .decl p.span p.name.text (.param p.type)) ++
    [.part (params.zipIdx.map fun (p, i) => (p.name.text, i)).reverse (.block body)]

lemma getElem?_functionItems {item : Item} (h : (functionItems params body)[k]? = some item) :
    (∃ p, params[k]? = some p ∧ item = .decl p.span p.name.text (.param p.type)) ∨
      k = params.length ∧
        item = .part (params.zipIdx.map fun (p, i) => (p.name.text, i)).reverse (.block body) := by
  rw [functionItems, getElem?_append] at h
  split at h
  · rw [getElem?_map] at h
    obtain ⟨p, hp, rfl⟩ := Option.map_eq_some_iff.mp h
    exact .inl ⟨p, hp, rfl⟩
  · rename_i hk
    rw [length_map] at h hk
    obtain ⟨hlt, heq⟩ := List.getElem?_eq_some_iff.mp h
    rw [length_singleton] at hlt
    refine .inr ⟨by omega, ?_⟩
    rw [← heq, getElem_singleton]

/-! ### Parts are smaller -/

variable {bound bound' : List (Bytes × Nat)} {y : Expr Note} {ss : List (Stmt Note)}

lemma Stmt.sizeOf_part {s : Stmt Note} (h : .part bound' y ∈ s.items k bound) :
    sizeOf y < sizeOf s + 1 := by
  cases s with
  | ret s v =>
    cases v <;> simp [items] at h
    grind
  | _ => simp [items] at h; grind

lemma sizeOf_stmtsItems (h : .part bound' y ∈ stmtsItems k bound ss) : sizeOf y < sizeOf ss := by
  induction ss generalizing k bound with
  | nil => cases h
  | cons s ss ih =>
    rw [stmtsItems, mem_append] at h
    rcases h with h | h
    · have := Stmt.sizeOf_part h
      grind
    · have := ih h
      grind

lemma Expr.sizeOf_targetParts (h : y ∈ x.targetParts) : sizeOf y < sizeOf x := by
  cases x <;> simp [targetParts] at h <;> grind

lemma Expr.sizeOf_parts (h : y ∈ x.parts) : sizeOf y < sizeOf x := by
  have hargs : ∀ {xs}, y ∈ xs → sizeOf y < sizeOf xs :=
    sizeOf_lt_of_mem
  cases x with
  | call s n callee args =>
    simp only [parts] at h
    split at h
    · rcases mem_cons.mp h with rfl | h
      · grind
      · grind [hargs h]
    · grind [hargs h]
  | cond s n test t e =>
    cases e <;> simp [parts] at h <;> grind
  | assign s n target v =>
    rcases mem_append.mp h with h | h
    · grind [sizeOf_targetParts h]
    · grind
  | field s n x name =>
    simp only [parts] at h
    split at h <;> grind
  | array s n es => grind [parts]
  | struct s n type fs =>
    obtain ⟨⟨s, name, x⟩, hf, rfl⟩ := mem_map.mp h
    have := sizeOf_lt_of_mem hf
    grind [FieldValue.value]
  | _ => simp [parts] at h <;> grind

lemma Expr.sizeOf_part (h : .part bound y ∈ x.items) : sizeOf y < sizeOf x := by
  unfold items at h
  split at h
  · rcases mem_append.mp h with h | h
    · have := sizeOf_stmtsItems h
      grind
    · obtain ⟨y', hy, ⟨⟩⟩ := mem_map.mp h
      grind
  · obtain ⟨y', hy, ⟨⟩⟩ := mem_map.mp h
    exact sizeOf_parts hy

/-- What holds of an expression whenever it holds of its parts holds of every expression. -/
theorem Expr.induction_parts {P : Expr Note → Prop}
    (h : ∀ x : Expr Note, (∀ bound y, .part bound y ∈ x.items → P y) → P x) (x : Expr Note) : P x :=
  h x fun _ y _ => induction_parts h y
termination_by sizeOf x
decreasing_by exact sizeOf_part ‹_›

/-! ### Declarations in sight -/

/-- A variable of a function. -/
structure Declaration where
  /-- The items that lead to the block that declares it. -/
  inside : List Nat
  /-- Its own index among the items. -/
  index : Nat
  deriving DecidableEq, Repr

/-- The item that a declaration is in. -/
def Declaration.item : Declaration → Nat
  | ⟨[], i⟩ => i
  | ⟨k :: _, _⟩ => k

/-- The declaration seen from outside of an item. -/
def Declaration.under (k : Nat) (d : Declaration) : Declaration :=
  ⟨k :: d.inside, d.index⟩

/-- The declarations in sight, by their names. -/
abbrev Sight := List (Bytes × Declaration)

namespace Sight

/-- Variables that are declared by the items themselves. -/
def own (bound : List (Bytes × Nat)) : Sight :=
  bound.map fun b => (b.1, ⟨[], b.2⟩)

/-- The same declarations seen from outside of an item. -/
def under (k : Nat) (S : Sight) : Sight :=
  S.map fun b => (b.1, b.2.under k)

/-- The environment in which every variable has what its declaration gives it. -/
def env {δ : Type} (S : Sight) (f : Declaration → δ) : List (Bytes × δ) :=
  S.map fun b => (b.1, f b.2)

end Sight

/-- An expression stands among items or in a part of them, and sees the given variables. -/
inductive Stands : List Item → Sight → Expr Note → Prop where
  | part {items : List Item} {k : Nat} {bound : List (Bytes × Nat)} {y : Expr Note}
    (hk : items[k]? = some (.part bound y)) : Stands items (.own bound) y
  | inside {items : List Item} {k : Nat} {bound : List (Bytes × Nat)} {y z : Expr Note} {S : Sight}
    (hk : items[k]? = some (.part bound y)) (hz : Stands y.items S z) :
    Stands items (S.under k ++ .own bound) z

/-- A variable is declared among items or in a part of them. -/
inductive Declares : List Item → Declaration → Span → Bytes → Binder → Prop where
  | own {items k span name binder}
    (hk : items[k]? = some (.decl span name binder)) : Declares items ⟨[], k⟩ span name binder
  | inside {items k bound y d span name binder}
    (hk : items[k]? = some (.part bound y)) (hd : Declares y.items d span name binder) :
    Declares items (d.under k) span name binder

/-- There is such a declaration. -/
def Declared (items : List Item) (d : Declaration) : Prop :=
  ∃ span name binder, Declares items d span name binder

/-- The environment inside of an expression, where variables of its own are in sight. -/
abbrev extend {δ : Type} (own : Nat → δ) (bound : List (Bytes × Nat)) (env : List (Bytes × δ)) :
    List (Bytes × δ) :=
  bound.map (fun b => (b.1, own b.2)) ++ env

/-- What declarations give, from what the items give themselves and what is given inside of each. -/
def joined {δ : Type} (own : Nat → δ) (inner : Nat → Declaration → δ) : Declaration → δ
  | ⟨[], i⟩ => own i
  | ⟨k :: inside, i⟩ => inner k ⟨inside, i⟩

section Environments

variable {δ : Type} (own : Nat → δ) (inner : Nat → Declaration → δ)

lemma Sight.env_own (bound : List (Bytes × Nat)) :
    (Sight.own bound).env (joined own inner) = bound.map fun b => (b.1, own b.2) := by
  simp [Sight.own, env, joined]

lemma Sight.env_under (k : Nat) (S : Sight) :
    (S.under k).env (joined own inner) = S.env (inner k) := by
  simp [under, env, joined, Declaration.under]

lemma Sight.env_append (S S' : Sight) (f : Declaration → δ) :
    (S ++ S').env f = S.env f ++ S'.env f :=
  map_append

lemma Sight.lookup_env (S : Sight) (f : Declaration → δ) (x : Bytes) :
    (S.env f).lookup x = (S.lookup x).map f := by
  induction S with
  | nil => rfl
  | cons b S ih =>
    obtain ⟨y, d⟩ := b
    by_cases h : x = y
    · subst h
      simp [env]
    · have h' : (x == y) = false := by simpa using h
      simpa [env, lookup_cons, h'] using ih

end Environments

/-! ### The names of declarations -/

variable {items : List Item}

/-- The items declare variables under their names at their indices. -/
def Named (items : List Item) (bound : List (Bytes × Nat)) : Prop :=
  ∀ b ∈ bound, ∃ span binder, items[b.2]? = some (.decl span b.1 binder)

lemma Named.append (h : Named items bound) (rest : List Item) : Named (items ++ rest) bound := by
  intro b hb
  obtain ⟨span, binder, hget⟩ := h b hb
  have hlt := (List.getElem?_eq_some_iff.mp hget).1
  exact ⟨span, binder, by rw [getElem?_append_left hlt, hget]⟩

lemma Named.cons {x : Bytes} (h : Named items bound) (span : Span) (binder : Binder)
    (hk : items[k]? = some (.decl span x binder)) : Named items ((x, k) :: bound) := by
  rintro b (_ | ⟨_, hb⟩)
  · exact ⟨span, binder, hk⟩
  · exact h b hb

section Statements

variable {done : List Item}

variable (h : Named done bound)

include h

lemma Stmt.named_binds (s : Stmt Note) :
    Named (done ++ s.items done.length bound) (s.binds done.length ++ bound) := by
  cases s with
  | letVar s x type v => exact (h.append _).cons s (.value type v) (by simp [items])
  | _ => exact h.append _

lemma Stmt.named_part (s : Stmt Note) (hy : .part bound' y ∈ s.items done.length bound) :
    Named (done ++ s.items done.length bound) bound' := by
  cases s with
  | ret s v =>
    cases v <;> simp [items] at hy
    obtain ⟨rfl, rfl⟩ := hy
    exact h.append _
  | forRange s x a z b =>
    simp only [items, mem_cons, reduceCtorEq, not_mem_nil, or_false, false_or] at hy
    rcases hy with ⟨rfl, rfl⟩ | ⟨rfl, rfl⟩ | ⟨rfl, rfl⟩
    · exact h.append _
    · exact h.append _
    · exact (h.append _).cons x.span .number (by simp [items])
  | forEach s x a b =>
    simp only [items, mem_cons, reduceCtorEq, not_mem_nil, or_false, false_or] at hy
    rcases hy with ⟨rfl, rfl⟩ | ⟨rfl, rfl⟩
    · exact h.append _
    · exact (h.append _).cons x.span (.element a) (by simp [items])
  | loop s test b =>
    simp only [items, mem_cons, not_mem_nil, or_false] at hy
    rcases hy with ⟨rfl, rfl⟩ | ⟨rfl, rfl⟩ <;> exact h.append _
  | letVar _ _ _ _ | expr _ =>
    simp only [items, mem_cons, reduceCtorEq, not_mem_nil, or_false] at hy
    obtain ⟨rfl, rfl⟩ := hy
    exact h.append _

lemma named_stmtsItems (hy : .part bound' y ∈ stmtsItems done.length bound ss) :
    Named (done ++ stmtsItems done.length bound ss) bound' := by
  induction ss generalizing done bound with
  | nil => cases hy
  | cons s ss ih =>
    rw [stmtsItems] at hy ⊢
    rw [← append_assoc]
    rcases mem_append.mp hy with hy | hy
    · exact (s.named_part h hy).append _
    · rw [← length_append] at hy ⊢
      exact ih (s.named_binds h) hy

lemma named_boundAfter :
    Named (done ++ stmtsItems done.length bound ss) (boundAfter done.length bound ss) := by
  induction ss generalizing done bound with
  | nil => exact h.append []
  | cons s ss ih =>
    rw [stmtsItems, boundAfter, ← append_assoc, ← length_append]
    exact ih (s.named_binds h)

end Statements

lemma Expr.named_part (hy : .part bound y ∈ x.items) : Named x.items bound := by
  have hnone : Named [] [] := by simp [Named]
  unfold items at hy ⊢
  split at hy
  · rcases mem_append.mp hy with hy | hy
    · exact (named_stmtsItems hnone hy).append _
    · obtain ⟨y', -, ⟨⟩⟩ := mem_map.mp hy
      exact (named_boundAfter hnone).append _
  · obtain ⟨y', -, ⟨⟩⟩ := mem_map.mp hy
    simp [Named]

lemma named_functionItems (hy : .part bound y ∈ functionItems params body) :
    Named (functionItems params body) bound := by
  obtain ⟨rfl, rfl⟩ : bound = _ ∧ y = _ := by simpa [functionItems] using hy
  intro b hb
  obtain ⟨⟨p, i⟩, hp, rfl⟩ := mem_map.mp (mem_reverse.mp hb)
  have hget : params[i]? = some p := by simpa using mem_zipIdx_iff_getElem?.mp hp
  have hlt := (List.getElem?_eq_some_iff.mp hget).1
  rw [functionItems, getElem?_append_left (by simpa using hlt)]
  simp [hget]

/-- **The variables in sight of an expression are declared under their names.** -/
theorem Stands.declares (hitems : ∀ bound y, .part bound y ∈ items → Named items bound) {S : Sight}
    {z : Expr Note} (hz : Stands items S z) {x : Bytes} {d : Declaration} (hx : (x, d) ∈ S) :
    ∃ span binder, Declares items d span x binder := by
  have hown : ∀ {items bound d},
      Named items bound → (x, d) ∈ Sight.own bound →
      ∃ span binder, Declares items d span x binder := by
    intro items bound d hbound hx
    obtain ⟨b, hb, ⟨⟩⟩ := mem_map.mp hx
    obtain ⟨span, binder, hget⟩ := hbound b hb
    exact ⟨span, binder, .own hget⟩
  induction hz generalizing d with
  | part hk => exact hown (hitems _ _ (mem_of_getElem? hk)) hx
  | inside hk hz ih =>
    rcases mem_append.mp hx with hx | hx
    · obtain ⟨⟨x', d'⟩, hd', ⟨⟩⟩ := mem_map.mp hx
      obtain ⟨span, binder, hd⟩ := ih (fun _ _ => Expr.named_part) hd'
      exact ⟨span, binder, .inside hk hd⟩
    · exact hown (hitems _ _ (mem_of_getElem? hk)) hx

/-! ### The functions of a program -/

/-- A function that is declared, under its name, or a function literal in another function. -/
inductive FunctionOf (p : Program Note) : Option Bytes → List Param → Block Note → Prop where
  | declared {f} (hf : f ∈ p.funcs) :
    FunctionOf p (some f.name.text) f.params f.body
  | literal {name? params ps body b S s n result} (hf : FunctionOf p name? params body)
    (hz : Stands (functionItems params body) S (.lambda s n ps result b)) : FunctionOf p none ps b

end Minilang
