import Minilang.Proofs.Tree.Sight
import Minilang.Typing.Body

/-!
# Trees with other notes

The check of a tree gives every expression a note, and some notes change once more when it is known
how a value is used: the conversion of an integer to a float is added.  So a checked tree is looked
at in two ways: as it was read, without any notes (`Expr.source`), and without the conversions
(`Expr.bare`).
-/

namespace Minilang

variable {α β γ : Type} (x : Expr Note) (f : α → β) (k : Nat) (bound : List (Bytes × Nat))

mutual

/-- The expression with other notes. -/
def Expr.mapNotes (f : α → β) : Expr α → Expr β
  | .lit s n v => .lit s (f n) v
  | .var s n x => .var s (f n) x
  | .binary s n op x y => .binary s (f n) op (x.mapNotes f) (y.mapNotes f)
  | .unary s n op x => .unary s (f n) op (x.mapNotes f)
  | .call s n callee args => .call s (f n) (callee.mapNotes f) (Expr.listMapNotes f args)
  | .cond s n test t none => .cond s (f n) (test.mapNotes f) (t.mapNotes f) none
  | .cond s n test t (some e) =>
    .cond s (f n) (test.mapNotes f) (t.mapNotes f) (some (e.mapNotes f))
  | .block b => .block (b.mapNotes f)
  | .assign s n target v => .assign s (f n) (target.mapNotes f) (v.mapNotes f)
  | .field s n x name => .field s (f n) (x.mapNotes f) name
  | .array s n es => .array s (f n) (Expr.listMapNotes f es)
  | .index s n x i => .index s (f n) (x.mapNotes f) (i.mapNotes f)
  | .lambda s n params result body => .lambda s (f n) params result (body.mapNotes f)
  | .struct s n type fs => .struct s (f n) type (FieldValue.listMapNotes f fs)

/-- Expressions with other notes. -/
def Expr.listMapNotes (f : α → β) : List (Expr α) → List (Expr β)
  | [] => []
  | x :: xs => x.mapNotes f :: Expr.listMapNotes f xs

/-- Fields with other notes. -/
def FieldValue.listMapNotes (f : α → β) : List (FieldValue α) → List (FieldValue β)
  | [] => []
  | .mk s name x :: fs => .mk s name (x.mapNotes f) :: FieldValue.listMapNotes f fs

/-- The block with other notes. -/
def Block.mapNotes (f : α → β) : Block α → Block β
  | .mk s n ss none => .mk s (f n) (Stmt.listMapNotes f ss) none
  | .mk s n ss (some v) => .mk s (f n) (Stmt.listMapNotes f ss) (some (v.mapNotes f))

/-- The statement with other notes. -/
def Stmt.mapNotes (f : α → β) : Stmt α → Stmt β
  | .letVar s x type v => .letVar s x type (v.mapNotes f)
  | .ret s none => .ret s none
  | .ret s (some v) => .ret s (some (v.mapNotes f))
  | .loop s test b => .loop s (test.mapNotes f) (b.mapNotes f)
  | .forRange s x a z b => .forRange s x (a.mapNotes f) (z.mapNotes f) (b.mapNotes f)
  | .forEach s x a b => .forEach s x (a.mapNotes f) (b.mapNotes f)
  | .expr x => .expr (x.mapNotes f)

/-- Statements with other notes. -/
def Stmt.listMapNotes (f : α → β) : List (Stmt α) → List (Stmt β)
  | [] => []
  | s :: ss => s.mapNotes f :: Stmt.listMapNotes f ss

end

attribute [simp] Expr.mapNotes Expr.listMapNotes FieldValue.listMapNotes
  Block.mapNotes Stmt.mapNotes
  Stmt.listMapNotes

lemma Expr.listMapNotes_eq_map (xs : List (Expr α)) : listMapNotes f xs = xs.map (mapNotes f) := by
  induction xs with
  | nil => rfl
  | cons x xs ih => simp [ih]

lemma Expr.note_mapNotes (x : Expr α) : (x.mapNotes f).note = f x.note := by
  cases x with
  | cond s n test t e => cases e <;> rfl
  | block b =>
    obtain ⟨s, n, ss, v⟩ := b
    cases v <;> rfl
  | _ => rfl

section Composition

variable (f : α → β) (g : β → γ)

mutual

theorem Expr.mapNotes_mapNotes (x : Expr α) : (x.mapNotes f).mapNotes g = x.mapNotes (g ∘ f) := by
  cases x with
  | cond _ _ _ _ e => cases e <;> simp [Expr.mapNotes_mapNotes, Block.mapNotes_mapNotes]
  | _ => simp [Expr.mapNotes_mapNotes, Expr.listMapNotes_listMapNotes, Block.mapNotes_mapNotes,
      FieldValue.listMapNotes_listMapNotes]

theorem Expr.listMapNotes_listMapNotes (xs : List (Expr α)) :
    Expr.listMapNotes g (Expr.listMapNotes f xs) = Expr.listMapNotes (g ∘ f) xs := by
  cases xs <;> simp [Expr.mapNotes_mapNotes, Expr.listMapNotes_listMapNotes]

theorem FieldValue.listMapNotes_listMapNotes : ∀ fs : List (FieldValue α),
    FieldValue.listMapNotes g (FieldValue.listMapNotes f fs) = FieldValue.listMapNotes (g ∘ f) fs
  | [] => rfl
  | .mk _ _ x :: fs => by simp [x.mapNotes_mapNotes, FieldValue.listMapNotes_listMapNotes fs]

theorem Block.mapNotes_mapNotes : ∀ b : Block α, (b.mapNotes f).mapNotes g = b.mapNotes (g ∘ f)
  | .mk _ _ ss v => by
    cases v <;> simp [Stmt.listMapNotes_listMapNotes ss, Expr.mapNotes_mapNotes]

theorem Stmt.mapNotes_mapNotes (s : Stmt α) : (s.mapNotes f).mapNotes g = s.mapNotes (g ∘ f) := by
  cases s with
  | ret _ v => cases v <;> simp [Expr.mapNotes_mapNotes]
  | _ => simp [Expr.mapNotes_mapNotes, Block.mapNotes_mapNotes]

theorem Stmt.listMapNotes_listMapNotes (ss : List (Stmt α)) :
    Stmt.listMapNotes g (Stmt.listMapNotes f ss) = Stmt.listMapNotes (g ∘ f) ss := by
  cases ss <;> simp [Stmt.mapNotes_mapNotes, Stmt.listMapNotes_listMapNotes]

end

end Composition

/-! ### Conversions -/

/-- The note without its conversion. -/
def Note.bare (n : Note) : Note := { n with widen := false }

/-- The expression without conversions. -/
abbrev Expr.bare : Expr Note := x.mapNotes Note.bare

/-- The expression without notes. -/
abbrev Expr.source : Expr Unit := x.mapNotes fun _ => ()

/-- The block without conversions. -/
abbrev Block.bare (b : Block Note) : Block Note := b.mapNotes Note.bare

/-- The block without notes. -/
abbrev Block.source (b : Block Note) : Block Unit := b.mapNotes fun _ => ()

lemma Expr.source_bare : x.bare.source = x.source :=
  x.mapNotes_mapNotes _ _

/-- Expressions that are the same but for conversions were read as the same expression. -/
theorem Expr.source_congr {x y : Expr Note} (h : x.bare = y.bare) : x.source = y.source := by
  rw [← x.source_bare, h, y.source_bare]

lemma Expr.type?_congr {x y : Expr Note} (h : x.bare = y.bare) : x.note.type? = y.note.type? := by
  have hnotes : x.bare.note = y.bare.note := by rw [h]
  rw [note_mapNotes, note_mapNotes] at hnotes
  exact (Note.mk.inj hnotes).1

namespace Typing

lemma bare_useNote (t : Ty) (n : Note) : (useNote t n).bare = n.bare := by
  unfold useNote
  split
  · split <;> rfl
  · rfl

lemma bare_modifyNoteBlock (t : Ty) (b : Block Note) :
    (b.modifyNote (useNote t)).bare = b.bare := by
  obtain ⟨s, n, ss, v⟩ := b
  cases v <;> simp [Block.modifyNote, bare_useNote]

lemma bare_useAs (t : Ty) (x : Expr Note) : (useAs t x).bare = x.bare := by
  cases x with
  | cond s n test b e => cases e <;> simp [useAs, Expr.modifyNote, bare_useNote]
  | block b => simp [useAs, Expr.modifyNote, bare_modifyNoteBlock]
  | _ => simp [useAs, Expr.modifyNote, bare_useNote]

mutual

theorem bare_useReturns (r : Ty) (x : Expr Note) : (useReturns r x).bare = x.bare := by
  cases x with
  | cond _ _ _ _ e => cases e <;> simp [useReturns, bare_useReturns, bare_useReturnsBlock]
  | _ => simp [useReturns, bare_useReturns, bare_useReturnsAll, bare_useReturnsFields,
      bare_useReturnsBlock]

theorem bare_useReturnsAll (r : Ty) (xs : List (Expr Note)) :
    Expr.listMapNotes Note.bare (useReturnsAll r xs) = Expr.listMapNotes Note.bare xs := by
  cases xs <;> simp [useReturnsAll, bare_useReturns, bare_useReturnsAll]

theorem bare_useReturnsFields (r : Ty) : ∀ fs : List (FieldValue Note),
    FieldValue.listMapNotes Note.bare (useReturnsFields r fs) = FieldValue.listMapNotes Note.bare fs
  | [] => rfl
  | .mk _ _ x :: fs => by simp [useReturnsFields, bare_useReturns r x, bare_useReturnsFields r fs]

theorem bare_useReturnsBlock (r : Ty) : ∀ b : Block Note, (useReturnsBlock r b).bare = b.bare
  | .mk _ _ ss v => by
    cases v <;> simp [useReturnsBlock, bare_useReturnsStmts r ss, bare_useReturns]

theorem bare_useReturnsStmt (r : Ty) (s : Stmt Note) :
    (useReturnsStmt r s).mapNotes Note.bare = s.mapNotes Note.bare := by
  cases s with
  | ret _ v => cases v <;> simp [useReturnsStmt, bare_useAs, bare_useReturns]
  | _ => simp [useReturnsStmt, bare_useReturns, bare_useReturnsBlock]

theorem bare_useReturnsStmts (r : Ty) (ss : List (Stmt Note)) :
    Stmt.listMapNotes Note.bare (useReturnsStmts r ss) = Stmt.listMapNotes Note.bare ss := by
  cases ss <;> simp [useReturnsStmts, bare_useReturnsStmt, bare_useReturnsStmts]

end

end Typing

/-! ### The items of a tree without conversions -/

/-- How a variable is declared, without conversions. -/
def Binder.bare : Binder → Binder
  | .param type => .param type
  | .value type v => .value type v.bare
  | .number => .number
  | .element a => .element a.bare

/-- The item without conversions. -/
def Item.bare : Item → Item
  | .part bound x => .part bound x.bare
  | .decl span name binder => .decl span name binder.bare

lemma Stmt.items_bare (s : Stmt Note) :
    (s.mapNotes Note.bare).items k bound = (s.items k bound).map Item.bare := by
  cases s with
  | ret s v => cases v <;> rfl
  | _ => rfl

lemma Stmt.binds_mapNotes (s : Stmt Note) : (s.mapNotes Note.bare).binds k = s.binds k := by
  cases s with
  | ret s v => cases v <;> rfl
  | _ => rfl

lemma stmtsItems_bare (ss : List (Stmt Note)) :
    stmtsItems k bound (Stmt.listMapNotes Note.bare ss) =
    (stmtsItems k bound ss).map Item.bare := by
  induction ss generalizing k bound with
  | nil => rfl
  | cons s ss ih =>
    simp [stmtsItems, Stmt.items_bare, Stmt.binds_mapNotes, ih]

lemma boundAfter_bare (ss : List (Stmt Note)) :
    boundAfter k bound (Stmt.listMapNotes Note.bare ss) = boundAfter k bound ss := by
  induction ss generalizing k bound with
  | nil => rfl
  | cons s ss ih =>
    simp [boundAfter, Stmt.items_bare, Stmt.binds_mapNotes, ih]

lemma Expr.targetParts_bare : x.bare.targetParts = x.targetParts.map bare := by
  cases x with
  | cond s n test t e => cases e <;> rfl
  | _ => rfl

lemma FieldValue.map_value_listMapNotes (fs : List (FieldValue α)) : (listMapNotes f fs).map value =
      (fs.map value).map (Expr.mapNotes f) := by
  induction fs with
  | nil => rfl
  | cons x fs ih =>
    obtain ⟨s, name, x⟩ := x
    simp [value, ih]

lemma Expr.parts_bare : x.bare.parts = x.parts.map bare := by
  cases x with
  | call s n callee args =>
    obtain ⟨type?, widen, role⟩ := n
    cases role <;> simp [parts, Note.bare, listMapNotes_eq_map]
  | cond s n test t e => cases e <;> rfl
  | assign s n target v => simp [parts, targetParts_bare]
  | field s n x name =>
    obtain ⟨type?, widen, role⟩ := n
    cases role <;> rfl
  | array s n es => simp [parts, listMapNotes_eq_map]
  | struct s n type fs => simp [parts, FieldValue.map_value_listMapNotes]
  | _ => rfl

lemma Expr.items_bare : x.bare.items = x.items.map Item.bare := by
  by_cases hx : ∀ b, x ≠ .block b
  · have hbare : ∀ b, x.bare ≠ .block b := by
      intro b hb
      cases x with
      | block b' => exact hx b' rfl
      | cond s n test t e => cases e <;> cases hb
      | _ => cases hb
    rw [items_eq_parts hx, items_eq_parts hbare, parts_bare, List.map_map, List.map_map]
    rfl
  · obtain ⟨⟨s, n, ss, v⟩, rfl⟩ : ∃ b, x = .block b := by simpa using hx
    cases v <;> simp [items, stmtsItems_bare, boundAfter_bare, Item.bare]

end Minilang
