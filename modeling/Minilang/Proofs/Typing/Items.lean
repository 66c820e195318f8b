import Minilang.Proofs.Tree.Notes

/-!
# Checked trees and their items

What the check of a tree leaves: the tree that was read, with notes, every expression of which has
been checked in the environment of the declarations in sight of it.

What has been checked is stated of the tree in the end (`Checked`).  Its notes have been changed
since its check, but for conversions only, and so the check of an expression, made once more, gives
the same tree without conversions.
-/

namespace Minilang.Typing

open List

/-! ### Checked expressions -/

/-- What the check of an expression depends on, but for the variables in sight. -/
structure Checker where
  context : Context
  infer : Infer
  site : Site

/-- The check of an expression. -/
abbrev Checker.expr (C : Checker) (Γ : Env) (x : Expr Unit) : M (Ty × Expr Note) :=
  checkExpr C.context C.infer C.site Γ x

section Checked

variable (C : Checker) (c : Context) (Γ : Env)

/-- The expression of a checked tree comes from a check in the given environment. -/
def Checked (x : Expr Note) : Prop :=
  ∃ w t x' w', (C.expr Γ x.source).run w = .ok ((t, x'), w') ∧ x'.bare = x.bare

/-- The type that a declaration gives its variable. -/
def GivesType : Binder → Ty → Prop
  | .param type, t => resolve c.names type = .ok t
  | .value none v, t => v.note.type? = some t
  | .value (some type) _, t => resolve c.names type = .ok t
  | .number, t => t = .int
  | .element a, t => a.note.type? = some (.array t)

/-- An item of a checked tree; its variable has the type that `own` gives it. -/
def ItemChecked (own : Nat → Ty) (k : Nat) : Item → Prop
  | .part bound y => Checked C (extend own bound Γ) y
  | .decl _ _ binder => GivesType C.context binder (own k)

/-- Items of a checked tree, the first of which has the index `k`. -/
def ItemsChecked (own : Nat → Ty) (k : Nat) (items : List Item) : Prop :=
  ∀ i item, items[i]? = some item → ItemChecked C Γ own (k + i) item

end Checked

variable {C : Checker} {c : Context} {Γ : Env} {x y : Expr Note} {own : Nat → Ty} {item : Item}
  {t : Ty} {k : Nat}

lemma Checked.congr (hx : Checked C Γ x) (h : x.bare = y.bare) : Checked C Γ y := by
  obtain ⟨w, t, x', w', hrun, hx'⟩ := hx
  rw [Expr.source_congr h] at hrun
  exact ⟨w, t, x', w', hrun, hx'.trans h⟩

lemma Checked.useAs (hx : Checked C Γ x) (t : Ty) : Checked C Γ (useAs t x) :=
  hx.congr (bare_useAs t x).symm

lemma GivesType.congr {binder binder' : Binder} (h : GivesType c binder t)
    (hb : binder.bare = binder'.bare) : GivesType c binder' t := by
  cases binder with
  | param type => cases binder' <;> cases hb; exact h
  | value type v =>
    cases binder' with
    | value type' v' =>
      obtain ⟨rfl, hv⟩ := Binder.value.inj hb
      cases type with
      | none => exact (Expr.type?_congr hv).symm.trans h
      | some type => exact h
    | _ => cases hb
  | number => cases binder' <;> cases hb; exact h
  | element a =>
    cases binder' with
    | element a' => exact (Expr.type?_congr (Binder.element.inj hb)).symm.trans h
    | _ => cases hb

lemma ItemChecked.congr {item' : Item} (h : ItemChecked C Γ own k item)
    (hi : item.bare = item'.bare) : ItemChecked C Γ own k item' := by
  cases item with
  | part bound y =>
    cases item' with
    | part bound' y' =>
      obtain ⟨rfl, hy⟩ := Item.part.inj hi
      exact Checked.congr h hy
    | decl => cases hi
  | decl span name binder =>
    cases item' with
    | part => cases hi
    | decl span' name' binder' => exact GivesType.congr h (Item.decl.inj hi).2.2

lemma ItemsChecked.congr (h : ItemsChecked C Γ own 0 x.items) (hxy : x.bare = y.bare) :
    ItemsChecked C Γ own 0 y.items := by
  intro i item hi
  have hbare : x.items.map Item.bare = y.items.map Item.bare := by
    rw [← Expr.items_bare, hxy, Expr.items_bare]
  have hget : (x.items.map Item.bare)[i]? = some item.bare := by
    rw [hbare, getElem?_map, hi]
    rfl
  rw [getElem?_map] at hget
  obtain ⟨item', hi', heq⟩ := Option.map_eq_some_iff.mp hget
  exact (h i item' hi').congr heq

namespace ItemsChecked

variable {own : Nat → Ty} {items items' : List Item}

lemma nil : ItemsChecked C Γ own k [] :=
  fun _ _ hi => by simp at hi

lemma cons (hitem : ItemChecked C Γ own k item) (h : ItemsChecked C Γ own (k + 1) items) :
    ItemsChecked C Γ own k (item :: items) := by
  intro i item' hi
  cases i with
  | zero =>
    cases hi
    exact hitem
  | succ i =>
    have := h i item' hi
    rwa [Nat.add_assoc, Nat.add_comm 1] at this

lemma append (h : ItemsChecked C Γ own k items)
    (h' : ItemsChecked C Γ own (k + items.length) items') :
    ItemsChecked C Γ own k (items ++ items') := by
  induction items generalizing k with
  | nil => exact h'
  | cons item items ih =>
    refine .cons (h 0 item rfl) (ih (fun i item' hi => ?_) ?_)
    · have := h (i + 1) item' hi
      rwa [Nat.add_comm i, ← Nat.add_assoc] at this
    · rwa [length_cons, ← Nat.add_assoc, Nat.add_right_comm] at h'

lemma parts {bound : List (Bytes × Nat)} {xs : List (Expr Note)}
    (h : ∀ x ∈ xs, Checked C (extend own bound Γ) x) :
    ItemsChecked C Γ own k (xs.map (.part bound)) := by
  intro i item hi
  obtain ⟨x, hx, rfl⟩ := mem_map.mp (mem_of_getElem? hi)
  exact h x hx

end ItemsChecked

/-! ### What a check gives -/

variable {x : Expr Unit} {x' : Expr Note}

/-- A checked expression: the one that was read, with notes, and with checked items. -/
structure Noted (C : Checker) (Γ : Env) (x : Expr Unit) (r : Ty × Expr Note) : Prop where
  type : r.2.note.type? = some r.1
  source : r.2.source = x
  items : ∃ own, ItemsChecked C Γ own 0 r.2.items

lemma Noted.of_parts (htype : x'.note.type? = some t) (hsource : x'.source = x)
    (hitems : x'.items = x'.parts.map (.part []))
    (hparts : ∀ y ∈ x'.parts, Checked C Γ y) : Noted C Γ x (t, x') :=
  ⟨htype, hsource, fun _ => .unit, by rw [hitems]; exact .parts hparts⟩

/-- An expression that has been checked, with its type. -/
structure Passed (C : Checker) (Γ : Env) (x : Expr Unit) (t : Ty) (x' : Expr Note) : Prop where
  type : x'.note.type? = some t
  source : x'.source = x
  checked : Checked C Γ x'

lemma source_useAs (t : Ty) (x : Expr Note) : (useAs t x).source = x.source :=
  Expr.source_congr (bare_useAs t x)

variable {xs : List (Expr Unit)} {xs' : List (Expr Note)}

/-- Expressions that are checked one after the other. -/
structure Listed (C : Checker) (Γ : Env) (xs : List (Expr Unit))
    (xs' : List (Expr Note)) : Prop where
  source : Expr.listMapNotes (fun _ => ()) xs' = xs
  checked : ∀ x ∈ xs', Checked C Γ x

lemma Listed.cons (hsource : x'.source = x) (hx' : Checked C Γ x')
    (h : Listed C Γ xs xs') : Listed C Γ (x :: xs) (x' :: xs') :=
  ⟨by simp [hsource, h.source], forall_mem_cons.mpr ⟨hx', h.checked⟩⟩

lemma Listed.useAs (h : Listed C Γ xs xs') (t : Ty) : Listed C Γ xs (xs'.map (useAs t)) := by
  constructor
  · rw [← h.source, Expr.listMapNotes_eq_map, Expr.listMapNotes_eq_map, map_map]
    exact map_congr_left fun x _ => source_useAs t x
  · rw [forall_mem_map]
    exact fun x hx => (h.checked x hx).useAs t

/-- A checked statement: the one that was read, with notes, and with checked items.  It declares at
most one variable, and `t` is the type of that. -/
structure StmtNoted (C : Checker) (Γ : Env) (z : Stmt Unit)
    (r : Env × Bool × Stmt Note) : Prop where
  source : r.2.2.mapNotes (fun _ => ()) = z
  items : ∃ t, ∀ k bound Γ0 (own : Nat → Ty),
    (∀ i, k ≤ i → i < k + (r.2.2.items k bound).length → own i = t) → Γ = extend own bound Γ0 →
      ItemsChecked C Γ0 own k (r.2.2.items k bound) ∧
        r.1 = extend own (r.2.2.binds k ++ bound) Γ0

variable {z : Stmt Note} {diverges : Bool}

lemma StmtNoted.of_parts {z0 : Stmt Unit} (hsource : z.mapNotes (fun _ => ()) = z0)
    (xs : List (Expr Note)) (hitems : ∀ k bound, z.items k bound = xs.map (.part bound))
    (hbinds : ∀ k, z.binds k = []) (hxs : ∀ x ∈ xs, Checked C Γ x) :
    StmtNoted C Γ z0 (Γ, diverges, z) := by
  refine ⟨hsource, .unit, fun k bound Γ0 own _ henv => ?_⟩
  rw [hitems, hbinds]
  subst henv
  exact ⟨.parts hxs, rfl⟩

end Minilang.Typing
