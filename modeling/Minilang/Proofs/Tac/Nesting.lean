import Minilang.Proofs.Tac.Arrangement
import Minilang.Proofs.Tac.Segments

/-!
# Segments at all depths

In the code of a function the code of every expression and statement, at any depth, is a closed
segment: its jumps stay inside, since they do so in its own lowering, and the jumps around it go to
labels with other numbers (`Arranged.closed`).  The body of a function literal is the code of a
function of its own, for which the same holds.

So what is to be shown of all expressions and statements of a program is a property of one segment
and its parts.  It holds throughout the program if it follows from the arrangement of the segment
(`lowerWith_throughout`).
-/

namespace Minilang.Tac

open List

variable {α : Type} {p : Program}

namespace Lowering

variable {c : Context α} {func : Bytes}

/-! ### Closed segments -/

variable {pre last post g : Code} {x y : Chunk α} {parts before after : Parts α} {st : State}

/-- What holds of the labels and the jumps of a chunk. -/
structure Chunk.Labelled (x : Chunk α) : Prop where
  le : x.before.labels.count ≤ x.after.labels.count
  numbered : ∀ l ∈ labelsOf x.code, Numbered (newLabels x.before x.after) l
  jumps : ∀ i ∈ x.code, ∀ l, i.val.target? = some l → l ∈ labelsOf x.code

lemma Chunk.Made.extent (hx : x.Made c func) (henv : Sighted x.env x.before) :
    ∃ S W, Extent func S x.before x.after W x.code := by
  obtain ⟨node, env, st, code, value?, st'⟩ := x
  cases node with
  | expr e => exact ⟨_, _, ((exprMade c e henv.inSight).ok hx).extent⟩
  | stmt s =>
    obtain ⟨-, env', hrun⟩ := hx
    exact ⟨_, _, ((stmtMade c s henv.inSight).ok hrun).extent⟩

lemma Chunk.Made.grown (hx : x.Made c func) (henv : Sighted x.env x.before) :
    Grown func x.before x.after := by
  obtain ⟨S, W, h⟩ := hx.extent henv
  exact h.grown

lemma Chunk.Made.labelled (hx : x.Made c func) (henv : Sighted x.env x.before) : x.Labelled := by
  obtain ⟨S, W, h⟩ := hx.extent henv
  exact ⟨h.grown.labels, h.piece.numbered, fun i hi l hl =>
    (h.piece.jumps i hi l hl).resolve_right (Set.notMem_empty l)⟩

namespace Assembled

variable {J : Set Bytes} {st' : State}

lemma grown (h : Assembled c func J st parts st') : Grown func st st' := by
  induction h with
  | nil hst => exact hst
  | cons _ hst made sighted _ _ ih => exact hst.trans ((made.grown sighted).trans ih)

lemma split (h : Assembled c func J st (before ++ (g, y) :: after) st') :
    Assembled c func J st before y.before ∧ Glue J g ∧ y.Made c func ∧ Sighted y.env y.before ∧
      (∀ l ∈ J, ¬Numbered (newLabels y.before y.after) l) ∧
      Assembled c func J y.after after st' := by
  induction before generalizing st with
  | nil =>
    cases h with
    | cons hg hst made sighted fresh h => exact ⟨.nil hst, hg, made, sighted, fresh, h⟩
  | cons q before ih =>
    cases h with
    | cons hg hst made sighted fresh h =>
      obtain ⟨hbefore, hy⟩ := ih h
      exact ⟨.cons hg hst made sighted fresh hbefore, hy⟩

lemma targets (h : Assembled c func J st parts st') : ∀ i ∈ flat parts, ∀ l,
    i.val.target? = some l → l ∈ J ∨ Numbered (newLabels st st') l := by
  induction h with
  | nil => exact fun i hi => absurd hi not_mem_nil
  | @cons st st' g y parts hg hst made sighted fresh h ih =>
    intro i hi l hl
    have hy := made.labelled sighted
    rw [flat_cons, mem_append, mem_append] at hi
    rcases hi with (hi | hi) | hi
    · exact .inl ((hg i hi).2 l hl)
    · obtain ⟨stem, k, hk, heq⟩ := hy.numbered l (hy.jumps i hi l hl)
      exact .inr ⟨stem, k, ⟨hst.labels.trans hk.1, hk.2.trans_le h.grown.labels⟩, heq⟩
    · refine (ih i hi l hl).imp_right ?_
      rintro ⟨stem, k, hk, heq⟩
      exact ⟨stem, k, ⟨(hst.labels.trans hy.le).trans hk.1, hk.2⟩, heq⟩

end Assembled

/-- **A part of a closed segment is a closed segment.** -/
theorem Arranged.closed (h : Arranged c func x parts last)
    (hparts : parts = before ++ (g, y) :: after) (hx : Closed pre x.code post) :
    Closed (pre ++ flat before ++ g) y.code (flat after ++ last ++ post) := by
  subst hparts
  obtain ⟨J, hassembled, hlast⟩ := h.assembled
  obtain ⟨hbefore, hg, made, sighted, fresh, hafter⟩ := hassembled.split
  have hy := made.labelled sighted
  refine ⟨hy.jumps, fun i hi l hl hmem => ?_⟩
  have hnumbered := hy.numbered l hmem
  have hJ : l ∉ J := fun hl => fresh l hl hnumbered
  have hcode : l ∈ labelsOf x.code := by
    rw [h.code_eq, flat_append, flat_cons]
    simp only [labelsOf_append, mem_append]
    tauto
  have houtside : i ∈ pre ++ post → False := fun hi => hx.outside i hi l hl hcode
  -- Labels with different numbers are different.
  have hdisjoint : ∀ {st st'}, Numbered (newLabels st st') l →
      st'.labels.count ≤ y.before.labels.count ∨
      y.after.labels.count ≤ st.labels.count → False := by
    intro st st' hl' hle
    obtain ⟨k, hk, hk'⟩ := hl'.disjoint hnumbered
    have := hk.1
    have := hk.2
    have := hk'.1
    have := hk'.2
    omega
  simp only [mem_append] at hi houtside
  rcases hi with ((hi | hi) | hi) | ((hi | hi) | hi)
  · exact houtside (.inl hi)
  · exact (hbefore.targets i hi l hl).elim hJ fun h => hdisjoint h (.inl (le_refl _))
  · exact hJ ((hg i hi).2 l hl)
  · exact (hafter.targets i hi l hl).elim hJ fun h => hdisjoint h (.inr (le_refl _))
  · exact hJ ((hlast i hi).2 l hl)
  · exact houtside (.inr hi)

lemma Arranged.segment {f : Func} (h : Arranged c func x parts last)
    (hparts : parts = before ++ (g, y) :: after) (hx : Segment f pre x.code post) :
    Segment f (pre ++ flat before ++ g) y.code (flat after ++ last ++ post) where
  body := by
    rw [hx.body, h.code_eq, hparts]
    simp
  labels := hx.labels
  closed := h.closed hparts hx.closed

/-! ### Parts are smaller -/

/-- The size of the tree. -/
noncomputable def Node.size : Node α → Nat
  | .expr x => sizeOf x
  | .stmt s => sizeOf s

lemma Chunk.induction_parts {P : Chunk α → Prop}
    (h : ∀ x : Chunk α, (∀ y : Chunk α, y.node.size < x.node.size → P y) → P x) (x : Chunk α) :
    P x :=
  h x fun y _ => induction_parts h y
termination_by x.node.size

/-! ### The functions made on the way -/

lemma Arranged.nested (h : Arranged c func x parts last)
    (hparts : parts = before ++ (g, y) :: after) : y.after.nested ⊆ x.after.nested := by
  subst hparts
  obtain ⟨J, hassembled, -⟩ := h.assembled
  obtain ⟨-, -, -, -, -, hafter⟩ := hassembled.split
  exact hafter.grown.subset

/-! ### All expressions and statements of a program -/

variable {P : Func → Code → Chunk α → Parts α → Code → Code → Prop}

/-- What is known of a segment of a chunk. -/
structure Placed (c : Context α) (p : Program) (f : Func) (pre : Code) (x : Chunk α) (post : Code) :
    Prop where
  mem : f ∈ p.funcs
  made : x.Made c f.name
  sighted : Sighted x.env x.before
  segment : Segment f pre x.code post
  nested : x.after.nested ⊆ p.funcs

lemma Placed.body (hlabels : ∀ f ∈ p.funcs, (labelsOf f.body).Nodup) {name : Bytes}
    {params : List Param} {b : Block α} {l : Lowered}
    (hrun : (lowerBlock c name (paramEnv params) b).run (.start params.length) = .ok (l, st))
    (hsub : assemble name params b.span l st ⊆ p.funcs) :
    ∃ f ∈ p.funcs, f.name = name ∧ Placed c p f []
      (.ofExpr (.block b) (paramEnv params) (.start params.length) l st)
      [⟨b.span, .ret l.value?⟩] := by
  obtain ⟨hf, hnested⟩ := cons_subset.mp hsub
  have henv := Sighted.params params
  refine ⟨_, hf, rfl, hf, hrun, henv, ⟨rfl, hlabels _ hf, ?_, ?_⟩, ?_⟩
  · exact (Chunk.Made.labelled (x := .ofExpr (.block b) _ _ l st) hrun henv).jumps
  · intro i hi l' hl'
    rw [nil_append, mem_singleton] at hi
    rw [hi] at hl'
    cases hl'
  · exact fun g hg => hnested (mem_reverse.mpr hg)

lemma lowerFuncs_mem {fs : List Func} {decls : List (FuncDecl α)}
    (h : lowerFuncs c [] decls = .ok fs) : ∀ f ∈ decls, ∃ l st,
      (lowerBlock c f.name.text (paramEnv f.params) f.body).run (.start f.params.length) =
      .ok (l, st) ∧
        assemble f.name.text f.params f.body.span l st ⊆ fs := by
  obtain ⟨rs, rfl, hrs, rfl⟩ := lowerFuncs_eq_ok h
  intro f hf
  obtain ⟨r, hr, rfl⟩ := mem_map.mp hf
  exact ⟨_, _, hrs r hr, fun g hg => mem_flatMap.mpr ⟨r, hr, hg⟩⟩

end Lowering

end Minilang.Tac
