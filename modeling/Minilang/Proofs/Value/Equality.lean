import Minilang.Proofs.Search
import Minilang.Proofs.Value.Contents
import Mathlib.Data.Finset.Prod
import Mathlib.Data.List.Forall2
import Mathlib.Data.Option.Defs

/-!
# Equality of values is bisimilarity

Arrays and records may contain themselves, so equality is not given by recursion: two values are
bisimilar if some relation holds between them all of whose pairs are the same array or record, or
look the same from outside and have related parts.

`Compares` is the comparison of two values without a bound on its depth.  It comes to an end on all
values of all heaps, because every pair of arrays or records with parts is opened once only, and
`Heap.compare` gives its result.  The pairs that a comparison without a difference has met are the
relation that makes the values bisimilar; and no comparison finds a difference between bisimilar
values.
-/

namespace Minilang

open List

/-! ### Numbers -/

namespace Double

open Float.Model

lemma compare_swap (a b : UnpackedFloat) : (a.compare b).map Ordering.swap = b.compare a := by
  have hsign : ∀ s t : UnpackedFloat.Sign, (compare s t).swap = compare t s := by
    intro s t
    cases s <;> cases t <;> rfl
  have hfinite : ∀ (m n : Nat) (e f : Int), ((compare e f).then (compare m n)).swap =
      (compare f e).then (compare n m) := by
    intro m n e f
    rw [Ordering.swap_then, ← Std.OrientedCmp.eq_swap, ← Std.OrientedCmp.eq_swap]
  cases a with
  | notANumber => cases b <;> rfl
  | infinity s =>
    cases b with
    | infinity t => exact congrArg some (hsign s t)
    | _ => cases s <;> rfl
  | zero s =>
    cases b with
    | infinity t => cases t <;> rfl
    | finite t n f hn => cases t <;> rfl
    | _ => rfl
  | finite s m e hm =>
    cases b with
    | finite t n f hn =>
      cases s with
      | negative =>
        cases t with
        | negative => exact congrArg (fun o => some (Ordering.swap o)) (hfinite m n e f)
        | positive => rfl
      | positive =>
        cases t with
        | negative => rfl
        | positive => exact congrArg some (hfinite m n e f)
    | notANumber => cases s <;> rfl
    | infinity t => cases s <;> cases t <;> rfl
    | zero t => cases s <;> rfl

lemma eq_symm (x y : Double) : x.eq y = y.eq x := by
  have hbeq : ∀ a b : UnpackedFloat, a.beq b = b.beq a := by
    intro a b
    unfold UnpackedFloat.beq
    rw [← compare_swap a b]
    cases a.compare b with
    | none => rfl
    | some o => cases o <;> rfl
  exact hbeq _ _

end Double

/-- Whether two values are equal that are neither two arrays nor two records. -/
def Value.agrees : Value → Value → Bool
  | .null, .null => true
  | .int a, .int b => a = b
  | .int a, .float b => (Double.ofInt a).eq b
  | .float a, .int b => a.eq (Double.ofInt b)
  | .float a, .float b => a.eq b
  | .bool a, .bool b => a = b
  | .string a, .string b => a = b
  | .func a _, .func b _ => a = b
  | _, _ => false

namespace Heap

/-! ### Bisimilar values -/

/-- Two values look the same from outside, and their parts are related. -/
inductive LocallyEqual (h : Heap) (R : Value → Value → Prop) : Value → Value → Prop
  | null : LocallyEqual h R .null .null
  | int {n} : LocallyEqual h R (.int n) (.int n)
  | intFloat {n x} : (Double.ofInt n).eq x = true → LocallyEqual h R (.int n) (.float x)
  | floatInt {x n} : x.eq (Double.ofInt n) = true → LocallyEqual h R (.float x) (.int n)
  | float {x y} : x.eq y = true → LocallyEqual h R (.float x) (.float y)
  | bool {b} : LocallyEqual h R (.bool b) (.bool b)
  | string {s} : LocallyEqual h R (.string s) (.string s)
  | func {name i j} : LocallyEqual h R (.func name i) (.func name j)
  | array {a b} : List.Forall₂ R (h.elems a).toList (h.elems b).toList →
      LocallyEqual h R (.array a) (.array b)
  | record {a b} : (h.record a).type = (h.record b).type →
      (h.record a).fields.length = (h.record b).fields.length →
      (∀ name, Option.Rel R ((h.record a).get? name) ((h.record b).get? name)) →
      LocallyEqual h R (.record a) (.record b)

/-- The same array, or the same record. -/
inductive SameRef : Value → Value → Prop
  | array (a : Nat) : SameRef (.array a) (.array a)
  | record (a : Nat) : SameRef (.record a) (.record a)

/-- Related values look equal, and so do their parts. -/
def Bisimulation (h : Heap) (R : Value → Value → Prop) : Prop :=
  ∀ x y, R x y → SameRef x y ∨ h.LocallyEqual R x y

/-- Two values cannot be told apart by looking at them and at their parts. -/
def Bisimilar (h : Heap) (x y : Value) : Prop :=
  ∃ R, h.Bisimulation R ∧ R x y

variable {h : Heap} {R : Value → Value → Prop} {x y : Value}

lemma LocallyEqual.symm (hxy : h.LocallyEqual R x y) : h.LocallyEqual (flip R) y x := by
  cases hxy with
  | null => exact .null
  | int => exact .int
  | intFloat heq => exact .floatInt (Double.eq_symm _ _ ▸ heq)
  | floatInt heq => exact .intFloat (Double.eq_symm _ _ ▸ heq)
  | float heq => exact .float (Double.eq_symm _ _ ▸ heq)
  | bool => exact .bool
  | string => exact .string
  | func => exact .func
  | array helems => exact .array helems.flip
  | record htype hlength hfields =>
    refine .record htype.symm hlength.symm fun name => ?_
    have hname := hfields name
    revert hname
    generalize (h.record _).get? name = v, (h.record _).get? name = w
    rintro (hvw | _)
    · exact .some hvw
    · exact .none

lemma SameRef.symm (hxy : SameRef x y) : SameRef y x := by
  cases hxy with
  | array a => exact .array a
  | record a => exact .record a

lemma Bisimilar.symm (hxy : h.Bisimilar x y) : h.Bisimilar y x := by
  obtain ⟨R, hR, hxy⟩ := hxy
  exact ⟨flip R, fun y x hyx => (hR x y hyx).imp .symm .symm, hxy⟩

/-! ### What is compared -/

/-- The parts of two arrays or records side by side, if these look the same from outside.  A field
of the first record may be missing in the second one. -/
def opposites (h : Heap) : Value → Value → Option (List (Value × Option Value))
  | .array a, .array b =>
    if (h.elems a).size = (h.elems b).size then
      some (((h.elems a).toList.zip (h.elems b).toList).map fun p => (p.1, some p.2))
    else none
  | .record a, .record b =>
    if (h.record a).type = (h.record b).type ∧
        (h.record a).fields.length = (h.record b).fields.length then
      some ((h.record a).fields.map fun f => (f.2, (h.record b).get? f.1))
    else none
  | _, _ => none

/-- Parts that stand side by side are there and related. -/
def Paired (R : Value → Value → Prop) (p : Value × Option Value) : Prop :=
  ∃ v, p.2 = some v ∧ R p.1 v

/-- Two records with the same number of fields have related fields if the second one has a related
field for each field of the first. -/
theorem forall_rel_iff {r s : Record} (hlength : r.fields.length = s.fields.length) :
    (∀ name, Option.Rel R (r.get? name) (s.get? name)) ↔
      ∀ f ∈ r.fields, Paired R (f.2, s.get? f.1) := by
  constructor
  · intro hrel f hf
    have hname := hrel f.1
    rw [Record.get?_of_mem hf] at hname
    revert hname
    generalize s.get? f.1 = w
    rintro ⟨hvw⟩
    exact ⟨_, rfl, hvw⟩
  · intro hpaired
    -- All names of the first record are names of the second, which has no more.
    have hsubset : r.fields.map Prod.fst ⊆ s.fields.map Prod.fst := by
      intro name hname
      obtain ⟨f, hf, rfl⟩ := mem_map.mp hname
      obtain ⟨v, hv, -⟩ := hpaired f hf
      have hmem : (f.1, v) ∈ s.fields := Record.mem_of_get? hv
      exact mem_map.mpr ⟨_, hmem, rfl⟩
    have hperm : (r.fields.map Prod.fst).Perm (s.fields.map Prod.fst) :=
      (subperm_of_subset r.distinct hsubset).perm_of_length_le (by simp [hlength])
    intro name
    cases hr : r.get? name with
    | some v =>
      obtain ⟨w, hw, hvw⟩ := hpaired _ (Record.mem_of_get? hr)
      rw [show s.get? name = some w from hw]
      exact .some hvw
    | none =>
      cases hs : s.get? name with
      | none => exact .none
      | some w =>
        have hmem := hperm.mem_iff.mpr (mem_map_of_mem (Record.mem_of_get? hs))
        obtain ⟨f, hf, rfl⟩ := mem_map.mp hmem
        rw [Record.get?_of_mem hf] at hr
        cases hr

lemma locallyEqual_iff : h.LocallyEqual R x y ↔ h.opposites x y = none ∧ x.agrees y = true ∨
      ∃ ps, h.opposites x y = some ps ∧ ∀ p ∈ ps, Paired R p := by
  constructor
  · intro hxy
    cases hxy with
    | null => exact .inl ⟨rfl, rfl⟩
    | int | bool | string | func => exact .inl ⟨rfl, decide_eq_true rfl⟩
    | intFloat heq | floatInt heq | float heq => exact .inl ⟨rfl, heq⟩
    | array helems =>
      obtain ⟨hlength, hzip⟩ := forall₂_iff_zip.mp helems
      refine .inr ⟨_, if_pos (by simpa using hlength), ?_⟩
      rintro _ hp
      obtain ⟨q, hq, rfl⟩ := mem_map.mp hp
      exact ⟨q.2, rfl, hzip hq⟩
    | record htype hlength hfields =>
      refine .inr ⟨_, if_pos ⟨htype, hlength⟩, ?_⟩
      rintro _ hp
      obtain ⟨f, hf, rfl⟩ := mem_map.mp hp
      exact (forall_rel_iff hlength).mp hfields f hf
  · rintro (⟨hnone, hagrees⟩ | ⟨ps, hps, hpaired⟩)
    · unfold Value.agrees at hagrees
      split at hagrees
      · exact .null
      · obtain rfl := of_decide_eq_true hagrees
        exact .int
      · exact .intFloat hagrees
      · exact .floatInt hagrees
      · exact .float hagrees
      · obtain rfl := of_decide_eq_true hagrees
        exact .bool
      · obtain rfl := of_decide_eq_true hagrees
        exact .string
      · obtain rfl := of_decide_eq_true hagrees
        exact .func
      · cases hagrees
    · unfold opposites at hps
      split at hps
      · split_ifs at hps with hsize
        cases hps
        refine .array (forall₂_iff_zip.mpr ⟨by simpa using hsize, fun {v w} hvw => ?_⟩)
        obtain ⟨_, ⟨⟩, hr⟩ := hpaired (v, some w) (mem_map.mpr ⟨(v, w), hvw, rfl⟩)
        exact hr
      · split_ifs at hps with hsame
        cases hps
        refine .record hsame.1 hsame.2 ((forall_rel_iff hsame.2).mpr fun f hf => ?_)
        exact hpaired _ (mem_map_of_mem hf)
      · cases hps

/-! ### Comparisons without a bound -/

mutual

/-- The comparison of two values, after the pairs in `met`, comes to an end.  Its result is `none`
if the values differ and otherwise the pairs met so far. -/
inductive Compares (h : Heap) : Met → Value → Value → Option Met → Prop
  | basic {met x y} : h.opposites x y = none → x.agrees y = true → Compares h met x y (some met)
  | apart {met x y} : h.opposites x y = none → x.agrees y = false → Compares h met x y none
  | known {met x y ps} :
      h.opposites x y = some ps → x = y ∨ (x, y) ∈ met → Compares h met x y (some met)
  | new {met : Met} {x y ps r} :
      h.opposites x y = some ps → ¬(x = y ∨ (x, y) ∈ met) → ComparesAll h ((x, y) :: met) ps r →
      Compares h met x y r

/-- The comparison of parts that stand side by side, one after the other, comes to an end. -/
inductive ComparesAll (h : Heap) : Met → List (Value × Option Value) → Option Met → Prop
  | nil {met} : ComparesAll h met [] (some met)
  | missing {met x ps} : ComparesAll h met ((x, none) :: ps) none
  | differ {met x y ps} : Compares h met x y none → ComparesAll h met ((x, some y) :: ps) none
  | agree {met met' x y ps r} : Compares h met x y (some met') → ComparesAll h met' ps r →
      ComparesAll h met ((x, some y) :: ps) r

end

mutual

theorem Compares.unique {met : Met} {x y : Value} {r r' : Option Met} :
    Compares h met x y r → Compares h met x y r' → r = r'
  | .basic hnone hyes, h' => by
    cases h' with
    | basic => rfl
    | apart _ hno => cases hyes.symm.trans hno
    | known hps _ => cases hnone.symm.trans hps
    | new hps _ _ => cases hnone.symm.trans hps
  | .apart hnone hno, h' => by
    cases h' with
    | basic _ hyes => cases hyes.symm.trans hno
    | apart => rfl
    | known hps _ => cases hnone.symm.trans hps
    | new hps _ _ => cases hnone.symm.trans hps
  | .known hps hknown, h' => by
    cases h' with
    | basic hnone _ => cases hnone.symm.trans hps
    | apart hnone _ => cases hnone.symm.trans hps
    | known => rfl
    | new _ hnew _ => exact absurd hknown hnew
  | .new hps hnew hall, h' => by
    cases h' with
    | basic hnone _ => cases hnone.symm.trans hps
    | apart hnone _ => cases hnone.symm.trans hps
    | known _ hknown => exact absurd hknown hnew
    | new hps' _ hall' =>
      cases hps.symm.trans hps'
      exact hall.unique hall'

theorem ComparesAll.unique {met : Met} {ps : List (Value × Option Value)} {r r' : Option Met} :
    ComparesAll h met ps r → ComparesAll h met ps r' → r = r'
  | .nil, .nil => rfl
  | .missing, .missing => rfl
  | .differ _, .differ _ => rfl
  | .differ hnone, .agree hsome _ => by cases hnone.unique hsome
  | .agree hsome _, .differ hnone => by cases hsome.unique hnone
  | .agree hsome hall, .agree hsome' hall' => by
    cases hsome.unique hsome'
    exact hall.unique hall'

end

/-! ### Comparisons that find no difference -/

/-- Two values are equal if all pairs in `met` are. -/
def Settled (h : Heap) (met : Met) (x y : Value) : Prop :=
  SameRef x y ∨ (x, y) ∈ met ∨ h.opposites x y = none ∧ x.agrees y = true

/-- The pairs in `met'` are those in `met` and others whose parts are settled by `met'`. -/
structure Accounts (h : Heap) (met met' : Met) : Prop where
  grows : met ⊆ met'
  opened : ∀ {x y : Value}, (x, y) ∈ met' → (x, y) ∈ met ∨
    ∃ ps, h.opposites x y = some ps ∧ ∀ p ∈ ps, Paired (h.Settled met') p

variable {met met' met'' : Met} {depth : Nat} {ps : List (Value × Option Value)}

lemma Settled.mono (hmet : met ⊆ met') (hxy : h.Settled met x y) : h.Settled met' x y :=
  hxy.imp_right (Or.imp_left (hmet ·))

lemma Paired.mono {R' : Value → Value → Prop} (hR : ∀ {x y}, R x y → R' x y)
    {p : Value × Option Value} (hp : Paired R p) : Paired R' p :=
  hp.imp fun _ hv => ⟨hv.1, hR hv.2⟩

lemma Accounts.refl (h : Heap) (met : Met) : h.Accounts met met :=
  ⟨Subset.refl met, .inl⟩

lemma Accounts.trans (hmet : h.Accounts met met') (hmet' : h.Accounts met' met'') :
    h.Accounts met met'' := by
  refine ⟨Subset.trans hmet.grows hmet'.grows, fun {x y} hxy => ?_⟩
  obtain hxy | hxy := hmet'.opened hxy
  · refine (hmet.opened hxy).imp_right ?_
    rintro ⟨ps, hps, hpaired⟩
    exact ⟨ps, hps, fun p hp => (hpaired p hp).mono (.mono hmet'.grows)⟩
  · exact .inr hxy

lemma sameRef_of_opposites (hps : h.opposites x x = some ps) : SameRef x x := by
  cases x with
  | array a => exact .array a
  | record a => exact .record a
  | _ => cases hps

lemma SameRef.eq (hxy : SameRef x y) : x = y := by
  cases hxy <;> rfl

lemma SameRef.opposites (hxy : SameRef x y) : ∃ ps, h.opposites x y = some ps := by
  cases hxy with
  | array a => exact ⟨_, if_pos rfl⟩
  | record a => exact ⟨_, if_pos ⟨rfl, rfl⟩⟩

mutual

/-- A comparison that finds no difference settles its values and the parts of all new pairs. -/
theorem Compares.accounts {x y : Value} {met : Met} {r : Option Met} :
    Compares h met x y r → ∀ {met'}, r = some met' →
      h.Accounts met met' ∧ h.Settled met' x y
  | .basic hnone hagrees, _, hr => by
    cases hr
    exact ⟨.refl h met, .inr (.inr ⟨hnone, hagrees⟩)⟩
  | .apart _ _, _, hr => by cases hr
  | .known hps hknown, _, hr => by
    cases hr
    refine ⟨.refl h met, ?_⟩
    obtain rfl | hmem := hknown
    · exact .inl (sameRef_of_opposites hps)
    · exact .inr (.inl hmem)
  | .new hps hnew hall, _, hr => by
    obtain ⟨haccounts, hpaired⟩ := hall.accounts hr
    have hmem := haccounts.grows mem_cons_self
    refine ⟨⟨List.Subset.trans (subset_cons_self _ _) haccounts.grows, fun {u v} huv => ?_⟩,
      .inr (.inl hmem)⟩
    obtain huv | huv := haccounts.opened huv
    · obtain heq | huv := mem_cons.mp huv
      · cases heq
        exact .inr ⟨_, hps, hpaired⟩
      · exact .inl huv
    · exact .inr huv

theorem ComparesAll.accounts {ps : List (Value × Option Value)} {met : Met} {r : Option Met} :
    ComparesAll h met ps r → ∀ {met'}, r = some met' →
      h.Accounts met met' ∧ ∀ p ∈ ps, Paired (h.Settled met') p
  | .nil, _, hr => by
    cases hr
    exact ⟨.refl h met, forall_mem_nil _⟩
  | .missing, _, hr => by cases hr
  | .differ _, _, hr => by cases hr
  | .agree hsome hall, _, hr => by
    obtain ⟨hfirst, hxy⟩ := hsome.accounts rfl
    obtain ⟨hrest, hpaired⟩ := hall.accounts hr
    exact ⟨hfirst.trans hrest, forall_mem_cons.mpr ⟨⟨_, rfl, hxy.mono hrest.grows⟩, hpaired⟩⟩

end

lemma Accounts.bisimulation (hmet : h.Accounts [] met) : h.Bisimulation (h.Settled met) := by
  rintro x y (hxy | hxy | hxy)
  · exact .inl hxy
  · obtain hxy | hxy := hmet.opened hxy
    · cases hxy
    · exact .inr (locallyEqual_iff.mpr (.inr hxy))
  · exact .inr (locallyEqual_iff.mpr (.inl hxy))

/-! ### Comparisons of bisimilar values -/

mutual

theorem Compares.isSome (hR : h.Bisimulation R) {x y : Value} {met : Met} {r : Option Met} :
    Compares h met x y r → R x y → r.isSome = true
  | .basic _ _, _ | .known _ _, _ => rfl
  | .apart hnone hagrees, hxy => by
    obtain hsame | hlocal := hR x y hxy
    · obtain ⟨ps, hps⟩ := hsame.opposites (h := h)
      rw [hnone] at hps
      cases hps
    · obtain ⟨-, hagrees'⟩ | ⟨ps, hps, -⟩ := locallyEqual_iff.mp hlocal
      · rw [hagrees] at hagrees'
        cases hagrees'
      · rw [hnone] at hps
        cases hps
  | .new hps hnew hall, hxy => by
    refine hall.isSome hR ?_
    obtain hsame | hlocal := hR x y hxy
    · exact absurd (.inl hsame.eq) hnew
    · obtain ⟨hnone, -⟩ | ⟨ps', hps', hpaired⟩ := locallyEqual_iff.mp hlocal
      · rw [hnone] at hps
        cases hps
      · rw [hps] at hps'
        cases hps'
        exact hpaired

theorem ComparesAll.isSome (hR : h.Bisimulation R) {ps : List (Value × Option Value)} {met : Met}
    {r : Option Met} : ComparesAll h met ps r → (∀ p ∈ ps, Paired R p) → r.isSome = true
  | .nil, _ => rfl
  | .missing, hps => by
    obtain ⟨_, hnone, -⟩ := hps _ mem_cons_self
    cases hnone
  | .differ hnone, hps => by
    obtain ⟨_, ⟨⟩, hxy⟩ := hps _ mem_cons_self
    exact hnone.isSome hR hxy
  | .agree _ hall, hps => hall.isSome hR fun p hp => hps p (mem_cons_of_mem _ hp)

end

/-! ### Every comparison comes to an end -/

/-- Compare a part with its counterpart, if there is one. -/
def compareNext (h : Heap) (depth : Nat) (met : Met) (p : Value × Option Value) : Option Met :=
  p.2.bind (h.compare depth met p.1)

/-- A comparison looks at its values from outside, and at their parts if the pair is a new one. -/
theorem compare_succ (h : Heap) (depth : Nat) (met : Met) (x y : Value) :
    h.compare (depth + 1) met x y = match h.opposites x y with
      | none => if x.agrees y then some met else none
      | some ps =>
        if x = y ∨ (x, y) ∈ met then some met
        else ps.foldlM (h.compareNext depth) ((x, y) :: met) := by
  cases x <;> cases y
  case array.array a b =>
    by_cases hsize : (h.elems a).size = (h.elems b).size
    · simp [compare, opposites, compareNext, hsize, foldlM_map]
    · simp [compare, opposites, Value.agrees, hsize]
  case record.record a b =>
    by_cases hsame : (h.record a).type = (h.record b).type ∧
        (h.record a).fields.length = (h.record b).fields.length
    · simp only [compare, opposites, if_pos hsame, foldlM_map, Value.record.injEq]
      rw [if_neg (by simp [hsame])]
      refine if_congr Iff.rfl rfl ?_
      congr 1
      funext met f
      cases (h.record b).get? f.1 <;> rfl
    · simp [compare, opposites, Value.agrees, hsame]
  all_goals first | rfl | simp [compare, opposites, Value.agrees]

/-- All pairs of two arrays or two records of a heap. -/
def pairs (h : Heap) : Finset (Value × Value) :=
  (Finset.range h.arrays.size ×ˢ Finset.range h.arrays.size).image
      (fun p => (.array p.1, .array p.2)) ∪
    (Finset.range h.records.size ×ˢ Finset.range h.records.size).image
      fun p => (.record p.1, .record p.2)

lemma card_pairs_le (h : Heap) :
    h.pairs.card ≤ h.arrays.size * h.arrays.size + h.records.size * h.records.size := by
  refine (Finset.card_union_le _ _).trans (Nat.add_le_add ?_ ?_)
  · exact Finset.card_image_le.trans (by simp)
  · exact Finset.card_image_le.trans (by simp)

lemma mem_pairs (hps : h.opposites x y = some ps) (hne : ps ≠ []) : (x, y) ∈ h.pairs := by
  unfold opposites at hps
  split at hps
  · next a b =>
    split_ifs at hps with hsize
    cases hps
    have ha : h.elems a ≠ #[] := by
      intro ha
      simp [ha] at hne
    have hb : h.elems b ≠ #[] := by
      intro hb
      simp [hb] at hne
    refine Finset.mem_union_left _ (Finset.mem_image.mpr ⟨(a, b), ?_, rfl⟩)
    simpa using ⟨lt_size_of_elems ha, lt_size_of_elems hb⟩
  · next a b =>
    split_ifs at hps with hsame
    cases hps
    have ha : (h.record a).fields ≠ [] := by
      intro ha
      simp [ha] at hne
    have hb : (h.record b).fields ≠ [] := by
      rw [← length_pos_iff] at ha ⊢
      omega
    refine Finset.mem_union_right _ (Finset.mem_image.mpr ⟨(a, b), ?_, rfl⟩)
    simpa using ⟨lt_size_of_fields ha, lt_size_of_fields hb⟩
  · cases hps

lemma comparesAll_fold (hcompare : ∀ met x y, unvisited h.pairs met < depth →
      Compares h met x y (h.compare depth met x y))
    (ps : List (Value × Option Value)) (hmet : unvisited h.pairs met < depth) :
    ComparesAll h met ps (ps.foldlM (h.compareNext depth) met) := by
  induction ps generalizing met with
  | nil => exact .nil
  | cons p ps ih =>
    obtain ⟨x, y?⟩ := p
    rw [foldlM_cons]
    cases y? with
    | none => exact .missing
    | some y =>
      have hxy := hcompare met x y hmet
      rw [show h.compareNext depth met (x, some y) = h.compare depth met x y from rfl]
      cases hresult : h.compare depth met x y with
      | none => exact .differ (hresult ▸ hxy)
      | some met' =>
        rw [hresult] at hxy
        exact .agree hxy (ih ((unvisited_le (hxy.accounts rfl).1.grows).trans_lt hmet))

lemma compares_compare (hmet : unvisited h.pairs met < depth) :
    Compares h met x y (h.compare depth met x y) := by
  induction depth generalizing met x y with
  | zero => exact absurd hmet (Nat.not_lt_zero _)
  | succ depth ih =>
    rw [compare_succ]
    cases hps : h.opposites x y with
    | none =>
      dsimp only
      split_ifs with hagrees
      · exact .basic hps hagrees
      · exact .apart hps (Bool.eq_false_iff.mpr hagrees)
    | some ps =>
      dsimp only
      split_ifs with hknown
      · exact .known hps hknown
      · refine .new hps hknown ?_
        cases ps with
        | nil => exact .nil
        | cons p ps =>
          have hpair := mem_pairs hps (cons_ne_nil p ps)
          have hlt := unvisited_cons_lt hpair fun hmem => hknown (.inr hmem)
          exact comparesAll_fold (fun _ _ _ => ih) (p :: ps) (by omega)

/-- **Equality of values is bisimilarity**, on all heaps.  The comparison without a bound on its
depth comes to an end, and it finds no difference exactly if the values are bisimilar. -/
theorem equal_iff_bisimilar (h : Heap) (x y : Value) :
    (∃ r, Compares h [] x y r ∧ (∀ r', Compares h [] x y r' → r' = r) ∧
      h.equal x y = r.isSome) ∧
    (h.equal x y = true ↔ h.Bisimilar x y) ∧ h.equal x y = h.equal y x := by
  have hcompares : ∀ x y, ∃ r, Compares h [] x y r ∧ h.equal x y = r.isSome := by
    intro x y
    have hlt : unvisited h.pairs [] <
        h.arrays.size * h.arrays.size + h.records.size * h.records.size + 1 :=
      Nat.lt_succ_of_le ((unvisited_le_card _ _).trans h.card_pairs_le)
    exact ⟨_, compares_compare hlt, rfl⟩
  have hiff : ∀ x y, h.equal x y = true ↔ h.Bisimilar x y := by
    intro x y
    obtain ⟨r, hr, hequal⟩ := hcompares x y
    rw [hequal]
    constructor
    · intro hsome
      obtain ⟨met, rfl⟩ := Option.isSome_iff_exists.mp hsome
      obtain ⟨haccounts, hxy⟩ := hr.accounts rfl
      exact ⟨_, haccounts.bisimulation, hxy⟩
    · rintro ⟨R, hR, hxy⟩
      exact hr.isSome hR hxy
  obtain ⟨r, hr, hequal⟩ := hcompares x y
  refine ⟨⟨r, hr, fun r' hr' => hr'.unique hr, hequal⟩, hiff x y, ?_⟩
  rw [Bool.eq_iff_iff, hiff, hiff]
  exact ⟨.symm, .symm⟩

end Heap

end Minilang
