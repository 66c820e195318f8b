import Minilang.Proofs.Outcomes
import Minilang.Proofs.Typing.Declarations

/-!
# Joins of types

Assignability is an order on types, and the join of two types is their least upper bound in it: it
exists if there is any type that both are assignable to.  The elements of an array literal and the
returned values of a function are joined one after the other.  What comes out is the least upper
bound of all their types, so it does not depend on the order, and every one of them can be used as a
value of it without a further check.
-/

namespace Minilang

open Option List

variable {j t u : Ty}

namespace Ty

/-! ### The order -/

variable {a b : Ty} {ts ts' : List Ty}

lemma assignable_antisymm (hab : a.assignable b ≠ .no) (hba : b.assignable a ≠ .no) : a = b := by
  rw [assignable_iff] at hab hba
  rcases hab with rfl | rfl | ⟨rfl, e, rfl⟩ | ⟨rfl, rfl⟩
  · rfl
  · rcases hba with rfl | rfl | ⟨-, e, h⟩ | ⟨-, h⟩
    · rfl
    · rfl
    · cases h
    · cases h
  · rcases hba with h | h | ⟨h, -⟩ | ⟨h, -⟩
    · exact h.symm
    · cases h
    · exact h.symm
    · cases h
  · rcases hba with h | h | ⟨h, -⟩ | ⟨h, -⟩ <;> cases h

/-- The least type that all given types are assignable to. -/
structure LeastBound (ts : List Ty) (j : Ty) : Prop where
  above : ∀ t ∈ ts, t.assignable j ≠ .no
  least : ∀ u : Ty, (∀ t ∈ ts, t.assignable u ≠ .no) → j.assignable u ≠ .no

lemma LeastBound.unique {i : Ty} (hi : LeastBound ts i) (hj : LeastBound ts j) : i = j :=
  assignable_antisymm (hi.least j hj.above) (hj.least i hi.above)

lemma LeastBound.perm (h : ts.Perm ts') (hj : LeastBound ts j) : LeastBound ts' j where
  above t ht := hj.above t (h.mem_iff.mpr ht)
  least u hu := hj.least u fun t ht => hu t (h.mem_iff.mp ht)

/-! ### Two types -/

lemma join?_of_assignable (h : a.assignable b ≠ .no) : a.join? b = some b ∧ b.join? a = some b := by
  rw [assignable_iff] at h
  rcases h with rfl | rfl | ⟨rfl, e, rfl⟩ | ⟨rfl, rfl⟩
  · simp [join?]
  · by_cases hb : b = .never <;> simp [join?, hb]
  · by_cases he : e = .never <;> simp [join?, isNumeric, he]
  · simp [join?, isNumeric]

lemma join?_of_bound (ha : a.assignable u ≠ .no) (hb : b.assignable u ≠ .no) :
    ∃ j, a.join? b = some j ∧ j.assignable u ≠ .no := by
  -- Below a type there are few others: of two of them, one is assignable to the other.
  have hcomparable : a.assignable b ≠ .no ∨ b.assignable a ≠ .no := by
    have ha' := assignable_iff.mp ha
    have hb' := assignable_iff.mp hb
    rcases ha' with rfl | rfl | ⟨rfl, e, rfl⟩ | ⟨rfl, rfl⟩
    · exact .inr hb
    · exact .inl (assignable_iff.mpr (.inr (.inl rfl)))
    · rcases hb' with rfl | rfl | ⟨rfl, -⟩ | ⟨-, h⟩
      · exact .inl ha
      · exact .inr (assignable_iff.mpr (.inr (.inl rfl)))
      · exact .inl (assignable_refl _)
      · cases h
    · rcases hb' with rfl | rfl | ⟨-, e, h⟩ | ⟨rfl, -⟩
      · exact .inl ha
      · exact .inr (assignable_iff.mpr (.inr (.inl rfl)))
      · cases h
      · exact .inl (assignable_refl _)
  rcases hcomparable with hab | hba
  · exact ⟨b, (join?_of_assignable hab).1, hb⟩
  · exact ⟨a, (join?_of_assignable hba).2, ha⟩

lemma leastBound_join (h : a.join? b = some j) : LeastBound [a, b] j := by
  obtain ⟨ha, hb⟩ := assignable_join h
  refine ⟨by simpa using ⟨ha, hb⟩, fun u hu => ?_⟩
  obtain ⟨j', hj', hju⟩ := join?_of_bound (hu a (by simp)) (hu b (by simp))
  rw [h] at hj'
  cases hj'
  exact hju

/-! ### Many types -/

/-- The join of several types, one after the other. -/
def joinAll (t : Ty) (ts : List Ty) : Option Ty :=
  ts.foldlM join? t

lemma joinAll_nil (t : Ty) : joinAll t [] = some t := rfl

lemma joinAll_cons (t u : Ty) (us : List Ty) :
    joinAll t (u :: us) = (t.join? u).bind fun j => joinAll j us := rfl

lemma leastBound_joinAll (h : joinAll t ts = some j) : LeastBound (t :: ts) j := by
  induction ts generalizing t with
  | nil =>
    cases h
    exact ⟨by simpa using assignable_refl _, fun u hu => hu _ mem_cons_self⟩
  | cons u us ih =>
    obtain ⟨i, hi, hj⟩ := bind_eq_some_iff.mp h
    have hpair := leastBound_join hi
    have hrest := ih hj
    have hij : i.assignable j ≠ .no := hrest.above i mem_cons_self
    refine ⟨?_, fun b hb => hrest.least b ?_⟩
    · simp only [forall_mem_cons]
      exact ⟨assignable_trans (hpair.above t (by simp)) hij,
        assignable_trans (hpair.above u (by simp)) hij,
        fun v hv => hrest.above v (mem_cons_of_mem _ hv)⟩
    · simp only [forall_mem_cons] at hb ⊢
      exact ⟨hpair.least b (by simpa using ⟨hb.1, hb.2.1⟩), hb.2.2⟩

lemma joinAll_of_bound (hu : ∀ v ∈ t :: ts, v.assignable u ≠ .no) : ∃ j, joinAll t ts = some j := by
  induction ts generalizing t with
  | nil => exact ⟨t, rfl⟩
  | cons v vs ih =>
    simp only [forall_mem_cons] at hu
    obtain ⟨i, hi, hiu⟩ := join?_of_bound hu.1 hu.2.1
    obtain ⟨j, hj⟩ := ih (forall_mem_cons.mpr ⟨hiu, hu.2.2⟩)
    exact ⟨j, by rw [joinAll_cons, hi, bind_some, hj]⟩

lemma joinAll_eq_some_iff : joinAll t ts = some j ↔ LeastBound (t :: ts) j := by
  refine ⟨leastBound_joinAll, fun hj => ?_⟩
  obtain ⟨i, hi⟩ := joinAll_of_bound hj.above
  rw [hi, (leastBound_joinAll hi).unique hj]

lemma joinAll_perm {t' : Ty} (h : (t :: ts).Perm (t' :: ts')) : joinAll t ts = joinAll t' ts' := by
  refine ext fun j => ?_
  rw [joinAll_eq_some_iff, joinAll_eq_some_iff]
  exact ⟨.perm h, .perm h.symm⟩

end Ty

namespace Typing

/-! ### What the checker joins -/

variable {w w' : Walk} {β : Type}

lemma run_get_bind (f : Walk → M β) (w : Walk) : (get >>= f : M β).run w = (f w).run w :=
  rfl

lemma run_error {span : Span} {e : TypeError} {r : β × Walk} :
    (error span e : M β).run w ≠ .ok r := by
  rintro ⟨⟩

lemma run_bind_eq_ok_iff {γ : Type} {m : M β} {f : β → M γ} {r : γ × Walk} :
    (m >>= f).run w = .ok r ↔ ∃ a w', m.run w = .ok (a, w') ∧ (f a).run w' = .ok r := by
  refine ⟨run_bind_ok, ?_⟩
  rintro ⟨a, w', hm, hf⟩
  rw [StateT.run_bind, hm]
  exact hf

lemma run_pure_eq_ok_iff {a b : β} : (pure a : M β).run w = .ok (b, w') ↔ b = a ∧ w' = w := by
  constructor
  · rintro ⟨⟩
    exact ⟨rfl, rfl⟩
  · rintro ⟨rfl, rfl⟩
    rfl

lemma assignable_result (h : u.assignable j ≠ .no) :
    u.assignable (if j = .never then .unit else j) ≠ .no := by
  split
  · rename_i hj
    exact Ty.assignable_trans (hj ▸ h) (by decide)
  · exact h

lemma run_joinReturns {rs : List (Span × Ty)} :
    (joinReturns t rs).run w = .ok (j, w') ↔ Ty.joinAll t (rs.map Prod.snd) = some j ∧ w' = w := by
  induction rs generalizing t with
  | nil =>
    rw [joinReturns, run_pure_eq_ok_iff, map_nil, Ty.joinAll_nil, some_inj, eq_comm]
  | cons r rs ih =>
    obtain ⟨span, u⟩ := r
    rw [joinReturns, map_cons, Ty.joinAll_cons]
    cases hj : t.join? u with
    | none => exact ⟨fun h => absurd h run_error, by simp⟩
    | some i => simpa using ih

lemma run_conclude_none {r : Ty} {b b' : Block Note} :
    (conclude none t b).run w = .ok ((r, b'), w') ↔
      ∃ j, Ty.joinAll t (w.returns.reverse.map Prod.snd) = some j ∧
        r = (if j = .never then .unit else j) ∧
        b' = useReturnsBlock r (b.modifyNote (useNote r)) ∧ w' = w := by
  -- The body has a type that the join is made of, so it can be used as a result.
  have hbody : ∀ {j ts}, Ty.joinAll t ts = some j →
      t.assignable (if j = .never then .unit else j) ≠ .no := fun hj =>
    assignable_result ((Ty.leastBound_joinAll hj).above t mem_cons_self)
  simp only [conclude]
  rw [run_get_bind, run_bind_eq_ok_iff]
  constructor
  · rintro ⟨j, w1, hj, huse⟩
    obtain ⟨hj, rfl⟩ := run_joinReturns.mp hj
    rw [if_neg (hbody hj)] at huse
    cases huse
    exact ⟨j, hj, rfl, rfl, rfl⟩
  · rintro ⟨j, hj, rfl, rfl, rfl⟩
    refine ⟨j, w', run_joinReturns.mpr ⟨hj, rfl⟩, ?_⟩
    rw [if_neg (hbody hj)]
    rfl

/-- The body of a function and all returned values are values of the result type that is found. -/
theorem conclude_none {p : Ty × Block Note} {b : Block Note}
    (h : (conclude none t b).run w = .ok (p, w')) :
    w' = w ∧ t.assignable p.1 ≠ .no ∧ (∀ u ∈ w.returns.map Prod.snd, u.assignable p.1 ≠ .no) ∧
      p.2 = useReturnsBlock p.1 (b.modifyNote (useNote p.1)) := by
  obtain ⟨j, hj, hr, hb, rfl⟩ := run_conclude_none.mp h
  have habove := (Ty.leastBound_joinAll hj).above
  rw [hr]
  refine ⟨rfl, assignable_result (habove t mem_cons_self), fun u hu => assignable_result
    (habove u ?_), hr ▸ hb⟩
  rw [map_reverse]
  exact mem_cons_of_mem _ (mem_reverse.mpr hu)

variable {c : Context} {infer : Infer} {site : Site} {env : Env} {xs : List (Expr Unit)}

lemma run_checkElems {elem : Ty} {done ys : List (Expr Note)} :
    (checkElems c infer site env elem done xs).run w = .ok ((t, ys), w') ↔
      ∃ zs, (xs.mapM (checkExpr c infer site env)).run w = .ok (zs, w') ∧
        Ty.joinAll elem (zs.map Prod.fst) = some t ∧ ys = done.reverse ++ zs.map Prod.snd := by
  induction xs generalizing elem done w with
  | nil =>
    simp only [checkElems, mapM_nil, run_pure_eq_ok_iff, Prod.mk.injEq]
    constructor
    · rintro ⟨⟨rfl, rfl⟩, rfl⟩
      exact ⟨[], ⟨rfl, rfl⟩, rfl, by simp⟩
    · rintro ⟨_, ⟨rfl, rfl⟩, ⟨⟩, rfl⟩
      exact ⟨⟨rfl, by simp⟩, rfl⟩
  | cons x xs ih =>
    simp only [checkElems, mapM_cons, run_bind_eq_ok_iff, run_pure_eq_ok_iff]
    constructor
    · rintro ⟨⟨u, y⟩, w1, hx, hrest⟩
      cases hj : elem.join? u with
      | none =>
        simp only [hj] at hrest
        exact absurd hrest run_error
      | some j =>
        simp only [hj] at hrest
        obtain ⟨zs, hzs, ht, rfl⟩ := ih.mp hrest
        refine ⟨(u, y) :: zs, ⟨(u, y), w1, hx, zs, w', hzs, rfl, rfl⟩, ?_, by simp⟩
        rw [map_cons, Ty.joinAll_cons, hj, bind_some, ht]
    · rintro ⟨_, ⟨⟨u, y⟩, w1, hx, zs, _, hzs, rfl, rfl⟩, ht, rfl⟩
      obtain ⟨j, hj, ht⟩ := bind_eq_some_iff.mp ht
      refine ⟨(u, y), w1, hx, ?_⟩
      simp only [hj]
      exact ih.mpr ⟨zs, hzs, ht, by simp⟩

/-- An array literal has the join of its elements as element type, and each element is used as a
value of it as it is. -/
theorem run_checkExpr_array {s : Span} {e : Expr Note} :
    (checkExpr c infer site env (.array s () xs)).run w = .ok ((t, e), w') ↔
      ∃ zs j, (xs.mapM (checkExpr c infer site env)).run w = .ok (zs, w') ∧
        Ty.joinAll .never (zs.map Prod.fst) = some j ∧
        t = .array j ∧ e = .array s (.ofType (.array j)) (zs.map fun z => useAs j z.2) := by
  simp only [checkExpr, run_bind_eq_ok_iff, run_pure_eq_ok_iff, Prod.mk.injEq]
  constructor
  · rintro ⟨⟨j, ys⟩, _, helems, ⟨rfl, rfl⟩, rfl⟩
    obtain ⟨zs, hzs, hj, rfl⟩ := run_checkElems.mp helems
    exact ⟨zs, j, hzs, hj, rfl, by simp⟩
  · rintro ⟨zs, j, hzs, hj, rfl, rfl⟩
    exact ⟨(j, zs.map Prod.snd), w', run_checkElems.mpr ⟨zs, hzs, hj, rfl⟩, ⟨rfl, by simp⟩, rfl⟩

/-- **Joins are least upper bounds of assignability.**  Two types have a join if they have an upper
bound at all, and several types are joined to the same type in every order.  The element type of an
array literal and an inferred result type are such joins, so all elements and all returned values
are assignable to them. -/
theorem join_least_upper_bound : (∀ a : Ty, a.assignable a ≠ .no) ∧
    (∀ a b d : Ty, a.assignable b ≠ .no → b.assignable d ≠ .no → a.assignable d ≠ .no) ∧
    (∀ a b : Ty, (∃ j, a.join? b = some j) ↔
      ∃ u : Ty, a.assignable u ≠ .no ∧ b.assignable u ≠ .no) ∧
    (∀ a b j : Ty, a.join? b = some j →
      a.assignable j ≠ .no ∧ b.assignable j ≠ .no ∧
        ∀ u : Ty, a.assignable u ≠ .no → b.assignable u ≠ .no → j.assignable u ≠ .no) ∧
    (∀ (t t' : Ty) (ts ts' : List Ty), (t :: ts).Perm (t' :: ts') →
      Ty.joinAll t ts = Ty.joinAll t' ts') ∧
    (∀ (t j : Ty) (ts : List Ty), Ty.joinAll t ts = some j →
      ∀ u ∈ t :: ts, u.assignable j ≠ .no) ∧
    (∀ (c : Context) (infer : Infer) (site : Site) (env : Env) (s : Span) (xs : List (Expr Unit))
        (t : Ty) (e : Expr Note) (w w' : Walk),
      (checkExpr c infer site env (.array s () xs)).run w = .ok ((t, e), w') ↔
        ∃ zs j, (xs.mapM (checkExpr c infer site env)).run w = .ok (zs, w') ∧
          Ty.joinAll .never (zs.map Prod.fst) = some j ∧
          t = .array j ∧ e = .array s (.ofType (.array j)) (zs.map fun z => useAs j z.2)) ∧
    (∀ (t r : Ty) (b b' : Block Note) (w w' : Walk),
      (conclude none t b).run w = .ok ((r, b'), w') ↔
        ∃ j, Ty.joinAll t (w.returns.reverse.map Prod.snd) = some j ∧
          r = (if j = .never then .unit else j) ∧
          b' = useReturnsBlock r (b.modifyNote (useNote r)) ∧ w' = w) ∧
    (∀ (t r : Ty) (b b' : Block Note) (w w' : Walk),
      (conclude none t b).run w = .ok ((r, b'), w') →
        ∀ u ∈ t :: w.returns.map Prod.snd, u.assignable r ≠ .no) := by
  refine ⟨Ty.assignable_refl, fun a b d => Ty.assignable_trans, fun a b => ⟨?_, ?_⟩,
    fun a b j hj => ?_, fun t t' ts ts' => Ty.joinAll_perm,
    fun t j ts hj => (Ty.leastBound_joinAll hj).above,
    fun c infer site env s xs t e w w' => run_checkExpr_array,
    fun t r b b' w w' => run_conclude_none, fun t r b b' w w' h => ?_⟩
  · rintro ⟨j, hj⟩
    exact ⟨j, Ty.assignable_join hj⟩
  · rintro ⟨u, ha, hb⟩
    obtain ⟨j, hj, -⟩ := Ty.join?_of_bound ha hb
    exact ⟨j, hj⟩
  · obtain ⟨ha, hb⟩ := Ty.assignable_join hj
    exact ⟨ha, hb, fun u hau hbu => (Ty.leastBound_join hj).least u (by simpa using ⟨hau, hbu⟩)⟩
  · obtain ⟨-, ht, hreturns, -⟩ := conclude_none h
    exact List.forall_mem_cons.mpr ⟨ht, hreturns⟩

end Typing

end Minilang
