import Minilang.Proofs.Search
import Minilang.Proofs.Collection.OrderedMap
import Minilang.Typing.Resolve

/-!
# Aliases with a memo

A search that keeps the type of each alias it has resolved, and marks those that it is in, need not
follow an alias twice.  It finds the same types and fails with the same errors as the search that
starts anew at every name (`recallAll_eq`): when an alias has been resolved, so have all those that
it leads to, and none of them is one that a later search can be in.
-/

namespace Minilang.Typing

open List

/-- No more than `depth` declared names are left to visit. -/
def Room (names : TypeNames) (depth : Nat) (visited : List Bytes) : Prop :=
  unvisited (names.map Prod.fst).toFinset visited ≤ depth

variable {names : TypeNames} {depth : Nat} {visited : List Bytes} {n : Bytes}

namespace Room

lemma start (names : TypeNames) : Room names names.length [] :=
  calc unvisited (names.map Prod.fst).toFinset []
    _ ≤ (names.map Prod.fst).toFinset.card := unvisited_le_card _ _
    _ ≤ (names.map Prod.fst).length := toFinset_card_le _
    _ = names.length := length_map _

lemma enter (h : Room names depth visited) (hn : n ∈ names.map Prod.fst) (hnew : n ∉ visited) :
    ∃ d, depth = d + 1 ∧ Room names d (n :: visited) := by
  have hlt := (unvisited_cons_lt (mem_toFinset.mpr hn) hnew).trans_le h
  exact ⟨depth - 1, by omega, Nat.le_sub_one_of_lt hlt⟩

end Room

/-- What a search keeps of an alias. -/
inductive AliasState where
  /-- The search is in the alias. -/
  | resolving
  | resolved (t : Ty)

/-- The aliases that a search has come to, where the last change of an alias comes first. -/
abbrev Memo := List (Bytes × AliasState)

/-- The type of an alias, from the memo or else by following it. -/
def recallAlias (decl : Name) (name : Bytes) (follow : StateT Memo Check Ty) :
    StateT Memo Check Ty := fun memo =>
  match memo.lookup name with
  | some (.resolved t) => .ok (t, memo)
  | some .resolving => .error ⟨decl.span, .recursiveAlias name⟩
  | none => do
    let (t, memo') ← follow ((name, .resolving) :: memo)
    return (t, (name, .resolved t) :: memo')

/-- The search for the type of a name that takes the types of aliases from a memo. -/
def recallName (names : TypeNames) : (depth : Nat) → Span → Bytes → StateT Memo Check Ty
  | depth, span, name =>
    match Ty.primitive? name with
    | some t => pure t
    | none =>
      match names.lookup name with
      | none => throw ⟨span, .undefinedType name⟩
      | some .defined => pure (.named name)
      | some (.alias decl type) =>
        recallAlias decl name <| match depth with
          | 0 => throw ⟨decl.span, .recursiveAlias name⟩
          | depth + 1 => resolveWith (recallName names depth) type

variable {memo memo' : Memo} {s : Span} {β γ : Type} {plain : Nat → List Bytes → Check β} {b : β}

/-- A result that every search finds which is in no alias that has been resolved. -/
def Settled (names : TypeNames) (memo : Memo) (plain : Nat → List Bytes → Check β) (b : β) : Prop :=
  ∀ depth visited, Room names depth visited →
    (∀ v ∈ visited, ∀ t, memo.lookup v ≠ some (.resolved t)) → plain depth visited = .ok b

/-- A memo of a search that is in the given aliases. -/
structure Remembers (names : TypeNames) (visited : List Bytes) (memo : Memo) : Prop where
  resolving : ∀ {n}, memo.lookup n = some .resolving ↔ n ∈ visited
  resolved : ∀ {n t}, memo.lookup n = some (.resolved t) →
    ∀ s, Settled names memo (fun depth visited => resolveName names depth visited s n) t

/-- Every alias that has been resolved stays resolved. -/
def Keeps (memo memo' : Memo) : Prop :=
  ∀ v t, memo.lookup v = some (.resolved t) → ∃ t', memo'.lookup v = some (.resolved t')

lemma Keeps.trans {memo2 : Memo} (h : Keeps memo memo') (h' : Keeps memo' memo2) :
    Keeps memo memo2 := by
  intro v t ht
  obtain ⟨t', ht'⟩ := h v t ht
  exact h' v t' ht'

lemma Settled.mono (h : Settled names memo plain b)
    (hkeeps : Keeps memo memo') : Settled names memo' plain b := by
  refine fun depth visited hroom hvisited => h depth visited hroom fun v hv t ht => ?_
  obtain ⟨t', ht'⟩ := hkeeps v t ht
  exact hvisited v hv t' ht'

/-- The search with a memo goes as the plain one does. -/
def Recalls (names : TypeNames) (depth : Nat) (visited : List Bytes) (x : StateT Memo Check β)
    (plain : Nat → List Bytes → Check β) : Prop :=
  ∀ memo, Remembers names visited memo →
    (∃ err, plain depth visited = .error err ∧ x memo = .error err) ∨
    ∃ b memo', x memo = .ok (b, memo') ∧ Remembers names visited memo' ∧ Keeps memo memo' ∧
      Settled names memo' plain b

lemma Remembers.not_resolved (h : Remembers names visited memo) :
    ∀ v ∈ visited, ∀ t, memo.lookup v ≠ some (.resolved t) := by
  intro v hv t ht
  rw [h.resolving.mpr hv] at ht
  cases ht

section Expressions

variable {x : StateT Memo Check β}

lemma Recalls.pure (h : ∀ depth visited, plain depth visited = .ok b) :
    Recalls names depth visited (pure b) plain :=
  fun memo hmemo => .inr ⟨b, memo, rfl, hmemo, fun _ t ht => ⟨t, ht⟩, fun _ _ _ _ => h _ _⟩

variable (hroom : Room names depth visited)
include hroom

lemma Recalls.bind {f : β → StateT Memo Check γ} {rest : β → Nat → List Bytes → Check γ}
    (hx : Recalls names depth visited x plain)
    (hf : ∀ b, Recalls names depth visited (f b) (rest b)) :
    Recalls names depth visited (x >>= f) fun d vs => plain d vs >>= fun b => rest b d vs := by
  intro memo hmemo
  have hbind : (x >>= f) memo = x memo >>= fun p => f p.1 p.2 := rfl
  rw [hbind]
  rcases hx memo hmemo with ⟨err, hplain, hrun⟩ | ⟨b, memo', hrun, hmemo', hkeeps, hsettled⟩
  · exact .inl ⟨err, by simp only [hplain]; rfl, by rw [hrun]; rfl⟩
  · rw [hrun]
    have hplain := hsettled depth visited hroom hmemo'.not_resolved
    rcases hf b memo' hmemo' with ⟨err, hrest, hrun'⟩ | ⟨c, memo2, hrun', hmemo2, hkeeps', hrest⟩
    · exact .inl ⟨err, by simp only [hplain]; exact hrest, hrun'⟩
    · refine .inr ⟨c, memo2, hrun', hmemo2, hkeeps.trans hkeeps', fun d vs hroom hvs => ?_⟩
      simp only [hsettled.mono hkeeps' d vs hroom hvs]
      exact hrest d vs hroom hvs

mutual

theorem recalls_resolveWith {named : Span → Bytes → StateT Memo Check Ty} (hnamed : ∀ s n,
      Recalls names depth visited (named s n) fun d vs => resolveName names d vs s n) :
    ∀ e, Recalls names depth visited (resolveWith named e)
      fun d vs => resolveWith (resolveName names d vs) e
  | .named s n => hnamed s n
  | .array _ e => (recalls_resolveWith hnamed e).bind hroom fun _ => .pure fun _ _ => rfl
  | .func _ ps none => (recalls_resolveAllWith hnamed ps).bind hroom fun _ => .pure fun _ _ => rfl
  | .func _ ps (some r) => (recalls_resolveAllWith hnamed ps).bind hroom fun _ =>
    (recalls_resolveWith hnamed r).bind hroom fun _ => .pure fun _ _ => rfl

theorem recalls_resolveAllWith {named : Span → Bytes → StateT Memo Check Ty} (hnamed : ∀ s n,
      Recalls names depth visited (named s n) fun d vs => resolveName names d vs s n) :
    ∀ es, Recalls names depth visited (resolveAllWith named es)
      fun d vs => resolveAllWith (resolveName names d vs) es
  | [] => .pure fun _ _ => rfl
  | e :: es => (recalls_resolveWith hnamed e).bind hroom fun _ =>
    (recalls_resolveAllWith hnamed es).bind hroom fun _ => .pure fun _ _ => rfl

end

end Expressions

section Aliases

variable {decl : Name} {e : TypeExpr} (hprimitive : Ty.primitive? n = none)
  (hlookup : names.lookup n = some (.alias decl e))

section Plain

include hprimitive hlookup

lemma resolveName_of_mem (h : n ∈ visited) :
    resolveName names depth visited s n = .error ⟨decl.span, .recursiveAlias n⟩ := by
  unfold resolveName
  simp only [hprimitive, hlookup, if_pos h]

lemma resolveName_of_not_mem (h : n ∉ visited) :
    resolveName names (depth + 1) visited s n =
      resolveWith (resolveName names depth (n :: visited)) e := by
  conv_lhs => unfold resolveName
  simp only [hprimitive, hlookup, if_neg h]

end Plain

lemma lookup_entry (memo : Memo) (n m : Bytes) (state : AliasState) :
    List.lookup m ((n, state) :: memo) = if m = n then some state else memo.lookup m := by
  rw [lookup_cons]
  by_cases h : m = n
  · simp [h]
  · rw [beq_false_of_ne h, if_neg h]

lemma Remembers.enter (h : Remembers names visited memo) (hn : memo.lookup n = none) :
    Keeps memo ((n, .resolving) :: memo) ∧
      Remembers names (n :: visited) ((n, .resolving) :: memo) := by
  have hkeeps : Keeps memo ((n, .resolving) :: memo) := by
    intro v t ht
    have hne : v ≠ n := by
      rintro rfl
      rw [hn] at ht
      cases ht
    exact ⟨t, by rwa [lookup_entry, if_neg hne]⟩
  refine ⟨hkeeps, fun {m} => ?_, fun {m t} hm s => ?_⟩
  · by_cases hmn : m = n
    · simp [hmn]
    · simp [lookup_entry, hmn, h.resolving]
  · by_cases hmn : m = n
    · simp [hmn] at hm
    · exact (h.resolved (by simpa [lookup_entry, hmn] using hm) s).mono hkeeps

include hprimitive hlookup

/-- When the type expression of an alias is settled, so is the alias. -/
theorem Remembers.leave (h : Remembers names (n :: visited) memo) (hnew : n ∉ visited) {t : Ty}
    (he : Settled names memo (fun d vs => resolveWith (resolveName names d vs) e) t) :
    Keeps memo ((n, .resolved t) :: memo) ∧
      Remembers names visited ((n, .resolved t) :: memo) := by
  have hkeeps : Keeps memo ((n, .resolved t) :: memo) := by
    intro v t' ht'
    by_cases hvn : v = n
    · exact ⟨t, by simp [hvn]⟩
    · exact ⟨t', by simpa [lookup_entry, hvn] using ht'⟩
  refine ⟨hkeeps, fun {m} => ?_, fun {m t'} hm s => ?_⟩
  · by_cases hmn : m = n
    · simp [hmn, hnew]
    · simp [lookup_entry, hmn, h.resolving]
  · by_cases hmn : m = n
    · subst hmn
      obtain rfl : t = t' := by simpa using hm
      intro d vs hroom hvs
      have hfresh : m ∉ vs := fun hmem => hvs m hmem t (by simp)
      obtain ⟨d, rfl, hroom'⟩ := hroom.enter (mem_map_of_mem (mem_of_lookup hlookup)) hfresh
      refine (resolveName_of_not_mem hprimitive hlookup hfresh).trans ?_
      refine he d (m :: vs) hroom' fun v hv u hu => ?_
      obtain rfl | hv := mem_cons.mp hv
      · exact h.not_resolved _ mem_cons_self u hu
      · refine hvs v hv u ?_
        rwa [lookup_entry, if_neg (ne_of_mem_of_not_mem hv hfresh)]
    · exact (h.resolved (by simpa [lookup_entry, hmn] using hm) s).mono hkeeps

lemma recalls_recallAlias {follow : StateT Memo Check Ty} (hroom : Room names depth visited)
    (hfollow : ∀ d, depth = d + 1 → Room names d (n :: visited) →
      Recalls names d (n :: visited) follow fun d vs => resolveWith (resolveName names d vs) e) :
    Recalls names depth visited (recallAlias decl n follow)
      fun d vs => resolveName names d vs s n := by
  intro memo hmemo
  rw [recallAlias]
  cases hn : memo.lookup n with
  | some state =>
    cases state with
    | resolving =>
      exact .inl ⟨_, resolveName_of_mem hprimitive hlookup (hmemo.resolving.mp hn), rfl⟩
    | resolved t => exact .inr ⟨t, memo, rfl, hmemo, fun _ t ht => ⟨t, ht⟩, hmemo.resolved hn s⟩
  | none =>
    have hnew : n ∉ visited := fun hmem => by simp [hmemo.resolving.mpr hmem] at hn
    obtain ⟨d, rfl, hroom'⟩ := hroom.enter (mem_map_of_mem (mem_of_lookup hlookup)) hnew
    obtain ⟨hkeeps, henter⟩ := hmemo.enter hn
    rcases hfollow d rfl hroom' _ henter with
      ⟨err, hplain, hrun⟩ | ⟨t, memo', hrun, hmemo', hkeeps', he⟩
    · simp only [hrun]
      exact .inl ⟨err, (resolveName_of_not_mem hprimitive hlookup hnew).trans hplain, rfl⟩
    · obtain ⟨hkeeps2, hleave⟩ := hmemo'.leave hprimitive hlookup hnew he
      simp only [hrun]
      exact .inr ⟨t, _, rfl, hleave, (hkeeps.trans hkeeps').trans hkeeps2,
        hleave.resolved (by simp) s⟩

omit hprimitive hlookup in
/-- **A search with a memo.**  By induction on the number of aliases that it may enter. -/
theorem recalls_resolveName (hroom : Room names depth visited) (s : Span) (n : Bytes) :
    Recalls names depth visited (recallName names depth s n)
      fun d vs => resolveName names d vs s n := by
  induction depth using Nat.strong_induction_on generalizing visited s n with
  | _ depth ih =>
    unfold recallName
    cases hprimitive : Ty.primitive? n with
    | some t => exact .pure fun d vs => by unfold resolveName; simp only [hprimitive]
    | none =>
      cases hlookup : names.lookup n with
      | none =>
        refine fun memo _ => .inl ⟨_, ?_, rfl⟩
        unfold resolveName
        simp only [hprimitive, hlookup]
      | some k =>
        cases k with
        | defined =>
          refine .pure fun d vs => ?_
          unfold resolveName
          simp only [hprimitive, hlookup]
        | «alias» decl e =>
          refine recalls_recallAlias hprimitive hlookup hroom ?_
          rintro d rfl hroom'
          exact recalls_resolveWith hroom' (ih d (Nat.lt_succ_self d) hroom') e

end Aliases

/-- **A memo changes no result.**  Type expressions that are resolved one after the other have the
types that they have by themselves, and the first one that has none fails in the same way. -/
theorem recallAll_eq (names : TypeNames) (es : List TypeExpr) :
    (resolveAllWith (recallName names names.length) es).run' [] = resolveAll names es := by
  have hempty : Remembers names [] [] := ⟨by simp, by simp⟩
  rcases recalls_resolveAllWith (.start names) (recalls_resolveName (.start names))
    es [] hempty with
    ⟨err, hplain, hrun⟩ | ⟨ts, memo, hrun, -, -, hsettled⟩
  · rw [StateT.run', hrun]
    exact hplain.symm
  · rw [StateT.run', hrun]
    exact (hsettled _ _ (.start names) (forall_mem_nil _)).symm

end Minilang.Typing
