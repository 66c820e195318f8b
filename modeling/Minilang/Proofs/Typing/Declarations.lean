import Minilang.Proofs.Value.Shape
import Minilang.Typing.Package

/-!
# What declarations promise

What the check of a body can rely on: a written type is neither `unit` nor `never`, the fields of a
structure have different names, the variants of an enum are its own, and every declared function has
the types of its signature and a name of its own.

The facts about assignability are here as well: it is transitive, and both types are assignable to
their join.
-/

namespace Minilang

open List

namespace Ty

lemma assignable_iff {a b : Ty} : a.assignable b ≠ .no ↔
    a = b ∨ a = .never ∨ (a = .array .never ∧ ∃ e, b = .array e) ∨ a = .int ∧ b = .float := by
  have hcases : a.assignable b ≠ .no ↔ a.Sub b ∨ a.assignable b = .widened := by
    unfold Sub
    cases a.assignable b <;> simp
  rw [hcases, sub_iff, assignable_eq_widened, or_assoc, or_assoc]

lemma assignable_trans {a b d : Ty} (hab : a.assignable b ≠ .no) (hbd : b.assignable d ≠ .no) :
    a.assignable d ≠ .no := by
  rw [assignable_iff] at *
  rcases hab with rfl | rfl | ⟨rfl, e, rfl⟩ | ⟨rfl, rfl⟩
  · exact hbd
  · exact .inr (.inl rfl)
  · rcases hbd with rfl | h | ⟨-, e', rfl⟩ | ⟨h, -⟩
    · exact .inr (.inr (.inl ⟨rfl, e, rfl⟩))
    · cases h
    · exact .inr (.inr (.inl ⟨rfl, e', rfl⟩))
    · cases h
  · rcases hbd with rfl | h | ⟨h, -⟩ | ⟨h, -⟩
    · exact .inr (.inr (.inr ⟨rfl, rfl⟩))
    · cases h
    · cases h
    · cases h

lemma assignable_refl (a : Ty) : a.assignable a ≠ .no :=
  assignable_iff.mpr (.inl rfl)

lemma assignable_float {a : Ty} (h : a.isNumeric = true) : a.assignable .float ≠ .no := by
  cases a with
  | int | float => decide
  | _ => cases h

lemma assignable_join {a b j : Ty} (h : a.join? b = some j) :
    a.assignable j ≠ .no ∧ b.assignable j ≠ .no := by
  simp only [join?] at h
  split at h
  · rename_i ha
    cases h
    exact ⟨assignable_iff.mpr (.inr (.inl ha)), assignable_refl _⟩
  split at h
  · rename_i hb
    cases h
    exact ⟨assignable_refl _, assignable_iff.mpr (.inr (.inl hb))⟩
  split at h
  · rename_i hab
    cases h
    exact ⟨assignable_refl _, hab ▸ assignable_refl _⟩
  split at h
  · rename_i hnumeric
    cases h
    obtain ⟨ha, hb⟩ := Bool.and_eq_true_iff.mp hnumeric
    exact ⟨assignable_float ha, assignable_float hb⟩
  split at h
  · cases h
    exact ⟨assignable_iff.mpr (.inr (.inr (.inl ⟨rfl, _, rfl⟩))), assignable_refl _⟩
  · cases h
    exact ⟨assignable_refl _, assignable_iff.mpr (.inr (.inr (.inl ⟨rfl, _, rfl⟩)))⟩
  · cases h

end Ty

variable {names : TypeNames} {defs : List TypeDef}

namespace Typing

lemma bind_ok {ε α β : Type} {x : Except ε α} {f : α → Except ε β} {b : β}
    (h : x >>= f = .ok b) : ∃ a, x = .ok a ∧ f a = .ok b := by
  cases x with
  | error e => cases h
  | ok a => exact ⟨a, rfl, h⟩

/-! ### Types -/

variable {t : Ty} {e : TypeExpr}

lemma resolveWith_ne {named : Span → Bytes → Check Ty}
    (hnamed : ∀ {s n t}, named s n = .ok t → t ≠ .unit ∧ t ≠ .never)
    (h : resolveWith named e = .ok t) : t ≠ .unit ∧ t ≠ .never := by
  cases e with
  | named s n => exact hnamed h
  | array s elem =>
    rw [resolveWith] at h
    obtain ⟨_, -, ⟨⟩⟩ := bind_ok h
    exact ⟨nofun, nofun⟩
  | func s params result =>
    rw [resolveWith] at h
    obtain ⟨_, -, h⟩ := bind_ok h
    cases result with
    | none =>
      cases h
      exact ⟨nofun, nofun⟩
    | some r =>
      obtain ⟨_, -, ⟨⟩⟩ := bind_ok h
      exact ⟨nofun, nofun⟩

lemma primitive_ne {name : Bytes} (h : Ty.primitive? name = some t) : t ≠ .unit ∧ t ≠ .never := by
  unfold Ty.primitive? at h
  repeat' split at h
  all_goals cases h
  all_goals exact ⟨nofun, nofun⟩

variable {params : List Param} {ps : List Ty} {result : Option TypeExpr} {r? : Option Ty}

lemma resolveName_ne {depth : Nat} {visited : List Bytes} {s : Span} {n : Bytes}
    (h : resolveName names depth visited s n = .ok t) : t ≠ .unit ∧ t ≠ .never := by
  induction depth generalizing visited s n t with
  | zero =>
    simp only [resolveName] at h
    split at h
    · cases h
      exact primitive_ne ‹_›
    · split at h
      · cases h
      · cases h
        exact ⟨nofun, nofun⟩
      · split at h <;> cases h
  | succ depth ih =>
    simp only [resolveName] at h
    split at h
    · cases h
      exact primitive_ne ‹_›
    · split at h
      · cases h
      · cases h
        exact ⟨nofun, nofun⟩
      · split at h
        · cases h
        · exact resolveWith_ne (fun h => ih h) h

lemma resolve_ne (h : resolve names e = .ok t) : t ≠ .unit ∧ t ≠ .never :=
  resolveWith_ne resolveName_ne h

/-! ### Signatures -/

lemma signatureGo_types {seen : List Bytes} {done : List Ty}
    (h : signature.go names seen done params = .ok ps) : ∃ ts, ps = done.reverse ++ ts ∧
      Forall₂ (fun p t => resolve names p.type = .ok t) params ts := by
  induction params generalizing seen done with
  | nil =>
    cases h
    exact ⟨[], by simp, .nil⟩
  | cons p params ih =>
    rw [signature.go] at h
    split at h
    · cases h
    · obtain ⟨t, ht, h⟩ := bind_ok h
      obtain ⟨ts, rfl, hts⟩ := ih h
      exact ⟨t :: ts, by simp, .cons ht hts⟩

lemma signature_types (h : signature names params result = .ok (ps, r?)) :
    Forall₂ (fun p t => resolve names p.type = .ok t) params ps ∧
    ∀ t ∈ r?, ∃ e, resolve names e = .ok t := by
  obtain ⟨ps', hps, h⟩ := bind_ok h
  obtain ⟨ts, rfl, hts⟩ := signatureGo_types hps
  cases result with
  | none =>
    cases h
    exact ⟨hts, nofun⟩
  | some r =>
    obtain ⟨t, ht, ⟨⟩⟩ := bind_ok h
    refine ⟨hts, ?_⟩
    rintro _ ⟨⟩
    exact ⟨r, ht⟩

lemma signature_spec (h : signature names params result = .ok (ps, r?)) :
    ps.length = params.length ∧ .never ∉ ps ∧ r? ≠ some .unit := by
  obtain ⟨hps, hr⟩ := signature_types h
  refine ⟨hps.length_eq.symm, fun hnever => ?_, fun hunit => ?_⟩
  · obtain ⟨i, hi, heq⟩ := getElem_of_mem hnever
    exact (resolve_ne (hps.get (hps.length_eq ▸ hi) hi)).2 heq
  · obtain ⟨e, he⟩ := hr .unit hunit
    exact (resolve_ne he).1 rfl

/-! ### Definitions -/

end Typing

/-- The fields of a structure have different names, and the variants of an enum are its own. -/
def TypeDef.Valid (d : TypeDef) : Prop :=
  match d.body with
  | .struct fields => (fields.map Prod.fst).Nodup
  | .enum variants => ∀ v ∈ variants, v.enum = d.name
  | .alias _ => True

lemma TypeDef.find?_spec {name : Bytes} {d : TypeDef}
    (h : find? defs name = some d) : d ∈ defs ∧ d.name = name :=
  ⟨mem_of_find?_eq_some h, by simpa using find?_some h⟩

namespace Typing

lemma resolveFields_nodup {struct : Bytes} {done fields : List (Bytes × Ty)} {fs : List Param}
    (h : resolveFields names struct done fs = .ok fields) (hdone : (done.map Prod.fst).Nodup) :
    (fields.map Prod.fst).Nodup := by
  induction fs generalizing done with
  | nil =>
    cases h
    exact hdone
  | cons f fs ih =>
    rw [resolveFields] at h
    split at h
    · cases h
    rename_i hnew
    obtain ⟨_, -, h⟩ := bind_ok h
    refine ih h ?_
    rw [map_append, map_cons, map_nil, ← concat_eq_append, nodup_concat]
    refine ⟨fun hmem => ?_, hdone⟩
    obtain ⟨e, he, hname⟩ := mem_map.mp hmem
    have hsome : (done.lookup f.name.text).isSome :=
      lookup_isSome_iff.mpr ⟨e, he, by simp [hname]⟩
    exact hnew hsome

lemma resolveVariants_enum {enum : Bytes} {done variants : List Variant}
    {vs : List VariantDecl} (h : resolveVariants names enum done vs = .ok variants)
    (hdone : ∀ v ∈ done, v.enum = enum) : ∀ v ∈ variants, v.enum = enum := by
  induction vs generalizing done with
  | nil =>
    cases h
    exact hdone
  | cons v vs ih =>
    rw [resolveVariants] at h
    split at h
    · cases h
    obtain ⟨_, -, h⟩ := bind_ok h
    refine ih h fun w hw => ?_
    rcases mem_append.mp hw with hw | hw
    · exact hdone w hw
    · rw [mem_singleton.mp hw]

lemma resolveDecl_valid {decl : Decl Unit} {d : TypeDef}
    (h : resolveDecl names decl = .ok (some d)) : d.Valid := by
  match decl with
  | .func _ => cases h
  | .struct _ name fields =>
    obtain ⟨fields', hfields, ⟨⟩⟩ := bind_ok h
    exact resolveFields_nodup hfields nodup_nil
  | .enum _ name variants =>
    obtain ⟨variants', hvariants, ⟨⟩⟩ := bind_ok h
    exact resolveVariants_enum hvariants (by simp)
  | .alias _ name _ =>
    obtain ⟨_, -, ⟨⟩⟩ := bind_ok h
    trivial

variable {ds : List (Decl Unit)}

/-- The type that a declaration defines. -/
def defOf (names : TypeNames) (d : Decl Unit) : Option TypeDef :=
  (resolveDecl names d).toOption.join

lemma resolveDecls_append {done : List TypeDef} : resolveDecls names done ds = .ok defs ↔
      (∀ d ∈ ds, ∃ t?, resolveDecl names d = .ok t?) ∧
      defs = done ++ ds.filterMap (defOf names) := by
  induction ds generalizing done with
  | nil => simp [resolveDecls, eq_comm]
  | cons d ds ih =>
    rw [resolveDecls]
    cases hd : resolveDecl names d with
    | error e =>
      refine iff_of_false (by simp [bind, Except.bind]) fun h => ?_
      obtain ⟨t?, ht⟩ := h.1 d mem_cons_self
      rw [hd] at ht
      cases ht
    | ok t? =>
      have hdef : defOf names d = t? := by simp [defOf, hd, Except.toOption]
      cases t? with
      | none => simp [bind, Except.bind, ih, hd, hdef]
      | some t => simp [bind, Except.bind, ih, hd, hdef]

lemma resolveDecls_iff : resolveDecls names [] ds = .ok defs ↔
      (∀ d ∈ ds, ∃ t?, resolveDecl names d = .ok t?) ∧ defs = ds.filterMap (defOf names) :=
  resolveDecls_append

lemma resolveDecls_valid (h : resolveDecls names [] ds = .ok defs) : ∀ d ∈ defs, d.Valid := by
  obtain ⟨hall, rfl⟩ := resolveDecls_iff.mp h
  intro d hd
  obtain ⟨decl, hdecl, hdef⟩ := mem_filterMap.mp hd
  obtain ⟨t?, ht⟩ := hall decl hdecl
  simp only [defOf, ht, Except.toOption, Option.join_some] at hdef
  exact resolveDecl_valid (hdef ▸ ht)

/-! ### Functions -/

/-- The name of a function. -/
abbrev FuncInfo.name (f : FuncInfo) : Bytes := f.decl.name.text

/-- The types are those of the function's signature. -/
def FuncInfo.Valid (names : TypeNames) (f : FuncInfo) : Prop :=
  signature names f.decl.params f.decl.result = .ok (f.params, f.result?)

variable {fs : List (FuncDecl Unit)} {funcs : List FuncInfo}

/-- The function with its signature. -/
def infoOf (names : TypeNames) (f : FuncDecl Unit) : Option FuncInfo :=
  (signature names f.params f.result).toOption.map fun r => ⟨f, r.1, r.2⟩

/-- What the declaration of a function has to be like. -/
structure Declarable (names : TypeNames) (f : FuncDecl Unit) : Prop where
  builtin : Builtin.ofName? f.name.text = none
  type : names.lookup f.name.text = none
  signature : ∃ r, signature names f.params f.result = .ok r

lemma declareFuncs_append {done : List FuncInfo} (hdone : (done.map FuncInfo.name).Nodup) :
    declareFuncs names done fs = .ok funcs ↔ (∀ f ∈ fs, Declarable names f) ∧
      (funcs.map FuncInfo.name).Nodup ∧ funcs = done ++ fs.filterMap (infoOf names) := by
  induction fs generalizing done with
  | nil =>
    simp only [declareFuncs, Except.ok.injEq, filterMap_nil, append_nil, not_mem_nil,
      false_implies, implies_true, true_and]
    constructor
    · rintro rfl
      exact ⟨hdone, rfl⟩
    · exact fun h => h.2.symm
  | cons f fs ih =>
    have hinfo : ∀ {r}, signature names f.params f.result = .ok r →
        infoOf names f = some ⟨f, r.1, r.2⟩ := fun hr => by simp [infoOf, hr, Except.toOption]
    simp only [declareFuncs, bind, Except.bind]
    split
    · rename_i hbuiltin
      refine iff_of_false (by simp) fun h => ?_
      rw [(h.1 f mem_cons_self).builtin] at hbuiltin
      cases hbuiltin
    rename_i hbuiltin
    split
    · rename_i hany
      refine iff_of_false (by simp) fun h => ?_
      obtain ⟨g, hg, hname⟩ := any_eq_true.mp hany
      obtain ⟨r, hr⟩ := (h.1 f mem_cons_self).signature
      have hnodup := h.2.1
      rw [h.2.2, filterMap_cons_some (hinfo hr), map_append, nodup_append] at hnodup
      exact hnodup.2.2 _ (mem_map_of_mem hg) _ mem_cons_self (of_decide_eq_true hname)
    rename_i hany
    split
    · rename_i hsome
      refine iff_of_false (by simp) fun h => ?_
      rw [(h.1 f mem_cons_self).type] at hsome
      cases hsome
    rename_i htype
    split
    · rename_i e he
      refine iff_of_false (by simp) fun h => ?_
      obtain ⟨r, hr⟩ := (h.1 f mem_cons_self).signature
      rw [he] at hr
      cases hr
    · rename_i r hr
      have hdeclarable : Declarable names f :=
        ⟨Option.not_isSome_iff_eq_none.mp hbuiltin, Option.not_isSome_iff_eq_none.mp htype, r, hr⟩
      have hdone' : ((done ++ [(⟨f, r.1, r.2⟩ : FuncInfo)]).map FuncInfo.name).Nodup := by
        rw [map_append, map_singleton, ← concat_eq_append, nodup_concat]
        refine ⟨fun hmem => hany ?_, hdone⟩
        obtain ⟨g, hg, hname⟩ := mem_map.mp hmem
        exact any_eq_true.mpr ⟨g, hg, by simpa using hname⟩
      rw [ih hdone', filterMap_cons_some (hinfo hr)]
      simp [hdeclarable]

lemma declareFuncs_iff : declareFuncs names [] fs = .ok funcs ↔ (∀ f ∈ fs, Declarable names f) ∧
      (funcs.map FuncInfo.name).Nodup ∧ funcs = fs.filterMap (infoOf names) :=
  have hnil : (([] : List FuncInfo).map FuncInfo.name).Nodup := nodup_nil
  declareFuncs_append hnil

lemma declareFuncs_spec (h : declareFuncs names [] fs = .ok funcs) :
    funcs.map FuncInfo.decl = fs ∧ (∀ f ∈ funcs, f.Valid names) ∧
    (funcs.map FuncInfo.name).Nodup := by
  obtain ⟨hall, hnodup, rfl⟩ := declareFuncs_iff.mp h
  have hinfo : ∀ f ∈ fs, ∃ g : FuncInfo, infoOf names f = some g ∧ g.decl = f ∧ g.Valid names := by
    intro f hf
    obtain ⟨-, -, r, hr⟩ := hall f hf
    exact ⟨⟨f, r.1, r.2⟩, by simp [infoOf, hr, Except.toOption], rfl, hr⟩
  refine ⟨?_, fun g hg => ?_, hnodup⟩
  · rw [map_filterMap, filterMap_congr fun f hf => ?_, filterMap_some]
    obtain ⟨g, hg, hdecl, -⟩ := hinfo f hf
    rw [hg, Option.map_some, hdecl]
  · obtain ⟨f, hf, hfg⟩ := mem_filterMap.mp hg
    obtain ⟨g', hg', -, hvalid⟩ := hinfo f hf
    rw [hg'] at hfg
    cases hfg
    exact hvalid

end Typing

end Minilang
