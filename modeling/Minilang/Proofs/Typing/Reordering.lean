import Minilang.Proofs.Typing.Inference

/-!
# The order of declarations

The declarations of a program can be written in any order.  The names of types are all declared
before any of them is looked up, so the definitions and the signatures of the functions come out the
same, in the new order; and the bodies of the functions are checked to the same end by
`checkFuncs_perm`.
-/

namespace Minilang.Typing

open List

/-! ### Lists without duplicate names -/

variable {β : Type} {f : β → Bytes}

lemma lookup_perm {l l' : List (Bytes × β)} (h : l.Perm l') (hl : (l.map Prod.fst).Nodup)
    (x : Bytes) : l.lookup x = l'.lookup x := by
  have hl' := (h.map Prod.fst).nodup_iff.mp hl
  refine Option.ext fun v => ⟨fun hv => ?_, fun hv => ?_⟩
  · exact lookup_of_mem hl' (h.mem_iff.mp (mem_of_lookup hv))
  · exact lookup_of_mem hl (h.mem_iff.mpr (mem_of_lookup hv))

lemma find?_perm {l l' : List β} (h : l.Perm l') (hl : (l.map f).Nodup) (x : Bytes) :
    l.find? (fun b => f b = x) = l'.find? fun b => f b = x := by
  have hl' := (h.map f).nodup_iff.mp hl
  refine Option.ext fun b => ?_
  rw [find?_eq_some_iff hl, find?_eq_some_iff hl', h.mem_iff]

/-! ### Names of types -/

variable {names names' : TypeNames} {ds ds' : List (Decl Unit)}

/-- The entry of a declaration among the names of types. -/
def namedType? (d : Decl Unit) : Option (Bytes × TypeName) :=
  (typeName? d).map fun e => (e.1.text, e.2)

lemma declareTypes_append (hnames : (names.map Prod.fst).Nodup) :
    declareTypes names ds = .ok names' ↔ names' = names ++ ds.filterMap namedType? ∧
      (names'.map Prod.fst).Nodup ∧ ∀ e ∈ ds.filterMap namedType?, Ty.primitive? e.1 = none := by
  induction ds generalizing names with
  | nil =>
    simp only [declareTypes, Except.ok.injEq, filterMap_nil, append_nil, not_mem_nil,
      false_implies, implies_true, and_true]
    constructor
    · rintro rfl
      exact ⟨rfl, hnames⟩
    · exact fun h => h.1.symm
  | cons d ds ih =>
    rw [declareTypes]
    cases hd : typeName? d with
    | none =>
      have hentry : namedType? d = none := by simp [namedType?, hd]
      rw [filterMap_cons_none hentry]
      exact ih hnames
    | some e =>
      obtain ⟨name, t⟩ := e
      have hentry : namedType? d = some (name.text, t) := by simp [namedType?, hd]
      rw [filterMap_cons_some hentry]
      dsimp only
      split
      · rename_i hprimitive
        refine iff_of_false (by simp) fun h => ?_
        rw [h.2.2 _ mem_cons_self] at hprimitive
        cases hprimitive
      split
      · rename_i hsome
        refine iff_of_false (by simp) fun h => ?_
        obtain ⟨v, hv⟩ := Option.isSome_iff_exists.mp hsome
        have hnodup := h.2.1
        rw [h.1, map_append, nodup_append] at hnodup
        exact hnodup.2.2 _ (mem_map_of_mem (mem_of_lookup hv)) _ mem_cons_self rfl
      · rename_i hprimitive hnone
        have hprimitive' : Ty.primitive? name.text = none := by simpa using hprimitive
        have hnodup : ((names ++ [(name.text, t)]).map Prod.fst).Nodup := by
          rw [map_append, map_singleton, ← concat_eq_append, nodup_concat]
          refine ⟨fun hmem => hnone ?_, hnames⟩
          obtain ⟨e, he, hname⟩ := mem_map.mp hmem
          exact lookup_isSome_iff.mpr ⟨e, he, by simp [hname]⟩
        rw [ih hnodup]
        simp [hprimitive']

/-- The names of types are those of the declarations, without duplicates and basic types. -/
theorem declareTypes_iff : declareTypes [] ds = .ok names ↔ names = ds.filterMap namedType? ∧
      (names.map Prod.fst).Nodup ∧ ∀ e ∈ ds.filterMap namedType?, Ty.primitive? e.1 = none :=
  have hnil : (([] : TypeNames).map Prod.fst).Nodup := nodup_nil
  declareTypes_append hnil

lemma declareTypes_perm (hds : ds.Perm ds') (h : declareTypes [] ds = .ok names) :
    ∃ names', declareTypes [] ds' = .ok names' ∧ names.Perm names' := by
  obtain ⟨rfl, hnodup, hprimitive⟩ := declareTypes_iff.mp h
  have hperm := hds.filterMap namedType?
  refine ⟨_, declareTypes_iff.mpr ⟨rfl, (hperm.map Prod.fst).nodup_iff.mp hnodup, fun e he => ?_⟩,
    hperm⟩
  exact hprimitive e (hperm.mem_iff.mpr he)

/-! ### Types -/

section Types

variable (hlookup : ∀ x, names.lookup x = names'.lookup x) (hlength : names.length = names'.length)
include hlookup

lemma resolveName_congr (depth : Nat) (visited : List Bytes) :
    resolveName names depth visited = resolveName names' depth visited := by
  induction depth generalizing visited with
  | zero =>
    funext span x
    unfold resolveName
    rw [hlookup]
  | succ depth ih =>
    funext span x
    unfold resolveName
    simp [hlookup, ih]

include hlength

lemma resolve_congr (t : TypeExpr) : resolve names t = resolve names' t := by
  unfold resolve
  rw [resolveName_congr hlookup, hlength]

lemma resolveAll_congr (ts : List TypeExpr) : resolveAll names ts = resolveAll names' ts := by
  unfold resolveAll
  rw [resolveName_congr hlookup, hlength]

lemma resolveFields_congr (struct : Bytes) (done : List (Bytes × Ty)) (fs : List Param) :
    resolveFields names struct done fs = resolveFields names' struct done fs := by
  induction fs generalizing done with
  | nil => rfl
  | cons f fs ih => simp [resolveFields, resolve_congr hlookup hlength, ih]

lemma resolveVariants_congr (enum : Bytes) (done : List Variant) (vs : List VariantDecl) :
    resolveVariants names enum done vs = resolveVariants names' enum done vs := by
  induction vs generalizing done with
  | nil => rfl
  | cons v vs ih => simp [resolveVariants, resolveAll_congr hlookup hlength, ih]

lemma resolveDecl_congr (d : Decl Unit) : resolveDecl names d = resolveDecl names' d := by
  match d with
  | .func f => rfl
  | .struct s name fields => simp [resolveDecl, resolveFields_congr hlookup hlength]
  | .enum s name variants => simp [resolveDecl, resolveVariants_congr hlookup hlength]
  | .alias s name type => simp [resolveDecl, resolveName_congr hlookup, hlength]

end Types

/-! ### Definitions -/

variable {defs : List TypeDef}

lemma name_defOf {d : Decl Unit} {t? : Option TypeDef} (h : resolveDecl names d = .ok t?) :
    t?.map TypeDef.name = (namedType? d).map Prod.fst := by
  match d with
  | .func _ =>
    cases h
    rfl
  | .struct _ _ _ | .enum _ _ _ | .alias _ _ _ =>
    obtain ⟨_, -, ⟨⟩⟩ := bind_ok h
    rfl

lemma names_defs (h : ∀ d ∈ ds, ∃ t?, resolveDecl names d = .ok t?) :
    (ds.filterMap (defOf names)).map TypeDef.name = (ds.filterMap namedType?).map Prod.fst := by
  rw [map_filterMap, map_filterMap]
  refine filterMap_congr fun d hd => ?_
  obtain ⟨t?, ht⟩ := h d hd
  have hdef : defOf names d = t? := by simp [defOf, ht, Except.toOption]
  rw [hdef]
  exact name_defOf ht

lemma resolveDecls_perm (h : ∀ d : Decl Unit, resolveDecl names d = resolveDecl names' d)
    (hds : ds.Perm ds') (hdefs : resolveDecls names [] ds = .ok defs) :
    ∃ defs', resolveDecls names' [] ds' = .ok defs' ∧ defs.Perm defs' := by
  obtain ⟨hall, rfl⟩ := resolveDecls_iff.mp hdefs
  have hdef : defOf names = defOf names' := by
    funext d
    rw [defOf, defOf, h]
  refine ⟨_, resolveDecls_iff.mpr ⟨fun d hd => ?_, rfl⟩, hdef ▸ hds.filterMap _⟩
  rw [← h]
  exact hall d (hds.mem_iff.mpr hd)

/-! ### Functions -/

variable {funcs : List FuncInfo} {fs : List (FuncDecl Unit)}

lemma declareFuncs_perm (hnames : names.Perm names')
    (hlookup : ∀ x, names.lookup x = names'.lookup x) {fs' : List (FuncDecl Unit)}
    (hfs : fs.Perm fs') (h : declareFuncs names [] fs = .ok funcs) :
    ∃ funcs', declareFuncs names' [] fs' = .ok funcs' ∧ funcs.Perm funcs' := by
  obtain ⟨hall, hnodup, rfl⟩ := declareFuncs_iff.mp h
  have hsignature : ∀ f : FuncDecl Unit,
      signature names f.params f.result = signature names' f.params f.result := fun f =>
    signature_congr (resolve_congr hlookup hnames.length_eq) f.params f.result
  have hinfo : infoOf names = infoOf names' := by
    funext f
    rw [infoOf, infoOf, hsignature]
  have hperm : (fs.filterMap (infoOf names)).Perm (fs'.filterMap (infoOf names')) :=
    hinfo ▸ hfs.filterMap _
  refine ⟨_, declareFuncs_iff.mpr ⟨fun f hf => ?_,
    (hperm.map FuncInfo.name).nodup_iff.mp hnodup, rfl⟩, hperm⟩
  obtain ⟨hbuiltin, htype, r, hr⟩ := hall f (hfs.mem_iff.mpr hf)
  exact ⟨hbuiltin, (hlookup _).symm.trans htype, r, (hsignature f).symm.trans hr⟩

/-! ### Programs -/

variable {p' p : Program Unit} {package : Package} {c : Context} {q : Progress}

namespace Passes

variable (h : Passes p c q)

include h

lemma nodup_names : (c.names.map Prod.fst).Nodup :=
  (declareTypes_iff.mp h.names).2.1

lemma nodup_funcs : (c.funcs.map FuncInfo.name).Nodup :=
  (declareFuncs_iff.mp h.funcs).2.1

lemma nodup_defs : (c.defs.map TypeDef.name).Nodup := by
  obtain ⟨hall, hdefs⟩ := resolveDecls_iff.mp h.defs
  rw [hdefs, names_defs hall, ← (declareTypes_iff.mp h.names).1]
  exact h.nodup_names

lemma complete : Complete c q :=
  .of_checkFuncs h.nodup_funcs h.progress

/-- **A program with its declarations in another order passes the check**, with the same names and
the same bodies. -/
theorem perm (hperm : p.decls.Perm p'.decls) :
    ∃ c' q', Passes p' c' q' ∧ c.Alike c' ∧ c.funcs.Perm c'.funcs ∧
      ∀ name, q'.lookup name = q.lookup name := by
  obtain ⟨names, hnames, hperm_names⟩ := declareTypes_perm hperm h.names
  have hlookup : ∀ x, c.names.lookup x = names.lookup x := lookup_perm hperm_names h.nodup_names
  obtain ⟨defs, hdefs, hperm_defs⟩ := resolveDecls_perm
    (resolveDecl_congr hlookup hperm_names.length_eq) hperm h.defs
  obtain ⟨funcs, hfuncs, hperm_funcs⟩ := declareFuncs_perm hperm_names hlookup
    (hperm.filterMap _) h.funcs
  have halike : c.Alike ⟨names, defs, funcs⟩ :=
    ⟨resolve_congr hlookup hperm_names.length_eq, find?_perm hperm_defs h.nodup_defs,
      find?_perm hperm_funcs h.nodup_funcs⟩
  obtain ⟨q', hq', hlookup'⟩ := checkFuncs_perm halike hperm_funcs h.nodup_funcs h.progress
  have hmain : requireMain p'.span ⟨names, defs, funcs⟩ = .ok () := by
    have hmain := h.main
    unfold requireMain at hmain ⊢
    rw [← halike.funcs]
    split at hmain
    · cases hmain
    · exact hmain
  exact ⟨_, q', ⟨hnames, hdefs, hfuncs, hmain, hq'⟩, halike, hperm_funcs, hlookup'⟩

lemma mem_funcs {f : FuncDecl Unit} (hf : f ∈ p.funcs) : ∃ ps r?,
    signature c.names f.params f.result = .ok (ps, r?) ∧ (⟨f, ps, r?⟩ : FuncInfo) ∈ c.funcs := by
  obtain ⟨hdeclarable, -, hfuncs⟩ := declareFuncs_iff.mp h.funcs
  obtain ⟨r, hr⟩ := (hdeclarable f hf).signature
  refine ⟨r.1, r.2, hr, ?_⟩
  rw [hfuncs]
  exact mem_filterMap.mpr ⟨f, hf, by simp [infoOf, hr, Except.toOption]⟩

lemma annotate_decls : (p.decls.filterMap (annotate q)).map some = p.decls.map (annotate q) := by
  have hsome : ∀ d ∈ p.decls, ∃ d', annotate q d = some d' := by
    intro d hd
    match d with
    | .func f =>
      have hf : f ∈ p.funcs := mem_filterMap.mpr ⟨.func f, hd, rfl⟩
      obtain ⟨_, _, -, hmem⟩ := h.mem_funcs hf
      obtain ⟨b, hb⟩ := h.complete.all _ hmem
      exact ⟨.func ⟨f.span, f.name, f.params, f.result, b.body⟩, by simp [annotate, hb]⟩
    | .struct _ _ _ | .enum _ _ _ | .alias _ _ _ => exact ⟨_, rfl⟩
  generalize p.decls = ds at hsome
  induction ds with
  | nil => rfl
  | cons d ds ih =>
    obtain ⟨d', hd'⟩ := hsome d mem_cons_self
    rw [filterMap_cons_some hd', map_cons, map_cons, hd',
      ih fun e he => hsome e (mem_cons_of_mem d he)]

lemma signatures_eq : ∃ result : FuncInfo → Ty,
    c.funcs.filterMap (checkedType q) = c.funcs.map fun f =>
    (f.name, .func f.params (result f)) := by
  have hnonempty : Nonempty CheckedBody := ⟨⟨.unit, .mk .none .blank [] none⟩⟩
  have hall := h.complete.all
  choose! body hbody using hall
  refine ⟨fun f => (body f).result, ?_⟩
  rw [← filterMap_eq_map]
  refine filterMap_congr fun f hf => ?_
  simp [checkedType, hbody f hf]

end Passes

/-- Two checked programs that differ in the order of their declarations: a function has the same
type in both, a name of a type the same definition, and a declaration the same notes on all of its
nodes. -/
structure SamePackage (p p' : Program Unit) (package package' : Package) : Prop where
  funcs : ∀ name, package.signatures.lookup name = package'.signatures.lookup name
  types : ∀ name, TypeDef.find? package.defs name = TypeDef.find? package'.defs name
  notes : ∃ checked : Decl Unit → Option (Decl Note),
    package.program.decls.map some = p.decls.map checked ∧
      package'.program.decls.map some = p'.decls.map checked

lemma Passes.same {c' : Context} {q' : Progress} (h : Passes p c q) (h' : Passes p' c' q')
    (hc : c.Alike c') (hfuncs : c.funcs.Perm c'.funcs)
    (hlookup : ∀ name, q'.lookup name = q.lookup name) :
    SamePackage p p' (packageOf p c q) (packageOf p' c' q') := by
  have hannotate : annotate q' = annotate q := by
    funext d
    match d with
    | .func f => simp [annotate, hlookup]
    | .struct _ _ _ | .enum _ _ _ | .alias _ _ _ => rfl
  have hchecked : checkedType q' = checkedType q := by
    funext f
    simp [checkedType, hlookup]
  refine ⟨lookup_perm ?_ ?_, hc.defs, annotate q, h.annotate_decls, ?_⟩
  · rw [packageOf, packageOf, hchecked]
    exact hfuncs.filterMap (checkedType q)
  · obtain ⟨result, hresult⟩ := h.signatures_eq
    have hnames : (packageOf p c q).signatures.map Prod.fst = c.funcs.map FuncInfo.name := by
      simp [packageOf, hresult]
    rw [hnames]
    exact h.nodup_funcs
  · rw [← hannotate]
    exact h'.annotate_decls

lemma checkProgram_perm (hperm : p.decls.Perm p'.decls) (h : checkProgram p = .ok package) :
    ∃ package', checkProgram p' = .ok package' ∧ SamePackage p p' package package' := by
  obtain ⟨c, q, hpasses, rfl⟩ := checkProgram_iff.mp h
  obtain ⟨c', q', hpasses', hc, hfuncs, hlookup⟩ := hpasses.perm hperm
  exact ⟨_, checkProgram_iff.mpr ⟨c', q', hpasses', rfl⟩, hpasses.same hpasses' hc hfuncs hlookup⟩

/-- The body of every function has been checked once: the log of the check has one beginning and one
end for it. -/
def CheckedOnce (p : Program Unit) (package : Package) : Prop :=
  ∃ (c : Context) (q : Progress), Passes p c q ∧ package = packageOf p c q ∧
    q.begun.Perm (p.funcs.map fun f => f.name.text) ∧
    (q.done.map Prod.fst).Perm (p.funcs.map fun f => f.name.text)

lemma checkedOnce (h : checkProgram p = .ok package) : CheckedOnce p package := by
  obtain ⟨c, q, hpasses, rfl⟩ := checkProgram_iff.mp h
  have hdecls : c.funcs.map FuncInfo.decl = p.funcs :=
    (declareFuncs_spec hpasses.funcs).1
  have hnames : c.funcs.map FuncInfo.name = p.funcs.map fun f => f.name.text := by
    rw [← hdecls, map_map]
    rfl
  refine ⟨c, q, hpasses, rfl, ?_, ?_⟩
  · exact hnames ▸ hpasses.complete.begun_perm hpasses.nodup_funcs
  · exact hnames ▸ hpasses.complete.done_perm hpasses.nodup_funcs

/-- **The order of the declarations does not matter.**  A program with its declarations in another
order is accepted if and only if the program is, and what is found out about the declarations is the
same.  The body of every function is checked once, and no check of functions is cut short by the
limit to its depth. -/
theorem check_order_independent {p p' : Program Unit} (hperm : p.decls.Perm p'.decls) :
    ((∃ package, checkProgram p = .ok package) ↔ ∃ package', checkProgram p' = .ok package') ∧
    (∀ package package', checkProgram p = .ok package → checkProgram p' = .ok package' →
      SamePackage p p' package package' ∧ CheckedOnce p package ∧ CheckedOnce p' package') ∧
    ∀ (c : Context) (depth : Nat), c.funcs.length ≤ depth →
      checkFuncsWithin c depth [] c.funcs = checkFuncs c [] c.funcs := by
  refine ⟨⟨?_, ?_⟩, ?_, fun c depth hdepth => checkFuncsWithin_eq hdepth (fun _ hf => hf) []⟩
  · rintro ⟨package, h⟩
    obtain ⟨package', h', -⟩ := checkProgram_perm hperm h
    exact ⟨package', h'⟩
  · rintro ⟨package', h'⟩
    obtain ⟨package, h, -⟩ := checkProgram_perm hperm.symm h'
    exact ⟨package, h⟩
  · intro package package' h h'
    obtain ⟨package'', h'', hsame⟩ := checkProgram_perm hperm h
    obtain rfl := Except.ok.inj (h'.symm.trans h'')
    exact ⟨hsame, checkedOnce h, checkedOnce h'⟩

/-- A program in which the check of the first function needs the result types of later ones, and an
alias of a later one. -/
def backwards : Bytes :=
  "fn main() -> float \x7b total(pair(2)) \x7d
  fn total(xs: Row) \x7b let s = 0.5; for x in xs \x7b s = s + scale(x); \x7d s \x7d
  fn pair(n: int) \x7b [scale(n), 1] \x7d
  fn scale(n: Num) \x7b if n < 0 \x7b return 0; \x7d n * 1.5 \x7d
  type Row = [Num];
  type Num = float;"

/-- The declarations of `backwards` from the last to the first. -/
theorem check_order_independent_backwards : ∃ tree package package', parse backwards = .ok tree ∧
    checkProgram tree = .ok package ∧
    checkProgram ⟨tree.span, tree.decls.reverse⟩ = .ok package' ∧
    SamePackage tree ⟨tree.span, tree.decls.reverse⟩ package package' := by
  obtain ⟨tree, package, htree, hcheck, -⟩ :=
    @Package.of_any_ofText? backwards (fun _ => true) (by decide +kernel)
  obtain ⟨hiff, hsame, -⟩ := @check_order_independent tree ⟨tree.span, tree.decls.reverse⟩
    (List.reverse_perm tree.decls).symm
  obtain ⟨package', hcheck'⟩ := hiff.mp ⟨package, hcheck⟩
  exact ⟨tree, package, package', htree, hcheck, hcheck', (hsame package package' hcheck hcheck').1⟩

end Minilang.Typing
