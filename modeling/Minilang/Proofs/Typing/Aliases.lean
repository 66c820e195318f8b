import Minilang.Proofs.Typing.Memo
import Minilang.Proofs.Typing.Reordering
import Mathlib.Data.List.Forall2

/-!
# Type aliases

An alias stands for its type expression with all aliases in it expanded, which is possible as long
as no alias leads back to itself.  `Refers` is the graph of the aliases, and `Expands` gives the
full expansion of a type expression.  The search that resolves a name follows the aliases one after
the other, and keeps those that it is in.  It finds the expansion, or else an alias that it is in
already, and then the way between the two is a cycle.  In an expansion there is no cycle to be
found, so the two cases exclude each other.
-/

namespace Minilang

open Option List

/-! ### Names in types -/

variable {n : Bytes} {es : List TypeExpr} {t : Ty}

namespace TypeExpr

mutual

/-- The names in a type. -/
def names : TypeExpr → List Bytes
  | .named _ name => [name]
  | .array _ elem => elem.names
  | .func _ params none => namesAll params
  | .func _ params (some result) => namesAll params ++ result.names

/-- The names that stand in several type expressions. -/
def namesAll : List TypeExpr → List Bytes
  | [] => []
  | e :: es => e.names ++ namesAll es

end

lemma mem_namesAll : n ∈ namesAll es ↔ ∃ e ∈ es, n ∈ e.names := by
  induction es with
  | nil => simp [namesAll]
  | cons e es ih => simp [namesAll, ih]

end TypeExpr

namespace Ty

mutual

/-- The names of structures and enums that stand in a type. -/
def names : Ty → List Bytes
  | .int | .float | .bool | .string | .unit | .never => []
  | .named name => [name]
  | .array elem => elem.names
  | .func params result => namesAll params ++ result.names

/-- The names of structures and enums that stand in several types. -/
def namesAll : List Ty → List Bytes
  | [] => []
  | t :: ts => t.names ++ namesAll ts

end

lemma names_of_primitive (h : primitive? n = some t) : t.names = [] := by
  unfold primitive? at h
  repeat' split at h
  all_goals cases h
  all_goals rfl

end Ty

namespace Typing

/-! ### Aliases and expansions -/

variable {name : Name} {e : TypeExpr} {names : TypeNames}

/-- The declared names of types, with what they stand for. -/
def typeNames (ds : List (Decl Unit)) : TypeNames :=
  ds.filterMap namedType?

/-- One alias stands in the type expression of another one. -/
def Refers (names : TypeNames) (a b : Bytes) : Prop :=
  ∃ name e name' e', (a, .alias name e) ∈ names ∧ (b, .alias name' e') ∈ names ∧ b ∈ e.names

mutual

/-- The type that a type expression stands for, with all aliases in it expanded. -/
inductive Expands (names : TypeNames) : TypeExpr → Ty → Prop where
  | primitive {s n t} (h : Ty.primitive? n = some t) :
    Expands names (.named s n) t
  | defined {s n} (h : (n, .defined) ∈ names) : Expands names (.named s n) (.named n)
  | synonym {s n name e t}
    (h : (n, .alias name e) ∈ names) (he : Expands names e t) : Expands names (.named s n) t
  | array {s e t} (he : Expands names e t) :
    Expands names (.array s e) (.array t)
  | procedure {s ps ts} (hps : ExpandsAll names ps ts) :
    Expands names (.func s ps none) (.func ts .unit)
  | func {s ps r ts t}
    (hps : ExpandsAll names ps ts) (hr : Expands names r t) :
    Expands names (.func s ps (some r)) (.func ts t)

/-- The types that several type expressions stand for. -/
inductive ExpandsAll (names : TypeNames) : List TypeExpr → List Ty → Prop where
  | nil : ExpandsAll names [] []
  | cons {e es t ts} (he : Expands names e t)
    (hes : ExpandsAll names es ts) : ExpandsAll names (e :: es) (t :: ts)

end

/-- The definition of a declared type, with all aliases in it expanded. -/
inductive Defines (names : TypeNames) : Decl Unit → TypeDef → Prop where
  | struct {s name fs fields}
    (hfields : List.Forall₂ (fun f p => p.1 = f.name.text ∧ Expands names f.type p.2) fs fields) :
    Defines names (.struct s name fs) ⟨name.text, .struct fields⟩
  | enum {s name vs variants}
    (hvariants : List.Forall₂ (fun v w => w.enum = name.text ∧ w.name = v.name.text ∧
      ExpandsAll names v.payload w.payload) vs variants) :
    Defines names (.enum s name vs) ⟨name.text, .enum variants⟩
  | synonym {s name e t} (he : Expands names e t) :
    Defines names (.alias s name e) ⟨name.text, .alias t⟩

/-- The name is that of a type. -/
def Known (names : TypeNames) (n : Bytes) : Prop :=
  (Ty.primitive? n).isSome ∨ n ∈ names.map Prod.fst

instance (names : TypeNames) (n : Bytes) : Decidable (Known names n) :=
  inferInstanceAs (Decidable (_ ∨ _))

/-- Names of types without duplicates and basic types, where every alias is written in known names.
-/
structure Closed (names : TypeNames) : Prop where
  nodup : (names.map Prod.fst).Nodup
  notPrimitive : ∀ p ∈ names, Ty.primitive? p.1 = none
  known : ∀ {a name e}, (a, .alias name e) ∈ names → ∀ n ∈ e.names, Known names n

namespace Closed

lemma unique (hnames : Closed names) {k k' : TypeName} (h : (n, k) ∈ names)
    (h' : (n, k') ∈ names) : k = k' :=
  congrArg Prod.snd (inj_on_of_nodup_map hnames.nodup h h' rfl)

/-! ### Expansions are unique and lead to no cycle -/

lemma expands_named (hnames : Closed names) {s : Span} (hn : (n, .alias name e) ∈ names) :
    Expands names (.named s n) t ↔ Expands names e t := by
  refine ⟨fun h => ?_, .synonym hn⟩
  cases h with
  | primitive h =>
    rw [hnames.notPrimitive _ hn] at h
    cases h
  | defined h => cases hnames.unique hn h
  | synonym h he =>
    cases hnames.unique hn h
    exact he

mutual

theorem expands_unique (hnames : Closed names) : ∀ {e t t'},
    Expands names e t → Expands names e t' → t = t'
  | _, _, _, .primitive h, h' => by
    cases h' with
    | primitive h' => exact Option.some.inj (h.symm.trans h')
    | defined h' | synonym h' _ =>
      rw [hnames.notPrimitive _ h'] at h
      cases h
  | _, _, _, .defined h, h' => by
    cases h' with
    | primitive h' =>
      rw [hnames.notPrimitive _ h] at h'
      cases h'
    | defined => rfl
    | synonym h' _ => cases hnames.unique h h'
  | _, _, _, .synonym h he, h' => expands_unique hnames he ((hnames.expands_named h).mp h')
  | _, _, _, .array he, h' => by
    cases h' with
    | array he' => rw [expands_unique hnames he he']
  | _, _, _, .procedure hps, h' => by
    cases h' with
    | procedure hps' => rw [expandsAll_unique hnames hps hps']
  | _, _, _, .func hps hr, h' => by
    cases h' with
    | func hps' hr' => rw [expandsAll_unique hnames hps hps', expands_unique hnames hr hr']

theorem expandsAll_unique (hnames : Closed names) : ∀ {es ts ts'},
    ExpandsAll names es ts → ExpandsAll names es ts' → ts = ts'
  | _, _, _, .nil, h' => by
    cases h'
    rfl
  | _, _, _, .cons he hes, h' => by
    cases h' with
    | cons he' hes' => rw [expands_unique hnames he he', expandsAll_unique hnames hes hes']

end

lemma acc_of_not_alias (h : ∀ name e, (n, .alias name e) ∉ names) :
    Acc (flip (Refers names)) n := by
  refine ⟨n, ?_⟩
  rintro m ⟨name, e, -, -, hn, -, -⟩
  exact absurd hn (h name e)

mutual

/-- From the names in an expression that can be expanded, the aliases lead nowhere without end. -/
theorem acc_of_expands (hnames : Closed names) : ∀ {e t}, Expands names e t →
    ∀ n ∈ e.names, Acc (flip (Refers names)) n
  | _, _, .primitive h => by
    simp only [TypeExpr.names, mem_singleton, forall_eq]
    refine acc_of_not_alias fun name e hmem => ?_
    rw [hnames.notPrimitive _ hmem] at h
    cases h
  | _, _, .defined h => by
    simp only [TypeExpr.names, mem_singleton, forall_eq]
    refine acc_of_not_alias fun name e hmem => ?_
    cases hnames.unique h hmem
  | _, _, .synonym h he => by
    simp only [TypeExpr.names, mem_singleton, forall_eq]
    refine ⟨_, ?_⟩
    rintro m ⟨name, e', -, -, hn, -, hm⟩
    cases hnames.unique h hn
    exact acc_of_expands hnames he m hm
  | _, _, .array he => fun n hn => acc_of_expands hnames he n hn
  | _, _, .procedure hps => fun n hn => acc_of_expandsAll hnames hps n hn
  | _, _, .func hps hr =>
    forall_mem_append.mpr ⟨acc_of_expandsAll hnames hps, acc_of_expands hnames hr⟩

theorem acc_of_expandsAll (hnames : Closed names) : ∀ {es ts},
    ExpandsAll names es ts → ∀ n ∈ TypeExpr.namesAll es, Acc (flip (Refers names)) n
  | _, _, .nil => forall_mem_nil _
  | _, _, .cons he hes =>
    forall_mem_append.mpr ⟨acc_of_expands hnames he, acc_of_expandsAll hnames hes⟩

end

end Closed

lemma Closed.defines_unique (hnames : Closed names) : Relator.RightUnique (Defines names) := by
  intro d t t' h h'
  cases h with
  | struct hfields =>
    cases h' with
    | struct hfields' =>
      rw [right_unique_forall₂' (fun f p p' hp hp' => ?_) hfields hfields']
      exact Prod.ext (hp.1.trans hp'.1.symm) (hnames.expands_unique hp.2 hp'.2)
  | enum hvariants =>
    cases h' with
    | enum hvariants' =>
      rw [right_unique_forall₂' (fun v w w' hw hw' => ?_) hvariants hvariants']
      obtain ⟨enum, name, payload⟩ := w
      obtain ⟨enum', name', payload'⟩ := w'
      obtain ⟨rfl, rfl, hpayload⟩ := hw
      obtain ⟨rfl, rfl, hpayload'⟩ := hw'
      exact congrArg (Variant.mk _ _) (hnames.expandsAll_unique hpayload hpayload')
  | synonym he =>
    cases h' with
    | synonym he' => rw [hnames.expands_unique he he']

mutual

theorem Expands.defined_of_mem : ∀ {e t}, Expands names e t → ∀ n ∈ t.names, (n, .defined) ∈ names
  | _, _, .primitive h => by
    rw [Ty.names_of_primitive h]
    exact forall_mem_nil _
  | _, _, .defined h => by simpa [Ty.names] using h
  | _, _, .synonym _ he => he.defined_of_mem
  | _, _, .array he => he.defined_of_mem
  | _, _, .procedure hps =>
    forall_mem_append.mpr ⟨hps.defined_of_mem, forall_mem_nil _⟩
  | _, _, .func hps hr => forall_mem_append.mpr ⟨hps.defined_of_mem, hr.defined_of_mem⟩

theorem ExpandsAll.defined_of_mem : ∀ {es ts},
    ExpandsAll names es ts → ∀ n ∈ Ty.namesAll ts, (n, .defined) ∈ names
  | _, _, .nil => forall_mem_nil _
  | _, _, .cons he hes => forall_mem_append.mpr ⟨he.defined_of_mem, hes.defined_of_mem⟩

end

/-! ### The search -/

variable {named : Span → Bytes → Check Ty}

/-- The error blames an alias that refers to itself. -/
def Cyclic (names : TypeNames) (err : Located TypeError) : Prop :=
  ∃ n name e, (n, .alias name e) ∈ names ∧ Relation.TransGen (Refers names) n n ∧
    err = ⟨name.span, .recursiveAlias n⟩

/-- A check either has a result as stated or fails at an alias on a cycle. -/
def Outcome {β : Type} (names : TypeNames) (P : β → Prop) : Check β → Prop
  | .ok b => P b
  | .error err => Cyclic names err

namespace Outcome

variable {β γ : Type} {P : β → Prop} {Q : γ → Prop} {m : Check β}

lemma bind {f : β → Check γ} (hm : Outcome names P m) (hf : ∀ b, P b → Outcome names Q (f b)) :
    Outcome names Q (m >>= f) := by
  cases m with
  | ok b => exact hf b hm
  | error err => exact hm

lemma mono {P' : β → Prop} (hm : Outcome names P m) (h : ∀ b, P b → P' b) : Outcome names P' m := by
  cases m with
  | ok b => exact h b hm
  | error err => exact hm

end Outcome

mutual

theorem outcome_resolveWith : ∀ {e},
    (∀ n ∈ e.names, ∀ s, Outcome names (Expands names (.named s n)) (named s n)) →
    Outcome names (Expands names e) (resolveWith named e)
  | .named s n, h => h n mem_cons_self s
  | .array s e, h => by
    rw [resolveWith]
    exact (outcome_resolveWith (e := e) h).bind fun t ht => Expands.array ht
  | .func s ps none, h => by
    rw [resolveWith]
    exact (outcome_resolveAllWith h).bind fun ts hts => Expands.procedure hts
  | .func s ps (some r), h => by
    obtain ⟨hps, hr⟩ := forall_mem_append.mp h
    rw [resolveWith]
    refine (outcome_resolveAllWith hps).bind fun ts hts => ?_
    exact (outcome_resolveWith hr).bind fun t ht => Expands.func hts ht

theorem outcome_resolveAllWith : ∀ {es},
    (∀ n ∈ TypeExpr.namesAll es, ∀ s, Outcome names (Expands names (.named s n)) (named s n)) →
    Outcome names (ExpandsAll names es) (resolveAllWith named es)
  | [], _ => ExpandsAll.nil
  | e :: es, h => by
    obtain ⟨he, hes⟩ := forall_mem_append.mp h
    rw [resolveAllWith]
    refine (outcome_resolveWith he).bind fun t ht => ?_
    exact (outcome_resolveAllWith hes).bind fun ts hts => ExpandsAll.cons ht hts

end

/-! ### Names -/

section Names

variable {depth : Nat} {visited : List Bytes} {s : Span}

lemma Known.cases (h : Known names n) : (∃ t, Ty.primitive? n = some t) ∨
    (n, .defined) ∈ names ∨ ∃ name e, (n, .alias name e) ∈ names := by
  rcases h with hprimitive | hmem
  · exact .inl (isSome_iff_exists.mp hprimitive)
  · obtain ⟨⟨m, _ | ⟨name, e⟩⟩, hk, rfl⟩ := mem_map.mp hmem
    · exact .inr (.inl hk)
    · exact .inr (.inr ⟨name, e, hk⟩)

lemma resolveName_unknown (h : ¬Known names n) :
    resolveName names depth visited s n = .error ⟨s, .undefinedType n⟩ := by
  obtain ⟨hprimitive, hmem⟩ := not_or.mp h
  have hnone : names.lookup n = none := by
    rw [← not_isSome_iff_eq_none]
    intro hsome
    obtain ⟨k, hk⟩ := isSome_iff_exists.mp hsome
    exact hmem (mem_map_of_mem (mem_of_lookup hk))
  unfold resolveName
  simp [not_isSome_iff_eq_none.mp hprimitive, hnone]

lemma resolveName_primitive (h : Ty.primitive? n = some t) :
    resolveName names depth visited s n = .ok t := by
  unfold resolveName
  simp only [h]

section Closed

variable (hnames : Closed names)
include hnames

lemma resolveName_defined (hn : (n, .defined) ∈ names) :
    resolveName names depth visited s n = .ok (.named n) := by
  have hprimitive : Ty.primitive? n = none := hnames.notPrimitive _ hn
  unfold resolveName
  simp [hprimitive, lookup_of_mem hnames.nodup hn]

lemma resolveName_visited (hn : (n, .alias name e) ∈ names) (hvisited : n ∈ visited) :
    resolveName names depth visited s n = .error ⟨name.span, .recursiveAlias n⟩ :=
  resolveName_of_mem (hnames.notPrimitive _ hn) (lookup_of_mem hnames.nodup hn) hvisited

lemma resolveName_new (hn : (n, .alias name e) ∈ names) (hnew : n ∉ visited) :
    resolveName names (depth + 1) visited s n =
      resolveWith (resolveName names depth (n :: visited)) e :=
  resolveName_of_not_mem (hnames.notPrimitive _ hn) (lookup_of_mem hnames.nodup hn) hnew

lemma resolveName_add (hroom : Room names depth visited) (k : Nat) :
    resolveName names (depth + k) visited = resolveName names depth visited := by
  induction depth using Nat.strong_induction_on generalizing visited with
  | _ depth ih =>
    funext s n
    by_cases hn : Known names n
    · rcases hn.cases with ⟨t, ht⟩ | hn | ⟨name, e, hn⟩
      · rw [resolveName_primitive ht, resolveName_primitive ht]
      · rw [resolveName_defined hnames hn, resolveName_defined hnames hn]
      · by_cases hvisited : n ∈ visited
        · rw [resolveName_visited hnames hn hvisited, resolveName_visited hnames hn hvisited]
        · obtain ⟨d, rfl, hroom'⟩ := hroom.enter (mem_map_of_mem hn) hvisited
          rw [add_right_comm, resolveName_new hnames hn hvisited,
            resolveName_new hnames hn hvisited, ih d (Nat.lt_succ_self d) hroom']
    · rw [resolveName_unknown hn, resolveName_unknown hn]

/-- **The search for the type of a name.**  The aliases that it is in refer to the name, directly or
through others. -/
theorem outcome_resolveName (hroom : Room names depth visited) (hn : Known names n)
    (hpath : ∀ v ∈ visited, ∀ name e, (n, .alias name e) ∈ names →
      Relation.TransGen (Refers names) v n) :
    Outcome names (Expands names (.named s n)) (resolveName names depth visited s n) := by
  induction depth using Nat.strong_induction_on generalizing visited s n with
  | _ depth ih =>
    rcases hn.cases with ⟨t, ht⟩ | hn | ⟨name, e, hn⟩
    · rw [resolveName_primitive ht]
      exact Expands.primitive ht
    · rw [resolveName_defined hnames hn]
      exact Expands.defined hn
    · by_cases hvisited : n ∈ visited
      · rw [resolveName_visited hnames hn hvisited]
        exact ⟨n, name, e, hn, hpath n hvisited name e hn, rfl⟩
      · obtain ⟨d, rfl, hroom'⟩ := hroom.enter (mem_map_of_mem hn) hvisited
        rw [resolveName_new hnames hn hvisited]
        refine (outcome_resolveWith fun m hm s => ?_).mono fun t ht => Expands.synonym hn ht
        refine ih d (Nat.lt_succ_self d) hroom' (hnames.known hn m hm) fun v hv name' e' hm' => ?_
        have hedge : Refers names n m := ⟨name, e, name', e', hn, hm', hm⟩
        obtain rfl | hv := mem_cons.mp hv
        · exact .single hedge
        · exact (hpath v hv name e hn).tail hedge

/-- **The search for the type of an expression.** -/
theorem outcome_resolve (he : ∀ n ∈ e.names, Known names n) :
    Outcome names (Expands names e) (resolve names e) :=
  outcome_resolveWith fun n hn _ =>
    outcome_resolveName hnames (.start names) (he n hn) (forall_mem_nil _)

lemma outcome_resolveAll (hes : ∀ e ∈ es, ∀ n ∈ e.names, Known names n) :
    Outcome names (ExpandsAll names es) (resolveAll names es) := by
  refine outcome_resolveAllWith fun n hn _ => ?_
  obtain ⟨e, he, hn⟩ := TypeExpr.mem_namesAll.mp hn
  exact outcome_resolveName hnames (.start names) (hes e he n hn) (forall_mem_nil _)

end Closed

end Names

/-! ### Declarations -/

variable {ds ds' : List (Decl Unit)} {defs : List TypeDef} {err : Located TypeError} {span : Span}

section Declarations

variable (hnames : Closed names)
include hnames

lemma outcome_resolveFields {struct : Bytes} {done : List (Bytes × Ty)} {fs : List Param}
    (hnodup : (done.map Prod.fst ++ fs.map fun f => f.name.text).Nodup)
    (hfs : ∀ f ∈ fs, ∀ n ∈ f.type.names, Known names n) :
    Outcome names (fun fields => ∃ new, fields = done ++ new ∧
        Forall₂ (fun f p => p.1 = f.name.text ∧ Expands names f.type p.2) fs new)
      (resolveFields names struct done fs) := by
  induction fs generalizing done with
  | nil => exact ⟨[], (append_nil _).symm, .nil⟩
  | cons f fs ih =>
    obtain ⟨hf, hfs⟩ := forall_mem_cons.mp hfs
    have hfresh : f.name.text ∉ done.map Prod.fst := fun hmem =>
      (nodup_append.mp hnodup).2.2 _ hmem _ mem_cons_self rfl
    have hnew : (done.lookup f.name.text).isSome = false := by
      refine Bool.eq_false_iff.mpr fun hsome => hfresh ?_
      obtain ⟨p, hp, hname⟩ := lookup_isSome_iff.mp hsome
      exact mem_map.mpr ⟨p, hp, (beq_iff_eq.mp hname).symm⟩
    simp only [resolveFields, hnew]
    refine (outcome_resolve hnames hf).bind fun t ht => ?_
    refine (ih (by simpa using hnodup) hfs).mono ?_
    rintro _ ⟨new, rfl, hnew⟩
    exact ⟨(f.name.text, t) :: new, by simp, .cons ⟨rfl, ht⟩ hnew⟩

lemma outcome_resolveVariants {enum : Bytes} {done : List Variant} {vs : List VariantDecl}
    (hnodup : (done.map Variant.name ++ vs.map fun v => v.name.text).Nodup)
    (hvs : ∀ v ∈ vs, ∀ e ∈ v.payload, ∀ n ∈ e.names, Known names n) :
    Outcome names (fun variants => ∃ new, variants = done ++ new ∧
        Forall₂ (fun v w => w.enum = enum ∧ w.name = v.name.text ∧
          ExpandsAll names v.payload w.payload) vs new)
      (resolveVariants names enum done vs) := by
  induction vs generalizing done with
  | nil => exact ⟨[], (append_nil _).symm, .nil⟩
  | cons v vs ih =>
    obtain ⟨hv, hvs⟩ := forall_mem_cons.mp hvs
    have hfresh : v.name.text ∉ done.map Variant.name := fun hmem =>
      (nodup_append.mp hnodup).2.2 _ hmem _ mem_cons_self rfl
    have hnew : (done.any fun w => w.name = v.name.text) = false := by
      refine Bool.eq_false_iff.mpr fun hany => hfresh ?_
      obtain ⟨w, hw, hname⟩ := any_eq_true.mp hany
      exact mem_map.mpr ⟨w, hw, by simpa using hname⟩
    simp only [resolveVariants, hnew]
    refine (outcome_resolveAll hnames hv).bind fun ts hts => ?_
    refine (ih (by simpa using hnodup) hvs).mono ?_
    rintro _ ⟨new, rfl, hnew⟩
    exact ⟨⟨enum, v.name.text, ts⟩ :: new, by simp, .cons ⟨rfl, rfl, hts⟩ hnew⟩

end Declarations

/-- The type expressions in the declaration of a type. -/
def typeExprs : Decl Unit → List TypeExpr
  | .func _ => []
  | .struct _ _ fields => fields.map Param.type
  | .enum _ _ variants => variants.flatMap VariantDecl.payload
  | .alias _ _ type => [type]

/-- The names of the fields of a structure or of the variants of an enum. -/
def partNames : Decl Unit → List Bytes
  | .func _ | .alias _ _ _ => []
  | .struct _ _ fields => fields.map fun f => f.name.text
  | .enum _ _ variants => variants.map fun v => v.name.text

/-- Declarations of types that can be wrong in their aliases only: the names of types, fields and
variants are different ones, and every name in a type expression stands for a type. -/
@[mk_iff]
structure WellNamed (ds : List (Decl Unit)) : Prop where
  nodup : ((typeNames ds).map Prod.fst).Nodup
  notPrimitive : ∀ p ∈ typeNames ds, Ty.primitive? p.1 = none
  parts : ∀ d ∈ ds, (partNames d).Nodup
  known : ∀ d ∈ ds, ∀ e ∈ typeExprs d, ∀ n ∈ e.names, Known (typeNames ds) n

instance (ds : List (Decl Unit)) : Decidable (WellNamed ds) :=
  decidable_of_iff' _ (wellNamed_iff ds)

/-- The types that declarations define. -/
def definedTypes (ds : List (Decl Unit)) : Check (List TypeDef) := do
  let names ← declareTypes [] ds
  resolveDecls names [] ds

lemma mem_typeNames_alias :
    (n, .alias name e) ∈ typeNames ds ↔ ∃ s, .alias s name e ∈ ds ∧ name.text = n := by
  rw [typeNames, mem_filterMap]
  constructor
  · rintro ⟨d, hd, hn⟩
    rcases d with f | ⟨s, name', fs⟩ | ⟨s, name', vs⟩ | ⟨s, name', e'⟩
    · cases hn
    · cases hn
    · cases hn
    · cases hn
      exact ⟨s, hd, rfl⟩
  · rintro ⟨s, hd, rfl⟩
    exact ⟨_, hd, rfl⟩

namespace WellNamed

variable (hds : WellNamed ds)
include hds

lemma closed : Closed (typeNames ds) := by
  refine ⟨hds.nodup, hds.notPrimitive, fun {a name e} ha n hn => ?_⟩
  obtain ⟨s, hd, -⟩ := mem_typeNames_alias.mp ha
  exact hds.known _ hd e mem_cons_self n hn

lemma declareTypes_eq : declareTypes [] ds = .ok (typeNames ds) :=
  declareTypes_iff.mpr ⟨rfl, hds.nodup, hds.notPrimitive⟩

lemma outcome_resolveDecl {d : Decl Unit} (hd : d ∈ ds) :
    Outcome (typeNames ds) (fun t? => Forall₂ (Defines (typeNames ds))
        ([d].filter fun d => (namedType? d).isSome) t?.toList)
      (resolveDecl (typeNames ds) d) := by
  rcases d with f | ⟨s, name, fs⟩ | ⟨s, name, vs⟩ | ⟨s, name, e⟩
  · exact Forall₂.nil
  · have hfs : ∀ f ∈ fs, ∀ n ∈ f.type.names, Known (typeNames ds) n := fun f hf =>
      hds.known _ hd _ (mem_map_of_mem hf)
    refine Outcome.bind (outcome_resolveFields hds.closed (hds.parts _ hd) hfs) ?_
    rintro _ ⟨fields, rfl, hfields⟩
    exact .cons (.struct hfields) .nil
  · have hvs : ∀ v ∈ vs, ∀ e ∈ v.payload, ∀ n ∈ e.names, Known (typeNames ds) n := fun v hv e he =>
      hds.known _ hd e (mem_flatMap.mpr ⟨v, hv, he⟩)
    refine Outcome.bind (outcome_resolveVariants hds.closed (hds.parts _ hd) hvs) ?_
    rintro _ ⟨variants, rfl, hvariants⟩
    exact .cons (.enum hvariants) .nil
  · have hname : (name.text, .alias name e) ∈ typeNames ds := mem_typeNames_alias.mpr ⟨s, hd, rfl⟩
    refine (outcome_resolveName hds.closed (.start _) (.inr (mem_map_of_mem hname))
      (forall_mem_nil _)).bind fun t ht => ?_
    exact .cons (.synonym ((hds.closed.expands_named hname).mp ht)) .nil

lemma outcome_resolveDecls {done : List TypeDef} (hsub : ds' ⊆ ds) :
    Outcome (typeNames ds) (fun defs => ∃ new, defs = done ++ new ∧
        Forall₂ (Defines (typeNames ds)) (ds'.filter fun d => (namedType? d).isSome) new)
      (resolveDecls (typeNames ds) done ds') := by
  induction ds' generalizing done with
  | nil => exact ⟨[], (append_nil _).symm, .nil⟩
  | cons d ds' ih =>
    obtain ⟨hd, hsub⟩ := cons_subset.mp hsub
    refine (hds.outcome_resolveDecl hd).bind fun t? ht => ?_
    have hrest : Outcome (typeNames ds) _ (resolveDecls (typeNames ds) (done ++ t?.toList) ds') :=
      ih hsub
    rw [← singleton_append, filter_append]
    cases t? with
    | none =>
      rw [toList_none, append_nil] at hrest
      refine hrest.mono ?_
      rintro _ ⟨new, rfl, hnew⟩
      exact ⟨new, rfl, rel_append ht hnew⟩
    | some t =>
      refine hrest.mono ?_
      rintro _ ⟨new, rfl, hnew⟩
      exact ⟨t :: new, by simp, rel_append ht hnew⟩

lemma outcome_definedTypes : Outcome (typeNames ds)
    (Forall₂ (Defines (typeNames ds)) (ds.filter fun d => (namedType? d).isSome))
    (definedTypes ds) := by
  rw [definedTypes, hds.declareTypes_eq]
  refine (hds.outcome_resolveDecls (Subset.refl ds)).mono ?_
  rintro _ ⟨defs, rfl, hdefs⟩
  exact hdefs

lemma not_cycle
    (hdefs : Forall₂ (Defines (typeNames ds)) (ds.filter fun d => (namedType? d).isSome) defs)
    (n : Bytes) : ¬Relation.TransGen (Refers (typeNames ds)) n n := by
  intro hcycle
  obtain ⟨m, ⟨name, e, -, -, hn, -, -⟩, -⟩ := Relation.TransGen.head'_iff.mp hcycle
  obtain ⟨s, hd, rfl⟩ := mem_typeNames_alias.mp hn
  have hmem : .alias s name e ∈ ds.filter fun d => (namedType? d).isSome :=
    mem_filter.mpr ⟨hd, rfl⟩
  obtain ⟨i, hi⟩ := mem_iff_get.mp hmem
  obtain ⟨t, ht⟩ : ∃ t, Defines (typeNames ds) (.alias s name e) t :=
    ⟨_, hi ▸ hdefs.get i.isLt (hdefs.length_eq ▸ i.isLt)⟩
  cases ht with
  | synonym he =>
    have hexpands : Expands (typeNames ds) (.named s name.text) _ := .synonym hn he
    exact not_cycle_of_acc (hds.closed.acc_of_expands hexpands _ mem_cons_self) .refl hcycle

lemma cyclic_of_error (h : definedTypes ds = .error err) : Cyclic (typeNames ds) err := by
  have houtcome := hds.outcome_definedTypes
  rwa [h] at houtcome

lemma definedTypes_eq_ok_iff : definedTypes ds = .ok defs ↔
    Forall₂ (Defines (typeNames ds)) (ds.filter fun d => (namedType? d).isSome) defs := by
  have houtcome := hds.outcome_definedTypes
  constructor
  · intro h
    rwa [h] at houtcome
  · intro h
    cases hres : definedTypes ds with
    | ok defs' =>
      rw [hres] at houtcome
      rw [right_unique_forall₂' hds.closed.defines_unique houtcome h]
    | error err =>
      obtain ⟨n, -, -, -, hcycle, -⟩ := hds.cyclic_of_error hres
      exact absurd hcycle (hds.not_cycle h n)

end WellNamed

lemma definedTypes_perm (hperm : ds.Perm ds') (h : definedTypes ds = .ok defs) :
    ∃ defs', definedTypes ds' = .ok defs' ∧ defs.Perm defs' := by
  cases hnames : declareTypes [] ds with
  | error err =>
    rw [definedTypes, hnames] at h
    cases h
  | ok names =>
    obtain ⟨names', hnames', hperm_names⟩ := declareTypes_perm hperm hnames
    have hlookup := lookup_perm hperm_names (declareTypes_iff.mp hnames).2.1
    rw [definedTypes, hnames] at h
    rw [definedTypes, hnames']
    exact resolveDecls_perm (resolveDecl_congr hlookup hperm_names.length_eq) hperm h

lemma definedTypes_error_of_perm (hperm : ds.Perm ds') (h : definedTypes ds = .error err) :
    ∃ err', definedTypes ds' = .error err' := by
  cases h' : definedTypes ds' with
  | error err' => exact ⟨err', rfl⟩
  | ok defs' =>
    obtain ⟨defs, hdefs, -⟩ := definedTypes_perm hperm.symm h'
    rw [h] at hdefs
    cases hdefs

lemma checkProgram_of_error (h : definedTypes ds = .error err) :
    checkProgram ⟨span, ds⟩ = .error err := by
  simp only [definedTypes, bind, Except.bind] at h
  simp only [checkProgram, bind, Except.bind]
  cases hnames : declareTypes [] ds with
  | error err' =>
    rw [hnames] at h
    cases h
    rfl
  | ok names =>
    rw [hnames] at h
    simp only at h ⊢
    rw [h]

lemma definedTypes_of_checkProgram {package : Package}
    (h : checkProgram ⟨span, ds⟩ = .ok package) : definedTypes ds = .ok package.defs := by
  obtain ⟨c, q, hpasses, rfl⟩ := checkProgram_iff.mp h
  rw [definedTypes, hpasses.names]
  exact hpasses.defs

/-- **Aliases are resolved exactly where they are acyclic.**  The search is deep enough, and a memo
does not change what it finds.  It fails if some alias leads back to itself through other aliases,
and then the error names such an alias.  Otherwise every declared type is defined by the full
expansions of its type expressions, in which no alias is left.  The order of the declarations does
not matter, and the check of a program fails in the same way and keeps the same definitions. -/
theorem definedTypes_iff_acyclic {ds : List (Decl Unit)} (hds : WellNamed ds) :
    (∀ depth, (typeNames ds).length ≤ depth →
      resolveName (typeNames ds) depth [] = resolveName (typeNames ds) (typeNames ds).length []) ∧
    ((∃ err, definedTypes ds = .error err) ↔ ∃ n, Relation.TransGen (Refers (typeNames ds)) n n) ∧
    (∀ err, definedTypes ds = .error err → ∃ s name e, .alias s name e ∈ ds ∧
      Relation.TransGen (Refers (typeNames ds)) name.text name.text ∧
      err = ⟨name.span, .recursiveAlias name.text⟩) ∧
    (∀ defs, definedTypes ds = .ok defs ↔
      List.Forall₂ (Defines (typeNames ds)) (ds.filter fun d => (namedType? d).isSome) defs) ∧
    (∀ e t, Expands (typeNames ds) e t → (∀ u, Expands (typeNames ds) e u → u = t) ∧
      ∀ n ∈ t.names, ∀ name e, (n, .alias name e) ∉ typeNames ds) ∧
    (∀ ds', ds.Perm ds' →
      (∀ defs, definedTypes ds = .ok defs →
        ∃ defs', definedTypes ds' = .ok defs' ∧ defs.Perm defs') ∧
      ∀ err, definedTypes ds = .error err → ∃ err', definedTypes ds' = .error err') ∧
    (∀ span err, definedTypes ds = .error err → checkProgram ⟨span, ds⟩ = .error err) ∧
    (∀ span package, checkProgram ⟨span, ds⟩ = .ok package → definedTypes ds = .ok package.defs) ∧
    (∀ es, (resolveAllWith (recallName (typeNames ds) (typeNames ds).length) es).run' [] =
      resolveAll (typeNames ds) es) := by
  refine ⟨fun depth hdepth => ?_, ⟨?_, ?_⟩, ?_, fun defs => hds.definedTypes_eq_ok_iff, ?_,
    fun ds' hperm => ⟨fun defs => definedTypes_perm hperm,
      fun err => definedTypes_error_of_perm hperm⟩,
    fun span err => checkProgram_of_error, fun span package => definedTypes_of_checkProgram,
    recallAll_eq _⟩
  · obtain ⟨k, rfl⟩ := Nat.exists_eq_add_of_le hdepth
    exact resolveName_add hds.closed (.start _) k
  · rintro ⟨err, h⟩
    obtain ⟨n, -, -, -, hcycle, -⟩ := hds.cyclic_of_error h
    exact ⟨n, hcycle⟩
  · rintro ⟨n, hcycle⟩
    cases h : definedTypes ds with
    | ok defs => exact absurd hcycle (hds.not_cycle (hds.definedTypes_eq_ok_iff.mp h) n)
    | error err => exact ⟨err, rfl⟩
  · intro err h
    obtain ⟨n, name, e, hn, hcycle, rfl⟩ := hds.cyclic_of_error h
    obtain ⟨s, hd, rfl⟩ := mem_typeNames_alias.mp hn
    exact ⟨s, name, e, hd, hcycle, rfl⟩
  · intro e t ht
    refine ⟨fun u hu => hds.closed.expands_unique hu ht, fun n hn name e hmem => ?_⟩
    cases hds.closed.unique (ht.defined_of_mem n hn) hmem

/-- An alias that leads back to itself through a structure only. -/
def throughStruct : List (Decl Unit) :=
  [.alias default ⟨default, "A"⟩ (.array default (.named default "B")),
    .struct default ⟨default, "S"⟩ [⟨default, ⟨default, "next"⟩, .named default "A"⟩],
    .alias default ⟨default, "B"⟩
      (.func default [.named default "int"] (some (.named default "S")))]

/-- Two aliases that refer to each other. -/
def eachOther : List (Decl Unit) :=
  [.alias default ⟨default, "A"⟩ (.array default (.named default "B")),
    .alias default ⟨default, "B"⟩ (.func default [.named default "A"] none)]

theorem definedTypes_iff_acyclic_shapes :
    (WellNamed throughStruct ∧ ¬∃ n, Relation.TransGen (Refers (typeNames throughStruct)) n n) ∧
    WellNamed eachOther ∧ ∃ err, definedTypes eachOther = .error err := by
  have hthrough : WellNamed throughStruct := by decide
  have heach : WellNamed eachOther := by decide
  have hab : Refers (typeNames eachOther) "A" "B" :=
    ⟨_, _, _, _, .head _, .tail _ (.head _), .head _⟩
  have hba : Refers (typeNames eachOther) "B" "A" :=
    ⟨_, _, _, _, .tail _ (.head _), .head _, .head _⟩
  refine ⟨⟨hthrough, fun hcycle => ?_⟩, heach, ?_⟩
  · obtain ⟨err, herr⟩ := (definedTypes_iff_acyclic hthrough).2.1.mpr hcycle
    cases herr
  · exact (definedTypes_iff_acyclic heach).2.1.mpr ⟨"A", .tail (.single hab) hba⟩

end Typing

end Minilang
