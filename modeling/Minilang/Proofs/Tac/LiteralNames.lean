import Minilang.Proofs.Tac.LoweredCode

/-!
# Generated names are unique

A name that a counter gives ends with a dot and a number that the counter gives once.  So the names
of one counter differ, whatever stands before the numbers.  The names of function literals differ
from each other and from those of declared functions, since these have no dollar sign.
-/

namespace Minilang

open List

/-! ### Counters -/

/-- The names that a counter gives for stems, one after the other. -/
def FreshName.names (c : FreshName) : List Bytes → List Bytes
  | [] => []
  | stem :: stems => (c.next stem).1 :: (c.next stem).2.names stems

lemma FreshName.mem_names {c : FreshName} {stems : List Bytes} {name : Bytes}
    (h : name ∈ c.names stems) :
    ∃ stem k, c.count ≤ k ∧ name = Bytes.concat [stem, ".", Decimal.ofNat k] := by
  induction stems generalizing c with
  | nil => cases h
  | cons stem stems ih =>
    rcases mem_cons.mp h with rfl | h
    · exact ⟨stem, c.count, le_refl _, rfl⟩
    · obtain ⟨stem, k, hk, rfl⟩ := ih h
      exact ⟨stem, k, Nat.le_of_succ_le hk, rfl⟩

lemma FreshName.nodup_names (c : FreshName) (stems : List Bytes) : (c.names stems).Nodup := by
  induction stems generalizing c with
  | nil => exact nodup_nil
  | cons stem stems ih =>
    refine nodup_cons.mpr ⟨fun hmem => ?_, ih _⟩
    obtain ⟨stem', k, hk, heq⟩ := mem_names hmem
    have := Tac.freshName_injective heq
    exact absurd hk (by simp [next, this])

/-! ### The functions of a program -/

namespace Tac.Lowering

variable {α : Type} {c : Context α}

lemma nodup_assemble {func : Bytes} {params : List Param} {b : Block α} {l : Lowered} {st : State}
    (hrun : (lowerBlock c func (paramEnv params) b).run (.start params.length) = .ok (l, st)) :
    ((assemble func params b.span l st).map Func.name).Nodup ∧
      ∀ x ∈ (assemble func params b.span l st).map Func.name, ∃ path, x =
      func ++ pathText path := by
  have hbelow := ((blockMade c b).valid b.span hrun).2
  have hnames : (assemble func params b.span l st).map Func.name =
      func :: (st.nested.map Func.name).reverse := by simp [assemble]
  rw [hnames]
  refine ⟨nodup_cons.mpr ⟨fun hmem => ?_, nodup_reverse.mpr hbelow.nodup⟩,
    forall_mem_cons.mpr ⟨⟨[], (append_nil _).symm⟩, fun x hx => ?_⟩⟩
  · obtain ⟨k, path, -, -, heq⟩ := hbelow.path func (mem_reverse.mp hmem)
    cases append_right_eq_self.mp heq.symm
  · obtain ⟨k, path, -, -, rfl⟩ := hbelow.path x (mem_reverse.mp hx)
    exact ⟨k :: path, rfl⟩

lemma nodup_names {decls : List (FuncDecl α)} {fs : List Func} (h : lowerFuncs c [] decls = .ok fs)
    (hdecls : (decls.map fun d => d.name.text).Nodup)
    (hword : ∀ d ∈ decls, ∀ b ∈ d.name.text, Lexer.isWordByte b = true) : (fs.map Func.name).Nodup ∧
      ∀ x ∈ fs.map Func.name, ∃ d ∈ decls, ∃ path, x = d.name.text ++ pathText path := by
  obtain ⟨rs, rfl, hrs, rfl⟩ := lowerFuncs_eq_ok h
  clear h
  rw [reverse_nil, flatten_nil, nil_append]
  induction rs with
  | nil => exact ⟨nodup_nil, forall_mem_nil _⟩
  | cons r rs ih =>
    obtain ⟨hrun, hrs⟩ := forall_mem_cons.mp hrs
    obtain ⟨hd, hdecls⟩ := nodup_cons.mp hdecls
    obtain ⟨hfirst, hrest⟩ := forall_mem_cons.mp hword
    obtain ⟨hnodup, hpath⟩ := ih hdecls hrest hrs
    obtain ⟨hnodup', hpath'⟩ := nodup_assemble hrun
    rw [flatMap_cons, map_append]
    refine ⟨hnodup'.append hnodup fun x hx hx' => ?_, fun x hx => ?_⟩
    · obtain ⟨path, rfl⟩ := hpath' x hx
      obtain ⟨d', hd', path', heq⟩ := hpath _ hx'
      have hname := (append_pathText (by decide) hfirst (hrest d' hd') heq).1
      exact hd (mem_map.mpr ⟨d', hd', hname.symm⟩)
    · rcases mem_append.mp hx with hx | hx
      · exact ⟨r.1, mem_cons_self, hpath' x hx⟩
      · obtain ⟨d', hd', hx⟩ := hpath x hx
        exact ⟨d', mem_cons_of_mem _ hd', hx⟩

/-- **Generated names are unique.**  A counter gives no name twice.  The functions of a program,
declared ones and literals at any depth, have different names if the declared ones have, and these
are words. -/
theorem generated_names_distinct :
    (∀ (counter : FreshName) (stems : List Bytes), (counter.names stems).Nodup) ∧
      ∀ {α : Type} (c : Context α) (decls : List (FuncDecl α)) (fs : List Func),
        lowerFuncs c [] decls = .ok fs → (decls.map fun d => d.name.text).Nodup →
        (∀ d ∈ decls, ∀ b ∈ d.name.text, Lexer.isWordByte b = true) →
        (fs.map Func.name).Nodup ∧
          ∀ x ∈ fs.map Func.name, ∃ d ∈ decls, ∃ path, x = d.name.text ++ pathText path :=
  ⟨FreshName.nodup_names, fun _ _ _ => nodup_names⟩

/-- A function with two literals, one of which has a literal in it. -/
theorem generated_names_distinct_nested :
    let literal : Option (Expr Unit) → Expr Unit := fun v =>
      .lambda .none () [] none (.mk .none () [] v)
    let decl : FuncDecl Unit := ⟨.none, ⟨.none, "f"⟩, [], none,
      .mk .none () [.expr (literal none)] (literal (some (literal none)))⟩
    ∃ fs, lowerFuncs ⟨fun _ => .blank, [], []⟩ [] [decl] = .ok fs ∧ fs.map Func.name =
      [("f" : Bytes), "f$lambda.0", "f$lambda.1", "f$lambda.1$lambda.0"] ∧
      (fs.map Func.name).Nodup := by
  intro literal decl
  refine ⟨_, rfl, by decide +kernel, ?_⟩
  exact (generated_names_distinct.2 ⟨fun _ => .blank, [], []⟩ [decl] _ rfl (nodup_singleton _)
    (forall_mem_singleton.mpr (by decide +kernel))).1

end Tac.Lowering

end Minilang
