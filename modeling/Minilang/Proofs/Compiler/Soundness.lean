import Minilang.Compiler
import Minilang.Proofs.Tac.Folding
import Minilang.Proofs.Tac.NeededValues

/-!
# Compiled programs do not go wrong

A source text that compiles has been checked, so its three-address code is typed and keeps its types
at every step.  Folding and the generation of bytecode keep what a program does.  Hence no run of
the bytecode fails because a value has the wrong type, because the stack is too small, or because an
instruction does not exist; a field is missing only where a component of a variant is selected that
the variant at hand does not have; and the value at the end has the shape of the result type of
`main` (`compile_sound`).
-/

namespace Minilang

/-! ### The functions at run time -/

variable {p : Tac.Program} {b : Bytecode.Program}

/-- The functions of three-address code as they are known at run time. -/
def Tac.Program.arities (p : Tac.Program) : List Arity :=
  p.funcs.map fun f => (f.name, f.params.length)

/-- The functions of bytecode as they are known at run time. -/
def Bytecode.Program.arities (b : Bytecode.Program) : List Arity :=
  b.funcs.toList.map fun f => (f.name, f.numParams.toNat)

namespace Tac

lemma Program.map_fst_arities (p : Program) : p.arities.map Prod.fst = p.funcs.map Func.name := by
  rw [arities, List.map_map]
  rfl

lemma Program.arities_fold (p : Program) : p.fold.1.arities = p.arities := by
  rw [arities, funcs_fold, List.map_map]
  rfl

lemma Program.arities_foldTimes (n : Nat) (p : Program) :
    (p.foldTimes n).1.arities = p.arities := by
  induction n generalizing p with
  | zero => rfl
  | succ n ih =>
    have hsucc : (p.foldTimes (n + 1)).1 = (p.fold.1.foldTimes n).1 := rfl
    rw [hsucc, ih, arities_fold]

end Tac

lemma Bytecode.ProgramCode.arities_eq (hb : ProgramCode p b) : b.arities = p.arities := by
  refine List.ext_getElem? fun k => ?_
  rw [Program.arities, Tac.Program.arities, List.getElem?_map, List.getElem?_map,
    Array.getElem?_toList]
  cases hf : p.funcs[k]? with
  | none =>
    have hk := List.getElem?_eq_none_iff.mp hf
    rw [Array.getElem?_eq_none (hb.size_eq ▸ hk)]
    rfl
  | some f =>
    obtain ⟨g, hg, ⟨code⟩⟩ := hb.func hf
    simp [hg, code.name_eq, code.numParams_eq]

/-! ### Shapes of typed values -/

variable {sigs : Tac.Signatures} {h : Heap}

lemma Value.HasType.hasShape {c : Static} {T : HeapTy} {v : Value} {t : Ty} (hp : p.Typed c sigs)
    (hh : HeapTyped c p sigs T h) (hv : v.HasType p sigs T t) :
    v.HasShape p.arities c.defs h t := by
  refine ⟨fun v t => v.HasType p sigs T t, fun v t hv => ?_, hv⟩
  cases hv with
  | null => rfl
  | int => exact ⟨_, rfl⟩
  | float => exact ⟨_, rfl⟩
  | bool => exact ⟨_, rfl⟩
  | string => exact ⟨_, rfl⟩
  | array href =>
    exact ⟨_, rfl, hh.size_arrays ▸ (getElem?_eq_some_iff.mp href).1, hh.elems href⟩
  | noElems href =>
    refine ⟨_, rfl, hh.size_arrays ▸ (getElem?_eq_some_iff.mp href).1, fun e he => ?_⟩
    exact absurd (hh.elems href e he) not_hasType_never
  | record href =>
    exact ⟨_, _, rfl, hh.size_records ▸ (getElem?_eq_some_iff.mp href).1, hh.describes href,
      hh.fields href⟩
  | @func name sig k hmem hk =>
    obtain ⟨k', f, W, hk', hf, -, htyped⟩ := hp.func hmem
    cases hk.symm.trans hk'
    have hname : f.name = name := by
      obtain ⟨hlt, hname, -⟩ := List.findIdx?_eq_some_iff_getElem.mp hk
      obtain rfl : p.funcs[k] = f := (getElem?_eq_some_iff.mp hf).2
      exact of_decide_eq_true hname
    refine ⟨name, k, rfl, ?_⟩
    rw [Tac.Program.arities, List.getElem?_map, hf, Option.map_some, hname, htyped.arity]

/-! ### Runs of checked programs -/

variable {package : Package}

/-- What a run of a checked program may come to: a value of the shape of the result, a failure that
no checking of types excludes, or no end. -/
def Machine.Outcome.Safe (package : Package) (funcs : List Arity) (result : Ty) (h : Heap) :
    Machine.Outcome → Prop
  | .halted v => v.HasShape funcs package.defs h result
  | .failed f => f.kind ≠ .typeMismatch ∧ f.kind ≠ .stackUnderflow ∧ f.kind ≠ .invalidOpcode ∧
      (f.kind = .unknownField → ∃ type name : Bytes, (f.span, name) ∈ package.selectors ∧
        f.cause = Bytes.concat [type, " has no field ", name])
  | .unfinished => True

/-- What is known of a checked program when it runs. -/
def Package.static (package : Package) : Static :=
  ⟨package.defs, fun span name => (span, name) ∈ package.selectors⟩

lemma Machine.Outcome.Agrees.safe {result : Ty} {h' : Heap} {o o' : Outcome}
    (hp : p.Typed package.static sigs) (ho : Agrees h h' o o')
    (htyped : Tac.OutcomeTyped package.static p sigs result h o) :
    o'.Safe package p.arities result h' := by
  cases ho with
  | halted hv hh =>
    obtain ⟨T, hheap, htype⟩ := htyped
    exact (htype.hasShape hp hheap).of_canon hh hv
  | @failed e e' hkind _ hspan hcause =>
    have hallowed : Tac.Allowed package.static e'.span (e'.kind, e'.cause) := by
      rw [← hkind, ← hspan, ← hcause]
      exact htyped
    generalize hreason : (e'.kind, e'.cause) = reason at hallowed
    rw [Safe, show e'.kind = reason.1 from congrArg Prod.fst hreason,
      show e'.cause = reason.2 from congrArg Prod.snd hreason]
    cases hallowed with
    | division | bounds | depth => simp
    | payload hselects =>
      exact ⟨nofun, nofun, nofun, fun _ => ⟨_, _, hselects, rfl⟩⟩
  | unfinished => trivial

lemma lookup_signatures {bs : Tac.Signatures} (hnodup : (bs.map Prod.fst).Nodup)
    {name : Bytes} {sig : Tac.Signature} (h : (name, sig) ∈ bs) :
    (bs.map fun b => (b.1, Ty.func b.2.params b.2.result)).lookup name =
      some (.func sig.params sig.result) :=
  lookup_of_mem (by rwa [List.map_map]) (List.mem_map_of_mem h)

lemma Typing.runs_safe {tree : Program Unit} {n : Nat} (hcheck : checkProgram tree = .ok package)
    (hlower : Tac.lower package = .ok p) (hb : Bytecode.ProgramCode (p.foldTimes n).1 b) :
    ∃ result, package.signatures.lookup (Bytes.ofString "main") = some (.func [] result) ∧
      ∀ cap tracing steps,
        (Machine.run b cap tracing steps).outcome.Safe package b.arities result
          (Machine.run b cap tracing steps).heap := by
  obtain ⟨bs, sig, hsig, hsignatures, hnodup, ⟨result, hmain⟩, htyped⟩ := checkProgram_typed hcheck
  have hnames : (p.funcs.map Tac.Func.name).Nodup := by
    rw [← p.map_fst_arities, ← p.arities_foldTimes n, Tac.Program.map_fst_arities]
    exact hb.names
  obtain ⟨sigs, hsigs, hp⟩ := Tac.lowerWith_typed (c := package.static)
    (htyped _ fun _ hs => hs) hsig hlower hnames
  refine ⟨result, hsignatures ▸ lookup_signatures hnodup hmain, fun cap tracing steps => ?_⟩
  obtain ⟨m, hm⟩ := hb.run_backward cap tracing steps
  rw [Tac.run_foldTimes] at hm
  rw [hb.arities_eq, p.arities_foldTimes]
  exact hm.outcome.safe hp (hp.run (hsigs hmain) cap m)

/-! ### Compilation -/

variable {o : Options} {src : Bytes}

lemma lowerSource_eq_ok (h : lowerSource src = .ok p) :
    ∃ tree package, parse src = .ok tree ∧ Typing.checkProgram tree = .ok package ∧
      Tac.lower package = .ok p := by
  rw [lowerSource] at h
  cases htree : parse src with
  | error e => rw [htree] at h; cases h
  | ok tree =>
    rw [htree] at h
    cases hpackage : Typing.checkProgram tree with
    | error e => simp [hpackage, Except.mapError, bind, Except.bind] at h
    | ok package =>
      refine ⟨tree, package, rfl, hpackage, ?_⟩
      simp only [hpackage, Except.mapError, bind, Except.bind] at h
      split at h
      · cases h
      · rename_i hlower
        cases h
        exact hlower

lemma compileCode_eq_ok {log : List Bytes} {code : Tac.Program}
    (h : (compileCode o log code).result = .ok b) : Bytecode.generate code = .ok b := by
  rw [compileCode] at h
  split at h
  · cases h
  · rename_i hgenerate
    cases h
    exact hgenerate

lemma compile_eq_ok {file : Bytes} (h : (compile o file src).result = .ok b) :
    ∃ tree package p n, parse src = .ok tree ∧ Typing.checkProgram tree = .ok package ∧
      Tac.lower package = .ok p ∧ Bytecode.generate (p.foldTimes n).1 = .ok b := by
  rw [compile] at h
  split at h
  · cases h
  rename_i p hsource
  obtain ⟨tree, package, htree, hpackage, hlower⟩ := lowerSource_eq_ok hsource
  split at h
  · exact ⟨tree, package, p, o.passes, htree, hpackage, hlower, compileCode_eq_ok h⟩
  · exact ⟨tree, package, p, 0, htree, hpackage, hlower, compileCode_eq_ok h⟩

/-- **Compiled programs do not go wrong.**  However often its code is folded, with any limit to the
depth of calls and after any number of steps, a compiled program has not failed because of the type
of a value, a lack of values on the stack or an unknown instruction; it has failed because of a
missing field only at a selector of a payload; and if it has ended, its value has the shape of the
result type that `main` has been checked to have. -/
theorem compile_sound {o : Options} {file src : Bytes} {b : Bytecode.Program}
    (h : (compile o file src).result = .ok b) :
    ∃ tree package result, parse src = .ok tree ∧ Typing.checkProgram tree = .ok package ∧
      package.signatures.lookup (Bytes.ofString "main") = some (.func [] result) ∧
      ∀ (cap : Int) (tracing : Bool) (steps : Nat),
        (Machine.run b cap tracing steps).outcome.Safe package b.arities result
          (Machine.run b cap tracing steps).heap := by
  obtain ⟨tree, package, p, n, htree, hpackage, hlower, hgenerate⟩ := compile_eq_ok h
  obtain ⟨result, hresult, hsafe⟩ := Typing.runs_safe hpackage hlower
    (Bytecode.programCode_of_generate hgenerate)
  exact ⟨tree, package, result, htree, hpackage, hresult, hsafe⟩

/-- A program that prints in a loop, and then selects a component which the variant at hand does not
have. -/
def choosing : Bytes :=
  "enum E \x7b A(string), B \x7d fn main() -> string \x7b let e = E.B; let again = true; " ++
  "while again \x7b print(\"a\" + \"b\"); again = false; \x7d e.0 \x7d"

lemma exists_places {α : Type} (is : List (Located α)) :
    ∃ place : Nat → Span, is = (is.map Located.val).mapIdx fun k i => ⟨place k, i⟩ := by
  refine ⟨fun k => (is[k]?.map Located.span).getD .none, ?_⟩
  ext1 k
  cases h : is[k]? <;> simp [h]

lemma lowerSource_choosing :
    ∃ place, lowerSource choosing = .ok (Bytecode.looping place Bytecode.joining) := by
  obtain ⟨tree, package, htree, hcheck, htest⟩ := @Package.of_any_ofText? choosing (fun package =>
    (Tac.lowered? package).any fun fs =>
      (fs.map fun f => (f.name, f.params, f.numVars, f.body.map Located.val)) ==
        (Bytecode.looping (fun _ => .none) Bytecode.joining).funcs.map fun f =>
          (f.name, f.params, f.numVars, f.body.map Located.val)) (by decide +kernel)
  obtain ⟨fs, hfs, htest⟩ := (Option.any_eq_true _ _).mp htest
  obtain ⟨⟨name, params, numVars, body⟩, _, rfl, hf, hnil⟩ :=
    List.map_eq_cons_iff.mp (eq_of_beq htest)
  obtain rfl := List.map_eq_nil_iff.mp hnil
  simp only [Prod.mk.injEq] at hf
  obtain ⟨rfl, rfl, rfl, hbody⟩ := hf
  obtain ⟨place, hplace⟩ := exists_places body
  refine ⟨place, ?_⟩
  simp only [lowerSource, htree, hcheck, Tac.lower_of_lowered? hfs, Except.mapError, bind,
    Except.bind]
  rw [hplace, hbody]
  rfl

theorem compile_sound_choosing : ∃ b, (compile {} "main.ql" choosing).result = .ok b ∧
    ∃ tree package result, parse choosing = .ok tree ∧ Typing.checkProgram tree = .ok package ∧
      package.signatures.lookup (Bytes.ofString "main") = some (.func [] result) ∧
      ∀ (cap : Int) (tracing : Bool) (steps : Nat),
        (Machine.run b cap tracing steps).outcome.Safe package b.arities result
          (Machine.run b cap tracing steps).heap := by
  obtain ⟨place, hlower⟩ := lowerSource_choosing
  obtain ⟨b, hb⟩ := Bytecode.generate_looping place (.inr rfl)
  have hcompile : (compile {} "main.ql" choosing).result = .ok b := by
    rw [← Bytecode.foldTimes_looping] at hb
    simp only [compile, hlower, compileCode, hb, if_true]
  exact ⟨b, hcompile, compile_sound hcompile⟩

end Minilang
