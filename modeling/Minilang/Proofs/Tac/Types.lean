import Minilang.Proofs.Tac.Semantics
import Minilang.Proofs.Value.Shape
import Minilang.Typing.Body
import Mathlib.Data.Set.Insert

/-!
# Types for three-address code

Every register of a function has a type.  A register holds a value of its type from where it has
been written on, so the rules follow which registers have been written: at each place of the code
the *flow* is the set of these, or the place is never reached.  A label has a flow of its own, which
every jump to the label and the code in front of it have to provide.

Two types are special.  A register of type `unit` holds null even before it is written.  No value
has type `never`, so what follows the write of a register of this type is not reached.

The fields of a structure always exist.  A component of a payload may be missing at run time, since
the variant is not part of the type: such selections are allowed at given places only.
-/

namespace Minilang

/-! ### Selections -/

variable {span : Span} {t : Ty} {c : Static}

/-- What is fixed for a whole program: the types that it defines, and where it selects a component
of a payload, which may be missing. -/
structure Static where
  defs : List TypeDef
  selects : Span → Bytes → Prop

/-- The type of a field of a value. -/
inductive Static.Selects (c : Static) (span : Span) : Ty → Bytes → Ty → Prop
  | field {n name fields t} :
      TypeDef.find? c.defs n = some ⟨n, .struct fields⟩ → fields.lookup name = some t →
      Selects c span (.named n) name t
  | payload {n name variants t} : TypeDef.find? c.defs n = some ⟨n, .enum variants⟩ →
      (∀ v ∈ variants, ∀ u, v.fields.lookup name = some u → u = t) → c.selects span name →
      Selects c span (.named n) name t

/-- A record of a type has the field that is selected, or lacks a component at a place where it
may. -/
theorem Static.Selects.lookup {n name type : Bytes} {fields : List (Bytes × Ty)}
    (h : c.Selects span (.named n) name t) (hd : TypeDef.Describes c.defs n type fields) :
    fields.lookup name = some t ∨ fields.lookup name = none ∧ c.selects span name := by
  cases h with
  | field hdef hlookup =>
    cases hd with
    | struct hdef' =>
      rw [hdef] at hdef'
      cases hdef'
      exact .inl hlookup
    | variant hdef' =>
      rw [hdef] at hdef'
      cases hdef'
  | payload hdef hagree hselects =>
    cases hd with
    | struct hdef' =>
      rw [hdef] at hdef'
      cases hdef'
    | @variant _ v hdef' hv =>
      rw [hdef] at hdef'
      cases hdef'
      cases hl : v.fields.lookup name with
      | none => exact .inr ⟨rfl, hselects⟩
      | some u => exact .inl (congrArg some (hagree v hv u hl))

namespace Tac

/-! ### Flows -/

/-- What is known at a place of the code: it is never reached, or the registers that have been
written. -/
inductive Flow where
  | dead
  | live (written : Set Nat)

variable {F G H : Flow}

namespace Flow

/-- A register has been written, if the place is reached. -/
def Has : Flow → Nat → Prop
  | .dead, _ => True
  | .live s, r => r ∈ s

/-- More registers have values, or the place is not reached. -/
def Le : Flow → Flow → Prop
  | _, .dead => True
  | .dead, .live _ => False
  | .live s, .live s' => s ⊆ s'

/-- The flow after a register of the given type has been written. -/
def write (F : Flow) (r : Nat) (t : Ty) : Flow :=
  match F with
  | .dead => .dead
  | .live s =>
    if t = .never then .dead
    else if t = .unit then .live s
    else .live (insert r s)

lemma Le.refl (F : Flow) : F.Le F := by
  cases F with
  | dead => trivial
  | live s => exact Set.Subset.refl s

lemma Le.trans (h : F.Le G) (h' : G.Le H) : F.Le H := by
  cases H with
  | dead => cases F <;> trivial
  | live s =>
    cases G with
    | dead => exact h'.elim
    | live s' =>
      cases F with
      | dead => exact h.elim
      | live s'' => exact Set.Subset.trans h h'

lemma le_dead (F : Flow) : F.Le .dead := by
  cases F <;> trivial

lemma Le.eq_dead (h : dead.Le F) : F = .dead := by
  cases F with
  | dead => rfl
  | live s => exact h.elim

lemma Has.mono {r : Nat} (hr : F.Has r) (h : F.Le G) : G.Has r := by
  cases G with
  | dead => trivial
  | live s =>
    cases F with
    | dead => exact h.elim
    | live s' => exact h hr

lemma le_write (F : Flow) (r : Nat) (t : Ty) : F.Le (F.write r t) := by
  cases F with
  | dead => trivial
  | live s =>
    simp only [write]
    split
    · trivial
    · split
      · exact Le.refl _
      · exact Set.subset_insert r s

lemma write_le_write (h : F.Le G) (r : Nat) (t : Ty) : (F.write r t).Le (G.write r t) := by
  cases G with
  | dead => exact le_dead _
  | live s =>
    cases F with
    | dead => exact h.elim
    | live s' =>
      simp only [write]
      split
      · trivial
      · split
        · exact h
        · exact Set.insert_subset_insert h

lemma has_write (F : Flow) (r : Nat) (t : Ty) : t = .unit ∨ (F.write r t).Has r := by
  cases F with
  | dead => exact .inr trivial
  | live s =>
    simp only [write]
    split
    · exact .inr trivial
    · split
      · exact .inl ‹_›
      · exact .inr (Set.mem_insert r s)

lemma write_never (F : Flow) (r : Nat) : F.write r .never = .dead := by
  cases F <;> rfl

lemma write_unit (F : Flow) (r : Nat) : F.write r .unit = F := by
  cases F <;> rfl

end Flow

/-! ### Layouts -/

/-- The types of the parameters and of the result of a function. -/
structure Signature where
  params : List Ty
  result : Ty

/-- The types of functions, by their names. -/
abbrev Signatures := List (Bytes × Signature)

/-- The types in sight in a function: those of its registers, the flows of its labels, and the
functions of the program by their names. -/
structure Layout where
  regs : List Ty
  labels : List (Bytes × Flow)
  sigs : Signatures

variable {V W : Layout}

/-- The second layout has all that the first one has. -/
structure Layout.Le (W V : Layout) : Prop where
  regs : ∀ {r : Nat} {t : Ty}, W.regs[r]? = some t → V.regs[r]? = some t
  labels : W.labels ⊆ V.labels
  sigs : W.sigs ⊆ V.sigs

lemma Layout.Le.refl (W : Layout) : W.Le W :=
  ⟨id, List.Subset.refl _, List.Subset.refl _⟩

lemma Layout.Le.trans {U : Layout} (h : U.Le V) (h' : V.Le W) : U.Le W :=
  ⟨fun hr => h'.regs (h.regs hr), List.Subset.trans h.labels h'.labels,
    List.Subset.trans h.sigs h'.sigs⟩

/-! ### Operands -/

/-- The value of an operand has a type. -/
inductive Operand.HasType (W : Layout) (F : Flow) : Operand → Ty → Prop
  | reg {r t} : W.regs[r]? = some t → t = .unit ∨ F.Has r → HasType W F (.reg r) t
  | int {n} : HasType W F (.lit (.int n)) .int
  | float {x} : HasType W F (.lit (.float x)) .float
  | bool {b} : HasType W F (.lit (.bool b)) .bool
  | string {s} : HasType W F (.lit (.string s)) .string
  | func {name sig} : (name, sig) ∈ W.sigs →
      HasType W F (.lit (.func name)) (.func sig.params sig.result)
  | sub {x s t} : HasType W F x s → s.Sub t → HasType W F x t

lemma Operand.HasType.mono {x : Operand} (hx : x.HasType W F t) (hW : W.Le V) (hF : F.Le G) :
    x.HasType V G t := by
  induction hx with
  | reg hr hF' => exact .reg (hW.regs hr) (hF'.imp_right fun h => h.mono hF)
  | int => exact .int
  | float => exact .float
  | bool => exact .bool
  | string => exact .string
  | func hsig => exact .func (hW.sigs hsig)
  | sub _ hsub ih => exact .sub ih hsub

lemma Operand.HasType.written (F : Flow) {d : Nat} (hd : W.regs[d]? = some t) :
    (Operand.reg d).HasType W (F.write d t) t :=
  .reg hd (F.has_write d t)

/-! ### Instructions -/

end Tac

/-- The type of the result of a primitive. -/
def Primitive.type? : Primitive → Ty → Option Ty
  | .neg, .int => some .int
  | .neg, .float => some .float
  | .not, .bool => some .bool
  | .len, .array _ => some .int
  | .len, .string => some .int
  | .toFloat, .int => some .float
  | _, _ => none

namespace Tac

/-- The rules for an instruction of a function with the given result type: the flow before it and
the flow after it. -/
inductive Instr.Typed (c : Static) (W : Layout) (result : Ty) (span : Span) :
    Flow → Instr → Flow → Prop
  | unreached {i} : i.label? = none → Typed c W result span .dead i .dead
  | assign {F d x t} : x.HasType W F t →
      W.regs[d]? = some t → Typed c W result span F (.assign d x) (F.write d t)
  | binary {F d op x y a b t} : x.HasType W F a →
      y.HasType W F b → Typing.binaryType? op a b = some t → W.regs[d]? = some t →
      Typed c W result span F (.binary d (.known op) x y) (F.write d t)
  | unary {F d op x a t} : x.HasType W F a → op.type? a = some t → W.regs[d]? = some t →
      Typed c W result span F (.unary d (.known op) x) (F.write d t)
  | call {F d f args params r} :
      f.HasType W F (.func params r) → List.Forall₂ (Operand.HasType W F) args params →
      W.regs[d]? = some r → Typed c W result span F (.call d f args) (F.write d r)
  | retNull {F} : result = .unit → Typed c W result span F (.ret none) .dead
  | ret {F x} : x.HasType W F result → Typed c W result span F (.ret (some x)) .dead
  | jumpUnless {F G x l} : x.HasType W F .bool →
      (l, G) ∈ W.labels → G.Le F → Typed c W result span F (.jumpUnless x l) F
  | jump {F G l} : (l, G) ∈ W.labels → G.Le F → Typed c W result span F (.jump l) .dead
  | label {F G l} : (l, G) ∈ W.labels → G.Le F → Typed c W result span F (.label l) G
  | array {F d xs e} : (∀ x ∈ xs, x.HasType W F e) → W.regs[d]? = some (.array e) →
      Typed c W result span F (.array d xs) (F.write d (.array e))
  | index {F d x i e} : x.HasType W F (.array e) → i.HasType W F .int → W.regs[d]? = some e →
      Typed c W result span F (.index d x i) (F.write d e)
  | setIndex {F x i v e} : x.HasType W F (.array e) →
      i.HasType W F .int → v.HasType W F e → Typed c W result span F (.setIndex x i v) F
  | field {F d x name a t} : x.HasType W F a → c.Selects span a name t → W.regs[d]? = some t →
      Typed c W result span F (.field d x name) (F.write d t)
  | setField {F x v name a t} : x.HasType W F a → c.Selects span a name t → v.HasType W F t →
      Typed c W result span F (.setField x name v) F
  | record {F d n type fields values} : TypeDef.Describes c.defs n type fields →
      (fields.map Prod.fst).Nodup →
      List.Forall₂ (Operand.HasType W F) values (fields.map Prod.snd) →
      W.regs[d]? = some (.named n) →
      Typed c W result span F (.record d type (fields.map Prod.fst) values)
        (F.write d (.named n))
  | print {F x t} : x.HasType W F t → Typed c W result span F (.print x) F

/-- The rules for a stretch of code. -/
inductive CodeTyped (c : Static) (W : Layout) (result : Ty) :
    Flow → Code → Flow → Prop
  | nil {F} : CodeTyped c W result F [] F
  | cons {F G H i is} : i.val.Typed c W result i.span F G → CodeTyped c W result G is H →
      CodeTyped c W result F (i :: is) H

/-- A function has the given signature.  Its end is never reached, as it returns before. -/
structure Func.Typed (c : Static) (W : Layout) (sig : Signature) (f : Func) : Prop where
  arity : f.params.length = sig.params.length
  params : ∀ {r : Nat} {t : Ty}, sig.params[r]? = some t → W.regs[r]? = some t
  labels : ∀ {l : Bytes} {F G : Flow}, (l, F) ∈ W.labels → (l, G) ∈ W.labels → F = G
  body : CodeTyped c W sig.result (.live {r | r < sig.params.length}) f.body .dead

/-! ### Larger layouts -/

variable {W V : Layout} {result : Ty} {is : Code}

lemma Instr.Typed.mono {i : Instr} (h : i.Typed c W result span F G) (hW : W.Le V) :
    i.Typed c V result span F G := by
  have hx {x : Operand} {t : Ty} (hx : x.HasType W F t) : x.HasType V F t := hx.mono hW (.refl F)
  have hxs {xs : List Operand} {ts : List Ty} (hxs : List.Forall₂ (Operand.HasType W F) xs ts) :
      List.Forall₂ (Operand.HasType V F) xs ts := hxs.imp fun _ _ h => hx h
  cases h with
  | unreached hi => exact .unreached hi
  | assign h hd => exact .assign (hx h) (hW.regs hd)
  | binary h h' ht hd => exact .binary (hx h) (hx h') ht (hW.regs hd)
  | unary h ht hd => exact .unary (hx h) ht (hW.regs hd)
  | call hf hargs hd => exact .call (hx hf) (hxs hargs) (hW.regs hd)
  | retNull hr => exact .retNull hr
  | ret h => exact .ret (hx h)
  | jumpUnless h hl hle => exact .jumpUnless (hx h) (hW.labels hl) hle
  | jump hl hle => exact .jump (hW.labels hl) hle
  | label hl hle => exact .label (hW.labels hl) hle
  | array h hd => exact .array (fun x hmem => hx (h x hmem)) (hW.regs hd)
  | index h hi hd => exact .index (hx h) (hx hi) (hW.regs hd)
  | setIndex h hi hv => exact .setIndex (hx h) (hx hi) (hx hv)
  | field h hs hd => exact .field (hx h) hs (hW.regs hd)
  | setField h hs hv => exact .setField (hx h) hs (hx hv)
  | record hdesc hnodup h hd => exact .record hdesc hnodup (hxs h) (hW.regs hd)
  | print h => exact .print (hx h)

lemma CodeTyped.mono (h : CodeTyped c W result F is G) (hW : W.Le V) :
    CodeTyped c V result F is G := by
  induction h with
  | nil => exact .nil
  | cons hi _ ih => exact .cons (hi.mono hW) ih

lemma CodeTyped.append {js : Code} (h : CodeTyped c W result F is G)
    (h' : CodeTyped c W result G js H) : CodeTyped c W result F (is ++ js) H := by
  induction h with
  | nil => exact h'
  | cons hi _ ih => exact .cons hi (ih h')

lemma CodeTyped.one {i : Located Instr} (h : i.val.Typed c W result i.span F G) :
    CodeTyped c W result F [i] G :=
  .cons h .nil

lemma CodeTyped.drop (h : CodeTyped c W result F is H) (k : Nat) :
    ∃ G, CodeTyped c W result G (is.drop k) H := by
  induction h generalizing k with
  | nil => exact ⟨_, by rw [List.drop_nil]; exact .nil⟩
  | cons hi hrest ih =>
    cases k with
    | zero => exact ⟨_, .cons hi hrest⟩
    | succ k => exact ih k

end Tac

end Minilang
