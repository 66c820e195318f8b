import Minilang.Proofs.Tree.Parsed
import Minilang.Proofs.Tree.Reading

/-!
# The parser is complete

Every tree that a text can be read as is read back from its canonical tokens.
-/

namespace Minilang

open Decimal Option List

variable {ts : List Token} {p : Program Unit} {toks : Tokens} {e : Token}

namespace Parser

variable {β : Type}

/-! ### What ends an expression -/

variable {minPrec : Nat} {structs : Bool} {rest : List Token}

/-- No call, selection or subscript starts with such a token. -/
def endsOperand (k : TokenKind) : Bool :=
  k ≠ .lparen && k ≠ .dot && k ≠ .lbracket

/-- No expression goes on with such a token. -/
def endsExpr (k : TokenKind) : Bool :=
  endsOperand k && (BinaryOp.ofToken? k).isNone && k ≠ .assign

lemma endsExpr_iff {k : TokenKind} : endsExpr k = true ↔
    endsOperand k = true ∧ BinaryOp.ofToken? k = none ∧ k ≠ .assign := by
  simp [endsExpr, and_assoc]

section Chain

variable {inner : Inner} {R : Expr Unit → Prop}

lemma reads_suffixes_end (hrest : endsOperand (firstKind rest) = true) (m : Nat) (x : Expr Unit) :
    Reads (suffixes inner m x) rest rest fun y => y = x := by
  cases m with
  | zero => exact .pure rfl
  | succ m =>
    refine .kind ?_
    split
    · next h => rw [h] at hrest; cases hrest
    · next h => rw [h] at hrest; cases hrest
    · next h => rw [h] at hrest; cases hrest
    · exact .pure rfl

/-- The operator that tokens begin with, if there is one, is of a precedence below the given one. -/
def Below (prec : Nat) (ts : List Token) : Prop :=
  ∀ op, BinaryOp.ofToken? (firstKind ts) = some op → op.precedence < prec

lemma Below.of_none (h : BinaryOp.ofToken? (firstKind ts) = none) : Below minPrec ts := by
  intro op hop
  rw [h] at hop
  cases hop

lemma reads_operations_end (hrest : Below minPrec rest) (m : Nat) (x : Expr Unit) :
    Reads (operations inner structs minPrec m x) rest rest fun y => y = x := by
  cases m with
  | zero => exact .pure rfl
  | succ m =>
    refine .kind ?_
    cases hop : BinaryOp.ofToken? (firstKind rest) with
    | none => exact .pure rfl
    | some op =>
      simp only [if_pos (hrest op hop)]
      exact .pure rfl

lemma reads_operand (h : Reads (primary inner structs) ts rest R)
    (hrest : endsOperand (firstKind rest) = true) :
    Reads (postfixExpr inner structs) ts rest R := by
  refine h.bind fun x hx => (reads_suffixes_end hrest _ x).mono ?_
  rintro _ rfl
  exact hx

lemma reads_unary (h : Reads (postfixExpr inner structs) ts rest R) (hminus : firstKind ts ≠ .minus)
    (hbang : firstKind ts ≠ .bang) : Reads (unary inner structs) ts rest R := by
  refine .kind ?_
  split
  · next heq => exact absurd heq hminus
  · next heq => exact absurd heq hbang
  · exact h

lemma reads_binary (h : Reads (unary inner structs) ts rest R)
    (hrest : BinaryOp.ofToken? (firstKind rest) = none) :
    Reads (binary inner structs minPrec) ts rest R := by
  refine h.bind fun x hx => (reads_operations_end (.of_none hrest) _ x).mono ?_
  rintro _ rfl
  exact hx

lemma reads_expr (h : Reads (binary inner structs 1) ts rest R)
    (hrest : firstKind rest ≠ .assign) : Reads (expr inner structs) ts rest R := by
  refine h.bind fun x hx => .kind ?_
  rw [if_neg hrest]
  exact .pure hx

end Chain

/-! ### Expressions in parentheses -/

variable {b : Block Unit} {n : Nat} {x y : Expr Unit}

lemma enclosed_append (ts rest : List Token) :
    enclosed ts ++ rest = .fixed .lparen :: (ts ++ .fixed .rparen :: rest) := by
  simp [enclosed]

/-- The same expression, perhaps in another place. -/
abbrev SameExpr (x y : Expr Unit) : Prop :=
  y.unplaced = x.unplaced

/-- The blocks differ in positions only. -/
abbrev SameBlock (a b : Block Unit) : Prop :=
  b.unplaced = a.unplaced

/-- An expression is read back in front of a closing parenthesis. -/
def ReadsExpr (x : Expr Unit) : Prop :=
  ∀ n rest, (x.tokens ++ .fixed .rparen :: rest).length ≤ n →
    Reads (expr (nested n) true) (x.tokens ++ .fixed .rparen :: rest) (.fixed .rparen :: rest)
      (SameExpr x)

namespace ReadsExpr

variable (hx : ReadsExpr x)

include hx

section

variable (hn : (enclosed x.tokens ++ rest).length ≤ n)

include hn

lemma primary : Reads (primary (nested n) structs) (enclosed x.tokens ++ rest) rest
    (SameExpr x) := by
  rw [enclosed_append] at hn ⊢
  refine .get fun s hs => ?_
  simp only [hs]
  refine .next (by simp) fun _ => ?_
  refine (reads_inner (·.expr true) (fun _ => rfl) (fun n hn => hx n rest hn) (by grind)).bind
    fun y hy => ?_
  exact .expect (by simp) fun _ => .pure hy

lemma unary (hrest : endsOperand (firstKind rest) = true) :
    Reads (unary (nested n) structs) (enclosed x.tokens ++ rest) rest (SameExpr x) :=
  reads_unary (reads_operand (hx.primary hn) hrest) (by simp [enclosed]) (by simp [enclosed])

lemma binary (hrest : endsExpr (firstKind rest) = true) :
    Reads (binary (nested n) structs minPrec) (enclosed x.tokens ++ rest) rest (SameExpr x) :=
  have h := endsExpr_iff.mp hrest
  reads_binary (hx.unary hn h.1) h.2.1

lemma expr (hrest : endsExpr (firstKind rest) = true) :
    Reads (expr (nested n) structs) (enclosed x.tokens ++ rest) rest (SameExpr x) :=
  reads_expr (hx.binary hn hrest) (endsExpr_iff.mp hrest).2.2

end

/-! The same for the inner parsers. -/

variable (hn : (enclosed x.tokens ++ rest).length < n)

include hn

lemma innerUnary (hrest : endsOperand (firstKind rest) = true) :
    Reads ((nested n).unary structs) (enclosed x.tokens ++ rest) rest (SameExpr x) :=
  reads_inner (·.unary structs) (fun _ => rfl) (fun _ hn => hx.unary hn hrest) hn

lemma innerBinary (hrest : endsExpr (firstKind rest) = true) :
    Reads ((nested n).binary structs minPrec) (enclosed x.tokens ++ rest) rest (SameExpr x) :=
  reads_inner (·.binary structs minPrec) (fun _ => rfl) (fun _ hn => hx.binary hn hrest) hn

lemma innerExpr (hrest : endsExpr (firstKind rest) = true) :
    Reads ((nested n).expr structs) (enclosed x.tokens ++ rest) rest (SameExpr x) :=
  reads_inner (·.expr structs) (fun _ => rfl) (fun _ hn => hx.expr hn hrest) hn

end ReadsExpr

/-- The tokens of a block are read as this block. -/
def ReadsBlock (b : Block Unit) : Prop :=
  ∀ n rest, (b.tokens ++ rest).length ≤ n →
    Reads (block (nested n)) (b.tokens ++ rest) rest (SameBlock b)

lemma ReadsBlock.inner (hb : ReadsBlock b) (hn : (b.tokens ++ rest).length < n) :
    Reads (nested n).block (b.tokens ++ rest) rest (SameBlock b) :=
  reads_inner (·.block) (fun _ => rfl) (fun n hn => hb n rest hn) hn

/-! ### Operations -/

section Operations

variable (s : Span) (op : BinaryOp)

lemma readsExpr_of_unary (h : ∀ n rest, (x.tokens ++ .fixed .rparen :: rest).length ≤ n →
      Reads (unary (nested n) true) (x.tokens ++ .fixed .rparen :: rest) (.fixed .rparen :: rest)
        (SameExpr x)) : ReadsExpr x :=
  fun n rest hn => reads_expr (reads_binary (h n rest hn) rfl) (by simp)

lemma readsExpr_of_primary (hfirst : ∀ rest, firstKind (x.tokens ++ rest) ∉ [.minus, .bang])
    (h : ∀ n rest, (x.tokens ++ .fixed .rparen :: rest).length ≤ n →
      Reads (primary (nested n) true) (x.tokens ++ .fixed .rparen :: rest) (.fixed .rparen :: rest)
        (SameExpr x)) : ReadsExpr x := by
  refine readsExpr_of_unary fun n rest hn => reads_unary (reads_operand (h n rest hn) rfl) ?_ ?_
  · intro hminus
    have := hfirst (.fixed .rparen :: rest)
    simp [hminus] at this
  · intro hbang
    have := hfirst (.fixed .rparen :: rest)
    simp [hbang] at this

lemma ofToken?_kind : BinaryOp.ofToken? op.kind = some op := by
  cases op <;> rfl

lemma endsOperand_kind : endsOperand op.kind = true := by
  cases op <;> rfl

lemma readsExpr_binary (hx : ReadsExpr x) (hy : ReadsExpr y) : ReadsExpr (.binary s () op x y) := by
  intro n rest hn
  simp only [Expr.tokens, append_assoc, cons_append] at hn ⊢
  refine reads_expr ?_ (by simp)
  refine (hx.unary hn (endsOperand_kind op)).bind fun x' hx' => ?_
  rw [limit_nested]
  refine .kind ?_
  have hprec : ¬op.precedence < 1 := by cases op <;> decide
  simp only [firstKind_cons, Token.kind_fixed, ofToken?_kind, if_neg hprec]
  refine .next (by cases op <;> simp [BinaryOp.kind]) fun _ => ?_
  refine (hy.innerBinary (by grind) rfl).bind fun y' hy' => ?_
  refine (reads_operations_end (.of_none rfl) _ _).mono ?_
  simp [SameExpr, Expr.unplaced, hx', hy']

lemma readsExpr_assign (hx : ReadsExpr x) (hy : ReadsExpr y) (htarget : x.isTarget = true) :
    ReadsExpr (.assign s () x y) := by
  intro n rest hn
  simp only [Expr.tokens, append_assoc] at hn ⊢
  refine (reads_binary (hx.unary hn rfl) rfl).bind fun x' hx' => .kind ?_
  have htarget' : x'.isTarget = true := by
    rw [← Expr.isTarget_unplaced, hx', Expr.isTarget_unplaced, htarget]
  refine .next (by simp) fun _ => ?_
  rw [if_pos htarget']
  refine (hy.innerExpr (by grind) rfl).bind fun y' hy' => .pure ?_
  simp [SameExpr, Expr.unplaced, hx', hy']

lemma reads_leastInt?_none {t u : Token} (hu : u.kind ≠ .int) :
    Reads leastInt? (t :: u :: ts) (t :: u :: ts) fun x => x = none := by
  refine .get_two fun st v vs _ hrest hv => ?_
  simp only [hrest, hv]
  refine .kindAfter ?_
  rw [if_pos (.inl hu)]
  exact .pure rfl

lemma readsExpr_unary (op : UnaryOp) (hx : ReadsExpr x) : ReadsExpr (.unary s () op x) := by
  refine readsExpr_of_unary fun n rest hn => ?_
  simp only [Expr.tokens] at hn ⊢
  have hnegated : Reads (negated (nested n) true op)
      (.fixed op.kind :: (enclosed x.tokens ++ .fixed .rparen :: rest)) (.fixed .rparen :: rest)
      (SameExpr (.unary s () op x)) := by
    refine .next (by cases op <;> simp [UnaryOp.kind]) fun _ => ?_
    refine (hx.innerUnary (by grind) rfl).bind fun y hy => .pure ?_
    simp [SameExpr, Expr.unplaced, hy]
  refine .kind ?_
  cases op with
  | neg =>
    refine (reads_leastInt?_none (by simp)).bind ?_
    rintro _ rfl
    exact hnegated
  | not => exact hnegated

end Operations

/-! ### Suffixes -/

variable {xs : List (Expr Unit)} {name : Name}

section Suffixes

variable (s : Span)

lemma readsExpr_suffix {z : Expr Unit} {suffix : List Token} (hx : ReadsExpr x)
    (hz : z.tokens = enclosed x.tokens ++ suffix)
    (h : ∀ n rest x', SameExpr x x' → (suffix ++ .fixed .rparen :: rest).length < n →
      Reads (suffixes (nested n) (n + 1) x') (suffix ++ .fixed .rparen :: rest)
        (.fixed .rparen :: rest) (SameExpr z)) : ReadsExpr z := by
  refine readsExpr_of_unary fun n rest hn => ?_
  rw [hz, append_assoc] at hn ⊢
  refine reads_unary ?_ (by simp [enclosed]) (by simp [enclosed])
  refine (hx.primary hn).bind fun x' hx' => ?_
  rw [limit_nested]
  refine h n rest x' hx' ?_
  simp only [enclosed, length_append, length_cons] at hn ⊢
  omega

lemma readsElements_exprs {closing : TokenKind} (hclosing : closing ≠ .lparen)
    (hends : endsExpr closing = true) (h : ∀ x ∈ xs, ReadsExpr x) :
    ReadsElements n closing ((nested n).expr true) (fun x => enclosed x.tokens)
    Expr.unplaced xs := by
  refine ⟨fun x hx rest hfirst => hclosing hfirst.symm, fun x hx rest hn hrest => ?_⟩
  refine (h x hx).innerExpr hn ?_
  obtain hrest | hrest := hrest <;> rw [hrest]
  · rfl
  · exact hends

lemma readsExpr_call {args : List (Expr Unit)} (hx : ReadsExpr x)
    (hargs : ∀ a ∈ args, ReadsExpr a) : ReadsExpr (.call s () x args) := by
  refine readsExpr_suffix hx rfl fun n rest x' hx' hn => ?_
  rw [Expr.listTokens_eq_map, enclosed_append] at hn ⊢
  refine .kind ?_
  refine .next (by simp) fun _ => ?_
  refine ((readsElements_exprs (by simp) rfl hargs).list (by simp) (by simp)
    (by rw [limit_nested]; omega) (by grind)).bind fun as has => ?_
  refine .spanFrom fun _ => (reads_suffixes_end rfl _ _).mono ?_
  simp [SameExpr, Expr.unplaced, hx', Expr.listUnplaced_eq_map, has]

lemma readsExpr_index (hx : ReadsExpr x) (hy : ReadsExpr y) : ReadsExpr (.index s () x y) := by
  refine readsExpr_suffix hx rfl fun n rest x' hx' hn => ?_
  simp only [cons_append, append_assoc] at hn ⊢
  refine .kind ?_
  refine .next (by simp) fun _ => ?_
  refine (hy.innerExpr (by grind) rfl).bind fun y' hy' => ?_
  refine .expect (by simp) fun _ => .spanFrom fun _ => (reads_suffixes_end rfl _ _).mono ?_
  simp [SameExpr, Expr.unplaced, hx', hy']

lemma reads_selectors (hname : name.Selects) (rest : List Token) :
    Reads selectors (name.selector :: rest) rest fun ns => ns.map Name.unplaced =
    [name.unplaced] := by
  refine .get fun st hst => ?_
  cases hpos : name.isPosition with
  | true =>
    obtain ⟨k, hk, htext⟩ := hname hpos
    have hread : readInt? (ofNat k) = some (k : Int) := by
      rw [readInt?_digits (ofNat_ne_nil k) (ofNat_all_isDigit k), value_ofNat, if_pos hk]
    simp only [hst, Name.selector, hpos, htext]
    refine .next (by simp) fun _ => ?_
    simp only [position, hread]
    refine .bind (.pure (R := fun n => n.text = ofNat k) rfl) fun n hn => .pure ?_
    simp [Name.unplaced, hn, htext]
  | false =>
    have hselector : name.selector = .ident name.text := by
      simp only [Name.selector, hpos]
      rfl
    simp only [hst, hselector]
    refine .name fun n hn => .pure ?_
    simp [Name.unplaced, hn]

lemma readsExpr_field (hx : ReadsExpr x) (hname : name.Selects) :
    ReadsExpr (.field s () x name) := by
  refine readsExpr_suffix hx rfl fun n rest x' hx' hn => ?_
  refine .kind ?_
  refine .next (by simp) fun _ => ?_
  refine (reads_selectors hname _).bind fun ns hns => (reads_suffixes_end rfl _ _).mono ?_
  obtain ⟨n', rfl, hn'⟩ : ∃ n', ns = [n'] ∧ n'.unplaced = name.unplaced := by
    simpa using hns
  simp [selectAll, SameExpr, Expr.unplaced, hx', hn']

end Suffixes

/-! ### Literals -/

section Literals

variable (s : Span)

lemma readsExpr_int {k : Int64} (hk : 0 ≤ k) : ReadsExpr (.lit s () (.int k)) := by
  have hpos : 0 ≤ k.toInt := Int64.le_iff_toInt_le.mp hk
  have hlt : k.toInt.natAbs < 2 ^ 63 := by
    have := k.toInt_lt
    omega
  have htokens : (Expr.lit s () (.int k)).tokens = [⟨.int, ofNat k.toInt.natAbs⟩] :=
    if_neg (Int64.not_lt.mpr hk)
  have hread : readInt? (ofNat k.toInt.natAbs) = some k.toInt := by
    rw [readInt?_digits (ofNat_ne_nil _) (ofNat_all_isDigit _),
      value_ofNat, if_pos hlt, Int.natAbs_of_nonneg hpos]
  refine readsExpr_of_primary (fun rest => by simp [htokens]) fun n rest hn => ?_
  rw [htokens]
  refine .get fun st hst => ?_
  simp only [hst]
  refine .next (by simp) fun _ => ?_
  simp only [hread, Int64.ofInt_toInt]
  exact .pure rfl

lemma readsExpr_leastInt : ReadsExpr (.lit s () (.int Int64.minValue)) := by
  have hdigits := ofNat_all_isDigit (2 ^ 63)
  have hne := ofNat_ne_nil (2 ^ 63)
  have hlarge : readInt? (ofNat (2 ^ 63)) = none := by
    rw [readInt?_digits hne hdigits, value_ofNat, if_neg (lt_irrefl _)]
  have hread : readInt? (45 :: ofNat (2 ^ 63)) = some (-2 ^ 63) := by
    rw [readInt?_minus hne hdigits, value_ofNat]
    rfl
  refine readsExpr_of_unary fun n rest hn => ?_
  refine .kind ?_
  have hleast : Reads leastInt? (.fixed .minus :: ⟨.int, ofNat (2 ^ 63)⟩ ::
      .fixed .rparen :: rest) (.fixed .rparen :: rest)
      fun x => ∃ y, x = some y ∧ SameExpr (.lit s () (.int Int64.minValue)) y := by
    refine .get_two fun st v vs _ hrest hv => ?_
    simp only [hrest, hv]
    refine .kindAfter ?_
    rw [hlarge]
    simp only [hread]
    exact .next (by simp) fun _ => .next (by simp) fun _ => .pure ⟨_, rfl, rfl⟩
  refine hleast.bind ?_
  rintro _ ⟨y, rfl, hy⟩
  exact .pure hy

lemma readsExpr_float {x : Double} (hfinite : x.isFinite = true) (hsign : x.isNegative = false) :
    ReadsExpr (.lit s () (.float x)) := by
  refine readsExpr_of_primary (fun rest => by simp [Expr.tokens, Literal.tokens])
    fun n rest hn => ?_
  refine .get fun st hst => ?_
  simp only [hst]
  refine .next (by simp) fun _ => ?_
  simp only [Double.read?_text hfinite hsign]
  exact .pure rfl

lemma readsExpr_string (text : Bytes) : ReadsExpr (.lit s () (.string text)) := by
  refine readsExpr_of_primary (fun rest => by simp [Expr.tokens, Literal.tokens])
    fun n rest hn => ?_
  refine .get fun st hst => ?_
  simp only [hst]
  exact .next (by simp) fun _ => .pure rfl

lemma readsExpr_bool (b : Bool) : ReadsExpr (.lit s () (.bool b)) := by
  cases b <;>
    refine readsExpr_of_primary (fun rest => by simp [Expr.tokens, Literal.tokens])
      fun n rest hn => .get fun st hst => ?_ <;>
    simp only [hst] <;>
    exact .next (by simp) fun _ => .pure rfl

lemma readsExpr_lit {v : Literal} (hv : v.Writable) : ReadsExpr (.lit s () v) := by
  cases v with
  | int k =>
    obtain hk | rfl := hv
    · exact readsExpr_int s hk
    · exact readsExpr_leastInt s
  | float x => exact readsExpr_float s hv.1 hv.2
  | string text => exact readsExpr_string s text
  | bool b => exact readsExpr_bool s b

end Literals

/-! ### Other expressions that begin with a token of their own -/

section Primaries

variable (s : Span) {fs : List (FieldValue Unit)}

lemma readsExpr_var (name : Bytes) : ReadsExpr (.var s () name) := by
  refine readsExpr_of_primary (fun rest => by simp [Expr.tokens]) fun n rest hn => ?_
  refine .get fun st hst => ?_
  simp only [hst]
  have hstarts : Reads startsStruct ([.ident name] ++ .fixed .rparen :: rest)
      ([.ident name] ++ .fixed .rparen :: rest) fun b => b = false := by
    refine .kindAfter ?_
    exact .pure rfl
  refine hstarts.bind ?_
  rintro _ rfl
  exact .next (by simp) fun _ => .pure rfl

lemma readsExpr_array (hxs : ∀ x ∈ xs, ReadsExpr x) : ReadsExpr (.array s () xs) := by
  refine readsExpr_of_primary (fun rest => by simp [Expr.tokens]) fun n rest hn => ?_
  simp only [Expr.tokens, Expr.listTokens_eq_map, cons_append, append_assoc] at hn ⊢
  refine .get fun st hst => ?_
  simp only [hst]
  refine .next (by simp) fun _ => ?_
  refine ((readsElements_exprs (by simp) rfl hxs).list (by simp) (by simp)
    (by rw [limit_nested]; omega) (by grind)).bind fun ys hys => ?_
  refine .spanFrom fun _ => .pure ?_
  simp [SameExpr, Expr.unplaced, Expr.listUnplaced_eq_map, hys]

lemma firstKind_block (b : Block Unit) (rest : List Token) :
    firstKind (b.tokens ++ rest) = .lbrace := by
  obtain ⟨s, u, ss, value⟩ := b
  cases value <;> rfl

lemma readsExpr_lambda (params : List Param) (result : Option TypeExpr) {body : Block Unit}
    (hbody : ReadsBlock body) : ReadsExpr (.lambda s () params result body) := by
  refine readsExpr_of_primary (fun rest => by simp [Expr.tokens]) fun n rest hn => ?_
  simp only [Expr.tokens, cons_append, append_assoc] at hn ⊢
  refine .get fun st hst => ?_
  simp only [hst]
  refine .next (by simp) fun _ => ?_
  refine (reads_signature params result (by grind) (by rw [firstKind_block]; simp)).bind
    fun sig hsig => ?_
  refine (hbody.inner (by grind)).bind fun b hb => .spanFrom fun _ => .pure ?_
  simp [SameExpr, Expr.unplaced, hsig.1, hsig.2, hb]

lemma readsExpr_block (hb : ReadsBlock b) : ReadsExpr (.block b) := by
  have hfirst := firstKind_block b
  refine readsExpr_of_primary (fun rest => by rw [Expr.tokens, hfirst]; simp) fun n rest hn => ?_
  rw [Expr.tokens] at hn ⊢
  refine .get_kind fun st hst => ?_
  simp only [hst, hfirst]
  refine (hb n _ hn).map fun b' hb' => ?_
  simp [SameExpr, Expr.unplaced, hb']

lemma reads_fieldValue {x : Expr Unit} (hx : ReadsExpr x)
    (hn : ((FieldValue.mk s name x).tokens ++ rest).length ≤ n)
    (hrest : endsExpr (firstKind rest) = true) :
    Reads (fieldValue (nested n)) ((FieldValue.mk s name x).tokens ++ rest) rest
      fun f => f.unplaced = (FieldValue.mk s name x).unplaced := by
  simp only [FieldValue.tokens] at hn ⊢
  refine .name fun y hy => .expect (by simp) fun _ => ?_
  refine (hx.innerExpr (by grind) hrest).bind fun x' hx' => .spanFrom fun _ => .pure ?_
  simp [FieldValue.unplaced, Name.unplaced, hy, hx']

/-- The tokens of the value of a field are read as this value. -/
def ReadsField : FieldValue Unit → Prop
  | .mk _ _ x => ReadsExpr x

lemma readsElements_fields (h : ∀ f ∈ fs, ReadsField f) :
    ReadsElements (n + 1) .rbrace (fieldValue (nested n)) FieldValue.tokens
    FieldValue.unplaced fs := by
  refine ⟨fun f hf rest => ?_, fun f hf rest hn hrest => ?_⟩
  · obtain ⟨s, name, x⟩ := f
    simp [FieldValue.tokens]
  · obtain ⟨s, name, x⟩ := f
    refine reads_fieldValue s (h _ hf) (Nat.lt_succ_iff.mp hn) ?_
    obtain hrest | hrest := hrest <;> rw [hrest] <;> rfl

lemma reads_startsStruct (type : Bytes) (fs : List (FieldValue Unit)) (rest : List Token) :
    let ts := Token.ident type :: .fixed .lbrace ::
      (commaSeparated (fs.map FieldValue.tokens) ++ .fixed .rbrace :: rest)
    Reads startsStruct ts ts fun b => b = true := by
  refine .kindAfter ?_
  refine .kindAfter ?_
  cases fs with
  | nil => exact .pure rfl
  | cons f fs =>
    obtain ⟨s, name, x⟩ := f
    have htokens : ∃ more, commaSeparated (((FieldValue.mk s name x) :: fs).map FieldValue.tokens) =
        .ident name.text :: .fixed .colon :: more := by
      cases fs <;> exact ⟨_, rfl⟩
    obtain ⟨more, hmore⟩ := htokens
    rw [hmore]
    exact .kindAfter (.kindAfter (.pure rfl))

lemma readsExpr_struct (type : Name) (hfs : ∀ f ∈ fs, ReadsField f) :
    ReadsExpr (.struct s () type fs) := by
  refine readsExpr_of_primary (fun rest => by simp [Expr.tokens]) fun n rest hn => ?_
  simp only [Expr.tokens, FieldValue.listTokens_eq_map, cons_append, append_assoc] at hn ⊢
  refine .get fun st hst => ?_
  simp only [hst]
  refine (reads_startsStruct type.text fs (.fixed .rparen :: rest)).bind ?_
  rintro _ rfl
  refine .name fun y hy => .next (by simp) fun _ => ?_
  refine ((readsElements_fields hfs).list (by simp) (by simp) (limit_nested n).ge (by grind)).bind
    fun gs hgs => .spanFrom fun _ => .pure ?_
  simp [SameExpr, Expr.unplaced, Name.unplaced, hy, FieldValue.listUnplaced_eq_map, hgs]

end Primaries

/-! ### Conditionals -/

variable {rest' : List Token}

section Conditionals

/-- A conditional is read back where no other branch follows. -/
def ReadsCond (x : Expr Unit) : Prop :=
  ∀ n rest, (x.tokens ++ rest).length ≤ n → firstKind rest ≠ .kwElse →
    Reads (cond (nested n)) (x.tokens ++ rest) rest (SameExpr x)

/-- What follows `else` is read back. -/
inductive ReadsElse : Expr Unit → Prop where
  | block {b : Block Unit} (h : ReadsBlock b) : ReadsElse (.block b)
  | cond {s : Span} {test : Expr Unit} {t : Block Unit} {e : Option (Expr Unit)}
    (h : ReadsCond (.cond s () test t e)) : ReadsElse (.cond s () test t e)

variable (s : Span) {test : Expr Unit} {t : Block Unit} {e : Option (Expr Unit)}

lemma firstKind_cond (rest : List Token) :
    firstKind ((Expr.cond s () test t e).tokens ++ rest) = .kwIf := by
  cases e <;> rfl

lemma reads_else {f : Option (Expr Unit) → P β} {R : β → Prop} (he : ∀ x ∈ e, ReadsElse x)
    (hn : (elseTokens e ++ rest).length ≤ n) (hrest : firstKind rest ≠ .kwElse)
    (h : ∀ e', e'.map Expr.unplaced = e.map Expr.unplaced → Reads (f e') rest rest' R) :
    Reads (accept .kwElse >>= fun found => if found = true then
        kind >>= fun k => if k = .kwIf then (some <$> (nested n).cond) >>= f
          else ((some ∘ Expr.block) <$> (nested n).block) >>= f
      else pure none >>= f) (elseTokens e ++ rest) rest' R := by
  cases e with
  | none =>
    refine .reject hrest ?_
    exact .bind (.pure rfl) fun e' he' => h e' (by rw [he'])
  | some x =>
    rw [elseTokens, cons_append] at hn ⊢
    refine .accept (by simp) (.kind ?_)
    cases he x rfl with
    | block hb =>
      rw [Expr.tokens] at hn ⊢
      rw [firstKind_block]
      refine .bind ((hb.inner (by grind)).map fun b hb' => ?_) h
      simp [Expr.unplaced, hb']
    | cond hx =>
      rw [firstKind_cond]
      have hinner := reads_inner (·.cond) (fun _ => rfl) (fun m hm => hx m rest hm hrest)
        (Nat.lt_of_succ_le hn)
      exact .bind (hinner.map fun y hy => by rw [map_some, map_some, hy]) h

lemma readsCond (htest : ReadsExpr test) (ht : ReadsBlock t) (he : ∀ x ∈ e, ReadsElse x) :
    ReadsCond (.cond s () test t e) := by
  intro n rest hn hrest
  simp only [Expr.tokens_cond, cons_append, append_assoc] at hn ⊢
  refine .next (by simp) fun _ => ?_
  refine (htest.innerExpr (by grind) (by rw [firstKind_block]; rfl)).bind fun test' htest' => ?_
  refine (ht.inner (by grind)).bind fun t' ht' => ?_
  refine reads_else he (by grind) hrest fun e' he' => .spanFrom fun _ => .pure ?_
  simp [SameExpr, Expr.unplaced_cond, htest', ht', he']

lemma readsExpr_cond (h : ReadsCond (.cond s () test t e)) : ReadsExpr (.cond s () test t e) := by
  have hfirst : ∀ rest, firstKind ((Expr.cond s () test t e).tokens ++ rest) = .kwIf :=
    firstKind_cond s
  refine readsExpr_of_primary (fun rest => by rw [hfirst]; simp) fun n rest hn => ?_
  refine .get_kind fun st hst => ?_
  simp only [hst, hfirst]
  exact h n _ hn (by simp)

end Conditionals

/-! ### Statements -/

/-- A statement is read back, after the brace that opens its block. -/
def ReadsStmt (s : Stmt Unit) : Prop :=
  ∀ n rest, (s.tokens ++ rest).length < n → Reads (item (nested n)) (s.tokens ++ rest) rest
    fun i => ∃ s', i = .stmt s' ∧ s'.unplaced = s.unplaced

section Statements

variable (s : Span) {e : Option (Expr Unit)}

lemma reads_stmt {p : P (Stmt Unit)} {s : Stmt Unit}
    (h : Reads p ts rest fun s' => s'.unplaced = s.unplaced) :
    Reads (Item.stmt <$> p) ts rest fun i => ∃ s', i = .stmt s' ∧ s'.unplaced = s.unplaced :=
  h.map fun s' hs' => ⟨s', rfl, hs'⟩

lemma readsStmt_letVar (name : Name) (type : Option TypeExpr) (hx : ReadsExpr x) :
    ReadsStmt (.letVar s name type x) := by
  intro n rest hn
  simp only [Stmt.tokens_letVar, cons_append, append_assoc] at hn ⊢
  refine .kind (reads_stmt ?_)
  refine .next (by simp) fun _ => .name fun m hm => ?_
  refine .typeAfter (by simp) (by simp)
    (fun t ht hlen => (readsType t).inner (by grind) (by simp)) fun r hr => ?_
  refine .expect (by simp) fun _ => ?_
  refine (hx.innerExpr (by grind) rfl).bind fun x' hx' => ?_
  refine .expect (by simp) fun _ => .spanFrom fun _ => .pure ?_
  simp [Stmt.unplaced, Name.unplaced, hm, hr, hx']

lemma readsStmt_ret (he : ∀ x ∈ e, ReadsExpr x) : ReadsStmt (.ret s e) := by
  intro n rest hn
  simp only [Stmt.tokens_ret, cons_append, append_assoc] at hn ⊢
  refine .kind (reads_stmt ?_)
  refine .next (by simp) fun _ => .kind ?_
  cases e with
  | none =>
    refine .bind (.pure rfl) ?_
    rintro _ rfl
    exact .spanFrom fun _ => .accept (by simp) (.pure rfl)
  | some x =>
    rw [valueTokens] at hn ⊢
    have hvalue : Reads (some <$> (nested n).expr true)
        (enclosed x.tokens ++ .fixed .semicolon :: rest) (.fixed .semicolon :: rest)
        fun v => v.map Expr.unplaced = some x.unplaced :=
      ((he x rfl).innerExpr (by grind) rfl).map fun x' hx' => congrArg some hx'
    refine hvalue.bind fun v hv => ?_
    refine .spanFrom fun _ => .accept (by simp) (.pure ?_)
    simp [Stmt.unplaced_ret, hv]

lemma readsStmt_loop (hx : ReadsExpr x) (hb : ReadsBlock b) : ReadsStmt (.loop s x b) := by
  intro n rest hn
  simp only [Stmt.tokens, cons_append, append_assoc] at hn ⊢
  refine .kind (reads_stmt ?_)
  refine .next (by simp) fun _ => ?_
  refine (hx.innerExpr (by grind) (by rw [firstKind_block]; rfl)).bind fun x' hx' => ?_
  refine (hb.inner (by grind)).bind fun b' hb' => .spanFrom fun _ => .pure ?_
  simp [Stmt.unplaced, hx', hb']

lemma readsStmt_forRange (name : Name) (hx : ReadsExpr x) (hy : ReadsExpr y) (hb : ReadsBlock b) :
    ReadsStmt (.forRange s name x y b) := by
  intro n rest hn
  simp only [Stmt.tokens, cons_append, append_assoc] at hn ⊢
  refine .kind (reads_stmt ?_)
  refine .next (by simp) fun _ => .name fun m hm => .expect (by simp) fun _ => ?_
  refine (hx.innerExpr (by grind) rfl).bind fun x' hx' => .accept (by simp) ?_
  refine (hy.innerExpr (by grind) (by rw [firstKind_block]; rfl)).bind fun y' hy' => ?_
  refine (hb.inner (by grind)).bind fun b' hb' => .spanFrom fun _ => .pure ?_
  simp [Stmt.unplaced, Name.unplaced, hm, hx', hy', hb']

lemma readsStmt_forEach (name : Name) (hx : ReadsExpr x) (hb : ReadsBlock b) :
    ReadsStmt (.forEach s name x b) := by
  intro n rest hn
  simp only [Stmt.tokens, cons_append, append_assoc] at hn ⊢
  refine .kind (reads_stmt ?_)
  refine .next (by simp) fun _ => .name fun m hm => .expect (by simp) fun _ => ?_
  refine (hx.innerExpr (by grind) (by rw [firstKind_block]; rfl)).bind fun x' hx' => ?_
  refine .reject (by rw [firstKind_block]; simp) ?_
  refine (hb.inner (by grind)).bind fun b' hb' => .spanFrom fun _ => .pure ?_
  simp [Stmt.unplaced, Name.unplaced, hm, hx', hb']

lemma reads_item_expr (hx : ReadsExpr x) {R : Item → Prop}
    (hn : (enclosed x.tokens ++ rest).length < n) (hrest : endsExpr (firstKind rest) = true)
    (h : ∀ x', SameExpr x x' → Reads (accept .rbrace >>= fun found =>
      if found = true then pure (.finish (some x')) else accept .semicolon >>= fun found =>
      if found = true then pure (.stmt (.expr x')) else
      if x'.isBlockLike = true then pure (.stmt (.expr x')) else unexpected "; or \x7d") rest rest'
      R) :
    Reads (item (nested n)) (enclosed x.tokens ++ rest) rest' R :=
  .kind ((hx.innerExpr hn hrest).bind h)

lemma readsStmt_expr (hx : ReadsExpr x) : ReadsStmt (.expr x) := by
  intro n rest hn
  simp only [Stmt.tokens, append_assoc] at hn ⊢
  refine reads_item_expr hx hn rfl fun x' hx' => ?_
  refine .reject (by simp) (.accept (by simp) (.pure ⟨.expr x', rfl, ?_⟩))
  rw [Stmt.unplaced, Stmt.unplaced, hx']

end Statements

/-! ### Blocks -/

variable {m : Nat}

section Blocks

variable {e : Option (Expr Unit)} {ss : List (Stmt Unit)}

lemma length_stmt_pos (s : Stmt Unit) : 0 < s.tokens.length := by
  cases s with
  | letVar s x type v => cases type <;> exact Nat.succ_pos _
  | ret s v => cases v <;> exact Nat.succ_pos _
  | _ => exact Nat.succ_pos _

lemma reads_items (hss : ∀ s ∈ ss, ReadsStmt s) (he : ∀ x ∈ e, ReadsExpr x) (start : Span)
    (done : List (Stmt Unit))
    (hn : (Stmt.listTokens ss ++ (valueTokens e ++ .fixed .rbrace :: rest)).length < n)
    (hm : (Stmt.listTokens ss ++ (valueTokens e ++ .fixed .rbrace :: rest)).length ≤ m) :
    Reads (items (nested n) start m done)
      (Stmt.listTokens ss ++ (valueTokens e ++ .fixed .rbrace :: rest)) rest
      fun b => b.unplaced = .mk .none () ((done.reverse ++ ss).map Stmt.unplaced)
        (e.map Expr.unplaced) := by
  induction ss generalizing m done with
  | nil =>
    obtain ⟨m, rfl⟩ : ∃ k, m = k + 1 := ⟨m - 1, by simp at hm; omega⟩
    rw [append_nil]
    have hitem : Reads (item (nested n)) (valueTokens e ++ .fixed .rbrace :: rest) rest
        fun i => ∃ e', i = .finish e' ∧ e'.map Expr.unplaced = e.map Expr.unplaced := by
      cases e with
      | none => exact .kind (.next (by simp) fun _ => .pure ⟨none, rfl, rfl⟩)
      | some x =>
        refine reads_item_expr (he x rfl) hn rfl fun x' hx' => ?_
        exact .accept (by simp) (.pure ⟨some x', rfl, congrArg some hx'⟩)
    refine hitem.bind ?_
    rintro _ ⟨e', rfl, he'⟩
    refine .spanFrom fun _ => .pure ?_
    rw [Block.unplaced_mk, he']
  | cons s ss ih =>
    have hpos := length_stmt_pos s
    obtain ⟨m, rfl⟩ : ∃ k, m = k + 1 := ⟨m - 1, by simp at hm; omega⟩
    simp only [Stmt.listTokens, append_assoc] at hn hm ⊢
    refine (hss s mem_cons_self n _ hn).bind ?_
    rintro _ ⟨s', rfl, hs'⟩
    refine (ih (fun s hs => hss s (mem_cons_of_mem _ hs)) (s' :: done) (by grind)
      (by grind)).mono fun b hb => ?_
    rw [hb]
    simp [hs']

lemma readsBlock (span : Span) (hss : ∀ s ∈ ss, ReadsStmt s) (he : ∀ x ∈ e, ReadsExpr x) :
    ReadsBlock (.mk span () ss e) := by
  intro n rest hn
  simp only [Block.tokens_mk, cons_append, append_assoc] at hn ⊢
  refine .expect (by simp) fun _ => ?_
  rw [limit_nested]
  refine (reads_items hss he _ [] (by grind) (by grind)).mono fun b hb => ?_
  rw [SameBlock, Block.unplaced_mk, hb]
  rfl

end Blocks

/-! ### All trees -/

mutual

/-- **An expression is read back from its tokens.** -/
theorem readsExpr_all : ∀ x : Expr Unit, x.Writable → ReadsExpr x
  | .lit s _ v, h => readsExpr_lit s h
  | .var s _ name, _ => readsExpr_var s name
  | .binary s _ op x y, h => readsExpr_binary s op (readsExpr_all x h.1) (readsExpr_all y h.2)
  | .unary s _ op x, h => readsExpr_unary s op (readsExpr_all x h)
  | .call s _ x args, h => readsExpr_call s (readsExpr_all x h.1) (readsExprs_all args h.2)
  | .cond s _ test t none, h =>
    readsExpr_cond s (readsCond s (readsExpr_all test h.1) (readsBlock_all t h.2) (by simp))
  | .cond s _ test t (some e), h =>
    readsExpr_cond s (readsCond s (readsExpr_all test h.1) (readsBlock_all t h.2.1)
      (by simpa using readsElse_all e h.2.2.1 h.2.2.2))
  | .block b, h => readsExpr_block (readsBlock_all b h)
  | .assign s _ x y, h => readsExpr_assign s (readsExpr_all x h.1) (readsExpr_all y h.2.1) h.2.2
  | .field s _ x _, h => readsExpr_field s (readsExpr_all x h.1) h.2
  | .array s _ xs, h => readsExpr_array s (readsExprs_all xs h)
  | .index s _ x i, h => readsExpr_index s (readsExpr_all x h.1) (readsExpr_all i h.2)
  | .lambda s _ params result body, h =>
    readsExpr_lambda s params result (readsBlock_all body h)
  | .struct s _ type fs, h => readsExpr_struct s type (readsFields_all fs h)

theorem readsElse_all : ∀ x : Expr Unit, x.Writable → x.isBlockLike = true → ReadsElse x
  | .block b, h => fun _ => .block (readsBlock_all b h)
  | .cond s _ test t none, h => fun _ =>
    .cond (readsCond s (readsExpr_all test h.1) (readsBlock_all t h.2) (by simp))
  | .cond s _ test t (some e), h => fun _ =>
    .cond (readsCond s (readsExpr_all test h.1) (readsBlock_all t h.2.1)
      (by simpa using readsElse_all e h.2.2.1 h.2.2.2))
  | .lit .., _ | .var .., _ | .binary .., _ | .unary .., _ | .call .., _ | .assign .., _
  | .field .., _ | .array .., _ | .index .., _ | .lambda .., _ | .struct .., _ =>
    fun h => absurd h Bool.false_ne_true

theorem readsExprs_all : ∀ xs : List (Expr Unit), Expr.ListWritable xs → ∀ x ∈ xs, ReadsExpr x
  | [], _ => by simp
  | x :: xs, h => forall_mem_cons.mpr ⟨readsExpr_all x h.1, readsExprs_all xs h.2⟩

theorem readsFields_all : ∀ fs : List (FieldValue Unit), FieldValue.ListWritable fs →
    ∀ f ∈ fs, ReadsField f
  | [], _ => by simp
  | .mk _ _ x :: fs, h => forall_mem_cons.mpr ⟨readsExpr_all x h.1, readsFields_all fs h.2⟩

/-- **A block is read back from its tokens.** -/
theorem readsBlock_all : ∀ b : Block Unit, b.Writable → ReadsBlock b
  | .mk s _ ss none, h => readsBlock s (readsStmts_all ss h) (by simp)
  | .mk s _ ss (some v), h =>
    readsBlock s (readsStmts_all ss h.1) (by simpa using readsExpr_all v h.2)

theorem readsStmt_all : ∀ s : Stmt Unit, s.Writable → ReadsStmt s
  | .letVar s name type x, h => readsStmt_letVar s name type (readsExpr_all x h)
  | .ret s none, _ => readsStmt_ret s (by simp)
  | .ret s (some x), h => readsStmt_ret s (by simpa using readsExpr_all x h)
  | .loop s x b, h => readsStmt_loop s (readsExpr_all x h.1) (readsBlock_all b h.2)
  | .forRange s name x y b, h =>
    readsStmt_forRange s name (readsExpr_all x h.1) (readsExpr_all y h.2.1) (readsBlock_all b h.2.2)
  | .forEach s name x b, h =>
    readsStmt_forEach s name (readsExpr_all x h.1) (readsBlock_all b h.2)
  | .expr x, h => readsStmt_expr (readsExpr_all x h)

theorem readsStmts_all : ∀ ss : List (Stmt Unit), Stmt.ListWritable ss → ∀ s ∈ ss, ReadsStmt s
  | [], _ => by simp
  | s :: ss, h => forall_mem_cons.mpr ⟨readsStmt_all s h.1, readsStmts_all ss h.2⟩

end

/-! ### Declarations -/

section Declarations

lemma reads_variant (v : VariantDecl) (hn : (v.tokens ++ rest).length ≤ n)
    (hrest : firstKind rest ≠ .lparen) :
    Reads (variant (nested n)) (v.tokens ++ rest) rest fun w => w.unplaced = v.unplaced := by
  obtain ⟨s, name, payload⟩ := v
  simp only [VariantDecl.tokens, cons_append] at hn ⊢
  refine .name fun m hm => ?_
  have hdone : ∀ ts, ts.map TypeExpr.unplaced = payload.map TypeExpr.unplaced →
      Reads (spanFrom m.span >>= fun span => pure (VariantDecl.mk span m ts)) rest rest
        fun w => w.unplaced = (VariantDecl.mk s name payload).unplaced := by
    intro ts hts
    refine .spanFrom fun _ => .pure ?_
    simp [VariantDecl.unplaced, Name.unplaced, hm, hts]
  cases payload with
  | nil => exact .reject hrest (.bind (.pure rfl) fun ts hts =>
      hdone ts (by rw [hts]))
  | cons t ts =>
    simp only [isEmpty_cons, Bool.false_eq_true, if_false, enclosed_append] at hn ⊢
    have helem : ReadsElements (n + 1) .rparen (typeExpr (nested n)) TypeExpr.tokens
        TypeExpr.unplaced (t :: ts) :=
      readsElements_types fun u _ _ hu => readsType u n _ (Nat.lt_succ_iff.mp hu)
    refine .accept (by simp) ?_
    exact (helem.list (by simp) (by simp) (limit_nested n).ge (by grind)).bind hdone

lemma readsElements_variants (vs : List VariantDecl) :
    ReadsElements (n + 1) .rbrace (variant (nested n)) VariantDecl.tokens
    VariantDecl.unplaced vs := by
  refine ⟨fun v hv rest => by simp [VariantDecl.tokens], fun v hv rest hn hrest => ?_⟩
  refine reads_variant v (Nat.lt_succ_iff.mp hn) ?_
  obtain hrest | hrest := hrest <;> simp [hrest]

/-- The tokens of a declaration are read as this declaration. -/
def ReadsDecl (d : Decl Unit) : Prop :=
  ∀ n rest, (d.tokens ++ rest).length ≤ n →
    Reads (decl (nested n)) (d.tokens ++ rest) rest fun d' => d'.unplaced = d.unplaced

variable (s : Span) (name : Name)

lemma readsDecl_func {f : FuncDecl Unit} (hbody : ReadsBlock f.body) : ReadsDecl (.func f) := by
  intro n rest hn
  simp only [Decl.tokens, cons_append, append_assoc] at hn ⊢
  refine .kind (.next (by simp) fun _ => .name fun m hm => ?_)
  refine (reads_signature f.params f.result (by grind) (by rw [firstKind_block]; simp)).bind
    fun sig hsig => ?_
  refine (hbody n rest (by grind)).bind fun b hb => .spanFrom fun _ => .pure ?_
  simp [Decl.unplaced, Name.unplaced, hm, hsig.1, hsig.2, hb]

lemma readsDecl_struct (fields : List Param) : ReadsDecl (.struct s name fields) := by
  intro n rest hn
  simp only [Decl.tokens, cons_append, append_assoc] at hn ⊢
  refine .kind (.next (by simp) fun _ => .name fun m hm => .expect (by simp) fun _ => ?_)
  refine ((readsElements_params (by simp) (by simp) fields).list (by simp) (by simp)
    (limit_nested n).ge (by grind)).bind fun fs hfs => .spanFrom fun _ => .pure ?_
  simp [Decl.unplaced, Name.unplaced, hm, hfs]

lemma readsDecl_enum {variants : List VariantDecl} (hne : variants ≠ []) :
    ReadsDecl (.enum s name variants) := by
  intro n rest hn
  simp only [Decl.tokens, cons_append, append_assoc] at hn ⊢
  refine .kind (.next (by simp) fun _ => .name fun m hm => .expect (by simp) fun _ => ?_)
  refine ((readsElements_variants variants).list (by simp) (by simp) (limit_nested n).ge
    (by grind)).bind fun vs hvs => .spanFrom fun _ => ?_
  have hsome : vs.isEmpty = false := by
    rw [isEmpty_eq_false_iff, ne_eq, ← map_eq_nil_iff, hvs, map_eq_nil_iff]
    exact hne
  rw [hsome]
  refine .pure ?_
  simp [Decl.unplaced, Name.unplaced, hm, hvs]

lemma readsDecl_alias (type : TypeExpr) : ReadsDecl (.alias s name type) := by
  intro n rest hn
  simp only [Decl.tokens, cons_append, append_assoc] at hn ⊢
  refine .kind (.next (by simp) fun _ => .name fun m hm => .expect (by simp) fun _ => ?_)
  refine (readsType type n _ (by grind) (by simp)).bind fun t ht => ?_
  refine .expect (by simp) fun _ => .spanFrom fun _ => .pure ?_
  simp [Decl.unplaced, Name.unplaced, hm, ht]

lemma readsDecl_all : ∀ d : Decl Unit, d.Writable → ReadsDecl d
  | .func f, h => readsDecl_func (readsBlock_all f.body h)
  | .struct s name fields, _ => readsDecl_struct s name fields
  | .enum s name _, h => readsDecl_enum s name h
  | .alias s name type, _ => readsDecl_alias s name type

lemma firstKind_decl (d : Decl Unit) (rest : List Token) : firstKind (d.tokens ++ rest) ≠ .eof := by
  cases d <;> simp [Decl.tokens]

lemma reads_decls {ds : List (Decl Unit)} (hds : ∀ d ∈ ds, d.Writable)
    (hn : (ds.flatMap Decl.tokens).length ≤ n) (hm : ds.length ≤ m) (done : List (Decl Unit)) :
    Reads (decls (nested n) m done) (ds.flatMap Decl.tokens) []
      fun ds' => ds'.map Decl.unplaced = (done.reverse ++ ds).map Decl.unplaced := by
  induction ds generalizing m done with
  | nil =>
    rw [append_nil]
    cases m with
    | zero => exact .pure rfl
    | succ m => exact .kind (.pure rfl)
  | cons d ds ih =>
    obtain ⟨m, rfl⟩ : ∃ k, m = k + 1 := ⟨m - 1, by simp at hm; omega⟩
    rw [flatMap_cons] at hn ⊢
    refine .kind ?_
    rw [if_neg (firstKind_decl d _)]
    refine (readsDecl_all d (hds d mem_cons_self) n _ hn).bind fun d' hd' => ?_
    refine (ih (fun d hd => hds d (mem_cons_of_mem _ hd)) (by grind) (by simpa using hm)
      (d' :: done)).mono fun ds' hds' => ?_
    rw [hds']
    simp [hd']

lemma length_decls_le (ds : List (Decl Unit)) : ds.length ≤ (ds.flatMap Decl.tokens).length := by
  induction ds with
  | nil => exact le_refl 0
  | cons d ds ih =>
    have hpos : 0 < d.tokens.length := by cases d <;> exact Nat.succ_pos _
    rw [flatMap_cons, length_append, length_cons]
    omega

lemma reads_program (hp : p.Writable) (hn : p.tokens.length ≤ n) :
    Reads (program (nested n)) p.tokens [] fun q => q.unplaced = p.unplaced := by
  refine .get_kind fun s _ => ?_
  have hlimit : p.decls.length ≤ (nested n).limit := by
    rw [limit_nested]
    exact (length_decls_le p.decls).trans (hn.trans (Nat.le_succ n))
  refine (reads_decls hp hn hlimit []).bind fun ds hds => .spanFrom fun _ => .pure ?_
  rw [Program.unplaced, hds]
  rfl

end Declarations

end Parser

/-- The program that is read from the tokens of a text, with the end of the text after them. -/
theorem parseTokens_of_reads {R : Program Unit → Prop} (he : e.kind = .eof)
    (htoks : toks.map Located.val = ts ++ [e])
    (h : Parser.Reads (Parser.program (Parser.nested toks.length)) ts [] R) :
    ∃ q, parseTokens toks = .ok q ∧ R q := by
  have hlast : toks.getLast?.map (·.val.kind) = some .eof := by
    have hmap : toks.getLast?.map (·.val.kind) = ((toks.map Located.val).getLast?).map
        Token.kind := by
      rw [getLast?_map, Option.map_map]
      rfl
    rw [hmap, htoks, getLast?_concat, map_some, he]
  cases toks with
  | nil => simp at hlast
  | cons tok rest =>
    obtain ⟨q, s', hrun, -, hq⟩ := h ⟨tok, rest, tok.span⟩ e he htoks
    refine ⟨q, ?_, hq⟩
    rw [parseTokens, if_pos hlast, StateT.run', hrun]
    rfl

lemma length_le_of_map_val (htoks : toks.map Located.val = ts ++ [e]) :
    ts.length ≤ toks.length := by
  have := congrArg length htoks
  simp at this
  omega

lemma parseTokens_tokens (hp : p.Writable) (he : e.kind = .eof)
    (htoks : toks.map Located.val = p.tokens ++ [e]) :
    ∃ q, parseTokens toks = .ok q ∧ q.unplaced = p.unplaced :=
  parseTokens_of_reads he htoks (Parser.reads_program hp (length_le_of_map_val htoks))

/-- **The parser is complete.**  The program that a text is read as is read again, perhaps in other
places, from its canonical tokens and the end of the text. -/
theorem parseTokens_of_parse {text : Bytes} {p : Program Unit} (h : parse text = .ok p)
    {toks : Tokens} {e : Token} (he : e.kind = .eof)
    (htoks : toks.map Located.val = p.tokens ++ [e]) :
    ∃ q, parseTokens toks = .ok q ∧ q.unplaced = p.unplaced :=
  parseTokens_tokens (writable_parse h) he htoks

/-- A text with a conditional, selections by position, the least integer and a structure literal. -/
def shapes : Bytes :=
  Bytes.concat ["fn f(s: S) \x7b if s.0.1 < 1.5 \x7b m = -9223372036854775808 \x7d ",
    "else \x7b P \x7b x: 2 \x7d \x7d \x7d"]

theorem parseTokens_of_parse_shapes : ∃ p, parse shapes = .ok p ∧ p.decls.length = 1 ∧
    ∃ q, parseTokens ((p.tokens ++ [Token.mk .eof []]).map (Located.mk .none)) = .ok q ∧
      q.unplaced = p.unplaced := by
  have hparse : ((parse shapes).toOption.map (·.decls.length)) = some 1 := by decide +kernel
  cases h : parse shapes with
  | error e => rw [h] at hparse; cases hparse
  | ok p =>
    rw [h] at hparse
    refine ⟨p, rfl, Option.some.inj hparse, parseTokens_of_parse h (e := ⟨.eof, []⟩) rfl ?_⟩
    rw [List.map_map]
    exact List.map_id _

end Minilang
