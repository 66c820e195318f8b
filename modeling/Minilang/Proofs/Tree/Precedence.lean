import Minilang.Proofs.Tree.Completeness

/-!
# The precedence of operators

Names with operators between them are read as a tree in which an operator stands above those that
bind more tightly, and of operators that bind equally tightly the first stands lowest.  Such a tree
is `Ordered`.  The parser reads every ordered tree from its traversal (`climbs`), so there is at
most one for given names and operators, and adding them from left to right gives one
(`OpTree.ofChain`).
-/

namespace Minilang

open List

/-! ### Levels -/

namespace BinaryOp

/-- The operators, those that bind their operands least tightly first. -/
def levels : List (List BinaryOp) :=
  [[.or], [.and], [.eq, .ne], [.lt, .le, .gt, .ge], [.add, .sub], [.mul, .div, .mod]]

/-- The level of an operator. -/
def level (op : BinaryOp) : Nat :=
  levels.findIdx fun ops => op ∈ ops

lemma precedence_eq (op : BinaryOp) : op.precedence = op.level + 1 := by
  cases op <;> rfl

end BinaryOp

/-! ### Trees -/

/-- Names with operators between them. -/
def chain (x : Bytes) (more : List (BinaryOp × Bytes)) : List Token :=
  .ident x :: more.flatMap fun m => [.fixed m.1.kind, .ident m.2]

/-- A tree of operators with names at its leaves. -/
inductive OpTree where
  | leaf (name : Bytes)
  | node (op : BinaryOp) (left right : OpTree)

variable {u : OpTree} {op : BinaryOp}

namespace OpTree

/-- The operator at the root. -/
def root? : OpTree → Option BinaryOp
  | leaf _ => none
  | node op _ _ => some op

/-- The names and the operators from left to right. -/
def inorder : OpTree → List Token
  | leaf name => [.ident name]
  | node op l r => l.inorder ++ .fixed op.kind :: r.inorder

/-- Every operator binds at most as tightly as the one at the root of its left operand, and less
tightly than the one at the root of its right operand. -/
def Ordered : OpTree → Prop
  | leaf _ => True
  | node op l r => (∀ o ∈ l.root?, op.level ≤ o.level) ∧ (∀ o ∈ r.root?, op.level < o.level) ∧
    l.Ordered ∧ r.Ordered

instance decidableOrdered : DecidablePred Ordered
  | leaf _ => inferInstanceAs (Decidable True)
  | node op l r =>
    have := decidableOrdered l
    have := decidableOrdered r
    inferInstanceAs (Decidable ((∀ o ∈ l.root?, op.level ≤ o.level) ∧
      (∀ o ∈ r.root?, op.level < o.level) ∧ l.Ordered ∧ r.Ordered))

/-- The expression with this tree. -/
def expr : OpTree → Expr Unit
  | leaf name => .var .none () name
  | node op l r => .binary .none () op l.expr r.expr

variable (t : OpTree)

lemma unplaced_expr : t.expr.unplaced = t.expr := by
  induction t with
  | leaf name => rfl
  | node op l r ihl ihr => rw [expr, Expr.unplaced, ihl, ihr]

lemma expr_injective {t : OpTree} (h : t.expr = u.expr) : t = u := by
  induction t generalizing u with
  | leaf name =>
    cases u with
    | leaf name' => cases h; rfl
    | node op l r => cases h
  | node op l r ihl ihr =>
    cases u with
    | leaf name => cases h
    | node op' l' r' =>
      obtain ⟨-, -, rfl, hl, hr⟩ := Expr.binary.inj h
      rw [ihl hl, ihr hr]

lemma firstKind_inorder (rest : List Token) : Parser.firstKind (t.inorder ++ rest) = .ident := by
  induction t generalizing rest with
  | leaf name => rfl
  | node op l r ihl ihr =>
    rw [inorder, append_assoc]
    exact ihl _

/-- The number of operators on the left side of a tree. -/
def spine : OpTree → Nat
  | leaf _ => 0
  | node _ l _ => l.spine + 1

lemma spine_lt : t.spine < t.inorder.length := by
  induction t with
  | leaf name => exact Nat.succ_pos 0
  | node op l r ihl ihr =>
    rw [spine, inorder, length_append, length_cons]
    omega

/-! ### Adding an operand on the right -/

/-- The tree with one more operator and operand on the right.  The operator takes the place of the
first operator on the right side that binds at least as tightly, from the root on. -/
def snoc (op : BinaryOp) (name : Bytes) : OpTree → OpTree
  | leaf x => node op (leaf x) (leaf name)
  | node o l r =>
    if o.level < op.level then node o l (r.snoc op name) else node op (node o l r) (leaf name)

variable {name : Bytes}

lemma inorder_snoc : (t.snoc op name).inorder = t.inorder ++ [.fixed op.kind, .ident name] := by
  induction t with
  | leaf x => rfl
  | node o l r _ ihr =>
    rw [snoc]
    split
    · rw [inorder, ihr, inorder, append_assoc, cons_append]
    · rfl

lemma root?_snoc : ∀ o ∈ (t.snoc op name).root?, o ∈ t.root? ∨ o = op := by
  cases t with
  | leaf x => simp [snoc, root?]
  | node o l r =>
    rw [snoc]
    split <;> simp [root?]

lemma Ordered.snoc {t : OpTree} (ht : t.Ordered) : (t.snoc op name).Ordered := by
  induction t with
  | leaf x => exact ⟨by simp [root?], by simp [root?], trivial, trivial⟩
  | node o l r _ ihr =>
    obtain ⟨hleft, hright, hl, hr⟩ := ht
    rw [OpTree.snoc]
    split
    · next hlt =>
      refine ⟨hleft, fun o' ho' => ?_, hl, ihr hr⟩
      rcases r.root?_snoc o' ho' with hmem | rfl
      · exact hright o' hmem
      · exact hlt
    · next hle =>
      refine ⟨fun o' ho' => ?_, by simp [root?], ⟨hleft, hright, hl, hr⟩, trivial⟩
      obtain rfl := Option.some.inj ho'
      exact Nat.le_of_not_lt hle

/-- The tree of names with operators between them. -/
def ofChain (x : Bytes) (more : List (BinaryOp × Bytes)) : OpTree :=
  more.foldl (fun t m => t.snoc m.1 m.2) (leaf x)

lemma inorder_ofChain (x : Bytes) (more : List (BinaryOp × Bytes)) :
    (ofChain x more).inorder = chain x more := by
  have hfold : ∀ t : OpTree, (more.foldl (fun t m => t.snoc m.1 m.2) t).inorder =
      t.inorder ++ more.flatMap fun m => [.fixed m.1.kind, .ident m.2] := by
    induction more with
    | nil => simp
    | cons m more ih =>
      intro t
      rw [foldl_cons, ih, inorder_snoc, flatMap_cons, append_assoc]
  exact hfold (leaf x)

lemma ordered_ofChain (x : Bytes) (more : List (BinaryOp × Bytes)) : (ofChain x more).Ordered := by
  have hfold : ∀ t : OpTree, t.Ordered → (more.foldl (fun t m => t.snoc m.1 m.2) t).Ordered := by
    induction more with
    | nil => exact fun t ht => ht
    | cons m more ih => exact fun t ht => ih _ ht.snoc
  exact hfold (leaf x) trivial

end OpTree

/-! ### Reading ordered trees -/

variable {rest : List Token} {n : Nat} {t : OpTree}

namespace Parser

variable {inner : Inner} {structs : Bool} {ts : List Token} {minPrec : Nat}

lemma Reads.unique {β : Type} {p : P β} {R R' : β → Prop} (h : Reads p ts rest R)
    (h' : Reads p ts rest R') : ∃ x, R x ∧ R' x := by
  obtain ⟨s, hs⟩ : ∃ s : State, s.left = ts ++ [Token.mk .eof []] := by
    cases ts with
    | nil => exact ⟨⟨⟨.none, ⟨.eof, []⟩⟩, [], .none⟩, rfl⟩
    | cons t ts =>
      refine ⟨⟨⟨.none, t⟩, (ts ++ [Token.mk .eof []]).map (Located.mk .none), .none⟩, ?_⟩
      rw [State.left, map_map]
      exact congrArg (t :: ·) (map_id _)
  obtain ⟨x, s1, hrun, -, hx⟩ := h s ⟨.eof, []⟩ rfl hs
  obtain ⟨y, s2, hrun', -, hy⟩ := h' s ⟨.eof, []⟩ rfl hs
  obtain ⟨rfl, -⟩ := Prod.mk.inj (Except.ok.inj (hrun.symm.trans hrun'))
  exact ⟨x, hx, hy⟩

lemma reads_startsStruct_name (t : Token) (rest : List Token) :
    Reads startsStruct (t :: rest) (t :: rest) fun b => firstKind rest ≠ .lbrace → b = false := by
  refine .kindAfter ?_
  rw [drop_one, tail_cons]
  by_cases hbrace : firstKind rest = .lbrace
  · rw [if_neg (not_not.mpr hbrace)]
    refine .kindAfter ?_
    split
    · exact .pure fun h => absurd hbrace h
    · exact .kindAfter (.kindAfter (.pure fun h => absurd hbrace h))
  · rw [if_pos hbrace]
    exact .pure fun _ => rfl

/-- No operand goes on with such tokens: neither with a suffix nor as a structure literal. -/
structure EndsName (structs : Bool) (rest : List Token) : Prop where
  operand : endsOperand (firstKind rest) = true
  brace : structs = true → firstKind rest ≠ .lbrace

lemma reads_unary_name (name : Bytes) (hrest : EndsName structs rest) :
    Reads (unary inner structs) (.ident name :: rest) rest (SameExpr (.var .none () name)) := by
  refine reads_unary (reads_operand ?_ hrest.operand) (by simp) (by simp)
  refine .get fun s hs => ?_
  simp only [hs]
  refine (reads_startsStruct_name _ rest).bind fun b hb => ?_
  have hnone : (structs && b) = false := by
    cases hstructs : structs with
    | false => rfl
    | true => exact hb (hrest.brace hstructs)
  rw [hnone]
  exact .next (by simp) fun _ => .pure rfl

/-- A tree is read, and then the operators that follow it, if these bind at most as tightly as the
operator at its root. -/
def Climbs (t : OpTree) : Prop :=
  ∀ ⦃n structs minPrec m rest rest'⦄ ⦃R : Expr Unit → Prop⦄,
    (t.inorder ++ rest).length ≤ n → EndsName structs rest →
    (∀ o ∈ t.root?, minPrec ≤ o.precedence ∧ Below (o.precedence + 1) rest) →
    (∀ x, SameExpr t.expr x → Reads (operations (nested n) structs minPrec m x) rest rest' R) →
    Reads (unary (nested n) structs >>= operations (nested n) structs minPrec (m + t.spine))
      (t.inorder ++ rest) rest' R

variable {l r : OpTree}

lemma Climbs.binary (ht : Climbs t) (hn : (t.inorder ++ rest).length ≤ n)
    (hrest : EndsName structs rest) (hroot : ∀ o ∈ t.root?, minPrec ≤ o.precedence)
    (hnext : Below minPrec rest) :
    Reads (binary (nested n) structs minPrec) (t.inorder ++ rest) rest (SameExpr t.expr) := by
  have hspine := t.spine_lt
  obtain ⟨m, hm⟩ : ∃ m, n + 1 = m + t.spine := by
    rw [length_append] at hn
    exact ⟨n + 1 - t.spine, by omega⟩
  rw [Parser.binary, limit_nested, hm]
  refine ht hn hrest (fun o ho => ⟨hroot o ho, fun op hop => ?_⟩) fun x hx => ?_
  · exact Nat.lt_succ_of_lt ((hnext op hop).trans_le (hroot o ho))
  · refine (reads_operations_end hnext m x).mono ?_
    rintro _ rfl
    exact hx

lemma climbs_leaf (name : Bytes) : Climbs (.leaf name) := by
  intro n structs minPrec m rest rest' R hn hrest _ h
  exact (reads_unary_name name hrest).bind h

lemma climbs_node (hl : Climbs l) (hr : Climbs r)
    (hleft : ∀ o ∈ l.root?, op.level ≤ o.level) (hright : ∀ o ∈ r.root?, op.level < o.level) :
    Climbs (.node op l r) := by
  intro n structs minPrec m rest rest' R hn hrest hroot h
  obtain ⟨hmin, hnext⟩ := hroot op rfl
  rw [OpTree.inorder, append_assoc, cons_append] at hn ⊢
  rw [OpTree.spine, add_comm l.spine, ← add_assoc]
  have hop : EndsName structs (.fixed op.kind :: (r.inorder ++ rest)) :=
    ⟨endsOperand_kind op, fun _ => by cases op <;> simp [BinaryOp.kind]⟩
  refine hl hn hop (fun o ho => ?_) fun x hx => ?_
  · have := hleft o ho
    simp only [Below, firstKind_cons, Token.kind_fixed, ofToken?_kind, BinaryOp.precedence_eq]
      at hmin ⊢
    grind
  -- The operator at the root, its right operand, and what follows the tree.
  · rw [operations]
    refine .kind ?_
    simp only [firstKind_cons, Token.kind_fixed, ofToken?_kind, if_neg (not_lt.mpr hmin)]
    refine .next (by cases op <;> simp [BinaryOp.kind]) fun _ => ?_
    have hbinary : ∀ n, (r.inorder ++ rest).length ≤ n → Reads
        (binary (nested n) structs (op.precedence + 1)) (r.inorder ++ rest) rest
        (SameExpr r.expr) := by
      intro n hn
      refine hr.binary hn hrest (fun o ho => ?_) hnext
      have := hright o ho
      simp only [BinaryOp.precedence_eq]
      omega
    refine (reads_inner (·.binary structs _) (fun _ => rfl) hbinary (by grind)).bind fun y hy => ?_
    refine h _ ?_
    simp [SameExpr, OpTree.expr, Expr.unplaced, hx, hy]

/-- **Every ordered tree is read from its traversal.** -/
theorem climbs (ht : t.Ordered) : Climbs t := by
  induction t with
  | leaf name => exact climbs_leaf name
  | node op l r ihl ihr =>
    obtain ⟨hleft, hright, hl, hr⟩ := ht
    exact climbs_node (ihl hl) (ihr hr) hleft hright

lemma reads_ordered (ht : t.Ordered) (hn : (t.inorder ++ rest).length ≤ n)
    (hrest : EndsName structs rest) (hends : endsExpr (firstKind rest) = true) :
    Reads (expr (nested n) structs) (t.inorder ++ rest) rest fun x => x.unplaced = t.expr := by
  obtain ⟨-, hnone, hassign⟩ := endsExpr_iff.mp hends
  have hroot : ∀ o ∈ t.root?, 1 ≤ o.precedence := by simp [BinaryOp.precedence_eq]
  refine (reads_expr ((climbs ht).binary hn hrest hroot (.of_none hnone)) hassign).mono fun x hx =>
    ?_
  exact Eq.trans hx t.unplaced_expr

end Parser

lemma OpTree.eq_of_inorder {t : OpTree} (ht : t.Ordered) (hu : u.Ordered)
    (h : t.inorder = u.inorder) : t = u := by
  have hrest : Parser.EndsName true [] := ⟨rfl, fun _ => by simp⟩
  have hreads := Parser.reads_ordered ht (le_refl _) hrest rfl
  rw [h] at hreads
  obtain ⟨x, hx, hx'⟩ := hreads.unique (Parser.reads_ordered hu (le_refl _) hrest rfl)
  exact expr_injective (hx.symm.trans hx')

/-! ### Programs -/

/-- The tokens of a program with a main function, given those of its value. -/
def mainTokens (value : List Token) : List Token :=
  .fixed .kwFn :: .ident "main" :: .fixed .lparen :: .fixed .rparen :: .fixed .lbrace ::
    (value ++ [.fixed .rbrace])

/-- The program with a main function that has a value. -/
def mainProgram (value : Expr Unit) : Program Unit :=
  ⟨.none, [.func ⟨.none, ⟨.none, "main"⟩, [], none, .mk .none () [] (some value)⟩]⟩

namespace Parser

lemma reads_item_ordered (ht : t.Ordered) (hn : (t.inorder ++ .fixed .rbrace :: rest).length < n) :
    Reads (item (nested n)) (t.inorder ++ .fixed .rbrace :: rest) rest
      fun i => ∃ x, i = .finish (some x) ∧ x.unplaced = t.expr := by
  refine .kind ?_
  rw [t.firstKind_inorder]
  have hrest : EndsName true (.fixed .rbrace :: rest) := ⟨rfl, fun _ => by simp⟩
  refine (reads_inner (·.expr true) (fun _ => rfl)
    (fun n hn => reads_ordered ht hn hrest rfl) hn).bind fun x hx => ?_
  exact .accept (by simp) (.pure ⟨x, rfl, hx⟩)

lemma reads_block_ordered (ht : t.Ordered)
    (hn : (.fixed .lbrace :: (t.inorder ++ .fixed .rbrace :: rest)).length ≤ n) :
    Reads (block (nested n)) (.fixed .lbrace :: (t.inorder ++ .fixed .rbrace :: rest)) rest
      fun b => b.unplaced = .mk .none () [] (some t.expr) := by
  refine .expect (by simp) fun _ => ?_
  rw [limit_nested]
  refine (reads_item_ordered ht hn).bind ?_
  rintro _ ⟨x, rfl, hx⟩
  refine .spanFrom fun _ => .pure ?_
  rw [Block.unplaced_mk, Option.map_some, hx]
  rfl

lemma reads_main (ht : t.Ordered) (hn : (mainTokens t.inorder).length ≤ n) :
    Reads (program (nested n)) (mainTokens t.inorder) []
      fun p => p.unplaced = mainProgram t.expr := by
  have hlength : (mainTokens t.inorder).length = t.inorder.length + 6 := by simp [mainTokens]
  have hdecl : Reads (decl (nested n)) (mainTokens t.inorder) [] fun d => d.unplaced =
      .func ⟨.none, ⟨.none, "main"⟩, [], none, .mk .none () [] (some t.expr)⟩ := by
    refine .kind (.next (by simp) fun _ => .name fun m hm => ?_)
    refine (reads_signature [] none (by simp [signatureTokens, commaSeparated, typeAfter]; omega)
      (by simp)).bind fun sig hsig => ?_
    refine (reads_block_ordered ht (by simp; omega)).bind fun b hb => .spanFrom fun _ => .pure ?_
    simp [Decl.unplaced, Name.unplaced, hm, hsig.1, hsig.2, hb]
  have hdecls : Reads (decls (nested n) (n + 1) []) (mainTokens t.inorder) [] fun ds =>
      ds.map Decl.unplaced = (mainProgram t.expr).decls := by
    refine .kind ?_
    refine hdecl.bind fun d hd => ?_
    have hnone : ∀ d ∈ ([] : List (Decl Unit)), d.Writable := by simp
    refine (reads_decls hnone (Nat.zero_le _) (Nat.zero_le _) [d]).mono fun ds hds => ?_
    rw [hds, mainProgram, append_nil, reverse_singleton, map_singleton, hd]
  refine .get_kind fun s _ => ?_
  rw [limit_nested]
  refine hdecls.bind fun ds hds => .spanFrom fun _ => .pure ?_
  rw [Program.unplaced, hds]
  rfl

end Parser

lemma spelled_chain {x : Bytes} {more : List (BinaryOp × Bytes)}
    (hnames : ∀ y ∈ x :: more.map Prod.snd, Lexer.isName y = true) :
    ∀ t ∈ chain x more, Lexer.Spelled t t.text := by
  have hop : ∀ op : BinaryOp, op.kind ∈ Lexer.symbols := fun op => by cases op <;> decide
  refine forall_mem_cons.mpr ⟨Lexer.spelled_name (hnames x mem_cons_self), fun t ht => ?_⟩
  obtain ⟨m, hm, ht⟩ := mem_flatMap.mp ht
  rcases mem_pair.mp ht with rfl | rfl
  · exact .symbol (hop m.1)
  · exact Lexer.spelled_name (hnames m.2 (mem_cons_of_mem x (mem_map_of_mem hm)))

lemma spelled_mainTokens {value : List Token} (h : ∀ t ∈ value, Lexer.Spelled t t.text) :
    ∀ t ∈ mainTokens value, Lexer.Spelled t t.text := by
  have hend : ∀ t ∈ [Token.fixed .rbrace], Lexer.Spelled t t.text :=
    forall_mem_singleton.mpr (.symbol (by decide))
  simp only [mainTokens, forall_mem_cons]
  exact ⟨Lexer.spelled_keyword (by decide), Lexer.spelled_name (by decide), .symbol (by decide),
    .symbol (by decide), .symbol (by decide), forall_mem_append.mpr ⟨h, hend⟩⟩

/-- **Operators are read by their precedence.**  Names with operators between them are read as the
one tree that has them from left to right and in which every operator binds at most as tightly as
the one at the root of its left operand, and less tightly than the one at the root of its right
operand. -/
theorem parse_chain {x : Bytes} {more : List (BinaryOp × Bytes)}
    (hnames : ∀ y ∈ x :: more.map Prod.snd, Lexer.isName y = true) :
    ∃ t : OpTree, t.inorder = chain x more ∧ t.Ordered ∧
      (∀ u : OpTree, u.inorder = chain x more → u.Ordered → u = t) ∧
      (∀ n structs rest, (chain x more ++ rest).length ≤ n → Parser.EndsName structs rest →
        Parser.endsExpr (Parser.firstKind rest) = true →
        Parser.Reads (Parser.expr (Parser.nested n) structs) (chain x more ++ rest) rest
          fun e => e.unplaced = t.expr) ∧
      ∃ p, parse (spaced (mainTokens (chain x more))) = .ok p ∧
      p.unplaced = mainProgram t.expr := by
  have hinorder := OpTree.inorder_ofChain x more
  have hordered := OpTree.ordered_ofChain x more
  refine ⟨.ofChain x more, hinorder, hordered, fun u hu hu' => ?_,
    fun n structs rest hn hrest hends => ?_, ?_⟩
  · exact OpTree.eq_of_inorder hu' hordered (hu.trans hinorder.symm)
  · rw [← hinorder] at hn ⊢
    exact Parser.reads_ordered hordered hn hrest hends
  · obtain ⟨toks, htokenize, htoks⟩ :=
      Lexer.tokenize_spaced (spelled_mainTokens (spelled_chain hnames))
    rw [← hinorder] at htoks
    obtain ⟨p, hparse, hp⟩ := parseTokens_of_reads rfl htoks
      (Parser.reads_main hordered (length_le_of_map_val htoks))
    exact ⟨p, by rw [parse, htokenize]; simp only [hparse], hp⟩

/-- A disjunction of two differences, with a product, and a comparison. -/
theorem parse_chain_mixed : ∃ p,
    parse "fn main ( ) \x7b a - b * c - d || e < f \x7d " = .ok p ∧ p.unplaced = mainProgram
      (.binary .none () .or (.binary .none () .sub (.binary .none () .sub (.var .none () "a")
            (.binary .none () .mul (.var .none () "b") (.var .none () "c")))
          (.var .none () "d"))
        (.binary .none () .lt (.var .none () "e") (.var .none () "f"))) := by
  have hnames : ∀ y ∈ ("a" : Bytes) :: List.map Prod.snd
      [(BinaryOp.sub, ("b" : Bytes)), (.mul, "c"), (.sub, "d"), (.or, "e"), (.lt, "f")],
      Lexer.isName y = true := by decide
  obtain ⟨t, -, -, hunique, -, p, hparse, hp⟩ := parse_chain hnames
  obtain rfl := hunique (.node .or (.node .sub (.node .sub (.leaf "a")
    (.node .mul (.leaf "b") (.leaf "c"))) (.leaf "d")) (.node .lt (.leaf "e") (.leaf "f"))) rfl
    (by decide)
  exact ⟨p, hparse, hp⟩

end Minilang
