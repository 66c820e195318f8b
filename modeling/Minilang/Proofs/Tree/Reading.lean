import Minilang.Proofs.Double.Reading
import Minilang.Proofs.Tree.Writing
import Minilang.Tree.Parser

/-!
# Canonical tokens are read back
-/

namespace Minilang.Parser

open List

variable {β γ : Type} {ts rest : List Token} {n : Nat} {x : β} {closing : TokenKind}

/-! ### Reading tokens -/

/-- The tokens that are left, with the end of the text. -/
def State.left (s : State) : List Token :=
  s.tok.val :: s.rest.map (·.val)

/-- The kind of the first token, or the end of the text. -/
def firstKind (ts : List Token) : TokenKind :=
  (ts.head?.map Token.kind).getD .eof

@[simp]
lemma firstKind_nil : firstKind [] = .eof := rfl

@[simp]
lemma firstKind_cons (t : Token) (ts : List Token) : firstKind (t :: ts) = t.kind := rfl

/-- The parser reads `ts` up to `rest`, as something that `R` holds of. -/
def Reads (p : P β) (ts rest : List Token) (R : β → Prop) : Prop :=
  ∀ (s : State) (e : Token), e.kind = .eof → s.left = ts ++ [e] →
    ∃ x s', p s = .ok (x, s') ∧ s'.left = rest ++ [e] ∧ R x

namespace Reads

variable {p : P β} {f : β → P γ} {mid : List Token} {R : β → Prop} {R' : γ → Prop}

lemma mono {Q : β → Prop} (h : Reads p ts rest R) (hQ : ∀ x, R x → Q x) : Reads p ts rest Q := by
  intro s e he hs
  obtain ⟨x, s', hrun, hs', hx⟩ := h s e he hs
  exact ⟨x, s', hrun, hs', hQ x hx⟩

lemma bind (h : Reads p ts mid R) (hf : ∀ x, R x → Reads (f x) mid rest R') :
    Reads (p >>= f) ts rest R' := by
  intro s e he hs
  obtain ⟨x, s', hrun, hs', hx⟩ := h s e he hs
  obtain ⟨y, s'', hrun', hs'', hy⟩ := hf x hx s' e he hs'
  refine ⟨y, s'', ?_, hs'', hy⟩
  show StateT.bind p f s = _
  rw [StateT.bind, hrun]
  exact hrun'

lemma pure (h : R x) : Reads (pure x) ts ts R :=
  fun s _ _ hs => ⟨x, s, rfl, hs, h⟩

lemma map {g : β → γ} (h : Reads p ts rest R) (hg : ∀ x, R x → R' (g x)) :
    Reads (g <$> p) ts rest R' := by
  exact h.bind fun x hx => .pure (hg x hx)

/-! Rules for the single steps of a parser, each with what follows the step. -/

section Steps

variable {t : Token} {k : TokenKind}

lemma get {f : State → P γ} (h : ∀ s : State, s.tok.val = t → Reads (f s) (t :: ts) rest R') :
    Reads (get >>= f) (t :: ts) rest R' := by
  intro s e he hs
  exact h s (cons.inj hs).1 s e he hs

lemma get_two {u : Token} {f : State → P γ} (h : ∀ s v vs, s.tok.val = t →
      s.rest = v :: vs → v.val = u → Reads (f s) (t :: u :: ts) rest R') :
    Reads (MonadState.get >>= f) (t :: u :: ts) rest R' := by
  intro s e he hs
  obtain ⟨htok, hrest⟩ := cons.inj hs
  obtain ⟨v, vs, hv, hval, -⟩ := map_eq_cons_iff.mp hrest
  exact h s v vs htok hv hval s e he hs

lemma get_kind {f : State → P γ}
    (h : ∀ s : State, s.tok.val.kind = firstKind ts → Reads (f s) ts rest R') :
    Reads (MonadState.get >>= f) ts rest R' := by
  intro s e he hs
  refine h s ?_ s e he hs
  cases ts with
  | nil => rw [(cons.inj hs).1, he, firstKind_nil]
  | cons t ts => rw [(cons.inj hs).1, firstKind_cons]

lemma kind {f : TokenKind → P γ} (h : Reads (f (firstKind ts)) ts rest R') :
    Reads (kind >>= f) ts rest R' :=
  have hstep : Reads Parser.kind ts ts fun k => k = firstKind ts :=
    .get_kind fun _ hs => .pure hs
  hstep.bind fun _ hk => hk ▸ h

lemma kindAfter {f : TokenKind → P γ}
    (h : Reads (f (firstKind (ts.drop n))) ts rest R') : Reads (kindAfter n >>= f) ts rest R' := by
  intro s e he hs
  have hkind : (((s.tok :: s.rest)[n]?).map (·.val.kind)).getD .eof = firstKind (ts.drop n) := by
    have hget : ((s.tok :: s.rest)[n]?).map (·.val.kind) = ((ts ++ [e])[n]?).map Token.kind := by
      rw [← hs, State.left, ← map_cons, getElem?_map, Option.map_map]
      rfl
    rw [hget, firstKind, head?_drop]
    rcases lt_or_ge n ts.length with hn | hn
    · rw [getElem?_append_left hn]
    · rw [getElem?_append_right hn, getElem?_eq_none hn]
      cases n - ts.length with
      | zero => exact he
      | succ k => rfl
  rw [← hkind] at h
  exact h s e he hs

lemma left_next {s : State} {e : Token} (ht : t.kind ≠ .eof) (hs : s.left = (t :: ts) ++ [e]) :
    s.next.left = ts ++ [e] := by
  obtain ⟨tok, rest, prev⟩ := s
  obtain ⟨rfl, hrest⟩ := cons.inj hs
  cases rest with
  | nil =>
    have := congrArg length hrest
    simp at this
  | cons u rest =>
    have hnext : State.next ⟨tok, u :: rest, prev⟩ = ⟨u, rest, tok.span⟩ := if_neg ht
    rw [hnext]
    exact hrest

lemma next {f : Located Token → P γ} (ht : t.kind ≠ .eof)
    (h : ∀ span, Reads (f ⟨span, t⟩) ts rest R') : Reads (next >>= f) (t :: ts) rest R' := by
  intro s e he hs
  have htok : s.tok = ⟨s.tok.span, t⟩ := by rw [← (cons.inj hs).1]
  obtain ⟨y, s', hrun, hs', hy⟩ := h s.tok.span s.next e he (left_next ht hs)
  rw [← htok] at hrun
  exact ⟨y, s', hrun, hs', hy⟩

lemma expect_kind {f : Located Token → P γ} (hk : t.kind = k) (hne : k ≠ .eof)
    (h : ∀ span, Reads (f ⟨span, t⟩) ts rest R') : Reads (expect k >>= f) (t :: ts) rest R' := by
  have hstep : Reads (expect k) (t :: ts) ts fun l => ∃ span, l = ⟨span, t⟩ := by
    refine .kind ?_
    rw [firstKind_cons, if_pos hk]
    exact .next (hk ▸ hne) fun span => .pure ⟨span, rfl⟩
  refine hstep.bind ?_
  rintro _ ⟨span, rfl⟩
  exact h span

lemma expect {f : Located Token → P γ} (hne : k ≠ .eof)
    (h : ∀ span, Reads (f ⟨span, .fixed k⟩) ts rest R') :
    Reads (expect k >>= f) (.fixed k :: ts) rest R' :=
  expect_kind rfl hne h

lemma name {f : Name → P γ} {text : Bytes}
    (h : ∀ n : Name, n.text = text → Reads (f n) ts rest R') :
    Reads (name >>= f) (.ident text :: ts) rest R' := by
  have hname : Reads Parser.name (.ident text :: ts) ts fun n => n.text = text :=
    .expect_kind rfl (by decide) fun span => .pure rfl
  exact hname.bind h

lemma accept {f : Bool → P γ} (hne : k ≠ .eof) (h : Reads (f true) ts rest R') :
    Reads (accept k >>= f) (.fixed k :: ts) rest R' := by
  have hstep : Reads (Parser.accept k) (.fixed k :: ts) ts fun b => b = true := by
    refine .kind ?_
    rw [firstKind_cons, if_pos (Token.kind_fixed k)]
    exact .next hne fun span => .pure rfl
  refine hstep.bind ?_
  rintro _ rfl
  exact h

lemma reject {f : Bool → P γ} (hk : firstKind ts ≠ k) (h : Reads (f false) ts rest R') :
    Reads (Parser.accept k >>= f) ts rest R' := by
  have hstep : Reads (Parser.accept k) ts ts fun b => b = false := by
    refine .kind ?_
    rw [if_neg hk]
    exact .pure rfl
  refine hstep.bind ?_
  rintro _ rfl
  exact h

lemma spanFrom {start : Span} {f : Span → P γ} (h : ∀ span, Reads (f span) ts rest R') :
    Reads (spanFrom start >>= f) ts rest R' := by
  intro s e he hs
  exact h (start.through s.prev) s e he hs

end Steps

end Reads

/-! ### Lists -/

section Lists

variable {δ : Type} {elem : P β} {toks : β → List Token} {view : β → δ}

lemma length_le_commaSeparated (tss : List (List Token)) (h : ∀ ts ∈ tss, ts ≠ []) :
    tss.length ≤ (commaSeparated tss).length := by
  induction tss with
  | nil => exact Nat.zero_le _
  | cons ts tss ih =>
    have hts := length_pos_of_ne_nil (h ts mem_cons_self)
    cases tss with
    | nil => simpa [commaSeparated] using Nat.succ_le_of_lt hts
    | cons us tss =>
      have := ih fun vs hvs => h vs (mem_cons_of_mem ts hvs)
      simp only [commaSeparated, length_append, length_cons] at this ⊢
      omega

/-- What the parser of the elements of a list has to do with fewer than `n` tokens left. -/
structure ReadsElements (n : Nat) (closing : TokenKind) (elem : P β) (toks : β → List Token)
    (view : β → δ) (xs : List β) : Prop where
  first : ∀ x ∈ xs, ∀ rest, firstKind (toks x ++ rest) ≠ closing
  reads : ∀ x ∈ xs, ∀ rest, (toks x ++ rest).length < n →
    firstKind rest = .comma ∨ firstKind rest = closing →
    Reads elem (toks x ++ rest) rest fun y => view y = view x

namespace ReadsElements

variable {xs : List β} {limit : Nat}

lemma tail (h : ReadsElements n closing elem toks view (x :: xs)) :
    ReadsElements n closing elem toks view xs :=
  ⟨fun y hy => h.first y (mem_cons_of_mem x hy), fun y hy => h.reads y (mem_cons_of_mem x hy)⟩

variable (h : ReadsElements n closing elem toks view xs)

include h

lemma elements (hclosing : closing ≠ .comma) (hrest : firstKind rest = closing)
    (hlimit : xs.length ≤ limit) (hn : (commaSeparated (xs.map toks) ++ rest).length < n)
    (done : List β) :
    Reads (elements closing elem limit done) (commaSeparated (xs.map toks) ++ rest) rest
      fun ys => ys.map view = (done.reverse ++ xs).map view := by
  induction xs generalizing limit done with
  | nil =>
    rw [map_nil, commaSeparated, nil_append, append_nil]
    cases limit with
    | zero => exact .pure rfl
    | succ limit =>
      refine .kind ?_
      rw [if_pos hrest]
      exact .pure rfl
  | cons x xs ih =>
    obtain ⟨limit, rfl⟩ : ∃ m, limit = m + 1 := ⟨limit - 1, by simp at hlimit; omega⟩
    have hx := h.reads x mem_cons_self
    have hfirst := h.first x mem_cons_self
    refine .kind ?_
    cases xs with
    | nil =>
      simp only [map_cons, map_nil, commaSeparated] at hn ⊢
      rw [if_neg (hfirst rest)]
      refine (hx rest hn (.inr hrest)).bind fun y hy => ?_
      refine .reject (hrest ▸ hclosing) (.pure ?_)
      simp [hy]
    | cons x' xs =>
      simp only [map_cons, commaSeparated, append_assoc] at hn ⊢
      rw [if_neg (hfirst _)]
      refine (hx _ hn (.inl rfl)).bind fun y hy => ?_
      refine .accept (by decide) ?_
      refine (ih h.tail (by simpa using hlimit) ?_ (y :: done)).mono fun ys hys => ?_
      · simp only [map_cons]
        simp only [length_append, length_cons] at hn ⊢
        omega
      · simp [hys, hy]

lemma length_le : xs.length ≤ (commaSeparated (xs.map toks)).length := by
  have hne : ∀ ts ∈ xs.map toks, ts ≠ [] := by
    intro ts hts hnil
    obtain ⟨x, hx, rfl⟩ := mem_map.mp hts
    exact h.first x hx [.fixed closing] (by rw [hnil]; rfl)
  simpa using length_le_commaSeparated _ hne

/-- **A list is read up to the token that closes it.** -/
theorem list (hclosing : closing ≠ .comma) (hne : closing ≠ .eof) (hlimit : n ≤ limit)
    (hn : (commaSeparated (xs.map toks) ++ .fixed closing :: rest).length < n) :
    Reads (list limit closing elem) (commaSeparated (xs.map toks) ++ .fixed closing :: rest) rest
      fun ys => ys.map view = xs.map view := by
  have hlen : xs.length ≤ limit := by
    have := h.length_le
    rw [length_append] at hn
    omega
  refine (h.elements hclosing rfl hlen hn []).bind fun ys hys => ?_
  exact .expect hne fun _ => .pure hys

end ReadsElements

end Lists

/-! ### The knot -/

section Knot

lemma limit_nested (n : Nat) : (nested n).limit = n + 1 := by
  cases n <;> rfl

lemma reads_inner {R : β → Prop} (inner : Inner → P β) {p : Nat → P β}
    (hinner : ∀ n, inner (nested (n + 1)) = p n)
    (h : ∀ n, ts.length ≤ n → Reads (p n) ts rest R) (hn : ts.length < n) :
    Reads (inner (nested n)) ts rest R := by
  obtain ⟨n, rfl⟩ := Nat.exists_eq_succ_of_ne_zero (ne_of_gt (Nat.zero_lt_of_lt hn))
  rw [hinner]
  exact h n (Nat.lt_succ_iff.mp hn)

end Knot

/-! ### Types and signatures -/

/-- The tokens of a type are read as this type. -/
def ReadsType (t : TypeExpr) : Prop :=
  ∀ n rest, (t.tokens ++ rest).length ≤ n → firstKind rest ≠ .arrow →
    Reads (typeExpr (nested n)) (t.tokens ++ rest) rest fun u => u.unplaced = t.unplaced

lemma firstKind_type (t : TypeExpr) (rest : List Token) :
    firstKind (t.tokens ++ rest) ∈ [TokenKind.ident, .lbracket, .kwFn] := by
  cases t with
  | named s name => exact mem_cons_self
  | array s elem => exact mem_cons_of_mem _ mem_cons_self
  | func s params result =>
    cases result <;> exact mem_cons_of_mem _ (mem_cons_of_mem _ mem_cons_self)

section Types

variable {t : TypeExpr} {params : List TypeExpr}

lemma ReadsType.inner (ht : ReadsType t) (hn : (t.tokens ++ rest).length < n)
    (hrest : firstKind rest ≠ .arrow) :
    Reads (nested n).type (t.tokens ++ rest) rest fun u => u.unplaced = t.unplaced :=
  reads_inner (·.type) (fun _ => rfl) (fun n hn => ht n rest hn hrest) hn

lemma readsElements_types {elem : P TypeExpr}
    (h : ∀ t ∈ params, ∀ rest, (t.tokens ++ rest).length < n → firstKind rest ≠ .arrow →
      Reads elem (t.tokens ++ rest) rest fun u => u.unplaced = t.unplaced) :
    ReadsElements n .rparen elem TypeExpr.tokens TypeExpr.unplaced params := by
  refine ⟨fun t ht rest hfirst => ?_, fun t ht rest hn hrest => ?_⟩
  · have := firstKind_type t rest
    rw [hfirst] at this
    exact absurd this (by decide)
  · refine h t ht rest hn fun harrow => ?_
    rw [harrow] at hrest
    exact absurd hrest (by decide)

lemma readsType_named (span : Span) (name : Bytes) : ReadsType (.named span name) := by
  intro n rest hn hrest
  refine .get fun s hs => ?_
  simp only [hs]
  exact .next (by simp) fun _ => .pure rfl

lemma readsType_array (span : Span) (ht : ReadsType t) : ReadsType (.array span t) := by
  intro n rest hn hrest
  simp only [TypeExpr.tokens, cons_append, append_assoc] at hn ⊢
  refine .get fun s hs => ?_
  simp only [hs]
  refine .next (by decide) fun _ => ?_
  refine (ht.inner (by grind) (by simp)).bind fun u hu => ?_
  refine .expect (by decide) fun _ => .spanFrom fun _ => .pure ?_
  rw [TypeExpr.unplaced, TypeExpr.unplaced, hu]

lemma Reads.typeAfter {p : P TypeExpr} {sign : TokenKind} (hsign : sign ≠ .eof)
    {type : Option TypeExpr} {rest' : List Token} {f : Option TypeExpr → P γ} {R : γ → Prop}
    (hrest : firstKind rest ≠ sign)
    (hp : ∀ t ∈ type, (t.tokens ++ rest).length < (typeAfter sign type ++ rest).length →
      Reads p (t.tokens ++ rest) rest fun u => u.unplaced = t.unplaced)
    (h : ∀ r, r.map TypeExpr.unplaced = type.map TypeExpr.unplaced → Reads (f r) rest rest' R) :
    Reads (Parser.accept sign >>= fun found =>
      if found = true then (some <$> p) >>= f else (Pure.pure none) >>= f)
      (typeAfter sign type ++ rest) rest' R := by
  cases type with
  | none =>
    refine .reject hrest ?_
    exact .bind (.pure rfl) fun r hr => h r (by rw [hr])
  | some t =>
    refine .accept hsign ?_
    refine .bind ((hp t rfl (by simp [Minilang.typeAfter])).map fun u hu => ?_) h
    rw [Option.map_some, Option.map_some, hu]

lemma readsType_func (span : Span) (hparams : ∀ t ∈ params, ReadsType t) {result : Option TypeExpr}
    (hresult : ∀ t ∈ result, ReadsType t) : ReadsType (.func span params result) := by
  intro n rest hn hrest
  rw [TypeExpr.tokens_func, cons_append, cons_append, append_assoc, cons_append] at hn ⊢
  refine .get fun s hs => ?_
  simp only [hs]
  refine .next (by simp) fun _ => .expect (by simp) fun _ => ?_
  have helem := readsElements_types (n := n) fun t ht _ => (hparams t ht).inner
  refine (helem.list (by simp) (by simp) (by rw [limit_nested]; omega) (by grind)).bind
    fun us hus => ?_
  refine .typeAfter (by simp) hrest
    (fun t ht hlen => (hresult t ht).inner (by grind) hrest) fun r hr => ?_
  refine .spanFrom fun _ => .pure ?_
  rw [TypeExpr.unplaced_func, TypeExpr.unplaced_func, hus, hr]

end Types

mutual

/-- **A type is read back.** -/
theorem readsType : ∀ t : TypeExpr, ReadsType t
  | .named span name => readsType_named span name
  | .array span elem => readsType_array span (readsType elem)
  | .func span params none => readsType_func span (readsTypes params) (by simp)
  | .func span params (some r) =>
    readsType_func span (readsTypes params) (by simpa using readsType r)

theorem readsTypes : ∀ ts : List TypeExpr, ∀ t ∈ ts, ReadsType t
  | [] => by simp
  | t :: ts => forall_mem_cons.mpr ⟨readsType t, readsTypes ts⟩

end

section Signatures

lemma reads_param (p : Param) (hn : (p.tokens ++ rest).length ≤ n)
    (hrest : firstKind rest ≠ .arrow) :
    Reads (param (nested n)) (p.tokens ++ rest) rest fun q => q.unplaced = p.unplaced := by
  rw [Param.tokens] at hn ⊢
  refine .name fun x hx => .expect (by simp) fun _ => ?_
  refine (readsType p.type n rest (by grind) hrest).bind fun t ht => ?_
  refine .spanFrom fun _ => .pure ?_
  simp [Param.unplaced, Name.unplaced, hx, ht]

lemma readsElements_params (hclosing : closing ≠ .ident)
    (hclosing' : closing ≠ .arrow) (params : List Param) :
    ReadsElements (n + 1) closing (param (nested n)) Param.tokens Param.unplaced params := by
  refine ⟨fun p hp rest hfirst => hclosing hfirst.symm, fun p hp rest hn hrest => ?_⟩
  refine reads_param p (Nat.lt_succ_iff.mp hn) fun harrow => ?_
  rw [harrow] at hrest
  exact hrest.elim (by simp) fun h => hclosing' h.symm

lemma reads_signature (params : List Param) (result : Option TypeExpr)
    (hn : (signatureTokens params result ++ rest).length ≤ n) (hrest : firstKind rest ≠ .arrow) :
    Reads (signature (nested n)) (signatureTokens params result ++ rest) rest fun s =>
      s.1.map Param.unplaced = params.map Param.unplaced ∧
        s.2.map TypeExpr.unplaced = result.map TypeExpr.unplaced := by
  rw [signatureTokens, cons_append, append_assoc, cons_append] at hn ⊢
  refine .expect (by simp) fun _ => ?_
  refine ((readsElements_params (by simp) (by simp) params).list (by simp) (by simp)
    (limit_nested n).ge (by grind)).bind fun ps hps => ?_
  refine .typeAfter (by simp) hrest
    (fun t ht hlen => readsType t n rest (by grind) hrest) fun r hr => ?_
  exact .pure ⟨hps, hr⟩

end Signatures

end Minilang.Parser
