import Minilang.Proofs.Outcomes
import Minilang.Tree.Parser

/-!
# Runs of the parser

How a run moves through the tokens, and what the parser sees ahead of it.
-/

namespace Minilang.Parser

open List

variable {β γ : Type} {s u : State}

lemma run_bind (p : P β) (f : β → P γ) (s : State) :
    (p >>= f) s = (p s).bind fun res => f res.1 res.2 := rfl

lemma bind_ok {p : P β} {f : β → P γ} {y : γ} (h : (p >>= f) s = .ok (y, u)) :
    ∃ x w, p s = .ok (x, w) ∧ f x w = .ok (y, u) := by
  obtain ⟨x, w, hp, hf⟩ := run_bind_ok h
  exact ⟨x, w, hp, hf⟩

/-- All tokens that are left. -/
def State.toks (s : State) : Tokens :=
  s.tok :: s.rest

/-- The last token is the end of the file. -/
def State.Ended (s : State) : Prop :=
  ∃ init e, s.toks = init ++ [e] ∧ e.val.kind = .eof

lemma State.ended_of_append {before init : Tokens} {e : Located Token}
    (h : before ++ s.toks = init ++ [e]) (he : e.val.kind = .eof) : s.Ended := by
  have hne : s.toks ≠ [] := cons_ne_nil _ _
  refine ⟨s.toks.dropLast, s.toks.getLast hne, (dropLast_concat_getLast hne).symm, ?_⟩
  rw [← getLast_append_right (l := before) hne]
  simp [h, he]

/-- One state is at least `d` tokens behind another, and the end of the text is not among them. -/
def Moves (d : Nat) (s s' : State) : Prop :=
  ∃ read, s.toks = read ++ s'.toks ∧ (∀ t ∈ read, t.val.kind ≠ .eof) ∧ d ≤ read.length

namespace Moves

variable {d d' : Nat} {s s' s'' : State}

lemma refl (s : State) : Moves 0 s s :=
  ⟨[], rfl, by simp, Nat.zero_le _⟩

variable (h : Moves d s s')

include h

lemma mono (hd : d' ≤ d) : Moves d' s s' := by
  obtain ⟨read, htoks, hread, hlen⟩ := h
  exact ⟨read, htoks, hread, Nat.le_trans hd hlen⟩

lemma trans (h' : Moves d' s' s'') : Moves (d + d') s s'' := by
  obtain ⟨read, htoks, hread, hlen⟩ := h
  obtain ⟨read', htoks', hread', hlen'⟩ := h'
  refine ⟨read ++ read', by rw [htoks, htoks', append_assoc], ?_, ?_⟩
  · exact forall_mem_append.mpr ⟨hread, hread'⟩
  · rw [length_append]
    omega

lemma length : s'.toks.length + d ≤ s.toks.length := by
  obtain ⟨read, htoks, -, hlen⟩ := h
  rw [htoks, length_append]
  omega

lemma ended (hs : s.Ended) : s'.Ended := by
  obtain ⟨read, htoks, -, -⟩ := h
  obtain ⟨init, e, hinit, he⟩ := hs
  exact State.ended_of_append (htoks.symm.trans hinit) he

end Moves

lemma State.Ended.rest_ne_nil (hs : s.Ended) (hk : s.tok.val.kind ≠ .eof) : s.rest ≠ [] := by
  rintro hnil
  obtain ⟨init, e, hinit, he⟩ := hs
  rw [toks, hnil] at hinit
  obtain ⟨-, hlast⟩ := append_inj' ((nil_append _).trans hinit) rfl
  exact hk ((cons.inj hlast).1 ▸ he)

lemma State.next_eq (hk : s.tok.val.kind ≠ .eof) (hrest : s.rest ≠ []) :
    s.next.toks = s.rest ∧ s.next.prev = s.tok.span := by
  obtain ⟨tok, _ | ⟨t, rest⟩, prev⟩ := s
  · exact absurd rfl hrest
  · have hnext : next ⟨tok, t :: rest, prev⟩ = ⟨t, rest, tok.span⟩ := if_neg hk
    rw [hnext]
    exact ⟨rfl, rfl⟩

lemma State.next_eof (hk : s.tok.val.kind = .eof) : s.next = s := by
  obtain ⟨tok, _ | ⟨t, rest⟩, prev⟩ := s
  · rfl
  · exact if_pos hk

lemma moves_next (hs : s.Ended) (hk : s.tok.val.kind ≠ .eof) : Moves 1 s s.next := by
  refine ⟨[s.tok], ?_, by simpa using hk, Nat.le_refl 1⟩
  rw [(State.next_eq hk (hs.rest_ne_nil hk)).1]
  rfl

lemma accept_ok {k : TokenKind} {c : Bool} (h : accept k s = .ok (c, u)) :
    c = true ∧ s.tok.val.kind = k ∧ u = s.next ∨ c = false ∧ s.tok.val.kind ≠ k ∧ u = s := by
  change (if s.tok.val.kind = k then next >>= fun _ => pure true else pure false : P Bool) s =
    _ at h
  split_ifs at h with hk
  · cases h
    exact .inl ⟨rfl, hk, rfl⟩
  · cases h
    exact .inr ⟨rfl, hk, rfl⟩

/-- A token at which no text, block or parenthesis goes on. -/
def Closes (k : TokenKind) : Prop :=
  k = .eof ∨ k = .rbrace ∨ k = .rparen

/-- What an item is that starts with an expression. -/
def exprItem (x : Expr Unit) : P Item := do
  if ← accept .rbrace then return .finish (some x)
  else if ← accept .semicolon then return .stmt (.expr x)
  else if x.isBlockLike then return .stmt (.expr x)
  else unexpected "; or \x7d"

/-! ### Tokens ahead -/

/-- The kind of a token further on. -/
def kindAt (toks : List Token) (n : Nat) : TokenKind :=
  ((toks[n]?).map (·.kind)).getD .eof

/-- The tokens ahead of a name make it the start of a structure literal. -/
def opensStruct (toks : List Token) : Bool :=
  kindAt toks 0 = .lbrace && (kindAt toks 1 = .rbrace || kindAt toks 1 = .ident && kindAt
    toks 2 = .colon)

/-- The least integer, if the tokens ahead of a minus sign are its digits and nothing that goes on
with them. -/
def leastAhead : List Token → Option Int
  | [] => none
  | t :: more =>
    if t.kind ≠ .int ∨ kindAt more 0 = .lparen ∨ kindAt more 0 = .dot ∨ kindAt more 0 =
      .lbracket then none
    else if (Decimal.readInt? t.text).isSome then none
    else Decimal.readInt? (45 :: t.text)

/-- The literal of the least integer. -/
def readLeast (n : Int) : P (Expr Unit) := do
  let t ← next
  let u ← next
  return .lit (t.span.through u.span) () (.int (.ofInt n))

lemma kindAfter_bind (n : Nat) (f : TokenKind → P β) (s : State) :
    (kindAfter (n + 1) >>= f) s = f (kindAt (s.rest.map Located.val) n) s := by
  simp only [kindAt, getElem?_map, Option.map_map]
  rfl

lemma opensStruct_append (init : List Token) (e : Token) (rest : List Token)
    (he : Closes e.kind) : opensStruct (init ++ e :: rest) = opensStruct (init ++ [e]) := by
  rcases init with _ | ⟨a, _ | ⟨b, _ | ⟨c, more⟩⟩⟩ <;> rcases he with he | he | he <;>
    simp [opensStruct, kindAt, he]

lemma leastAhead_append (init : List Token) (e : Token) (rest : List Token) (he : Closes e.kind) :
    leastAhead (init ++ e :: rest) = leastAhead (init ++ [e]) := by
  rcases init with _ | ⟨a, _ | ⟨b, more⟩⟩ <;> rcases he with he | he | he <;>
    simp [leastAhead, kindAt, he]

lemma startsStruct_bind (f : Bool → P β) (s : State) :
    (startsStruct >>= f) s = f (opensStruct (s.rest.map Located.val)) s := by
  have hrun : startsStruct s = .ok (opensStruct (s.rest.map Located.val), s) := by
    unfold startsStruct opensStruct
    rw [kindAfter_bind]
    split_ifs with h0
    · simp only [h0]
      rfl
    · simp only [not_not.mp h0]
      rw [kindAfter_bind]
      split_ifs with h1
      · simp only [h1]
        rfl
      · rw [kindAfter_bind, kindAfter_bind]
        simp only [h1]
        rfl
  rw [run_bind, hrun]
  rfl

lemma leastInt?_bind (f : Option (Expr Unit) → P β) (hs : s.tok.val.kind = .minus) :
    (leastInt? >>= f) s = ((leastAhead (s.rest.map Located.val)).elim (f none)
      fun n => readLeast n >>= fun x => f (some x)) s := by
  obtain ⟨tok, rest, prev⟩ := s
  rcases rest with _ | ⟨t, more⟩
  · rfl
  · have hne : tok.val.kind ≠ .eof := hs ▸ by decide
    have hnext : State.next ⟨tok, t :: more, prev⟩ = ⟨t, more, tok.span⟩ := if_neg hne
    have hk : kindAt (t.val :: more.map Located.val) 1 = kindAt (more.map Located.val) 0 := rfl
    change ((kindAfter 2 >>= fun k => _) (State.mk tok (t :: more) prev)).bind _ = _
    simp only [kindAfter_bind 1, map_cons, leastAhead, hk]
    split_ifs
    · rfl
    · rfl
    · cases Decimal.readInt? (45 :: t.val.text) with
      | none => rfl
      | some n =>
        change f (some (.lit (tok.span.through t.span) () _)) _ =
          f (some (.lit (tok.span.through (State.next ⟨tok, t :: more, prev⟩).tok.span) () _)) _
        rw [hnext]

end Minilang.Parser
