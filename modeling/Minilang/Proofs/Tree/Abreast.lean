import Minilang.Proofs.Tree.Runs
import Minilang.Proofs.Tree.Unplaced

/-!
# Two runs of the parser

Two runs on tokens that are the same up to some point, step by step.  `Tracks` says of two parsers
that they agree as long as the tokens in common last; there is one rule for each step of a parser
and one lemma for each function of the grammar.  The bounds on rounds and on nesting may differ on
the two sides.
-/

namespace Minilang.Parser

open List

variable {β γ : Type}

/-- No token that goes on after a part of an expression, a type or a list. -/
def stops (k : TokenKind) : Bool :=
  k ∉ [.arrow, .colon, .comma, .dotDot, .kwElse, .rbrace, .lparen, .dot, .lbracket, .assign] &&
    (BinaryOp.ofToken? k).isNone

/-- What two runs do not have in common, and whether they are compared with all places. -/
structure Sides where
  exact : Bool
  left : Tokens
  right : Tokens

namespace Sides

variable (v : Sides)

/-- What is compared of a token. -/
def see (t : Located Token) : Located Token :=
  if v.exact then t else ⟨.none, t.val⟩

/-- Where the tokens in common end: with the text on the left, or at a seam between a closing brace
or parenthesis and, on the left, a semicolon that is missing on the right. -/
inductive Fence (common : Tokens) : Prop where
  | eof {init e} (hleft : v.left = []) (hcommon : common = init ++ [e])
    (he : e.val.kind = .eof)
  | seam {t t' ts ts'} (hleft : v.left = t :: ts)
    (ht : t.val.kind = .semicolon) (hright : v.right = t' :: ts') (ht' : stops t'.val.kind = true)
    (hcommon : ∀ u ∈ common.getLast?, u.val.kind = .rbrace ∨ u.val.kind = .rparen)

/-- Two states that have tokens in common. -/
structure Beside (common : Tokens) (s s' : State) : Prop where
  left : s.toks.map v.see = common ++ v.left
  right : s'.toks.map v.see = common ++ v.right
  prev : Alike v.exact s.prev s'.prev

/-- Two states with fewer than `k` tokens in common, from which two runs start. -/
structure Abreast (k : Nat) (common : Tokens) (s s' : State) : Prop extends
    v.Beside common s s' where
  short : common.length < k
  fence : v.Fence common
  ended : s.Ended

/-- How two runs end: both with a result or both with an error, unless the left one has gone beyond
the seam. -/
inductive Agree [Unplace β] : (left right : Except (Located ParseError) (β × State)) → Prop where
  | ok {x y t t' common} (hx : Alike v.exact x y)
    (ht : v.Beside common t t') : Agree (.ok (x, t)) (.ok (y, t'))
  | error {e e'} (he : v.exact = true → e = e') : Agree (.error e) (.error e')
  | beyond {x t res}
    (h : t.toks.length < v.left.length) : Agree (.ok (x, t)) res
  | failed {e res} (h : v.left ≠ []) :
    Agree (.error e) res

/-- **Two parsers run side by side.**  The one on the left reads `d` tokens at least, and the two
agree wherever they have fewer than `k` tokens in common.  Both facts are about states that look at
a token of the kinds `K`. -/
structure Tracks (k d : Nat) (K : TokenKind → Prop) [Unplace β] (p q : P β) : Prop where
  moves : ∀ ⦃s x t⦄, s.Ended → K s.tok.val.kind → p s = .ok (x, t) → Moves d s t
  agree : ∀ ⦃common s s'⦄, v.Abreast k common s s' → K s.tok.val.kind → v.Agree (p s) (q s')

end Sides

open Sides

attribute [local simp] Alike Unplace.unplaced Name.unplaced Expr.unplaced

variable {v : Sides} {k k' d d' : Nat} {K K' : TokenKind → Prop} [Unplace β] [Unplace γ]

@[simp]
lemma Sides.see_val (t : Located Token) : (v.see t).val = t.val := by
  unfold see
  split_ifs <;> rfl

lemma alike_of_see {t t' : Located Token} (h : v.see t = v.see t') : Alike v.exact t t' := by
  have hval : t.val = t'.val := by rw [← v.see_val t, h, v.see_val]
  refine ⟨congrArg (Located.mk .none) hval, fun hexact => ?_⟩
  simpa [see, hexact] using h

lemma val_eq {t t' : Located Token} (h : Alike v.exact t t') : t.val = t'.val :=
  (Located.mk.inj h.1).2

lemma Sides.Fence.suffix {read common : Tokens} (h : v.Fence (read ++ common))
    (hread : ∀ t ∈ read, t.val.kind ≠ .eof) : v.Fence common := by
  cases h with
  | @eof init e hleft hcommon he =>
    rcases eq_nil_or_concat common with rfl | ⟨init', e', rfl⟩
    · rw [append_nil] at hcommon
      exact absurd he (hread e (by simp [hcommon]))
    · rw [concat_eq_append, ← append_assoc] at hcommon
      obtain ⟨-, hlast⟩ := append_inj' hcommon rfl
      obtain ⟨rfl, -⟩ := cons.inj hlast
      exact .eof hleft (concat_eq_append ..) he
  | seam hleft ht hright ht' hcommon =>
    refine .seam hleft ht hright ht' fun u hu => hcommon u ?_
    rw [getLast?_append, Option.mem_def.mp hu]
    rfl

lemma Sides.Fence.append_ne_nil {common : Tokens} (h : v.Fence common) :
    common ++ v.right ≠ [] := by
  cases h with
  | eof hleft hcommon he => simp [hcommon]
  | seam hleft ht hright ht' hcommon => simp [hright]

lemma Sides.Fence.closes {common : Tokens} (h : v.Fence common)
    (hne : common ≠ []) : ∃ init e, common = init ++ [e] ∧ Closes e.val.kind := by
  obtain ⟨init, e, rfl⟩ := (eq_nil_or_concat common).resolve_left hne
  rw [concat_eq_append] at h ⊢
  refine ⟨init, e, rfl, ?_⟩
  cases h with
  | eof hleft hcommon he =>
    obtain ⟨-, hlast⟩ := append_inj' hcommon rfl
    exact .inl ((cons.inj hlast).1 ▸ he)
  | seam hleft ht hright ht' hcommon => exact .inr (hcommon e (by simp))

namespace Sides.Abreast

variable {common common' : Tokens} {s s' t t' : State}

variable (h : v.Abreast k common s s')

include h

lemma mono (hk : k ≤ k') : v.Abreast k' common s s' :=
  { h with short := h.short.trans_le hk }

lemma after (hmoves : Moves d s t) (ht : v.Beside common' t t') :
    v.Abreast (k - d) common' t t' := by
  have hended := hmoves.ended h.ended
  obtain ⟨read, htoks, hread, hlen⟩ := hmoves
  have hcommon : common = read.map v.see ++ common' := by
    have := h.left
    rw [htoks, map_append, ht.left, ← append_assoc] at this
    exact (append_cancel_right this).symm
  refine ⟨ht, ?_, ?_, hended⟩
  · have := h.short
    rw [hcommon, length_append, length_map] at this
    omega
  · refine (hcommon ▸ h.fence).suffix fun u hu => ?_
    obtain ⟨w, hw, rfl⟩ := mem_map.mp hu
    simpa using hread w hw

lemma tok : (∃ tail, common = v.see s.tok :: tail ∧ Alike v.exact s.tok s'.tok ∧
      s.rest.map v.see = tail ++ v.left ∧ s'.rest.map v.see = tail ++ v.right) ∨
    v.left.length = s.toks.length ∧ s.tok.val.kind = .semicolon ∧ stops s'.tok.val.kind = true := by
  have hleft := h.left
  have hright := h.right
  cases common with
  | nil =>
    right
    cases h.fence with
    | eof _ hcommon _ => exact absurd hcommon (by simp)
    | seam hl ht hr ht' _ =>
      refine ⟨by simpa using (congrArg length hleft).symm, ?_, ?_⟩
      · rw [hl] at hleft
        rw [← ht, ← (cons.inj hleft).1, see_val]
      · rw [hr] at hright
        rw [← ht', ← (cons.inj hright).1, see_val]
  | cons t tail =>
    left
    obtain ⟨rfl, hrest⟩ := cons.inj hleft
    obtain ⟨htok, hrest'⟩ := cons.inj hright
    exact ⟨tail, rfl, alike_of_see htok.symm, hrest, hrest'⟩

end Sides.Abreast

namespace Sides.Tracks

variable {p q q' : P β} {f g : β → P γ} {c : TokenKind} {n n' : Nat}

lemma mono (h : v.Tracks k d K p q) (hk : k' ≤ k) (hd : d' ≤ d) (hK : ∀ x, K' x → K x) :
    v.Tracks k' d' K' p q :=
  ⟨fun _ _ _ hs hkind hrun => (h.moves hs (hK _ hkind) hrun).mono hd,
    fun _ _ _ hs hkind => h.agree (hs.mono hk) (hK _ hkind)⟩

lemma pure {x y : β} (h : Alike v.exact x y) : v.Tracks k 0 K (pure x) (pure y) := by
  refine ⟨fun s x t hs hk hrun => ?_, fun common s s' hs hk => .ok h hs.toBeside⟩
  cases hrun
  exact .refl s

lemma bind (hp : v.Tracks k d K p q)
    (hf : ∀ {x y}, Alike v.exact x y → v.Tracks (k - d) d' (fun _ => True) (f x) (g y)) :
    v.Tracks k (d + d') K (p >>= f) (q >>= g) := by
  refine ⟨fun s y t hs hk hrun => ?_, fun common s s' hs hk => ?_⟩
  · rw [run_bind] at hrun
    cases hpx : p s with
    | error e =>
      rw [hpx] at hrun
      cases hrun
    | ok res =>
      rw [hpx] at hrun
      have hmoves := hp.moves hs hk hpx
      exact hmoves.trans ((hf (.refl)).moves (hmoves.ended hs) trivial hrun)
  · have hagree := hp.agree hs hk
    have hmoves := fun x u => @hp.moves s x u hs.ended hk
    rw [run_bind, run_bind]
    generalize p s = left at hagree hmoves
    generalize q s' = right at hagree
    cases hagree with
    | ok hx ht => exact (hf hx).agree (hs.after (hmoves _ _ rfl) ht) trivial
    | error he => exact .error he
    | failed h => exact .failed h
    | @beyond x u _ h =>
      change v.Agree (f x u) _
      cases hfx : f x u with
      | error e => exact .failed (ne_nil_of_length_pos (by omega))
      | ok res =>
        have := ((hf (.refl)).moves ((hmoves x u rfl).ended hs.ended) trivial hfx).length
        exact .beyond (by omega)

lemma map {g : β → γ} (h : v.Tracks k d K p q)
    (hg : ∀ {x y}, Alike v.exact x y → Alike v.exact (g x) (g y)) :
    v.Tracks k d K (g <$> p) (g <$> q) := by
  exact h.bind fun hxy => .pure (hg hxy)

lemma drop (h : v.Tracks k d K p q) : v.Tracks k 0 K p q :=
  h.mono le_rfl (Nat.zero_le d) fun _ hx => hx

lemma shrink (h : v.Tracks k d K p q) (hk : k' ≤ k) : v.Tracks k' d K p q :=
  h.mono hk le_rfl fun _ hx => hx

lemma less (h : v.Tracks (k + 1) d K p q) : v.Tracks k d K p q :=
  h.shrink (Nat.le_succ k)

lemma read (hp : v.Tracks k 1 K p q)
    (hf : ∀ {x y}, Alike v.exact x y → v.Tracks (k - 1) 0 (fun _ => True) (f x) (g y)) :
    v.Tracks k 1 K (p >>= f) (q >>= g) :=
  hp.bind hf

lemma keep (hp : v.Tracks k d K p q)
    (hf : ∀ {x y}, Alike v.exact x y → v.Tracks k 0 (fun _ => True) (f x) (g y)) :
    v.Tracks k d K (p >>= f) (q >>= g) :=
  hp.bind fun hxy => (hf hxy).shrink (Nat.sub_le k d)

lemma seq (hp : v.Tracks k d K p q)
    (hf : ∀ {x y}, Alike v.exact x y → v.Tracks k 0 (fun _ => True) (f x) (g y)) :
    v.Tracks k 0 K (p >>= f) (q >>= g) :=
  hp.drop.keep hf

lemma ite {c : Prop} [Decidable c] {p' : P β} (h : v.Tracks k d K p q)
    (h' : v.Tracks k d K p' q') : v.Tracks k d K (if c then p else p') (if c then q else q') := by
  split_ifs
  · exact h
  · exact h'

lemma optional {c : Prop} [Decidable c] {f g : Option β → P γ} (hp : v.Tracks k 1 K p q)
    (hf : ∀ {x y}, Alike v.exact x y → v.Tracks k 0 (fun _ => True) (f x) (g y)) :
    v.Tracks k 0 K (if c then (some <$> p) >>= f else Pure.pure none >>= f)
      (if c then (some <$> q) >>= g else Pure.pure none >>= g) :=
  .ite (.seq (hp.map fun h => ⟨congrArg some h.1, fun hexact => congrArg some (h.2 hexact)⟩) hf)
    (.seq (.pure .refl) hf)

lemma zero (h : v.Tracks k d K p q) : v.Tracks 0 d K p q' :=
  ⟨h.moves, fun _ _ _ hs => absurd hs.short (Nat.not_lt_zero _)⟩

/-! The steps of a parser. -/

lemma fail {s s' : Span} {e e' : ParseError} (h : v.exact = true → s = s' ∧ e = e') :
    v.Tracks k d K (fail s e : P β) (fail s' e') := by
  refine ⟨fun u x t _ _ hrun => ?_, fun common u u' _ _ => .error fun hexact => ?_⟩
  · cases hrun
  · obtain ⟨rfl, rfl⟩ := h hexact
    rfl

lemma get {f g : State → P β}
    (h : ∀ s s', Alike v.exact s.tok s'.tok → K s.tok.val.kind → v.Tracks k d (· = s.tok.val.kind)
      (f s) (g s'))
    (hseam : ∀ s s', s.Ended → s.tok.val.kind = .semicolon → K .semicolon → stops s'.tok.val.kind =
      true →
      v.Tracks k d (· = .semicolon) (f s) (g s') ∨ ∀ x t, f s s = .ok (x, t) →
      t.toks.length < s.toks.length) :
    v.Tracks k d K (get >>= f) (get >>= g) := by
  refine ⟨fun s x t hs hk hrun => (h s s .refl hk).moves hs rfl hrun, fun common s s' hs hk => ?_⟩
  change v.Agree (f s s) (g s' s')
  obtain ⟨tail, -, htok, -, -⟩ | ⟨hlen, hsemi, hstop⟩ := hs.tok
  · exact (h s s' htok hk).agree hs rfl
  · obtain hsame | hread := hseam s s' hs.ended hsemi (hsemi ▸ hk) hstop
    · exact hsame.agree hs hsemi
    · cases hrun : f s s with
      | error e => exact .failed (ne_nil_of_length_pos (by simp [hlen, State.toks]))
      | ok res => exact .beyond (hlen ▸ hread res.1 res.2 hrun)

lemma look {f g : State → P β}
    (h : ∀ {s s' t r r' p p'}, Alike v.exact s s' → v.Tracks k 1 (· = t.kind) (f ⟨⟨s, t⟩, r, p⟩)
      (g ⟨⟨s', t⟩, r', p'⟩)) : v.Tracks k 1 K (MonadState.get >>= f) (MonadState.get >>= g) := by
  have hall (s s') (hs : Alike v.exact s.tok s'.tok) :
      v.Tracks k 1 (· = s.tok.val.kind) (f s) (g s') := by
    obtain ⟨⟨s, t⟩, r, p⟩ := s
    obtain ⟨⟨s', t'⟩, r', p'⟩ := s'
    obtain rfl : t = t' := val_eq hs
    exact h ⟨rfl, fun hexact => congrArg Located.span (hs.2 hexact)⟩
  exact .get (fun s s' hs _ => hall s s' hs) fun s _ hs hsemi hk _ => .inr fun x u hrun =>
    ((hall s s .refl).moves hs rfl hrun).length

lemma branch {f g : TokenKind → P β} (h : ∀ x, K x → v.Tracks k d (· = x) (f x) (g x))
    (hsemi : K .semicolon → v.Tracks k 1 (· = .semicolon) (f .semicolon) (g .semicolon)) :
    v.Tracks k d K (kind >>= f) (kind >>= g) :=
  .get (fun _ _ hs hk => val_eq hs ▸ h _ hk)
    fun _ _ hs hkind hk _ => .inr fun _ _ hrun => ((hsemi hk).moves hs hkind (hkind ▸ hrun)).length

lemma turn {f g : TokenKind → P β} (h : ∀ x, K x → v.Tracks k 1 (· = x) (f x) (g x)) :
    v.Tracks k 1 K (kind >>= f) (kind >>= g) :=
  .branch h (h .semicolon)

/-- The kind of the current token decides what follows, and nothing goes on with a token that stops.
-/
theorem peek {f g : TokenKind → P β} (h : ∀ x, K x → v.Tracks k d (· = x) (f x) (g x))
    (hstops : ∀ x, stops x = true → g x = g .semicolon) :
    v.Tracks k d K (kind >>= f) (kind >>= g) :=
  .get (fun _ _ hs hk => val_eq hs ▸ h _ hk)
    fun _ _ _ hkind hk hs' => .inl (by rw [hkind, hstops _ hs']; exact h _ hk)

lemma unexpected {what : Bytes} : v.Tracks k d K (unexpected what : P β) (unexpected what) :=
  .get (fun _ _ hs _ => .fail fun hexact => by rw [hs.2 hexact]; exact ⟨rfl, rfl⟩)
    fun _ _ _ _ _ _ => .inr fun _ _ hrun => by cases hrun

lemma next (hK : ∀ x, K x → x ≠ .eof) : v.Tracks k 1 K next next := by
  refine ⟨fun s x t hs hk hrun => ?_, fun common s s' hs hk => ?_⟩
  · cases hrun
    exact moves_next hs (hK _ hk)
  · have hne := hK _ hk
    obtain ⟨hnext, hprev⟩ := State.next_eq hne (hs.ended.rest_ne_nil hne)
    obtain ⟨tail, rfl, htok, hrest, hrest'⟩ | ⟨hlen, -, -⟩ := hs.tok
    · have hfence : v.Fence tail := @Fence.suffix v [v.see s.tok] tail hs.fence (by simpa using hne)
      have hne' : s'.tok.val.kind ≠ .eof := val_eq htok ▸ hne
      obtain ⟨hnext', hprev'⟩ :=
        State.next_eq hne' (fun h => hfence.append_ne_nil (by rw [← hrest', h]; rfl))
      have hprevs : Alike v.exact s.next.prev s'.next.prev := by
        rw [hprev, hprev']
        exact ⟨rfl, fun hexact => congrArg Located.span (htok.2 hexact)⟩
      exact .ok htok (Beside.mk (by rw [hnext, hrest]) (by rw [hnext', hrest']) hprevs)
    · refine .beyond (?_ : s.next.toks.length < _)
      rw [hnext, hlen, State.toks, length_cons]
      omega

lemma advance : v.Tracks k 0 K Parser.next Parser.next := by
  have hnext : v.Tracks k 1 (· ≠ .eof) Parser.next Parser.next := .next fun _ hx => hx
  refine ⟨fun s x t hs hk hrun => ?_, fun common s s' hs hk => ?_⟩
  · by_cases hkind : s.tok.val.kind = .eof
    · cases hrun
      rw [State.next_eof hkind]
      exact .refl s
    · exact (hnext.moves hs hkind hrun).mono (Nat.zero_le 1)
  · by_cases hkind : s.tok.val.kind = .eof
    · obtain ⟨tail, -, htok, -, -⟩ | ⟨-, hsemi, -⟩ := hs.tok
      · have hstay : v.Beside common s.next s'.next := by
          rw [State.next_eof hkind, State.next_eof (val_eq htok ▸ hkind)]
          exact hs.toBeside
        exact .ok htok hstay
      · cases hkind.symm.trans hsemi
    · exact hnext.agree hs hkind

lemma expect (hc : c ≠ .eof) : v.Tracks k 1 K (expect c) (expect c) := by
  have h (x) : v.Tracks k 1 (· = x) (if x = c then Parser.next else Parser.unexpected c.text)
      (if x = c then Parser.next else Parser.unexpected c.text) := by
    split_ifs with hx
    · exact .next (by rintro _ rfl; exact hx ▸ hc)
    · exact .unexpected
  exact .turn fun x _ => h x

lemma acceptSemicolon : v.Tracks k 0 K (accept .semicolon) (accept .semicolon) :=
  .branch (fun x _ => .ite (.seq .advance fun _ => .pure .refl) (.pure .refl)) fun _ =>
    .keep (.next (by simp)) fun _ => .pure .refl

lemma readSemicolon : v.Tracks k 1 (· = .semicolon) (accept .semicolon) (accept .semicolon) := by
  refine .turn ?_
  rintro _ rfl
  exact .keep (.next (by simp)) fun _ => .pure .refl

lemma accept {f g : Bool → P β} (hc : stops c = false ∨ c = .semicolon)
    (h : ∀ b, v.Tracks k 0 (fun _ => True) (f b) (g b)) :
    v.Tracks k 0 K (accept c >>= f) (accept c >>= g) := by
  have haccept : v.Tracks k 0 K (Parser.accept c) (Parser.accept c) := by
    obtain hc | rfl := hc
    · refine .peek (fun x _ => .ite (.seq .advance fun _ => .pure .refl) (.pure .refl)) fun x hx =>
        ?_
      have hx' : x ≠ c := by rintro rfl; simp [hx] at hc
      have hsemi : TokenKind.semicolon ≠ c := by rintro rfl; cases hc
      rw [if_neg hx', if_neg hsemi]
    · exact .acceptSemicolon
  refine .seq haccept fun hb => ?_
  cases hb.1
  exact h _

lemma spanFrom {s s' : Span} {f g : Span → P β}
    (hs : Alike v.exact s s') (h : ∀ {u u'}, Alike v.exact u u' → v.Tracks k d K (f u) (g u')) :
    v.Tracks k d K (spanFrom s >>= f) (spanFrom s' >>= g) := by
  refine ⟨fun w x t hw hk hrun => (h .refl).moves hw hk hrun, fun common w w' hw hk => ?_⟩
  have hspan : Alike v.exact (s.through w.prev) (s'.through w'.prev) :=
    ⟨rfl, fun hexact => by rw [hs.2 hexact, hw.prev.2 hexact]⟩
  exact (h hspan).agree hw hk

lemma finish {s s' : Span} {F G : Span → β} (hs : Alike v.exact s s')
    (h : ∀ {u u'}, Alike v.exact u u' → Alike v.exact (F u) (G u')) :
    v.Tracks k 0 K (Parser.spanFrom s >>= fun u => Pure.pure (F u))
      (Parser.spanFrom s' >>= fun u => Pure.pure (G u)) :=
  .spanFrom hs fun hu => .pure (h hu)

lemma name : v.Tracks k 1 K name name :=
  .keep (.expect (by simp)) fun _ => .pure (by simp_all +contextual)

lemma loop {F G : Nat → γ → P β} (hzero : ∀ x K, v.Tracks 0 0 K (F 0 x) (F 0 x))
    (hstep : ∀ {n m j K x y}, j ≤ k → Alike v.exact x y →
      (∀ {x' y'}, Alike v.exact x' y' → v.Tracks (j - 1) 0 (fun _ => True) (F n x') (G m y')) →
      v.Tracks j 0 K (F (n + 1) x) (G (m + 1) y)) {x y : γ} (hn : k ≤ n) (hn' : k ≤ n')
    (hxy : Alike v.exact x y) : v.Tracks k 0 K (F n x) (G n' y) := by
  suffices h : ∀ j ≤ k, j ≤ n → j ≤ n' → v.Tracks j 0 K (F n x) (G n' y) from h k le_rfl hn hn'
  clear hn hn'
  induction n generalizing n' x y K with
  | zero =>
    intro j hj hn hn'
    obtain rfl := Nat.le_zero.mp hn
    exact (hzero x K).zero
  | succ n ih =>
    intro j hj hn hn'
    cases n' with
    | zero =>
      obtain rfl := Nat.le_zero.mp hn'
      exact (hstep hj (.refl) fun h => ih h 0 hj (Nat.zero_le n) le_rfl).zero
    | succ n' => exact hstep hj hxy fun h => ih h _ (by omega) (by omega) (by omega)

lemma list {closing : TokenKind} (hp : ∀ {K}, v.Tracks k 1 K p q) (hn : k ≤ n)
    (hn' : k ≤ n') (hclosing : closing ≠ .eof ∧ closing ≠ .semicolon) :
    v.Tracks k 1 K (list n closing p) (list n' closing q) := by
  have helements : v.Tracks k 0 K (elements closing p n []) (elements closing q n' []) := by
    refine loop (fun _ _ => .pure .refl) ?_ hn hn' .refl
    intro n n' j K xs ys hj hxs ih
    have hround {K'} : v.Tracks j 1 K'
        (p >>= fun x => Parser.accept .comma >>= fun c =>
          if c then elements closing p n (x :: xs) else Pure.pure (x :: xs).reverse)
        (q >>= fun y => Parser.accept .comma >>= fun c =>
          if c then elements closing q n' (y :: ys) else Pure.pure (y :: ys).reverse) :=
      .read (hp.shrink hj) fun _ =>
        .accept (.inl rfl) fun c => .ite (ih (by simp_all +contextual))
          (.pure (by simp_all +contextual))
    refine .branch (fun x _ => .ite (.pure (by simp_all +contextual)) hround.drop) ?_
    rw [if_neg hclosing.2.symm, if_neg hclosing.2.symm]
    exact fun _ => hround
  exact (helements.bind fun hxs => .keep (.expect hclosing.1) fun _ => .pure hxs).mono le_rfl
    (Nat.le_add_left 1 0)
    fun _ hx => hx

/-- What is seen ahead decides what follows.  Nothing is seen beyond a token that closes something.
-/
theorem ahead {δ : Type} {scan : List Token → δ} {f g : δ → P β}
    (hK : ∀ x, K x → x ≠ .semicolon ∧ ¬ Closes x)
    (hscan : ∀ init e rest, Closes e.kind → scan (init ++ e :: rest) = scan (init ++ [e]))
    (hp : ∀ s : State, K s.tok.val.kind → p s = f (scan (s.rest.map Located.val)) s)
    (hq : ∀ s : State, K s.tok.val.kind → q s = g (scan (s.rest.map Located.val)) s)
    (h : ∀ a, v.Tracks k d K (f a) (g a)) : v.Tracks k d K p q := by
  refine ⟨fun s x t hs hk hrun => (h _).moves hs hk (hp s hk ▸ hrun), fun common s s' hs hk => ?_⟩
  obtain ⟨tail, rfl, htok, hrest, hrest'⟩ | ⟨-, hsemi, -⟩ := hs.tok
  · rw [hp s hk, hq s' (val_eq htok ▸ hk)]
    obtain ⟨init, e, hcommon, he⟩ := hs.fence.closes (cons_ne_nil _ _)
    cases init with
    | nil =>
      obtain ⟨rfl, -⟩ := cons.inj hcommon
      exact absurd (by simpa using he) (hK _ hk).2
    | cons t init =>
      obtain ⟨-, rfl⟩ := cons.inj (hcommon.trans (cons_append ..))
      have hvals (ts : Tokens) :
        ts.map Located.val = (ts.map v.see).map Located.val := by simp
      have hscans : scan (s.rest.map Located.val) = scan (s'.rest.map Located.val) := by
        rw [hvals s.rest, hvals s'.rest, hrest, hrest']
        simp only [map_append, append_assoc]
        exact (hscan _ _ _ he).trans (hscan _ _ _ he).symm
      rw [hscans]
      exact (h _).agree hs hk
  · exact absurd hsemi (hK _ hk).1

end Sides.Tracks

lemma Sides.Tracks.startsStruct {f g : Bool → P β}
    (h : ∀ c, v.Tracks k d (· = .ident) (f c) (g c)) :
    v.Tracks k d (· = .ident) (startsStruct >>= f) (startsStruct >>= g) :=
  .ahead (by simp [Closes]) opensStruct_append (fun s _ => startsStruct_bind f s)
    (fun s _ => startsStruct_bind g s) h

lemma Sides.Tracks.leastInt? {f g : Option (Expr Unit) → P β}
    (hnone : v.Tracks k 1 (· = .minus) (f none) (g none))
    (hsome : ∀ {x y}, Alike v.exact x y → v.Tracks k 0 (fun _ => True) (f (some x)) (g (some y))) :
    v.Tracks k 1 (· = .minus) (leastInt? >>= f) (leastInt? >>= g) := by
  refine .ahead (f := fun n => n.elim (f none) fun n => readLeast n >>= fun x => f (some x))
    (g := fun n => n.elim (g none) fun n => readLeast n >>= fun x => g (some x)) (by simp [Closes])
    leastAhead_append
    (fun s hs => leastInt?_bind f hs) (fun s hs => leastInt?_bind g hs) fun n => ?_
  cases n with
  | none => exact hnone
  | some n =>
    exact .keep (.keep (.next (by simp)) fun _ => .seq .advance fun _ =>
      .pure (by simp_all +contextual)) hsome

end Minilang.Parser
