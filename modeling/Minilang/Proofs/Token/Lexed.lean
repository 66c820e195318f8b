import Minilang.Proofs.Token.Layout

/-!
# What the tokens of a text look like

A name does not begin with a digit, an integer literal consists of digits, and so do the two parts
of a float literal.  Each byte of a string has a way to be written in a string literal, and some
have two; whichever is chosen for each byte, the literal is read as the string.
-/

namespace Minilang

/-- A token as texts have them. -/
structure Token.Lexed (t : Token) : Prop where
  ident : t.kind = .ident → t.text.head?.any Decimal.isDigit = false
  int : t.kind = .int → Digits t.text
  float : t.kind = .float →
    ∃ whole fraction : Bytes, t.text = whole ++ 46 :: fraction ∧ Digits whole ∧ Digits fraction

variable {t : Token} {lexeme : Bytes}

namespace Lexer

lemma lexed_of_kind (h : t.kind ∉ [TokenKind.ident, .int, .float]) : t.Lexed := by
  simp only [List.mem_cons, List.not_mem_nil, or_false, not_or] at h
  exact ⟨fun hk => absurd hk h.1, fun hk => absurd hk h.2.1, fun hk => absurd hk h.2.2⟩

lemma Spelled.lexed (h : Spelled t lexeme) : t.Lexed := by
  cases h with
  | word h =>
    rcases wordKind_cases lexeme with hk | hk
    · obtain ⟨b, more, rfl, hb⟩ := exists_of_isWord h
      refine ⟨fun _ => ?_, fun h => ?_, fun h => ?_⟩
      · simp [of_isLetter hb]
      · exact absurd (hk.symm.trans h) (by decide)
      · exact absurd (hk.symm.trans h) (by decide)
    · simp only [List.mem_cons, not_or] at hk
      exact lexed_of_kind (by simp [hk])
  | int h => exact ⟨fun hk => (by cases hk), fun _ => h, fun hk => (by cases hk)⟩
  | float h h' =>
    exact ⟨fun hk => (by cases hk), fun hk => (by cases hk), fun _ => ⟨_, _, rfl, h, h'⟩⟩
  | symbol hk =>
    have hsymbols : ∀ k ∈ symbols, k ∉ [TokenKind.ident, .int, .float] := by decide
    exact lexed_of_kind (hsymbols _ hk)
  | string => exact lexed_of_kind (by simp)

end Lexer

/-- **The tokens of a text look like tokens.** -/
theorem lexed_tokenize {text : Bytes} {toks : Tokens} (h : tokenize text = .ok toks) :
    ∀ t ∈ toks, t.val.Lexed := by
  obtain ⟨init, rfl, hinit⟩ := Lexer.covered_of_tokenize h
  refine List.forall_mem_append.mpr ⟨fun t ht => ((hinit.written t ht).slice []).lexed, ?_⟩
  exact List.forall_mem_singleton.mpr (Lexer.lexed_of_kind (by simp [Lexer.endToken]))

/-! ### String literals -/

namespace Lexer

/-- A byte of a string as it may be written in a literal: as itself, or with an escape sequence. -/
inductive Writes : UInt8 → Bytes → Prop
  | raw {b : UInt8} (h : b ∉ [Bytes.newline, 34, 92]) : Writes b [b]
  | escape {e b : UInt8} (h : (e, b) ∈ escapes) : Writes b [92, e]

lemma Spelled.exists_body (h : Spelled t lexeme) (hk : t.kind = .string) :
    ∃ body, lexeme = 34 :: (body ++ [34]) ∧ Bytes.newline ∉ body ∧ decode body = some t.text := by
  cases h with
  | word =>
    rcases wordKind_cases lexeme with hword | hword
    · cases hword.symm.trans hk
    · exact absurd (show wordKind lexeme = .string from hk) (by rintro h; simp [h] at hword)
  | int | float => cases hk
  | symbol hmem =>
    have hsymbols : ∀ k ∈ symbols, k ≠ .string := by decide
    exact absurd hk (hsymbols _ hmem)
  | string h => exact ⟨_, rfl, newline_notMem_of_decode h, h⟩

lemma exists_writes (b : UInt8) : ∃ w, Writes b w := by
  by_cases h : b ∈ [Bytes.newline, 34, 92]
  · simp only [List.mem_cons, List.not_mem_nil, or_false] at h
    rcases h with rfl | rfl | rfl
    · exact ⟨_, .escape (e := 110) (by decide)⟩
    · exact ⟨_, .escape (e := 34) (by decide)⟩
    · exact ⟨_, .escape (e := 92) (by decide)⟩
  · exact ⟨_, .raw h⟩

lemma decode_writes {b : UInt8} {w : Bytes} (h : Writes b w) (body : Bytes) :
    decode (w ++ body) = (decode body).map (b :: ·) := by
  cases h with
  | raw h =>
    rw [List.singleton_append, decode, if_neg h]
    exact fun e body' hb => absurd (by simp [hb]) h
  | escape h =>
    have hlookup : ∀ p ∈ escapes, escapes.lookup p.1 = some p.2 := by
      simp [escapes, List.lookup_cons]
    simp [decode, hlookup _ h]

lemma decode_flatten {s : Bytes} {ws : List Bytes} (h : List.Forall₂ Writes s ws) :
    decode ws.flatten = some s := by
  induction h with
  | nil => rfl
  | cons hw _ ih => rw [List.flatten_cons, decode_writes hw, ih, Option.map_some]

end Lexer

/-- **String literals.**  A string can be written between quotes, each byte as itself or, which
newlines, quotes and backslashes must be, with an escape sequence, and such a literal is read as one
token with the string for its text.  Whatever is read as a string literal, also in front of an
error, is a text between quotes without a newline, and its text is what the escape sequences make of
that. -/
theorem string_literals :
    (∀ s : Bytes, (∃ ws, List.Forall₂ Lexer.Writes s ws) ∧ ∀ ws, List.Forall₂ Lexer.Writes s ws →
      ∃ toks, tokenize (34 :: (ws.flatten ++ [34])) = .ok toks ∧
        toks.map Located.val = [⟨.string, s⟩, ⟨.eof, []⟩]) ∧
    ∀ text, ∀ t ∈ (Lexer.scan text).tokens, t.val.kind = .string → ∀ name,
      ∃ body, (SourceFile.mk name text).slice t.span = 34 :: (body ++ [34]) ∧
        Bytes.newline ∉ body ∧ Lexer.decode body = some t.val.text := by
  refine ⟨fun s => ⟨?_, fun ws hws => ?_⟩, fun text t ht hk name => ?_⟩
  · induction s with
    | nil => exact ⟨[], .nil⟩
    | cons b s ih =>
      obtain ⟨w, hw⟩ := Lexer.exists_writes b
      obtain ⟨ws, hws⟩ := ih
      exact ⟨w :: ws, .cons hw hws⟩
  · have hspelled := Lexer.Spelled.string (Lexer.decode_flatten hws)
    have hlaid : Lexer.Laid [] _ (34 :: (ws.flatten ++ [34]) ++ ([] ++ [])) :=
      .cons (hspelled.cut fun b hb => by cases hb) .nil .nil
    rw [List.append_nil, List.append_nil] at hlaid
    exact ⟨_, hlaid.tokenize_eq .nil, rfl⟩
  · have hne : t.val.kind ≠ .eof := by
      rw [hk]
      decide
    exact ((Lexer.written_of_mem_scan ht hne).slice name).exists_body hk

end Minilang
