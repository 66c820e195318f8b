import Mathlib.Tactic.FinCases
import Minilang.Proofs.Text.Decimal
import Minilang.Token.Lexer

/-!
# How tokens are written

`Spelled` says what a token is written as: a word, digits, an operator, or a string literal with its
value.  Whatever the lexer reads is written so (`tokenAt_ok`), and it reads a token from what it is
written as wherever the text then ends or goes on with white space (`Spelled.cut`): no token
needs to see more than that of what follows.
-/

namespace Minilang

open List

/-- One digit or more. -/
def Digits (text : Bytes) : Prop :=
  text ≠ [] ∧ Decimal.AllDigits text

namespace Lexer

/-- Whether a text is a word: a letter, and then letters and digits. -/
def isWord (text : Bytes) : Bool :=
  text.head?.any isLetter && text.all isWordByte

/-- Whether a text is a name: a word that is not a keyword. -/
def isName (text : Bytes) : Bool :=
  isWord text && wordKind text = .ident

/-- The bytes that stand for others after a backslash. -/
def escapes : List (UInt8 × UInt8) :=
  [(110, 10), (116, 9), (114, 13), (48, 0), (92, 92), (34, 34)]

/-- The value of what stands between the quotes of a string literal. -/
def decode : Bytes → Option Bytes
  | [] => some []
  | 92 :: e :: body => (escapes.lookup e).bind fun v => (decode body).map (v :: ·)
  | b :: body => if b ∈ [Bytes.newline, 34, 92] then none else (decode body).map (b :: ·)

/-- A token that is written as the given text. -/
inductive Spelled : Token → Bytes → Prop
  | word {text} (h : isWord text = true) : Spelled ⟨wordKind text, text⟩ text
  | int {ds} (h : Digits ds) : Spelled ⟨.int, ds⟩ ds
  | float {ds ds'} (h : Digits ds) (h' : Digits ds') :
    Spelled ⟨.float, ds ++ 46 :: ds'⟩ (ds ++ 46 :: ds')
  | symbol {k} (h : k ∈ symbols) : Spelled ⟨k, k.text⟩ k.text
  | string {body value} (h : decode body = some value) :
    Spelled ⟨.string, value⟩ (34 :: (body ++ [34]))

/-- The text has ended, or white space follows. -/
abbrev Apart (rest : Bytes) : Prop :=
  ∀ b ∈ rest.head?, isSpace b = true

/-- A token that is read from what it is written as if the given text follows. -/
structure Cut (t : Token) (lexeme rest : Bytes) : Prop where
  spelled : Spelled t lexeme
  slash : rest.head? ≠ some 47
  tokenAt : ∀ p, tokenAt ⟨p, lexeme ++ rest⟩ = token ⟨p, lexeme ++ rest⟩ t.kind t.text lexeme.length

variable {text rest ds ds' body value lexeme : Bytes} {b : UInt8} {t : Token}
  {k : TokenKind} {p : Pos}

/-! ### Words -/

lemma of_isLetter (h : isLetter b = true) :
    isSpace b = false ∧ b ≠ 47 ∧ Decimal.isDigit b = false := by
  rw [← Bool.not_eq_true (Decimal.isDigit b), Decimal.isDigit_iff]
  simp only [isLetter, isSpace, Bool.or_eq_true, Bool.and_eq_true, decide_eq_true_eq,
    Bool.or_eq_false_iff, decide_eq_false_iff_not, ne_eq, UInt8.le_iff_toNat_le, ← UInt8.toNat_inj,
    UInt8.reduceToNat] at h ⊢
  omega

lemma of_isDigit (h : Decimal.isDigit b = true) :
    isSpace b = false ∧ b ≠ 47 ∧ isLetter b = false ∧ b ≠ 46 := by
  have hletter : isLetter b = false := Bool.eq_false_iff.mpr fun hb => by simp [of_isLetter hb] at h
  rw [Decimal.isDigit_iff] at h
  simp only [isSpace, hletter, Bool.or_eq_false_iff, decide_eq_false_iff_not, ne_eq,
    ← UInt8.toNat_inj, UInt8.reduceToNat, true_and]
  omega

lemma not_isWordByte_of_isSpace (h : isSpace b = true) : isWordByte b = false := by
  refine Bool.eq_false_iff.mpr fun hb => ?_
  rcases Bool.or_eq_true_iff.mp hb with hb | hb
  · simp [of_isLetter hb] at h
  · simp [of_isDigit hb] at h

lemma exists_of_isWord (h : isWord text = true) :
    ∃ b rest, text = b :: rest ∧ isLetter b = true := by
  cases text with
  | nil => cases h
  | cons b rest =>
    simp only [isWord, Bool.and_eq_true] at h
    exact ⟨b, rest, rfl, h.1⟩

lemma takeWhile_append {q : UInt8 → Bool} (htext : ∀ b ∈ text, q b = true)
    (hrest : ∀ b ∈ rest.head?, q b = false) :
    (text ++ rest).takeWhile q = text ∧ (text ++ rest).dropWhile q = rest := by
  rw [takeWhile_append_of_pos htext, dropWhile_append_of_pos htext]
  cases rest with
  | nil => simp
  | cons b rest => simp [hrest b rfl]

lemma tokenAt_word (h : isWord text = true) (hrest : ∀ b ∈ rest.head?, isWordByte b = false)
    (p : Pos) : tokenAt ⟨p, text ++ rest⟩ = token ⟨p, text ++ rest⟩ (wordKind text) text
    text.length := by
  have hall : ∀ b ∈ text, isWordByte b = true := by
    simp only [isWord, Bool.and_eq_true, all_eq_true] at h
    exact h.2
  obtain ⟨b, more, rfl, hletter⟩ := exists_of_isWord h
  simp only [tokenAt, cons_append, hletter, if_true]
  rw [← cons_append, (takeWhile_append hall hrest).1]

lemma isWord_takeWhile (hb : isLetter b = true) (rest : Bytes) :
    isWord ((b :: rest).takeWhile isWordByte) = true := by
  have hword : (b :: rest).takeWhile isWordByte = b :: rest.takeWhile isWordByte :=
    takeWhile_cons_of_pos (by rw [isWordByte, hb, Bool.true_or])
  rw [isWord, all_takeWhile, hword, head?_cons, Option.any_some, hb, Bool.true_and]

lemma wordKind_cases (word : Bytes) :
    wordKind word = .ident ∨ wordKind word ∉ [TokenKind.ident, .int, .float, .string, .eof] := by
  unfold wordKind
  cases hfind : TokenKind.keywords.find? fun k => k.text = word with
  | none => exact .inl rfl
  | some k =>
    have hkeywords : ∀ k ∈ TokenKind.keywords,
      k ∉ [TokenKind.ident, .int, .float, .string, .eof] := by decide
    exact .inr (hkeywords k (mem_of_find?_eq_some hfind))

/-! ### Numbers -/

lemma numberText_int (h : Digits ds)
    (hrest : ∀ b ∈ rest.head?, Decimal.isDigit b = false ∧ b ≠ 46) :
    numberText (ds ++ rest) = (.int, ds) := by
  obtain ⟨htake, hdrop⟩ := takeWhile_append h.2 fun b hb => (hrest b hb).1
  simp only [numberText, htake, hdrop]
  split
  · exact absurd rfl (hrest 46 rfl).2
  · rfl

lemma numberText_float (h : Digits ds) (h' : Digits ds')
    (hrest : ∀ b ∈ rest.head?, Decimal.isDigit b = false) :
    numberText (ds ++ 46 :: (ds' ++ rest)) = (.float, ds ++ 46 :: ds') := by
  have hpoint : ∀ b ∈ (46 :: (ds' ++ rest)).head?, Decimal.isDigit b = false :=
    fun b hb => by cases hb; rfl
  obtain ⟨htake, hdrop⟩ := takeWhile_append h.2 hpoint
  obtain ⟨d, more, rfl⟩ := exists_cons_of_ne_nil h'.1
  have hd : Decimal.isDigit d = true := h'.2 d mem_cons_self
  rw [numberText, htake, hdrop]
  simp only [cons_append, hd, if_true]
  rw [← cons_append, (takeWhile_append h'.2 hrest).1]

lemma tokenAt_number (hb : Decimal.isDigit b = true) (h : numberText (b :: rest) = (k, lexeme))
    (p : Pos) : tokenAt ⟨p, b :: rest⟩ = token ⟨p, b :: rest⟩ k lexeme lexeme.length := by
  simp [tokenAt, of_isDigit hb, hb, h]

lemma digits_takeWhile (rest : Bytes) (h : Decimal.isDigit b = true) :
    Digits ((b :: rest).takeWhile Decimal.isDigit) := by
  refine ⟨?_, all_eq_true.mp all_takeWhile⟩
  rw [takeWhile_cons_of_pos h]
  exact cons_ne_nil _ _

lemma numberText_spelled (hb : Decimal.isDigit b = true) (rest : Bytes) :
    Spelled ⟨(numberText (b :: rest)).1, (numberText (b :: rest)).2⟩ (numberText (b :: rest)).2 ∧
      (numberText (b :: rest)).2 <+: b :: rest := by
  have hwhole := digits_takeWhile rest hb
  have hcut := takeWhile_append_dropWhile (p := Decimal.isDigit) (l := b :: rest)
  simp only [numberText]
  split
  · next d more hdrop =>
    split_ifs with hd
    · refine ⟨.float hwhole (digits_takeWhile more hd), ?_⟩
      conv_rhs => rw [← hcut, hdrop]
      exact (prefix_append_right_inj _).mpr (cons_prefix_cons.mpr ⟨rfl, takeWhile_prefix _⟩)
    · exact ⟨.int hwhole, takeWhile_prefix _⟩
  · exact ⟨.int hwhole, takeWhile_prefix _⟩

/-! ### String literals -/

lemma escape?_eq (e : UInt8) : escape? e = escapes.lookup e := by
  unfold escape?
  split <;> try rfl
  exact (lookup_eq_none_iff.mpr (by simp_all [escapes])).symm

lemma stringBody_decode (h : decode body = some value) (rest done : Bytes) (n : Nat) :
    stringBody done n (body ++ 34 :: rest) = .closed (done.reverse ++ value)
    (n + body.length + 1) := by
  fun_induction decode body generalizing value done n with
  | case1 =>
    cases h
    unfold stringBody
    simp [Bytes.newline]
  | case2 e body ih =>
    obtain ⟨v, hv, h⟩ := Option.bind_eq_some_iff.mp h
    obtain ⟨value, hvalue, rfl⟩ := Option.map_eq_some_iff.mp h
    rw [cons_append, cons_append, stringBody]
    simp only [escape?_eq, hv, ih hvalue]
    simp [Bytes.newline]
    omega
  | case3 => cases h
  | case4 b body _ hb ih =>
    obtain ⟨value, hvalue, rfl⟩ := Option.map_eq_some_iff.mp h
    simp only [mem_cons, not_or] at hb
    unfold stringBody
    simp only [cons_append, hb, ih hvalue]
    simp
    omega

lemma decode_stringBody {done : Bytes} {n m : Nat} (h : stringBody done n text = .closed value m) :
    ∃ body v, body ++ [34] <+: text ∧ decode body = some v ∧ value = done.reverse ++ v ∧
      m = n + body.length + 1 := by
  fun_induction stringBody done n text with
  | case1 | case2 | case4 | case6 => cases h
  | case3 done n rest hquote =>
    cases h
    exact ⟨[], [], by simp, rfl, by simp, rfl⟩
  | case5 done n e rest v hv hline _ ih =>
    obtain ⟨body, u, hbody, hu, rfl, rfl⟩ := ih h
    refine ⟨92 :: e :: body, v :: u, ?_, ?_, by simp, by simp; omega⟩
    · exact cons_prefix_cons.mpr ⟨rfl, cons_prefix_cons.mpr ⟨rfl, hbody⟩⟩
    · rw [decode, ← escape?_eq, hv, hu]
      rfl
  | case7 done n b rest hline hquote hslash ih =>
    obtain ⟨body, u, hbody, hu, rfl, rfl⟩ := ih h
    refine ⟨b :: body, b :: u, cons_prefix_cons.mpr ⟨rfl, hbody⟩, ?_, by simp, by simp; omega⟩
    rw [decode, if_neg (by simp [hline, hquote, hslash]), hu]
    · rfl
    · exact fun e body' hb => absurd hb hslash

lemma newline_notMem_of_decode (h : decode body = some value) : Bytes.newline ∉ body := by
  fun_induction decode body generalizing value with
  | case1 => simp
  | case2 e body ih =>
    obtain ⟨v, hv, h⟩ := Option.bind_eq_some_iff.mp h
    obtain ⟨value, hvalue, rfl⟩ := Option.map_eq_some_iff.mp h
    have he : Bytes.newline ≠ e := by
      rintro rfl
      cases hv
    simp only [mem_cons, not_or]
    exact ⟨by decide, he, ih hvalue⟩
  | case3 => cases h
  | case4 b body _ hb ih =>
    obtain ⟨value, hvalue, rfl⟩ := Option.map_eq_some_iff.mp h
    simp only [mem_cons, not_or] at hb ⊢
    exact ⟨Ne.symm hb.1, ih hvalue⟩

/-! ### All tokens -/

namespace Spelled

section

variable (h : Spelled t lexeme)

include h

lemma kind_ne_eof : t.kind ≠ .eof := by
  cases h with
  | word h =>
    rcases wordKind_cases lexeme with hk | hk
    · simp [hk]
    · rintro (heof : wordKind lexeme = .eof)
      simp [heof] at hk
  | int | float | string => simp
  | symbol hk =>
    have hsymbols : ∀ k ∈ symbols, k ≠ .eof := by decide
    exact hsymbols _ hk

lemma text_eq (hk : t.kind ≠ .string) : t.text = lexeme := by
  cases h with
  | string => exact absurd rfl hk
  | _ => rfl

/-- A token begins with no white space, and with a slash only if it is one. -/
theorem head : ∃ b more, lexeme = b :: more ∧ isSpace b = false ∧ (b = 47 → more = []) := by
  cases h with
  | word h =>
    obtain ⟨b, more, rfl, hb⟩ := exists_of_isWord h
    exact ⟨b, more, rfl, (of_isLetter hb).1, fun h => absurd h (of_isLetter hb).2.1⟩
  | int h | float h =>
    obtain ⟨d, more, rfl⟩ := exists_cons_of_ne_nil h.1
    have hd := of_isDigit (h.2 d mem_cons_self)
    exact ⟨d, _, rfl, hd.1, fun h => absurd h hd.2.1⟩
  | @symbol k hk =>
    have hsymbols : ∀ k ∈ symbols, k.text.head?.any
        (fun b => !isSpace b && (b ≠ 47 || k.text.tail = [])) := by
      decide
    have hk := hsymbols k hk
    cases htext : k.text with
    | nil => simp [htext] at hk
    | cons b more =>
      simp only [htext, head?_cons, Option.any_some, Bool.and_eq_true, Bool.not_eq_true',
        Bool.or_eq_true, decide_eq_true_eq] at hk
      exact ⟨b, more, rfl, hk.1, fun hb => hk.2.resolve_left (not_not.mpr hb)⟩
  | string h => exact ⟨34, _, rfl, rfl, fun h => absurd h (by decide)⟩

lemma ne_nil : lexeme ≠ [] := by
  obtain ⟨b, more, rfl, -⟩ := h.head
  exact cons_ne_nil _ _

lemma line : Bytes.newline ∉ lexeme := by
  have hdigits : ∀ {ds}, Digits ds → Bytes.newline ∉ ds := fun h hmem => by cases h.2 _ hmem
  cases h with
  | word h =>
    simp only [isWord, Bool.and_eq_true, all_eq_true] at h
    exact fun hmem => by cases h.2 _ hmem
  | int h => exact hdigits h
  | float h h' =>
    simp only [mem_append, mem_cons, not_or]
    exact ⟨hdigits h, by decide, hdigits h'⟩
  | symbol hk =>
    have hsymbols : ∀ k ∈ symbols, Bytes.newline ∉ k.text := by decide
    exact hsymbols _ hk
  | string h =>
    simp only [mem_append, mem_cons, not_or]
    exact ⟨by decide, newline_notMem_of_decode h, by decide⟩

end

lemma symbol?_text (hk : k ∈ symbols) (hrest : Apart rest) : symbol? (k.text ++ rest) = some k := by
  cases rest with
  | nil => fin_cases hk <;> rfl
  | cons b rest =>
    have hb := hrest b rfl
    simp only [isSpace, Bool.or_eq_true, decide_eq_true_eq] at hb
    rcases hb with ((rfl | rfl) | rfl) | rfl <;> fin_cases hk <;> rfl

lemma tokenAt_symbol (hk : k ∈ symbols) (hsymbol : symbol? (k.text ++ rest) = some k) (p : Pos) :
    tokenAt ⟨p, k.text ++ rest⟩ = token ⟨p, k.text ++ rest⟩ k k.text k.text.length := by
  have hfirst : ∀ k ∈ symbols, k.text.head?.any (fun b =>
      !isLetter b && !Decimal.isDigit b && b ≠ 34) = true := by decide
  have hfirst := hfirst k hk
  cases htext : k.text with
  | nil => rw [htext] at hfirst; cases hfirst
  | cons b more =>
    simp only [htext, head?_cons, Option.any_some, Bool.and_eq_true, Bool.not_eq_true',
      decide_eq_true_eq] at hfirst
    obtain ⟨⟨hletter, hdigit⟩, hquote⟩ := hfirst
    rw [htext] at hsymbol
    simp only [tokenAt, cons_append, hletter, hdigit, hquote]
    rw [← cons_append, hsymbol]
    simp [htext]

lemma cut_int (h : Digits ds)
    (hrest : ∀ b ∈ rest.head?, Decimal.isDigit b = false ∧ b ≠ 46 ∧ b ≠ 47) :
    Cut ⟨.int, ds⟩ ds rest := by
  refine ⟨.int h, fun hb => (hrest 47 hb).2.2 rfl, fun p => ?_⟩
  have hnumber := numberText_int h fun b hb => ⟨(hrest b hb).1, (hrest b hb).2.1⟩
  obtain ⟨d, more, rfl⟩ := exists_cons_of_ne_nil h.1
  exact tokenAt_number (h.2 d mem_cons_self) hnumber p

lemma cut_float (h : Digits ds) (h' : Digits ds')
    (hrest : ∀ b ∈ rest.head?, Decimal.isDigit b = false ∧ b ≠ 47) :
    Cut ⟨.float, ds ++ 46 :: ds'⟩ (ds ++ 46 :: ds') rest := by
  refine ⟨.float h h', fun hb => (hrest 47 hb).2 rfl, fun p => ?_⟩
  have hnumber := numberText_float h h' fun b hb => (hrest b hb).1
  obtain ⟨d, more, rfl⟩ := exists_cons_of_ne_nil h.1
  have heq : d :: more ++ 46 :: ds' ++ rest = d :: (more ++ 46 :: (ds' ++ rest)) := by simp
  rw [heq]
  exact tokenAt_number (h.2 d mem_cons_self) hnumber p

/-- **A token is read from what it is written as if it stands apart.** -/
theorem cut (h : Spelled t lexeme) (hrest : Apart rest) : Cut t lexeme rest := by
  have hword : ∀ b ∈ rest.head?, isWordByte b = false :=
    fun b hb => not_isWordByte_of_isSpace (hrest b hb)
  have hdigit : ∀ b ∈ rest.head?, Decimal.isDigit b = false :=
    fun b hb => (Bool.or_eq_false_iff.mp (hword b hb)).2
  have hslash : ∀ b ∈ rest.head?, b ≠ 46 ∧ b ≠ 47 := by
    intro b hb
    have hspace := hrest b hb
    constructor <;> rintro rfl <;> cases hspace
  have hnot : rest.head? ≠ some 47 := fun hb => (hslash 47 hb).2 rfl
  cases h with
  | word h => exact ⟨.word h, hnot, tokenAt_word h hword⟩
  | int h => exact cut_int h fun b hb => ⟨hdigit b hb, hslash b hb⟩
  | float h h' => exact cut_float h h' fun b hb => ⟨hdigit b hb, (hslash b hb).2⟩
  | symbol hk => exact ⟨.symbol hk, hnot, tokenAt_symbol hk (symbol?_text hk hrest)⟩
  | @string body value h =>
    refine ⟨.string h, hnot, fun p => ?_⟩
    have hbody := stringBody_decode h rest [] 1
    have heq : 34 :: (body ++ [34]) ++ rest = 34 :: (body ++ 34 :: rest) := by simp
    have hlength : 1 + body.length + 1 = (34 :: (body ++ [34])).length := by simp; omega
    rw [heq]
    simp only [tokenAt, Lexer.string, drop_one, tail_cons, hbody, hlength]
    rfl

end Spelled

lemma Cut.skip (h : Cut t lexeme rest) (p : Pos) :
    skipFrom false p (lexeme ++ rest) = ⟨p, lexeme ++ rest⟩ := by
  obtain ⟨b, more, rfl, hspace, hslash⟩ := h.spelled.head
  rw [cons_append, skipFrom, if_neg (by simp), if_neg (by simp [hspace]), if_neg]
  simp only [Bool.and_eq_true, decide_eq_true_eq, not_and]
  intro hb hhead
  rw [hslash hb] at hhead
  exact h.slash hhead

/-- A token at a place, where it is written as the given text. -/
structure IsAt (c : Cursor) (lexeme : Bytes) (t : Located Token) : Prop where
  start : lexeme <+: c.rest
  spelled : Spelled t.val lexeme
  span : t.span = .ofLength c.pos lexeme.length

/-- **Whatever is read is written as a token.** -/
theorem tokenAt_ok {c c' : Cursor} {t : Located Token} (hc : c.rest ≠ [])
    (h : tokenAt c = .ok (t, c')) : ∃ lexeme, IsAt c lexeme t ∧ c' = c.advance lexeme.length := by
  have htoken : ∀ {kind text lexeme}, lexeme <+: c.rest →
      Spelled ⟨kind, text⟩ lexeme → token c kind text lexeme.length = .ok (t, c') →
      ∃ lexeme, IsAt c lexeme t ∧ c' = c.advance lexeme.length := by
    intro kind text lexeme hstart hspelled heq
    cases heq
    exact ⟨lexeme, ⟨hstart, hspelled, rfl⟩, rfl⟩
  obtain ⟨p, text⟩ := c
  cases text with
  | nil => exact absurd rfl hc
  | cons b rest =>
    simp only [tokenAt] at h
    split_ifs at h with hletter hdigit hquote
    · refine htoken ?_ (.word (isWord_takeWhile hletter rest)) h
      exact takeWhile_prefix _
    · obtain ⟨hspelled, hstart⟩ := numberText_spelled hdigit rest
      exact htoken hstart hspelled h
    · rw [string] at h
      split at h
      · next value n hbody =>
        obtain ⟨body, v, hstart, hv, rfl, rfl⟩ := decode_stringBody hbody
        have hlength : 1 + body.length + 1 = (34 :: (body ++ [34])).length := by simp; omega
        rw [hlength] at h
        exact htoken (cons_prefix_cons.mpr ⟨hquote.symm, hstart⟩) (.string hv) h
      · cases h
      · cases h
    · split at h
      · next kind hsymbol =>
        have hstart := find?_some hsymbol
        refine htoken ?_ (.symbol (mem_of_find?_eq_some hsymbol)) h
        exact isPrefixOf_iff_prefix.mp hstart
      · cases h

end Lexer

end Minilang
