import Minilang.Proofs.Token.Spelling
import Minilang.Source.File

/-!
# Tokens tile the text

The tokens of a text follow each other without overlapping, and what stands between them is white
space and comments.  The scanner works through the text from left to right: with a cursor behind
`before`, the tokens found so far tile `before`.  It skips a gap (`Gap`), and then reads a lexeme,
which is all in one line, so that the positions of its first and of its last byte follow from the
number of its bytes.

Where a text has no token at some place, the tokens in front of the place tile the text up to it.
-/

namespace Minilang

open List

/-! ### Positions -/

namespace Pos

variable (before : Bytes)

/-- The position behind a text.  Its column is the distance from the last newline of the text, where
the text itself counts as coming after a newline. -/
def behind : Pos :=
  ⟨before.length, 1 + before.count Bytes.newline,
    1 + (before.reverse.takeWhile (· ≠ Bytes.newline)).length⟩

lemma shift_shift (p : Pos) (m n : Nat) : (p.shift m).shift n = p.shift (m + n) := by
  simp [shift, add_assoc]

lemma behind_concat (b : UInt8) : behind (before ++ [b]) = (behind before).after b := by
  by_cases hb : b = Bytes.newline
  · subst hb
    simp [behind, after, add_assoc]
  · simp [behind, after, hb]
    omega

lemma behind_append {lexeme : Bytes} (h : Bytes.newline ∉ lexeme) :
    behind (before ++ lexeme) = (behind before).shift lexeme.length := by
  induction lexeme generalizing before with
  | nil => simp [shift]
  | cons b lexeme ih =>
    obtain ⟨hb, hlexeme⟩ := not_or.mp (mt mem_cons.mpr h)
    rw [← singleton_append, ← append_assoc, ih _ hlexeme, behind_concat, after, if_neg (Ne.symm hb)]
    simp [shift]
    omega

/-- The position has the line and the column of its offset. -/
def In (text : Bytes) (p : Pos) : Prop :=
  p = behind (text.take p.offset.toNat)

lemma in_behind (before rest : Bytes) : (behind before).In (before ++ rest) := by
  simp [In, behind]

lemma In.bounds {text : Bytes} {p : Pos} (h : p.In text) :
    0 ≤ p.offset ∧ p.offset ≤ text.length := by
  have hoffset : p.offset = (text.take p.offset.toNat).length := congrArg offset h
  have := length_take_le' p.offset.toNat text
  omega

end Pos

/-! ### Gaps -/

namespace Lexer

/-- White space and comments in front of `rest`.  A comment takes up the rest of its line. -/
inductive Gap (rest : Bytes) : Bytes → Prop where
  | nil : Gap rest []
  | space {b : UInt8} {gap : Bytes} (hb : isSpace b = true) (h : Gap rest gap) : Gap rest (b :: gap)
  | comment {body gap : Bytes} (hbody : Bytes.newline ∉ body)
    (hend : ∀ b ∈ (gap ++ rest).head?, b = Bytes.newline) (h : Gap rest gap) :
    Gap rest (47 :: 47 :: (body ++ gap))

/-- From outside of a comment a gap is skipped, and from inside of one first the rest of its line.
-/
theorem skipFrom_behind (text before : Bytes) : (∃ gap rest, text = gap ++ rest ∧ Gap rest gap ∧
      skipFrom false (.behind before) text = ⟨.behind (before ++ gap), rest⟩) ∧
    ∃ body gap rest, text = body ++ (gap ++ rest) ∧ Bytes.newline ∉ body ∧
      (∀ b ∈ (gap ++ rest).head?, b = Bytes.newline) ∧ Gap rest gap ∧
      skipFrom true (.behind before) text = ⟨.behind (before ++ (body ++ gap)), rest⟩ := by
  induction text generalizing before with
  | nil =>
    refine ⟨⟨[], [], rfl, .nil, ?_⟩, [], [], [], rfl, by simp, by simp, .nil, ?_⟩
    · rw [skipFrom, append_nil]
    · rw [skipFrom, append_nil, append_nil]
  | cons b text ih =>
    obtain ⟨⟨gap, rest, htext, hgap, hskip⟩, body, gap', rest', htext', hbody, hend,
        hgap', hskip'⟩ :=
      ih (before ++ [b])
    rw [Pos.behind_concat, append_assoc] at hskip hskip'
    constructor
    · rw [skipFrom, if_neg Bool.false_ne_true]
      split_ifs with hspace hslash
      · exact ⟨b :: gap, rest, by rw [htext, cons_append], .space hspace hgap, hskip⟩
      · -- The second slash is the first byte of the body.
        simp only [Bool.and_eq_true, decide_eq_true_eq] at hslash
        obtain ⟨rfl, hsecond⟩ := hslash
        obtain ⟨body, rfl⟩ : ∃ more, body = 47 :: more := by
          cases body with
          | nil =>
            rw [htext'] at hsecond
            exact absurd (hend 47 hsecond) (by decide)
          | cons c more =>
            rw [htext'] at hsecond
            exact ⟨more, by rw [Option.some.inj hsecond]⟩
        have hmore : Bytes.newline ∉ body := fun h => hbody (mem_cons_of_mem _ h)
        refine ⟨47 :: 47 :: (body ++ gap'), rest', ?_, .comment hmore hend hgap', hskip'⟩
        rw [htext']
        simp
      · exact ⟨[], b :: text, rfl, .nil, by rw [append_nil]⟩
    · rw [skipFrom]
      by_cases hb : b = Bytes.newline
      · subst hb
        refine ⟨[], Bytes.newline :: gap, rest, ?_, by simp, by simp, .space rfl hgap, ?_⟩
        · rw [htext, nil_append, cons_append]
        · simpa using hskip
      · refine ⟨b :: body, gap', rest', by rw [htext', cons_append], ?_, hend, hgap', ?_⟩
        · exact not_mem_cons_of_ne_of_not_mem (symm hb) hbody
        · simpa [hb] using hskip'

lemma skip_behind (text before : Bytes) : ∃ gap rest, text = gap ++ rest ∧ Gap rest gap ∧
    skip ⟨.behind before, text⟩ = ⟨.behind (before ++ gap), rest⟩ :=
  (skipFrom_behind text before).1

/-! ### Single tokens -/

lemma stringBody_unknownEscape {done text : Bytes} {n m : Nat} {e : UInt8}
    (h : stringBody done n text = .unknownEscape m e) :
    ∃ body, body ++ [92, e] <+: text ∧ Bytes.newline ∉ body ∧ m = n + body.length := by
  fun_induction stringBody done n text with
  | case1 | case2 | case3 | case4 => cases h
  | case5 done n e' rest v hv hline _ ih =>
    obtain ⟨body, hbody, hnot, rfl⟩ := ih h
    have he : Bytes.newline ≠ e' := by
      rintro rfl
      cases hv
    refine ⟨92 :: e' :: body, ?_, ?_, by simp; omega⟩
    · exact cons_prefix_cons.mpr ⟨rfl, cons_prefix_cons.mpr ⟨rfl, hbody⟩⟩
    · simp only [mem_cons, not_or]
      exact ⟨by decide, he, hnot⟩
  | case6 done n e' rest =>
    cases h
    exact ⟨[], by simp, by simp, rfl⟩
  | case7 done n b rest hline _ _ ih =>
    obtain ⟨body, hbody, hnot, rfl⟩ := ih h
    refine ⟨b :: body, cons_prefix_cons.mpr ⟨rfl, hbody⟩, ?_, by simp; omega⟩
    exact not_mem_cons_of_ne_of_not_mem (symm hline) hnot

/-- Where the error is reported if there is no token at a place: there or, if an escape sequence is
unknown, inside of the string literal that starts there. -/
inductive FailsAt (c : Cursor) : Located LexError → Prop where
  | here {e : LexError} : FailsAt c ⟨.point c.pos, e⟩
  | inside {body : Bytes} {b : UInt8} (hbody : 34 :: (body ++ [92, b]) <+: c.rest)
    (hline : Bytes.newline ∉ body) :
    FailsAt c ⟨.ofLength (c.pos.shift (1 + body.length)) 2, .unknownEscape b⟩

lemma tokenAt_error {c : Cursor} {e : Located LexError} (h : tokenAt c = .error e) :
    c.rest ≠ [] ∧ FailsAt c e := by
  obtain ⟨p, text⟩ := c
  cases text with
  | nil => cases h
  | cons b rest =>
    refine ⟨cons_ne_nil _ _, ?_⟩
    simp only [tokenAt] at h
    split_ifs at h with hletter hdigit hquote
    · cases h
    · cases h
    · rw [string] at h
      split at h
      · cases h
      · cases h
        exact .here
      · next n e' hbody =>
        obtain ⟨body, hstart, hline, rfl⟩ := stringBody_unknownEscape hbody
        cases h
        exact .inside (cons_prefix_cons.mpr ⟨hquote.symm, hstart⟩) hline
    · split at h
      · cases h
      · cases h
        exact .here

end Lexer

/-! ### Tilings -/

/-- The byte at an offset is in the span. -/
def Span.Covers (s : Span) (i : Nat) : Prop :=
  s.first.offset ≤ i ∧ i ≤ s.last.offset

variable (text : Bytes)

/-- The byte at an offset is white space or part of a comment: two slashes stand at it or in front
of it in the same line, and there is no token from there on. -/
def Blank (toks : Tokens) (i : Nat) : Prop :=
  text[i]?.any Lexer.isSpace = true ∨
    ∃ j ≤ i, text[j]? = some 47 ∧ text[j + 1]? = some 47 ∧
      ∀ k, j ≤ k → k ≤ i → text[k]? ≠ some Bytes.newline ∧ ∀ t ∈ toks, ¬t.span.Covers k

/-- Tokens of a text up to an offset: they follow each other without overlapping, there is nothing
but white space and comments between them, each has the text of its span for its own, unless it is a
string literal, and their positions have the lines and the columns of their offsets. -/
structure Tiled (text : Bytes) (stop : Nat) (toks : Tokens) : Prop where
  forward : ∀ t ∈ toks, t.span.first.offset ≤ t.span.last.offset
  apart : toks.Pairwise fun t u => t.span.last.offset < u.span.first.offset
  within : ∀ t ∈ toks, t.val.kind ≠ .eof → t.span.last.offset < stop
  blank : ∀ i < stop, (∀ t ∈ toks, ¬t.span.Covers i) → Blank text toks i
  slice : ∀ t ∈ toks, t.val.kind ≠ .string →
    ∀ name, (SourceFile.mk name text).slice t.span = t.val.text
  placed : ∀ t ∈ toks, t.span.first.In text ∧ t.span.last.In text

variable {i : Nat} {toks : Tokens} {t : Located Token} {gap : Bytes}

lemma Blank.shift (h : Blank gap [] i) (hi : i < gap.length) (before rest : Bytes)
    (htoks : ∀ t ∈ toks, ∀ k : Nat, before.length ≤ k → k < before.length + gap.length →
      ¬t.span.Covers k) : Blank (before ++ (gap ++ rest)) toks (before.length + i) := by
  have hget : ∀ k < gap.length, (before ++ (gap ++ rest))[before.length + k]? = gap[k]? := by
    intro k hk
    rw [getElem?_append_right (Nat.le_add_right _ _), Nat.add_sub_cancel_left,
      getElem?_append_left hk]
  obtain hspace | ⟨j, hj, hfirst, hsecond, hline⟩ := h
  · exact .inl (by rw [hget i hi, hspace])
  · have hj' : j + 1 < gap.length := (List.getElem?_eq_some_iff.mp hsecond).1
    refine .inr ⟨before.length + j, Nat.add_le_add_left hj _, ?_, ?_, fun k hk hki => ?_⟩
    · rw [hget j (by omega), hfirst]
    · rw [add_assoc, hget (j + 1) hj', hsecond]
    · obtain ⟨k, rfl⟩ := Nat.exists_eq_add_of_le (le_trans (Nat.le_add_right _ j) hk)
      rw [hget k (by omega)]
      exact ⟨(hline k (by omega) (by omega)).1, fun t ht => htoks t ht _ (by omega) (by omega)⟩

lemma Blank.concat {text : Bytes} (h : Blank text toks i)
    (ht : i < t.span.first.offset) : Blank text (toks ++ [t]) i := by
  obtain hspace | ⟨j, hj, hfirst, hsecond, hline⟩ := h
  · exact .inl hspace
  · refine .inr ⟨j, hj, hfirst, hsecond, fun k hk hki => ⟨(hline k hk hki).1, ?_⟩⟩
    refine forall_mem_append.mpr ⟨(hline k hk hki).2, forall_mem_singleton.mpr fun hcovers => ?_⟩
    have := hcovers.1
    omega

lemma Lexer.Gap.blank {rest : Bytes} (h : Gap rest gap) (hi : i < gap.length) : Blank gap [] i := by
  induction h generalizing i with
  | nil => cases hi
  | @space b gap hb h ih =>
    cases i with
    | zero => exact .inl hb
    | succ i =>
      have hi := Nat.lt_of_succ_lt_succ hi
      have hshift : Blank ([b] ++ (gap ++ [])) [] (1 + i) := (ih hi).shift hi [b] [] (by simp)
      rwa [append_nil, add_comm] at hshift
  | @comment body gap hbody hend h ih =>
    rcases lt_or_ge i (47 :: 47 :: body).length with hlt | hge
    · refine .inr ⟨0, Nat.zero_le i, rfl, rfl, fun k _ hk => ⟨fun hget => hbody ?_, by simp⟩⟩
      rw [← cons_append, ← cons_append, getElem?_append_left (by omega)] at hget
      have hmem : Bytes.newline ∈ 47 :: 47 :: body := mem_of_getElem? hget
      simpa [show Bytes.newline ≠ 47 by decide] using hmem
    · obtain ⟨i, rfl⟩ := Nat.exists_eq_add_of_le hge
      have hi : i < gap.length := by simp at hi; omega
      have hshift : Blank (47 :: 47 :: body ++ (gap ++ [])) [] ((47 :: 47 :: body).length + i) :=
        (ih hi).shift hi _ [] (by simp)
      rwa [append_nil] at hshift

/-! ### All tokens -/

lemma SourceFile.slice_eq {file : SourceFile} {before middle rest : Bytes}
    (htext : file.text = before ++ (middle ++ rest)) {s : Span}
    (hfirst : s.first.offset = before.length)
    (hlast : s.last.offset + 1 = before.length + middle.length) : file.slice s = middle := by
  have hbounds : ¬((decide (s.first.offset < 0) || decide
      ((file.text.length : Int) < s.first.offset)) = true) := by
    rw [htext]
    simp
    omega
  have hstop : (s.last.offset + 1).toNat = (before ++ middle).length := by
    rw [length_append]
    omega
  rw [slice, if_neg hbounds]
  simp only [hstop, hfirst, htext, Int.toNat_natCast]
  rw [← append_assoc, take_left, drop_left]

/-- A token that is written in a text where it is placed. -/
def Written (t : Located Token) : Prop :=
  ∃ before lexeme rest, text = before ++ (lexeme ++ rest) ∧ Lexer.Spelled t.val lexeme ∧
    t.span = .ofLength (.behind before) lexeme.length

namespace Written

variable {text : Bytes}

variable (h : Written text t)

include h

/-- Where a token begins, and where its last byte is. -/
theorem ends : ∃ before init b rest, text = before ++ (init ++ b :: rest) ∧
    Lexer.Spelled t.val (init ++ [b]) ∧ t.span = ⟨.behind before, .behind (before ++ init)⟩ := by
  obtain ⟨before, lexeme, rest, rfl, hspelled, hspan⟩ := h
  obtain ⟨init, b, rfl⟩ : ∃ init b, lexeme = init ++ [b] :=
    ⟨_, _, (dropLast_concat_getLast hspelled.ne_nil).symm⟩
  have hinit : Bytes.newline ∉ init := fun hmem => hspelled.line (mem_append_left _ hmem)
  refine ⟨before, init, b, rest, by simp, hspelled, ?_⟩
  rw [hspan, Pos.behind_append before hinit]
  simp [Span.ofLength]

lemma slice (name : Bytes) : Lexer.Spelled t.val ((SourceFile.mk name text).slice t.span) := by
  obtain ⟨before, init, b, rest, rfl, hspelled, hspan⟩ := h.ends
  have htext : before ++ (init ++ b :: rest) = before ++ ((init ++ [b]) ++ rest) := by simp
  rwa [SourceFile.slice_eq htext (by simp [hspan, Pos.behind])]
  simp [hspan, Pos.behind]
  omega

lemma forward : t.span.first.offset ≤ t.span.last.offset := by
  obtain ⟨before, init, b, rest, -, -, hspan⟩ := h.ends
  simp [hspan, Pos.behind]

lemma placed : t.span.first.In text ∧ t.span.last.In text := by
  obtain ⟨before, init, b, rest, rfl, -, hspan⟩ := h.ends
  rw [hspan]
  exact ⟨Pos.in_behind _ _, by simpa using Pos.in_behind (before ++ init) (b :: rest)⟩

end Written

/-- Tokens that are written in a text one after the other, with nothing but white space and comments
between them and up to an offset. -/
structure Covered (text : Bytes) (stop : Nat) (toks : Tokens) : Prop where
  written : ∀ t ∈ toks, Written text t
  apart : toks.Pairwise fun t u => t.span.last.offset < u.span.first.offset
  within : ∀ t ∈ toks, t.span.last.offset < stop
  blank : ∀ i < stop, (∀ t ∈ toks, ¬t.span.Covers i) → Blank text toks i

namespace Covered

variable {before lexeme rest text : Bytes} {stop : Nat}

lemma nil (text : Bytes) : Covered text 0 [] :=
  ⟨by simp, .nil, by simp, fun i hi => absurd hi (Nat.not_lt_zero i)⟩

lemma skip (h : Covered (before ++ (gap ++ rest)) before.length toks) (hgap : Lexer.Gap rest gap) :
    Covered (before ++ (gap ++ rest)) (before ++ gap).length toks := by
  refine ⟨h.written, h.apart, fun t ht => ?_, fun i hi hout => ?_⟩
  · have := h.within t ht
    rw [length_append]
    omega
  · rcases lt_or_ge i before.length with hlt | hge
    · exact h.blank i hlt hout
    · obtain ⟨i, rfl⟩ := Nat.exists_eq_add_of_le hge
      have hi : i < gap.length := by simp at hi; omega
      refine (hgap.blank hi).shift hi before rest fun t ht k hk _ hcovers => ?_
      have := h.within t ht
      have := hcovers.2
      omega

variable (h : Covered text stop toks)

include h

lemma pairwise_concat (ht : t.span.first.offset = stop) :
    (toks ++ [t]).Pairwise fun t u => t.span.last.offset < u.span.first.offset := by
  refine pairwise_append.mpr ⟨h.apart, pairwise_singleton _ _, fun u hu v hv => ?_⟩
  rw [mem_singleton.mp hv, ht]
  exact h.within u hu

omit h in
lemma token (h : Covered (before ++ (lexeme ++ rest)) before.length toks)
    (hspelled : Lexer.Spelled t.val lexeme)
    (hspan : t.span = .ofLength (.behind before) lexeme.length) :
    Covered (before ++ (lexeme ++ rest)) (before ++ lexeme).length (toks ++ [t]) := by
  have hfirst : t.span.first.offset = before.length := by rw [hspan]; rfl
  have hlast : t.span.last.offset + 1 = (before ++ lexeme).length := by
    have := length_pos_of_ne_nil hspelled.ne_nil
    simp [hspan, Span.ofLength, Pos.shift, Pos.behind]
    omega
  have hlength : (before ++ lexeme).length = before.length + lexeme.length := length_append
  refine ⟨?_, h.pairwise_concat hfirst, ?_, fun i hi hout => ?_⟩
  · refine forall_mem_append.mpr ⟨h.written, forall_mem_singleton.mpr ?_⟩
    exact ⟨before, lexeme, rest, rfl, hspelled, hspan⟩
  · refine forall_mem_append.mpr ⟨fun u hu => ?_, forall_mem_singleton.mpr (by omega)⟩
    have := h.within u hu
    omega
  · obtain ⟨htoks, ht⟩ := forall_mem_append.mp hout
    rcases lt_or_ge i before.length with hlt | hge
    · exact (h.blank i hlt htoks).concat (by omega)
    · exact absurd ⟨by omega, by omega⟩ (ht t mem_cons_self)

lemma kind_ne_eof : ∀ t ∈ toks, t.val.kind ≠ .eof :=
  fun t ht => (h.written t ht).choose_spec.choose_spec.choose_spec.2.1.kind_ne_eof

lemma tiled : Tiled text stop toks where
  forward t ht := (h.written t ht).forward
  apart := h.apart
  within t ht _ := h.within t ht
  blank := h.blank
  slice t ht hk name := (((h.written t ht).slice name).text_eq hk).symm
  placed t ht := (h.written t ht).placed

end Covered

namespace Lexer

/-- The end of the text, at the offset behind its last byte. -/
def endToken (text : Bytes) : Located Token :=
  ⟨.point (.behind text), ⟨.eof, []⟩⟩

lemma tiled_endToken {text : Bytes} (h : Covered text text.length toks) :
    Tiled text text.length (toks ++ [endToken text]) := by
  have hplaced : (Pos.behind text).In text := by simpa using Pos.in_behind text []
  have hall : ∀ {Q : Located Token → Prop}, (∀ u ∈ toks, Q u) → Q (endToken text) →
      ∀ u ∈ toks ++ [endToken text], Q u := fun htoks ht =>
    forall_mem_append.mpr ⟨htoks, forall_mem_singleton.mpr ht⟩
  refine ⟨hall h.tiled.forward (le_refl _), h.pairwise_concat rfl, hall h.tiled.within ?_,
    fun i hi hout => ?_, hall h.tiled.slice ?_, hall h.tiled.placed ⟨hplaced, hplaced⟩⟩
  · exact fun hk => absurd rfl hk
  · exact (h.blank i hi (forall_mem_append.mp hout).1).concat (Int.ofNat_lt.mpr hi)
  · intro _ name
    simp [SourceFile.slice, endToken, Span.point, Pos.behind]

/-- The tokens that a scan gives are written in the text up to its end or to the place where it
fails. -/
structure Scan.Tiles (scan : Scan) (text : Bytes) : Prop where
  success : scan.error? = none →
    ∃ toks, scan.tokens = toks ++ [endToken text] ∧ Covered text text.length toks
  failure : ∀ e, scan.error? = some e → ∃ before rest, text = before ++ rest ∧
    Covered text before.length scan.tokens ∧ FailsAt ⟨.behind before, rest⟩ e

lemma scanFrom_tiles {n : Nat} {before rest : Bytes} {done : Tokens}
    (hn : rest.length < n) (hdone : Covered (before ++ rest) before.length done.reverse) :
    (scanFrom n done ⟨.behind before, rest⟩).Tiles (before ++ rest) := by
  induction n generalizing before rest done with
  | zero => exact absurd hn (Nat.not_lt_zero _)
  | succ n ih =>
    obtain ⟨gap, rest, rfl, hgap, hskip⟩ := skip_behind rest before
    replace hdone := hdone.skip hgap
    rw [← append_assoc] at hdone ⊢
    rw [scanFrom, next, hskip]
    generalize before ++ gap = before at hdone ⊢
    cases htoken : tokenAt ⟨.behind before, rest⟩ with
    | error e =>
      refine ⟨fun h => (by cases h), fun e' he => ?_⟩
      cases he
      exact ⟨before, rest, rfl, hdone, (tokenAt_error htoken).2⟩
    | ok r =>
      obtain ⟨t, c⟩ := r
      cases rest with
      | nil =>
        cases htoken
        rw [append_nil] at hdone ⊢
        simp only [reverse_cons]
        exact ⟨fun _ => ⟨_, rfl, hdone⟩, fun e he => by cases he⟩
      | cons b rest =>
        obtain ⟨lexeme, ht, rfl⟩ := tokenAt_ok (cons_ne_nil b rest) htoken
        obtain ⟨rest', (hrest : lexeme ++ rest' = b :: rest)⟩ := ht.start
        have hpos := length_pos_of_ne_nil ht.spelled.ne_nil
        simp only [if_neg ht.spelled.kind_ne_eof, Cursor.advance]
        rw [← Pos.behind_append before ht.spelled.line, ← hrest, drop_left, ← append_assoc]
        rw [← hrest] at hdone hn
        refine ih ?_ ?_
        · simp only [length_append] at hn
          omega
        · rw [reverse_cons, append_assoc]
          exact hdone.token ht.spelled ht.span

lemma scan_tiles (text : Bytes) : (scan text).Tiles text :=
  @scanFrom_tiles _ [] text [] (Nat.lt_succ_self _) (Covered.nil text)

lemma written_of_mem_scan {text : Bytes} (ht : t ∈ (scan text).tokens)
    (hk : t.val.kind ≠ .eof) : Written text t := by
  cases herror : (scan text).error? with
  | none =>
    obtain ⟨init, htoks, hinit⟩ := (scan_tiles text).success herror
    rw [htoks] at ht
    refine hinit.written t ((mem_append.mp ht).resolve_right fun hend => hk ?_)
    rw [mem_singleton.mp hend]
    rfl
  | some e =>
    obtain ⟨_, _, -, hdone, -⟩ := (scan_tiles text).failure e herror
    exact hdone.written t ht

lemma covered_of_tokenize {text : Bytes} (h : tokenize text = .ok toks) :
    ∃ init, toks = init ++ [endToken text] ∧ Covered text text.length init := by
  simp only [tokenize] at h
  split at h
  · cases h
  · next herror =>
    rw [← Except.ok.inj h]
    exact (scan_tiles text).success herror

lemma FailsAt.placed {before rest : Bytes} {e : Located LexError}
    (h : FailsAt ⟨.behind before, rest⟩ e) :
    e.span.first.In (before ++ rest) ∧ e.span.last.In (before ++ rest) := by
  cases h with
  | here => exact ⟨Pos.in_behind before rest, Pos.in_behind before rest⟩
  | @inside body b hbody hline =>
    obtain ⟨more, rfl⟩ := hbody
    have hquote : Bytes.newline ∉ 34 :: body := not_mem_cons_of_ne_of_not_mem (by decide) hline
    have hslash : Bytes.newline ∉ 34 :: (body ++ [92]) := by
      rw [← cons_append, mem_append, not_or]
      exact ⟨hquote, by decide⟩
    have hfirst := Pos.in_behind (before ++ 34 :: body) (92 :: b :: more)
    have hlast := Pos.in_behind (before ++ 34 :: (body ++ [92])) (b :: more)
    rw [Pos.behind_append before hquote] at hfirst
    rw [Pos.behind_append before hslash] at hlast
    constructor
    · simpa [Span.ofLength, add_comm] using hfirst
    · simpa [Span.ofLength, Pos.shift_shift, add_comm 1] using hlast

end Lexer

/-- **Tokens tile the text.**  The tokens of a text tile it up to its end, and the last of them is
the end of the text.  If there is no token at some place, then the tokens read before tile the text
up to that place, and the error is reported there or inside of the string literal that starts there.
-/
theorem tokens_tile : match tokenize text with
    | .ok toks => Tiled text text.length toks ∧
      ∃ init, toks = init ++ [Lexer.endToken text] ∧ ∀ t ∈ init, t.val.kind ≠ .eof
    | .error e => ∃ before rest, text = before ++ rest ∧
      Tiled text before.length (Lexer.scan text).tokens ∧
      (∀ t ∈ (Lexer.scan text).tokens, t.val.kind ≠ .eof) ∧
      Lexer.FailsAt ⟨.behind before, rest⟩ e ∧ e.span.first.In text ∧ e.span.last.In text := by
  cases h : tokenize text with
  | ok toks =>
    obtain ⟨init, rfl, hinit⟩ := Lexer.covered_of_tokenize h
    exact ⟨Lexer.tiled_endToken hinit, init, rfl, hinit.kind_ne_eof⟩
  | error e =>
    simp only [tokenize] at h
    split at h
    · next e' herror =>
      obtain ⟨before, rest, htext, hdone, hfails⟩ := (Lexer.scan_tiles text).failure e' herror
      rw [← Except.error.inj h]
      refine ⟨before, rest, htext, hdone.tiled, hdone.kind_ne_eof, hfails, ?_⟩
      rw [htext]
      exact hfails.placed
    · cases h

end Minilang
