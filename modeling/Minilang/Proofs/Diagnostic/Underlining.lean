import Minilang.Diagnostic.Render
import Minilang.Proofs.Tree.Spans

/-!
# Reports underline what they are about

A report about a token or about a node that is all in one line shows that line, and below it as many
marks as the reported text has bytes, in the columns of these bytes.  The positions of the lexer are
counted on the bytes in front of them (`Pos.behind`), the lines of a file are cut at its newlines
and then lose their carriage returns (`SourceFile.isLine_line`).  The two agree on a reported text
since it does not end with white space.
-/

namespace Minilang

open List

/-! ### Lines -/

variable {file : SourceFile} {front rest : Bytes} {b : UInt8}

namespace SourceFile

/-- A line of a text: it begins behind a newline or at the start of the text, it has as many
newlines in front of it as its number says, and carriage returns and then a newline or the end of
the text follow it. -/
def IsLine (text : Bytes) (n : Int) (line : Bytes) : Prop :=
  ∃ front k rest, text = front ++ (line ++ (replicate k 13 ++ rest)) ∧
    n = 1 + front.count Bytes.newline ∧ (∀ b ∈ front.getLast?, b = Bytes.newline) ∧
    Bytes.newline ∉ line ∧ line.getLast? ≠ some 13 ∧ ∀ b ∈ rest.head?, b = Bytes.newline

lemma head?_pieces (text : Bytes) :
    (text.foldr consPiece [[]]).head? = some (text.takeWhile (· ≠ Bytes.newline)) := by
  induction text with
  | nil => rfl
  | cons b text ih =>
    obtain ⟨more, hmore⟩ := head?_eq_some_iff.mp ih
    rw [foldr_cons, hmore, consPiece]
    split_ifs with hb <;> simp [hb]

lemma drop_pieces (text rest : Bytes) :
    ((text ++ Bytes.newline :: rest).foldr consPiece [[]]).drop (text.count Bytes.newline + 1) =
      rest.foldr consPiece [[]] := by
  induction text with
  | nil => rfl
  | cons b text ih =>
    obtain ⟨more, hmore⟩ := head?_eq_some_iff.mp (head?_pieces (text ++ Bytes.newline :: rest))
    rw [hmore] at ih
    rw [cons_append, foldr_cons, hmore, consPiece]
    split_ifs with hb
    · simpa [hb] using ih
    · simpa [count_cons, hb] using ih

lemma line_eq (cur rest : Bytes) (htext : file.text = front ++ (cur ++ rest))
    (hfront : ∀ b ∈ front.getLast?, b = Bytes.newline) (hcur : Bytes.newline ∉ cur) :
    file.line (1 + front.count Bytes.newline) =
      dropReturns (cur ++ rest.takeWhile (· ≠ Bytes.newline)) := by
  have hdrop : file.pieces.drop (front.count Bytes.newline) =
      (cur ++ rest).foldr consPiece [[]] := by
    rw [pieces, htext]
    rcases eq_nil_or_concat' front with rfl | ⟨init, b, rfl⟩
    · rfl
    · obtain rfl : b = Bytes.newline := hfront b (by simp)
      simpa using drop_pieces init (cur ++ rest)
  have hget : file.pieces[front.count Bytes.newline]? =
      some (cur ++ rest.takeWhile (· ≠ Bytes.newline)) := by
    rw [← head?_drop, hdrop, head?_pieces, takeWhile_append_of_pos fun b hb => ?_]
    exact decide_eq_true (ne_of_mem_of_not_mem hb hcur)
  have hnumber : (1 + (front.count Bytes.newline : Int)).toNat - 1 = front.count Bytes.newline := by
    omega
  rw [line, if_neg (by omega), hnumber, hget]
  rfl

lemma dropReturns_append (line : Bytes) (hb : b ≠ 13) (more : Bytes) :
    dropReturns (line ++ [b] ++ more) = line ++ [b] ++ dropReturns more := by
  rw [dropReturns, dropReturns, reverse_append, dropWhile_append]
  split_ifs with hmore
  · simp [hb, isEmpty_iff.mp hmore]
  · simp

lemma exists_returns (line : Bytes) :
    ∃ k, line = dropReturns line ++ replicate k 13 ∧ (dropReturns line).getLast? ≠ some 13 := by
  have hcut := congrArg reverse (takeWhile_append_dropWhile (p := fun b : UInt8 => b = 13)
      (l := line.reverse))
  rw [reverse_append, reverse_reverse] at hcut
  refine ⟨(line.reverse.takeWhile (· = 13)).length, ?_, ?_⟩
  · conv_lhs => rw [← hcut]
    have hall : line.reverse.takeWhile (· = 13) =
        replicate (line.reverse.takeWhile (· = 13)).length 13 :=
      eq_replicate_of_mem fun b hb => of_decide_eq_true (all_eq_true.mp all_takeWhile b hb)
    rw [dropReturns, hall, reverse_replicate, length_replicate]
  · rw [dropReturns, getLast?_reverse]
    intro hhead
    simpa [hhead] using head?_dropWhile_not (fun b : UInt8 => b = 13) line.reverse

/-- A text up to its last newline, and its last line. -/
theorem exists_front (before : Bytes) : ∃ front cur, before = front ++ cur ∧ Bytes.newline ∉ cur ∧
    ∀ b ∈ front.getLast?, b = Bytes.newline := by
  induction before using reverseRecOn with
  | nil => exact ⟨[], [], rfl, by simp, by simp⟩
  | append_singleton before b ih =>
    by_cases hb : b = Bytes.newline
    · exact ⟨before ++ [b], [], by simp, by simp, by simp [hb]⟩
    · obtain ⟨front, cur, rfl, hcur, hfront⟩ := ih
      exact ⟨front, cur ++ [b], by simp, by simp [hcur, Ne.symm hb], hfront⟩

lemma behind_front (hfront : ∀ b ∈ front.getLast?, b = Bytes.newline) :
    Pos.behind front = ⟨front.length, 1 + front.count Bytes.newline, 1⟩ := by
  rcases eq_nil_or_concat' front with rfl | ⟨init, b, rfl⟩
  · rfl
  · simp [Pos.behind, hfront b (by simp)]

lemma isLine_line (htext : file.text = front ++ rest)
    (hfront : ∀ b ∈ front.getLast?, b = Bytes.newline) :
    IsLine file.text (1 + front.count Bytes.newline)
    (file.line (1 + front.count Bytes.newline)) := by
  rw [line_eq [] rest htext hfront (by simp), nil_append]
  obtain ⟨k, hline, hlast⟩ := exists_returns (rest.takeWhile (· ≠ Bytes.newline))
  refine ⟨front, k, rest.dropWhile (· ≠ Bytes.newline), ?_, rfl, hfront, fun hmem => ?_, hlast,
    fun b hb => ?_⟩
  · rw [← append_assoc (dropReturns _), ← hline, takeWhile_append_dropWhile, htext]
  · have hmem : Bytes.newline ∈ rest.takeWhile (· ≠ Bytes.newline) := by
      rw [hline]
      exact mem_append_left _ hmem
    simpa using all_eq_true.mp all_takeWhile _ hmem
  · have hhead := head?_dropWhile_not (fun b : UInt8 => decide (b ≠ Bytes.newline)) rest
    rw [Option.mem_def.mp hb] at hhead
    exact of_not_not (of_decide_eq_false hhead)

end SourceFile

/-! ### Places of reports -/

/-- The places that reports are about: those of tokens, other than the end of a text, and those of
nodes. -/
inductive Reported (text : Bytes) : Span → Prop where
  | token {t : Located Token} (ht : t ∈ (Lexer.scan text).tokens) (hk : t.val.kind ≠ .eof) :
      Reported text t.span
  | node {p : Program Unit} (hp : parse text = .ok p) {n : Node Unit} (hn : n ∈ p.nodes) :
      Reported text n.span

/-- A place in a text whose last byte is not white space. -/
def Span.Solid (text : Bytes) (s : Span) : Prop :=
  ∃ before init b rest, text = before ++ (init ++ b :: rest) ∧ Lexer.isSpace b = false ∧
    s = ⟨.behind before, .behind (before ++ init)⟩

variable {text lexeme : Bytes} {t : Located Token} {toks : Tokens} {s : Span} {n : Nat}

lemma Digits.last {ds : Bytes} (h : Digits ds) (hb : ds.getLast? = some b) :
    Lexer.isSpace b = false :=
  (Lexer.of_isDigit (h.2 _ (mem_of_getLast? hb))).1

lemma Lexer.Spelled.last {t : Token} (h : Spelled t lexeme) (hb : lexeme.getLast? = some b) :
    isSpace b = false := by
  cases h with
  | word h =>
    simp only [isWord, Bool.and_eq_true, all_eq_true] at h
    refine Bool.eq_false_iff.mpr fun hspace => ?_
    cases (not_isWordByte_of_isSpace hspace).symm.trans (h.2 _ (mem_of_getLast? hb))
  | int h => exact h.last hb
  | float h h' =>
    rw [getLast?_append_of_ne_nil _ (cons_ne_nil _ _), getLast?_cons_of_ne_nil h'.1] at hb
    exact h'.last hb
  | symbol hk =>
    have hsymbols : ∀ k ∈ symbols, k.text.getLast?.all (!isSpace ·) = true := by decide
    simpa [hb] using hsymbols _ hk
  | string =>
    rw [← cons_append, getLast?_concat] at hb
    cases hb
    rfl

lemma Written.solid (h : Written text t) : ∀ piece ∈ Parser.pieces t, piece.Solid text := by
  obtain ⟨before, init, b, rest, rfl, hspelled, hspan⟩ := h.ends
  have hwhole : t.span.Solid (before ++ (init ++ b :: rest)) :=
    ⟨before, init, b, rest, rfl, hspelled.last (getLast?_concat ..), hspan⟩
  unfold Parser.pieces
  split_ifs with hk
  · obtain ⟨whole, fraction, htext, hw, hf⟩ := hspelled.lexed.float hk
    have hlexeme := (hspelled.text_eq (by simp [hk])).symm.trans htext
    have hline := hspelled.line
    obtain ⟨w, d, rfl⟩ := (eq_nil_or_concat' whole).resolve_left hw.1
    obtain ⟨f, e, rfl⟩ := (eq_nil_or_concat' fraction).resolve_left hf.1
    rw [← cons_append, ← append_assoc] at hlexeme
    obtain ⟨rfl, hb⟩ := append_inj' hlexeme rfl
    cases hb
    simp only [mem_append, mem_cons, not_or] at hline
    have hpoint : Bytes.newline ∉ w ++ [d] ++ [46] := by simp [hline]
    simp only [forall_mem_cons, Parser.positions, htext, Parser.cutPoint_eq hw, hspan]
    refine ⟨hspan ▸ hwhole,
      ⟨before, w, d, 46 :: (f ++ b :: rest), by simp, hw.last (getLast?_concat ..), ?_⟩,
      ⟨before ++ (w ++ [d] ++ [46]), f, b, rest, by simp, hf.last (getLast?_concat ..), ?_⟩,
        by simp⟩
    · rw [Pos.behind_append before hline.1.1.1]
      simp [Pos.shift]
      omega
    · rw [Pos.behind_append before hpoint]
      simp [Pos.shift, add_assoc]
  · exact forall_mem_singleton.mpr hwhole

lemma Span.Solid.join {q q' : Span} (hq : q.Solid text) (hq' : q'.Solid text)
    (hfirst : q.first = s.first) (hlast : q'.last = s.last) (hle : s.first.offset ≤ s.last.offset) :
    s.Solid text := by
  obtain ⟨before, init, b, rest, htext, -, rfl⟩ := hq
  obtain ⟨before', init', b', rest', htext', hb', rfl⟩ := hq'
  rw [← hfirst, ← hlast] at hle
  have hbehind : before' ++ init' <+: text := ⟨b' :: rest', by rw [htext', append_assoc]⟩
  obtain ⟨more, hmore⟩ := prefix_of_prefix_length_le ⟨_, htext.symm⟩ hbehind (Int.ofNat_le.mp hle)
  refine ⟨before, more, b', rest', ?_, hb', ?_⟩
  · rw [htext', ← append_assoc, ← hmore, append_assoc]
  · rw [hmore]
    exact Span.mk.injEq .. ▸ ⟨hfirst.symm, hlast.symm⟩

lemma Parser.decls_eq_nil {inner : Inner} {done : List (Decl Unit)} {st u : State}
    (h : decls inner n done st = .ok ([], u)) :
    done = [] ∧ u = st ∧ (n = 0 ∨ st.tok.val.kind = .eof) := by
  induction n generalizing done st with
  | zero =>
    obtain ⟨hdone, rfl⟩ := Prod.mk.inj (Except.ok.inj h)
    exact ⟨reverse_eq_nil_iff.mp hdone, rfl, .inl rfl⟩
  | succ n ih =>
    change (if st.tok.val.kind = .eof then pure done.reverse
      else decl inner >>= fun d => decls inner n (d :: done) : P (List (Decl Unit))) st = _ at h
    split_ifs at h with hk
    · obtain ⟨hdone, rfl⟩ := Prod.mk.inj (Except.ok.inj h)
      exact ⟨reverse_eq_nil_iff.mp hdone, rfl, .inr hk⟩
    · rw [run_bind] at h
      cases hd : decl inner st with
      | error e =>
        rw [hd] at h
        cases h
      | ok res =>
        rw [hd] at h
        cases (ih h).1

/-- The pieces at both ends of a node are before the end of the text, so other tokens have them. -/
theorem Outline.Placed.solid {o : Outline} (h : o.Placed text toks)
    (htoks : tokenize text = .ok toks) : o.span.Solid text := by
  obtain ⟨init, hinit, hcovered⟩ := Lexer.covered_of_tokenize htoks
  obtain ⟨⟨-, hle, hlt⟩, ⟨q, hq, hfirst⟩, ⟨q', hq', hlast⟩, -, -⟩ := h
  have hpieces : ∀ piece ∈ toks.flatMap Parser.pieces,
      piece ≠ (Lexer.endToken text).span → piece.Solid text := by
    intro piece hpiece hother
    rw [hinit, flatMap_append, mem_append] at hpiece
    obtain ⟨u, hu, hpiece⟩ := mem_flatMap.mp (hpiece.resolve_right fun h =>
      hother (mem_singleton.mp h))
    exact (hcovered.written u hu).solid piece hpiece
  have hend : ∀ {piece : Span}, piece.first.offset < text.length ∨ piece.last.offset < text.length →
      piece ≠ (Lexer.endToken text).span := by
    rintro piece h rfl
    exact (or_self_iff.mp h).ne rfl
  exact (hpieces q hq (hend (.inl (hfirst ▸ hle.trans_lt hlt)))).join
    (hpieces q' hq' (hend (.inr (hlast ▸ hlt)))) hfirst hlast hle

lemma Parser.span_of_no_decls {p : Program Unit} (htoks : tokenize text = .ok (t :: toks))
    (hparse : parseTokens (t :: toks) = .ok p) (hdecls : p.decls = []) :
    p.span = (Lexer.endToken text).span := by
  obtain ⟨init, hinit, hcovered⟩ := Lexer.covered_of_tokenize htoks
  obtain ⟨u, hrun, hspan⟩ := parseTokens_ok hparse
  rw [hdecls] at hrun
  obtain ⟨-, rfl, hzero | heof⟩ := decls_eq_nil hrun
  · cases hzero
  have ht : t ∈ init ++ [Lexer.endToken text] := hinit ▸ mem_cons_self
  obtain rfl := mem_singleton.mp ((mem_append.mp ht).resolve_left fun hmem =>
    hcovered.kind_ne_eof t hmem heof)
  exact hspan

/-- A place that a report is about is solid, unless it is the end of a text without declarations. -/
theorem Reported.solid (h : Reported text s) : s.Solid text ∨ s = (Lexer.endToken text).span := by
  cases h with
  | @token t ht hk =>
    refine .inl ((Lexer.written_of_mem_scan ht hk).solid _ ?_)
    unfold Parser.pieces
    split_ifs <;> simp
  | @node p hp n hn =>
    obtain ⟨t, toks, htoks, hparse⟩ := parse_ok hp
    by_cases hne : p.decls = []
    · rw [Program.nodes, hne] at hn
      rw [mem_singleton.mp hn]
      exact .inr (Parser.span_of_no_decls htoks hparse hne)
    · have hmem : n.span ∈ (Outline.listAll p.outline).map Outline.span := by
        rw [Outline.spans_program]
        exact mem_map_of_mem hn
      obtain ⟨o, ho, hspan⟩ := mem_map.mp hmem
      exact .inl (hspan ▸ (Outline.placed_of_mem htoks hparse hne o ho).solid htoks)

/-! ### Shown reports -/

namespace Render

/-- A palette that leaves texts as they are. -/
structure Palette.Plain (p : Palette) : Prop where
  header : ∀ text, p.header text = text
  focus : ∀ text, p.focus text = text
  margin : ∀ text, p.margin text = text

lemma plain_palette : (palette false).Plain :=
  ⟨fun _ => rfl, fun _ => rfl, fun _ => rfl⟩

/-- A report as it is shown without colours: its line in three parts, the second of which is the
reported text, and below it a space for each byte of the first part and as many marks as the span of
the report is long. -/
def Underlined (file : SourceFile) (d : Diagnostic) (shown : Bytes) : Prop :=
  ∃ before focus after : Bytes, ∃ marks : Nat,
    before ++ (focus ++ after) = file.line d.span.first.line ∧
    SourceFile.IsLine file.text d.span.first.line (before ++ (focus ++ after)) ∧
    focus = file.slice d.span ∧ marks = d.span.length ∧
    let n := Decimal.ofInt d.span.first.line
    let pad := Bytes.repeated n.length 32
    shown = Bytes.joinWith "\n" [
      Bytes.concat ["error: ", d.stage.text],
      Bytes.concat [pad, "-->", " ", file.name, ":", d.span.first.text],
      Bytes.concat [pad, " |"],
      Bytes.concat [n, " |", " ", before, focus, after],
      Bytes.concat [pad, " |", " ", Bytes.repeated before.length 32, Bytes.repeated marks 94,
        " ", d.detail]]

variable {d : Diagnostic} {f : Failure} {cur before focus after : Bytes} {k : Nat} {p : Palette}

lemma wrap_natCast (h : n < 2 ^ 63) : Word.wrap n = n :=
  Int.bmod_eq_of_le (by omega) (by omega)

lemma splitLine_eq {first last : Nat} (hlt : first < 2 ^ 63)
    (hstart : before.length = min first (before ++ (focus ++ after)).length)
    (hstop : before.length + focus.length = min last (before ++ (focus ++ after)).length) :
    splitLine (before ++ (focus ++ after)) (1 + first) last = (before, focus, after) := by
  have hfirst : min (max (first : Int) 0) (before ++ (focus ++ after)).length = before.length := by
    omega
  have hlast : min (max (last : Int) before.length) (before ++ (focus ++ after)).length =
      (before ++ focus).length := by
    rw [@length_append _ before focus]
    omega
  rw [splitLine, add_sub_cancel_left, wrap_natCast hlt]
  simp only [hfirst, hlast, Int.toNat_natCast]
  rw [← append_assoc, take_left, drop_left, drop_left, append_assoc, take_left]

/-- What is shown of a place in a line, `k` bytes from its first byte to its last one. -/
theorem underlined_of_line (hp : p.Plain) (hf : f.diagnostic? = some d)
    (htext : file.text = front ++ (cur ++ rest)) (hfront : ∀ b ∈ front.getLast?, b = Bytes.newline)
    (hcur : Bytes.newline ∉ cur) (hfirst : d.span.first = .behind (front ++ cur))
    (hlast : d.span.last = d.span.first.shift k) (hlt : max cur.length (k + 1) < 2 ^ 63)
    (hline : file.line (1 + front.count Bytes.newline) = before ++ (focus ++ after))
    (hstart : before.length = min cur.length (before ++ (focus ++ after)).length)
    (hstop : before.length + focus.length = min (cur.length + k + 1)
      (before ++ (focus ++ after)).length)
    (hmarks : max focus.length 1 = k + 1) (hslice : focus = file.slice d.span) :
    Underlined file d (failureWith p (some file) f) := by
  rw [Pos.behind_append front hcur, SourceFile.behind_front hfront] at hfirst
  have hsplit : splitLine (before ++ (focus ++ after)) d.span.first.col
      (lastColumn (before ++ (focus ++ after)) d.span) = (before, focus, after) := by
    have hend : lastColumn (before ++ (focus ++ after)) d.span = (cur.length + k + 1 : Nat) := by
      rw [lastColumn, if_neg (by simp [hlast, Pos.shift]), hlast, hfirst]
      simp [Pos.shift]
      omega
    rw [hend, hfirst]
    exact splitLine_eq (by omega) hstart hstop
  have hnum : d.span.first.line = 1 + front.count Bytes.newline := by rw [hfirst]; rfl
  have hshown : (d.span.first.isValid && decide (d.span.first.line ≤ file.numLines)) = true := by
    simp [Pos.isValid, SourceFile.numLines, htext, hnum]
    omega
  rw [← hnum] at hline
  refine ⟨before, focus, after, k + 1, hline.symm, ?_, hslice, ?_, ?_⟩
  · rw [← hline, hnum]
    exact SourceFile.isLine_line htext hfront
  · rw [Span.length, hlast, ← wrap_natCast (n := k + 1) (by omega)]
    simp [Pos.shift]
  · simp only [failureWith, hf, hshown, withLine, hline, hsplit, hmarks]
    simp [hp.header, hp.focus, hp.margin, Bytes.concat]

/-- **Reports underline exactly what they are about.**  A report about a token, other than the end
of the text, or about a node that begins and ends in one line is shown with that line, cut in three
where the reported text begins and ends, and with a mark for each byte of the span, whenever the
palette leaves texts as they are.  Texts have less than `2 ^ 63` bytes, as offsets are 64-bit
integers. -/
theorem failure_underlines (hp : p.Plain) {text name : Bytes} (htext : text.length < 2 ^ 63)
    (hf : f.diagnostic? = some d) (hs : Reported text d.span)
    (hline : d.span.first.line = d.span.last.line) :
    Underlined ⟨name, text⟩ d (failureWith p (some ⟨name, text⟩) f) := by
  obtain ⟨before, init, b, rest, rfl, hb, hspan⟩ | hspan := hs.solid
  · obtain ⟨front, cur, rfl, hcur, hfront⟩ := SourceFile.exists_front before
    have hinit : Bytes.newline ∉ init := count_eq_zero.mp (by simpa [hspan, Pos.behind] using hline)
    have hbyte : b ≠ Bytes.newline ∧ b ≠ 13 := by
      constructor <;> rintro rfl <;> cases hb
    have hshown := @SourceFile.line_eq ⟨name, front ++ cur ++ (init ++ b :: rest)⟩ _
      (cur ++ (init ++ [b])) rest (by simp) hfront (by simp [hcur, hinit, hbyte.1.symm])
    rw [← append_assoc cur, SourceFile.dropReturns_append _ hbyte.2, append_assoc cur,
      append_assoc cur] at hshown
    simp only [length_append, length_cons] at htext
    refine underlined_of_line hp hf (append_assoc ..) hfront hcur (by rw [hspan]) (k := init.length)
      ?_ (by omega) hshown (by simp) (by simp; omega) (by simp) ?_
    · rw [hspan]
      exact Pos.behind_append _ hinit
    · refine (@SourceFile.slice_eq _ (front ++ cur) _ rest (by simp) _ ?_ ?_).symm
      · simp [hspan, Pos.behind]
      · simp [hspan, Pos.behind]
        omega
  · -- The span of the end has the length of a byte, but its slice is empty: there is one mark.
    have hslice : [] = SourceFile.slice ⟨name, text⟩ d.span := by
      simp [SourceFile.slice, hspan, Lexer.endToken, Span.point, Pos.behind]
    obtain ⟨front, cur, rfl, hcur, hfront⟩ := SourceFile.exists_front text
    have hshown := @SourceFile.line_eq ⟨name, front ++ cur⟩ _ cur [] (by simp) hfront hcur
    obtain ⟨k, hreturns, -⟩ := SourceFile.exists_returns cur
    have hlength := congrArg length hreturns
    simp only [length_append] at htext hlength
    rw [takeWhile_nil, append_nil, ← append_nil (SourceFile.dropReturns cur), ← append_nil []]
      at hshown
    refine underlined_of_line hp hf (congrArg _ (append_nil _).symm) hfront hcur
      (by rw [hspan]; rfl)
      (k := 0) ?_ (by omega) hshown (by simp; omega) (by simp; omega) rfl hslice
    simp [hspan, Lexer.endToken, Span.point, Pos.shift]

/-- A text with carriage returns, a tab, a string literal of several bytes and a selection by two
positions. -/
def returns : Bytes :=
  "fn f(x: S) \x7b\r\n\tx.0.1 + \"é\" // end\r\n\x7d"

theorem failure_underlines_returns :
    let d : Diagnostic := ⟨.typing, ⟨⟨15, 2, 2⟩, ⟨26, 2, 13⟩⟩, "mismatch"⟩
    Reported returns d.span ∧ Underlined ⟨"main", returns⟩ d
      (failure (some ⟨"main", returns⟩) false (.diagnosed d)) := by
  intro d
  have hspans : ((parse returns).toOption.any fun p => p.nodes.any (·.span = d.span)) = true := by
    decide +kernel
  have hs : Reported returns d.span := by
    cases h : parse returns with
    | error e =>
      rw [h] at hspans
      cases hspans
    | ok p =>
      rw [h] at hspans
      obtain ⟨n, hn, hspan⟩ := any_eq_true.mp hspans
      exact of_decide_eq_true hspan ▸ .node h hn
  exact ⟨hs, failure_underlines plain_palette (by decide) rfl hs rfl⟩

end Render

end Minilang
