import Minilang.Bytecode.File
import Mathlib.Data.List.Forall2
import Mathlib.Data.UInt

/-!
# Bytecode files hold programs

Reading the file of a program gives the program back, and what is read from any bytes can be written
to a file again.  Both are shown item by item.  `Reads r bytes a` says that a reader takes exactly
`bytes` from the front, whatever follows, and makes `a` of them; `Gives r P` says that whatever a
reader makes has a property.  Each has a rule for two readers one after the other, so each kind of
item needs one lemma for `Reads` and one for `Gives`.

What a file can hold is `Storable`: constants that refer to nothing, lists and texts that are not
too long, numbers of 64 bits, and an entry below the number of functions.
-/

namespace Minilang

open List

namespace Word

/-- The integer fits in 64 bits. -/
def Holds (n : Int) : Prop :=
  -2 ^ 63 ≤ n ∧ n < 2 ^ 63

instance (n : Int) : Decidable (Holds n) :=
  inferInstanceAs (Decidable (_ ∧ _))

lemma toSigned_ofSigned {n : Int} (h : Holds n) : toSigned (ofSigned n) = n := by
  obtain ⟨hlow, hhigh⟩ := h
  rw [toSigned, ofSigned, Int64.toInt64_toUInt64, Int64.toInt_ofInt_of_le hlow hhigh]

lemma holds_toSigned (w : UInt64) : Holds (toSigned w) :=
  ⟨Int64.le_toInt _, Int64.toInt_lt _⟩

end Word

namespace Bytecode

/-! ### What a file can hold -/

/-- A list or a text that is not too long for a file. -/
def Short (length : Nat) : Prop :=
  length ≤ maxItems

instance (length : Nat) : Decidable (Short length) :=
  inferInstanceAs (Decidable (length ≤ maxItems))

/-- The value can be in a file. -/
def StorableValue : Value → Prop
  | .int _ | .float _ | .bool _ => True
  | .string s => Short s.length
  | .func name index => Short name.length ∧ Word.Holds index
  | .null | .array _ | .record _ => False

/-- The position can be in a file. -/
structure StorablePos (p : Pos) : Prop where
  offset : Word.Holds p.offset
  line : Word.Holds p.line
  col : Word.Holds p.col

/-- The span can be in a file. -/
structure StorableSpan (s : Span) : Prop where
  first : StorablePos s.first
  last : StorablePos s.last

/-- The function can be in a file. -/
structure StorableFunc (f : Func) : Prop where
  name : Short f.name.length
  numParams : Word.Holds f.numParams
  numLocals : Word.Holds f.numLocals
  numCode : Short f.code.size
  numSpans : Short f.spans.size
  spans : ∀ s ∈ f.spans, StorableSpan s

/-- The parts of a program that has a place in a file, apart from the bound on its entry. -/
structure StorableParts (p : Program) : Prop where
  numConsts : Short p.consts.size
  consts : ∀ v ∈ p.consts, StorableValue v
  numFuncs : Short p.funcs.size
  funcs : ∀ f ∈ p.funcs, StorableFunc f
  entry : Word.Holds p.entry

/-- A program that has a place in a file. -/
structure Storable (p : Program) : Prop extends StorableParts p where
  entry_lt : p.entry < p.funcs.size

/-! ### Readers one after the other -/

section Readers

variable {α β : Type} {a : α} {r : Reader α} {P : α → Prop} {k : α → Reader β}

/-- A reader takes exactly these bytes from the front and makes a value of them. -/
def Reads (r : Reader α) (bytes : Bytes) (a : α) : Prop :=
  ∀ rest, r.run (bytes ++ rest) = .ok (a, rest)

/-- Whatever is read has the property. -/
def Gives (r : Reader α) (P : α → Prop) : Prop :=
  ∀ bytes a rest, r.run bytes = .ok (a, rest) → P a

lemma Reads.pure (a : α) : Reads (pure a) [] a :=
  fun _ => rfl

lemma Reads.bind {front back : Bytes} {b : β} (hr : Reads r front a) (hk : Reads (k a) back b) :
    Reads (r >>= k) (front ++ back) b := by
  intro rest
  rw [StateT.run_bind, append_assoc, hr]
  exact hk rest

lemma Reads.map {f : α → β} {bytes : Bytes} (hr : Reads r bytes a) :
    Reads (r >>= fun x => Pure.pure (f x)) bytes (f a) := by
  simpa using hr.bind (k := fun x => Pure.pure (f x)) (.pure (f a))

lemma Gives.pure (h : P a) : Gives (pure a) P := by
  intro bytes b rest hrun
  cases hrun
  exact h

lemma Gives.throw (e : ByteError) : Gives (throw e : Reader α) P := by
  intro bytes a rest hrun
  cases hrun

lemma Gives.any (r : Reader α) : Gives r fun _ => True :=
  fun _ _ _ _ => trivial

lemma Gives.bind {Q : β → Prop} (hr : Gives r P) (hk : ∀ a, P a → Gives (k a) Q) :
    Gives (r >>= k) Q := by
  intro bytes b rest hrun
  rw [StateT.run_bind] at hrun
  cases hfirst : r.run bytes with
  | error e =>
    rw [hfirst] at hrun
    cases hrun
  | ok first =>
    rw [hfirst] at hrun
    exact hk first.1 (hr bytes first.1 first.2 hfirst) first.2 b rest hrun

end Readers

/-! ### Numbers -/

/-- The numbers that have at most `room` groups, the last possible one with a single bit. -/
def groupBound : (room : Nat) → Nat
  | 0 => 0
  | room + 1 => 2 ^ (7 * room + 1)

lemma groupBound_succ_succ (room : Nat) : groupBound (room + 2) = 128 * groupBound (room + 1) := by
  simp only [groupBound]
  rw [show 7 * (room + 1) + 1 = 7 + (7 * room + 1) by omega, Nat.pow_add]

lemma toNat_toUInt8 {n : Nat} (h : n < 256) : n.toUInt8.toNat = n := by
  simp [Nat.mod_eq_of_lt h]

lemma run_readGroups_cons (room shift value : Nat) (b : UInt8) (rest : Bytes) :
    (readGroups (room + 1) shift value).run (b :: rest) =
      if b < 128 then if room = 0 ∧ 1 < b then .error .overflow
        else .ok (value + b.toNat * 2 ^ shift, rest)
      else (readGroups room (shift + 7) (value + (b.toNat - 128) * 2 ^ shift)).run rest := by
  rw [readGroups]
  by_cases hlast : b < 128
  · by_cases hbit : room = 0 ∧ 1 < b <;> simp [hlast, hbit] <;> rfl
  · simp [hlast]

lemma reads_groups (room : Nat) : ∀ {n} shift value, n < groupBound room →
    Reads (readGroups room shift value) (groups room n) (value + n * 2 ^ shift) := by
  induction room with
  | zero =>
    intro n shift value hn
    exact absurd hn (Nat.not_lt_zero n)
  | succ room ih =>
    intro n shift value hn rest
    by_cases hsmall : n < 128
    · have hbyte : n.toUInt8.toNat = n := toNat_toUInt8 (by omega)
      have hlast : n.toUInt8 < 128 := by
        rw [UInt8.lt_iff_toNat_lt, hbyte]
        exact hsmall
      have hbit : ¬ (room = 0 ∧ 1 < n.toUInt8) := by
        rintro ⟨rfl, hbig⟩
        rw [UInt8.lt_iff_toNat_lt, hbyte] at hbig
        change n < 2 at hn
        change 1 < n at hbig
        omega
      rw [groups, if_pos hsmall, cons_append, run_readGroups_cons, if_pos hlast, if_neg hbit, hbyte]
      rfl
    · obtain ⟨room, rfl⟩ : ∃ k, room = k + 1 := by
        refine Nat.exists_eq_succ_of_ne_zero fun h => ?_
        subst h
        change n < 2 at hn
        omega
      have hbyte : (n % 128 + 128).toUInt8.toNat = n % 128 + 128 := toNat_toUInt8 (by omega)
      have hmore : ¬ (n % 128 + 128).toUInt8 < 128 := by
        rw [UInt8.lt_iff_toNat_lt, hbyte]
        exact Nat.not_lt.mpr (Nat.le_add_left _ _)
      have hrest : n / 128 < groupBound (room + 1) := by
        rw [groupBound_succ_succ] at hn
        omega
      have hvalue : value + n % 128 * 2 ^ shift + n / 128 * 2 ^ (shift + 7) =
          value + n * 2 ^ shift := by
        have hweight : n / 128 * 2 ^ (shift + 7) = 128 * (n / 128) * 2 ^ shift := by
          rw [Nat.pow_add, Nat.mul_comm 128, Nat.mul_assoc, Nat.mul_comm (2 ^ shift)]
        rw [hweight, Nat.add_assoc, ← Nat.add_mul, Nat.mod_add_div]
      rw [groups, if_neg hsmall, cons_append, run_readGroups_cons, if_neg hmore, hbyte,
        Nat.add_sub_cancel, ← hvalue]
      exact ih (shift + 7) (value + n % 128 * 2 ^ shift) hrest rest

lemma reads_word (w : UInt64) : Reads readWord (putWord w) w := by
  have hgroups : Reads (readGroups maxGroups 0 0) (putWord w) (0 + w.toNat * 2 ^ 0) :=
    reads_groups maxGroups 0 0 w.toNat_lt
  have hword : Reads readWord (putWord w) (0 + w.toNat * 2 ^ 0).toUInt64 := hgroups.map
  have hw : (0 + w.toNat * 2 ^ 0).toUInt64 = w := by simp
  rwa [hw] at hword

lemma reads_int {n : Int} (h : Word.Holds n) : Reads readInt (putWord (Word.ofSigned n)) n := by
  have hint : Reads readInt (putWord (Word.ofSigned n)) (Word.toSigned (Word.ofSigned n)) :=
    (reads_word (Word.ofSigned n)).map
  rwa [Word.toSigned_ofSigned h] at hint

lemma gives_int : Gives readInt Word.Holds :=
  (Gives.any readWord).bind fun w _ => .pure (Word.holds_toSigned w)

lemma int64_neg_iff (n : Int64) : n < 0 ↔ 2 ^ 63 ≤ n.toUInt64.toNat := by
  have hlt := n.toUInt64.toNat_lt
  have hint : n.toInt = (n.toUInt64.toNat : Int).bmod (2 ^ 64) :=
    BitVec.toInt_eq_toNat_bmod n.toBitVec
  rw [Int64.lt_iff_toInt_lt, hint, Int.bmod_def, Int64.toInt_zero]
  split <;> omega

lemma unfold_signed (n : Int64) (w : UInt64)
    (hw : w = if n < 0 then ~~~(n.toUInt64 <<< 1) else n.toUInt64 <<< 1) :
    (if w &&& 1 = 0 then w >>> 1 else ~~~(w >>> 1)) = n.toUInt64 := by
  have hlt := n.toUInt64.toNat_lt
  have htwice : (n.toUInt64 <<< 1).toNat = 2 * n.toUInt64.toNat % 2 ^ 64 := by
    simp [Nat.shiftLeft_eq, Nat.mul_comm]
  have hcomplement (v : UInt64) : (~~~v).toNat = 2 ^ 64 - 1 - v.toNat := UInt64.toNat_not v
  have hbit : w &&& 1 = 0 ↔ w.toNat % 2 = 0 := by
    rw [← UInt64.toNat_inj]
    simp
  have hhalf : (w >>> 1).toNat = w.toNat / 2 := by
    simp [Nat.shiftRight_eq_div_pow]
  apply UInt64.toNat_inj.mp
  by_cases hneg : n < 0
  · have hbig := (int64_neg_iff n).mp hneg
    have hword : w.toNat = 2 ^ 64 - 1 - (2 * n.toUInt64.toNat - 2 ^ 64) := by
      rw [hw, if_pos hneg, hcomplement]
      omega
    rw [if_neg (by rw [hbit]; omega), hcomplement]
    omega
  · have hsmall := mt (int64_neg_iff n).mpr hneg
    have hword : w.toNat = 2 * n.toUInt64.toNat := by
      rw [hw, if_neg hneg]
      omega
    rw [if_pos (by rw [hbit]; omega)]
    omega

lemma reads_signed (n : Int64) : Reads readSigned (putSigned n) n := by
  have hword := reads_word (if n < 0 then ~~~(n.toUInt64 <<< 1) else n.toUInt64 <<< 1)
  have hsigned : Reads readSigned (putSigned n) (UInt64.toInt64 _) := hword.map
  rwa [unfold_signed n _ rfl] at hsigned

/-! ### Bytes, texts and lists -/

lemma reads_byte (b : UInt8) : Reads readByte [b] b :=
  fun _ => rfl

lemma reads_bytes (bytes : Bytes) : Reads (readBytes bytes.length) bytes bytes := by
  intro rest
  have hfront : (bytes ++ rest).take bytes.length = bytes := take_left
  have hrest : (bytes ++ rest).drop bytes.length = rest := drop_left
  simp only [readBytes, StateT.run_bind, StateT.run_get, pure_bind, hfront, hrest]
  rfl

lemma gives_bytes (n : Nat) : Gives (readBytes n) fun bytes => bytes.length = n := by
  intro bytes a rest hrun
  simp only [readBytes, StateT.run_bind, StateT.run_get, pure_bind] at hrun
  split at hrun
  · rename_i hlength
    cases hrun
    exact hlength
  · cases hrun

lemma reads_length {n : Nat} (h : Short n) : Reads readLength (putLength n) n := by
  have hlt : n < 2 ^ 64 := Nat.lt_of_le_of_lt h (by decide)
  have hn : n.toUInt64.toNat = n := by simpa using hlt
  intro rest
  rw [readLength, putLength, StateT.run_bind, reads_word]
  change StateT.run (if maxItems < n.toUInt64.toNat then throw _ else pure n.toUInt64.toNat) rest =
    _
  rw [hn, if_neg (Nat.not_lt.mpr h)]
  rfl

lemma gives_length : Gives readLength Short := by
  refine (Gives.any readWord).bind fun w _ => ?_
  by_cases h : maxItems < w.toNat
  · rw [if_pos h]
    exact .throw _
  · rw [if_neg h]
    exact .pure (Nat.not_lt.mp h)

lemma reads_text {s : Bytes} (h : Short s.length) : Reads readText (putText s) s :=
  (reads_length h).bind (reads_bytes s)

lemma gives_text : Gives readText fun s => Short s.length := by
  refine gives_length.bind fun n hn => ?_
  intro bytes s rest hrun
  rwa [gives_bytes n bytes s rest hrun]

section Lists

variable {α : Type} {item : Reader α} {parts : List Bytes} {xs : Array α} {P : α → Prop}

lemma reads_items {xs : List α} (h : Forall₂ (Reads item) parts xs) :
    ∀ done, Reads (readItems item xs.length done) parts.flatten (done ++ xs.toArray) := by
  induction h with
  | nil =>
    intro done
    exact .pure done
  | @cons part x parts xs hx _ ih =>
    intro done
    have hdone : done ++ (x :: xs).toArray = done.push x ++ xs.toArray := by simp
    rw [hdone]
    exact hx.bind (ih (done.push x))

lemma reads_list (hxs : Short xs.size) (h : Forall₂ (Reads item) parts xs.toList) :
    Reads (readList item) (putLength xs.size ++ parts.flatten) xs := by
  have hitems := reads_items h #[]
  rw [Array.empty_append] at hitems
  exact (reads_length hxs).bind hitems

lemma reads_flatMap {put : α → Bytes} (hxs : Short xs.size) (h : ∀ x ∈ xs, Reads item (put x) x) :
    Reads (readList item) (putLength xs.size ++ xs.toList.flatMap put) xs := by
  refine reads_list hxs (forall₂_map_left_iff.mpr (forall₂_same.mpr fun x hx => ?_))
  exact h x (Array.mem_toList_iff.mp hx)

lemma gives_items (hitem : Gives item P) : ∀ n done,
    (∀ x ∈ done, P x) → Gives (readItems item n done) fun xs =>
      xs.size = done.size + n ∧ ∀ x ∈ xs, P x
  | 0, done, hdone => .pure ⟨rfl, hdone⟩
  | n + 1, done, hdone => by
    refine hitem.bind fun x hx => ?_
    have hpush : ∀ y ∈ done.push x, P y := by
      intro y hy
      rcases Array.mem_push.mp hy with hy | rfl
      · exact hdone y hy
      · exact hx
    have hmore := gives_items hitem n (done.push x) hpush
    rwa [Array.size_push, Nat.add_assoc, Nat.add_comm 1] at hmore

lemma gives_list (hitem : Gives item P) :
    Gives (readList item) fun xs => Short xs.size ∧ ∀ x ∈ xs, P x := by
  refine gives_length.bind fun n hn => ?_
  intro bytes xs rest hrun
  obtain ⟨hsize, hxs⟩ := gives_items hitem n #[] (by simp) bytes xs rest hrun
  rw [Array.size_empty, Nat.zero_add] at hsize
  exact ⟨hsize ▸ hn, hxs⟩

end Lists

/-! ### Constants, instructions, places and functions -/
variable (size n : Nat)

lemma length_littleEndian : (littleEndian size n).length = size := by
  induction size generalizing n with
  | zero => rfl
  | succ size ih => rw [littleEndian, length_cons, ih]

lemma ofLittleEndian_littleEndian : ofLittleEndian (littleEndian size n) = n % 256 ^ size := by
  induction size generalizing n with
  | zero => exact (Nat.mod_one n).symm
  | succ size ih =>
    have hbyte : (n % 256).toUInt8.toNat = n % 256 := toNat_toUInt8 (by omega)
    change (n % 256).toUInt8.toNat + 256 * ofLittleEndian (littleEndian size (n / 256)) = _
    rw [hbyte, ih, Nat.pow_succ, Nat.mul_comm (256 ^ size), Nat.mod_mul]

lemma reads_littleEndian : Reads (readBytes size) (littleEndian size n) (littleEndian size n) := by
  have hbytes := reads_bytes (littleEndian size n)
  rwa [length_littleEndian] at hbytes

lemma putConst_reads (h : Heap) {v : Value} (hv : StorableValue v) :
    ∃ bytes, putConst h v = .ok bytes ∧ Reads readConst bytes v := by
  cases v with
  | null | array _ | record _ => exact hv.elim
  | int n => exact ⟨_, rfl, (reads_byte 0).bind (reads_signed n).map⟩
  | float x =>
    have hbits : (ofLittleEndian (littleEndian 8 x.bits.toNat)).toUInt64 = x.bits := by
      rw [ofLittleEndian_littleEndian]
      simp
    have hfloat := (reads_littleEndian 8 x.bits.toNat).map
      (f := fun bytes => Value.float ⟨(ofLittleEndian bytes).toUInt64⟩)
    rw [hbits] at hfloat
    exact ⟨_, rfl, (reads_byte 1).bind hfloat⟩
  | bool b =>
    have hbool := (reads_byte (if b then 1 else 0)).map (f := fun c => Value.bool (c != 0))
    have hb : ((if b then 1 else 0 : UInt8) != 0) = b := by cases b <;> rfl
    rw [hb] at hbool
    exact ⟨_, rfl, (reads_byte 2).bind hbool⟩
  | string s => exact ⟨_, rfl, (reads_byte 3).bind (reads_text hv).map⟩
  | func name index =>
    exact ⟨_, rfl, (reads_byte 4).bind ((reads_text hv.1).bind (reads_int hv.2).map)⟩

lemma gives_const : Gives readConst StorableValue := by
  refine (Gives.any readByte).bind fun tag _ => ?_
  split
  · exact (Gives.any _).bind fun _ _ => .pure trivial
  · exact (Gives.any _).bind fun _ _ => .pure trivial
  · exact (Gives.any _).bind fun _ _ => .pure trivial
  · exact gives_text.bind fun _ hs => .pure hs
  · exact gives_text.bind fun _ hname => gives_int.bind fun _ hindex => .pure ⟨hname, hindex⟩
  · exact .throw _

lemma putConsts_parts (h : Heap) {vs : List Value} (hvs : ∀ v ∈ vs, StorableValue v) :
    ∃ parts, Forall₂ (Reads readConst) parts vs ∧
      ∀ done, putConsts h done vs = .ok (done.reverse.flatten ++ parts.flatten) := by
  induction vs with
  | nil => exact ⟨[], .nil, fun done => by simp [putConsts]⟩
  | cons v vs ih =>
    obtain ⟨bytes, hput, hread⟩ := putConst_reads h (hvs v mem_cons_self)
    obtain ⟨parts, hparts, hputs⟩ := ih fun w hw => hvs w (mem_cons_of_mem v hw)
    refine ⟨bytes :: parts, .cons hread hparts, fun done => ?_⟩
    simp [putConsts, hput, hputs]

lemma reads_instruction (i : Instruction) : Reads readInstruction (putInstruction i) i := by
  have harg : (ofLittleEndian (littleEndian 2 i.arg.toNat)).toUInt16 = i.arg := by
    rw [ofLittleEndian_littleEndian]
    simp
  intro rest
  change Except.ok (Instruction.mk i.op (ofLittleEndian (littleEndian 2 i.arg.toNat)).toUInt16,
    rest)
    = _
  rw [harg]

lemma reads_pos {p : Pos} (h : StorablePos p) : Reads readPos (putPos p) p := by
  have hbytes : putPos p = putWord (Word.ofSigned p.offset) ++
      (putWord (Word.ofSigned p.line) ++ putWord (Word.ofSigned p.col)) := by
    simp [putPos]
  rw [hbytes]
  exact (reads_int h.offset).bind ((reads_int h.line).bind (reads_int h.col).map)

lemma gives_pos : Gives readPos StorablePos :=
  gives_int.bind fun _ hoffset => gives_int.bind fun _ hline => gives_int.bind fun _ hcol =>
    .pure ⟨hoffset, hline, hcol⟩

lemma reads_span {s : Span} (h : StorableSpan s) : Reads readSpan (putSpan s) s :=
  (reads_pos h.first).bind (reads_pos h.last).map

lemma gives_span : Gives readSpan StorableSpan :=
  gives_pos.bind fun _ hfirst => gives_pos.bind fun _ hlast => .pure ⟨hfirst, hlast⟩

lemma reads_func {f : Func} (h : StorableFunc f) : Reads readFunc (putFunc f) f := by
  have hcode := reads_flatMap h.numCode fun i _ => reads_instruction i
  have hspans := reads_flatMap h.numSpans fun s hs => reads_span (h.spans s hs)
  have hbytes : putFunc f = putText f.name ++ (putWord (Word.ofSigned f.numParams) ++
      (putWord (Word.ofSigned f.numLocals) ++
        ((putLength f.code.size ++ f.code.toList.flatMap putInstruction) ++
          (putLength f.spans.size ++ f.spans.toList.flatMap putSpan)))) := by
    simp [putFunc, Bytes.concat]
  rw [hbytes]
  exact (reads_text h.name).bind ((reads_int h.numParams).bind ((reads_int h.numLocals).bind
    (hcode.bind hspans.map)))

lemma gives_func : Gives readFunc StorableFunc :=
  gives_text.bind fun _ hname => gives_int.bind fun _ hparams => gives_int.bind fun _ hlocals =>
    (gives_list (.any readInstruction)).bind fun _ hcode =>
      (gives_list gives_span).bind fun _ hspans =>
        .pure ⟨hname, hparams, hlocals, hcode.1, hspans.1, hspans.2⟩

/-! ### Programs -/

/-- The program without the heap, which nothing in a file refers to. -/
def Program.alone (p : Program) : Program :=
  { p with heap := .empty }

lemma gives_program : Gives readProgram fun p => StorableParts p ∧ p.alone = p :=
  (gives_list gives_const).bind fun _ hconsts => (gives_list gives_func).bind fun _ hfuncs =>
    gives_int.bind fun _ hentry =>
      .pure ⟨⟨hconsts.1, hconsts.2, hfuncs.1, hfuncs.2, hentry⟩, rfl⟩

variable {p : Program}

lemma encode_parts (h : StorableParts p) :
    ∃ bytes, encode p = .ok (mark ++ (putText Version.current ++ bytes)) ∧
      Reads readProgram bytes p.alone := by
  have hvs : ∀ v ∈ p.consts.toList, StorableValue v := fun v hv =>
    h.consts v (Array.mem_toList_iff.mp hv)
  obtain ⟨parts, hparts, hputs⟩ := putConsts_parts p.heap hvs
  have hconsts := reads_list h.numConsts hparts
  have hfuncs := reads_flatMap h.numFuncs fun f hf => reads_func (h.funcs f hf)
  refine ⟨_, ?_, hconsts.bind (hfuncs.bind (reads_int h.entry).map)⟩
  simp [encode, hputs, Bytes.concat, bind, Except.bind, pure, Except.pure]

variable {check : Bytes → Except Version.Error Unit}

lemma reads_version : Reads readText (putText Version.current) Version.current :=
  reads_text (show Version.current.length ≤ maxItems by decide)

lemma decodeWith_current (hcheck : check Version.current = .ok ()) (body : Bytes) :
    decodeWith check (mark ++ (putText Version.current ++ body)) = decodeProgram body := by
  have hmark : (mark ++ (putText Version.current ++ body)).take mark.length = mark := take_left
  have hbody : (mark ++ (putText Version.current ++ body)).drop mark.length =
      putText Version.current ++ body := drop_left
  simp only [decodeWith, hmark, hbody, reads_version body, hcheck, ne_eq, not_true, if_false]

lemma decode_of_encode (hcheck : check Version.current = .ok ()) (h : Storable p) :
    ∃ bytes, encode p = .ok bytes ∧ ∀ rest, decodeWith check (bytes ++ rest) = .ok p.alone := by
  obtain ⟨bytes, hencode, hread⟩ := encode_parts h.toStorableParts
  refine ⟨_, hencode, fun rest => ?_⟩
  have hentry : ¬ (p.alone.funcs.size : Int) ≤ p.alone.entry := Int.not_le.mpr h.entry_lt
  rw [append_assoc, append_assoc, decodeWith_current hcheck, decodeProgram, hread rest]
  exact if_neg hentry

lemma storable_of_decode {bytes : Bytes} (h : decodeWith check bytes = .ok p) :
    Storable p ∧ p.alone = p := by
  unfold decodeWith at h
  split at h
  · cases h
  split at h
  · cases h
  split at h
  · cases h
  unfold decodeProgram at h
  split at h
  · cases h
  rename_i q rest hread
  split at h
  · cases h
  rename_i hentry
  cases h
  obtain ⟨hparts, halone⟩ := gives_program _ _ _ hread
  exact ⟨⟨hparts, Int.not_le.mp hentry⟩, halone⟩

/-- **Reading a file inverts writing it**, for every check that accepts the version that is written.
A program that has a place in a file is written, and the file is read as the same program.  A
program that is read from any bytes has a place in a file, and the file that is written for it is
read as the same program again. -/
theorem decode_inverts_encode (hcheck : check Version.current = .ok ()) :
    (∀ p : Program, Storable p →
      ∃ bytes, encode p = .ok bytes ∧ decodeWith check bytes = .ok p.alone) ∧
    ∀ (bytes : Bytes) (p : Program), decodeWith check bytes = .ok p →
      Storable p ∧ ∃ bytes', encode p = .ok bytes' ∧ decodeWith check bytes' = .ok p := by
  have hforth : ∀ p : Program, Storable p →
      ∃ bytes, encode p = .ok bytes ∧ decodeWith check bytes = .ok p.alone := by
    intro p hp
    obtain ⟨bytes, hencode, hdecode⟩ := decode_of_encode hcheck hp
    exact ⟨bytes, hencode, by simpa using hdecode []⟩
  refine ⟨hforth, fun bytes p hdecode => ?_⟩
  obtain ⟨hp, halone⟩ := storable_of_decode hdecode
  obtain ⟨bytes', hencode, hdecode'⟩ := hforth p hp
  exact ⟨hp, bytes', hencode, halone ▸ hdecode'⟩

/-- A program with the least integer, a NaN that has a payload, a function with a negative number
and an entry below zero. -/
def corners : Program where
  consts := #[.int (-9223372036854775808), .float ⟨0xfff8000000000123⟩, .bool true,
    .string [0, 255], .func [109] (-1)]
  heap := .empty
  funcs := #[⟨[109], -3, 9223372036854775807, #[⟨255, 65535⟩, .of .ret 0],
    #[⟨⟨-1, 0, 128⟩, ⟨300, 2, -9223372036854775808⟩⟩]⟩]
  entry := -1

lemma storable_corners : Storable corners where
  numConsts := by decide
  consts := by simp [corners, StorableValue, Short, Word.Holds, maxItems]
  numFuncs := by decide
  funcs := by
    intro f hf
    obtain rfl : f = corners.funcs[0] := by simpa [corners] using hf
    refine ⟨by decide, by decide, by decide, by decide, by decide, fun s hs => ?_⟩
    obtain rfl : s = ⟨⟨-1, 0, 128⟩, ⟨300, 2, -9223372036854775808⟩⟩ := by simpa [corners] using hs
    exact ⟨⟨by decide, by decide, by decide⟩, ⟨by decide, by decide, by decide⟩⟩
  entry := by decide
  entry_lt := by decide

/-- A file of an older version, with a length of more groups than it needs and bytes at its end. -/
def olderFile : Bytes :=
  mark ++ [2, 118, 49] ++ [129, 0] ++ [2, 7] ++ [0] ++
    [255, 255, 255, 255, 255, 255, 255, 255, 255, 1] ++ [9, 9]

theorem decode_inverts_encode_corners :
    Version.check Version.current = .ok () ∧
    (Storable corners ∧ ∃ bytes, encode corners = .ok bytes ∧ decode bytes = .ok corners) ∧
    decode olderFile = .ok ⟨#[.bool true], .empty, #[], -1⟩ ∧
    ∃ bytes, encode ⟨#[.bool true], .empty, #[], -1⟩ = .ok bytes ∧
      decode bytes = .ok ⟨#[.bool true], .empty, #[], -1⟩ := by
  have hcheck : Version.check Version.current = .ok () := rfl
  obtain ⟨hforth, hback⟩ := decode_inverts_encode hcheck
  exact ⟨hcheck, ⟨storable_corners, hforth corners storable_corners⟩, rfl,
    (hback olderFile _ rfl).2⟩

end Bytecode

end Minilang
