import Minilang.Proofs.Search
import Minilang.Proofs.Value.Contents
import Mathlib.Data.List.Forall2

/-!
# Printing of values

Three ways to say what the text of a value is.  `Prints` is the printer without a bound on its
depth: it keeps the arrays and records that are open, and abbreviates one that is open already.
`Written` says where a value stands: an array or a record is abbreviated exactly where it stands
inside itself.  `Plain` prints parts without regard to where they stand, and comes to no end on a
cycle.

The printer comes to an end on all heaps and leaves open what was open, so it abbreviates what
stands inside itself and nothing else.  Where no cycle can be reached nothing is abbreviated.
-/

namespace Minilang

open List

/-- The text of a value without parts.  A string inside another value is quoted. -/
def Value.ownText? (inside : Bool) : Value → Option Bytes
  | .null => some "null"
  | .int n => some (Decimal.ofInt n.toInt)
  | .float x => some x.text
  | .bool b => some (if b then "true" else "false")
  | .string s => some (if inside then Quoted.text s else s)
  | .func name _ => some (Bytes.concat ["<fn ", name, ">"])
  | .array _ | .record _ => none

namespace Heap

/-! ### Parts of values -/

variable (h : Heap)

/-- The elements of an array and the values of the fields of a record. -/
def parts : Value → List Value
  | .array ref => (h.elems ref).toList
  | .record ref => (h.record ref).fields.map Prod.snd
  | _ => []

/-- The text of an array or a record from those of its parts. -/
def whole (v : Value) (texts : List Bytes) : Bytes :=
  match v with
  | .array _ => Bytes.concat ["[", Bytes.joinWith ", " texts, "]"]
  | .record ref =>
    recordText (h.record ref).type (((h.record ref).fields.map Prod.fst).zip texts)
  | _ => []

/-- What is printed for a value inside of itself. -/
def short : Value → Bytes
  | .record ref => Bytes.concat [(h.record ref).type, " \x7b...\x7d"]
  | _ => "[...]"

/-- A value is a part of the other one. -/
def Holds (v w : Value) : Prop :=
  w ∈ h.parts v

/-- From the value no array or record can be reached that can be reached from itself. -/
def Acyclic (v : Value) : Prop :=
  ∀ w, Relation.ReflTransGen h.Holds v w → ¬Relation.TransGen h.Holds w w

/-! ### Texts -/

mutual

/-- The printer, without a bound on its depth: it writes a value while the arrays and records in the
first list are open, and those in the second list are open afterwards. -/
inductive Prints (h : Heap) : List Value → Bool → Value → Bytes → List Value → Prop
  | basic {opened inside v t} : v.ownText? inside = some t → Prints h opened inside v t opened
  | again {opened inside v} :
      v.ownText? inside = none → v ∈ opened → Prints h opened inside v (h.short v) opened
  | first {opened left inside v ts} :
      v.ownText? inside = none → v ∉ opened → PrintsAll h (v :: opened) (h.parts v) ts left →
      Prints h opened inside v (h.whole v ts) (left.erase v)

/-- The printer on the parts of a value, one after the other. -/
inductive PrintsAll (h : Heap) : List Value → List Value → List Bytes → List Value → Prop
  | nil {opened} : PrintsAll h opened [] [] opened
  | cons {opened between left v vs t ts} :
    Prints h opened true v t between → PrintsAll h between vs ts left →
      PrintsAll h opened (v :: vs) (t :: ts) left

end

/-- The text of a value that stands inside the arrays and records in `above`: it is abbreviated
exactly if it is one of them. -/
inductive Written (h : Heap) : List Value → Bool → Value → Bytes → Prop
  | basic {above inside v t} : v.ownText? inside = some t → Written h above inside v t
  | again {above inside v} :
      v.ownText? inside = none → v ∈ above → Written h above inside v (h.short v)
  | first {above inside v ts} :
      v.ownText? inside = none → v ∉ above → (h.parts v).length = ts.length →
      (∀ p ∈ (h.parts v).zip ts, Written h (v :: above) true p.1 p.2) →
      Written h above inside v (h.whole v ts)

/-- The text of a value without any abbreviation. -/
inductive Plain (h : Heap) : Bool → Value → Bytes → Prop
  | basic {inside v t} : v.ownText? inside = some t → Plain h inside v t
  | parts {inside v ts} : v.ownText? inside = none →
      (h.parts v).length = ts.length → (∀ p ∈ (h.parts v).zip ts, Plain h true p.1 p.2) →
      Plain h inside v (h.whole v ts)

variable {h : Heap} {opened left above : List Value} {inside : Bool} {v w : Value}
  {t t' short : Bytes} {ts : List Bytes} {print : Value → Printing Bytes}

mutual

theorem Prints.written {opened left : List Value} {inside : Bool} {v : Value} {t : Bytes} :
    Prints h opened inside v t left → left = opened ∧ Written h opened inside v t
  | .basic ht => ⟨rfl, .basic ht⟩
  | .again hnone hmem => ⟨rfl, .again hnone hmem⟩
  | .first hnone hnew hall => by
    obtain ⟨rfl, hlength, hparts⟩ := hall.written
    exact ⟨erase_cons_head .., .first hnone hnew hlength hparts⟩

theorem PrintsAll.written {opened left : List Value} {vs : List Value} {ts : List Bytes} :
    PrintsAll h opened vs ts left → left = opened ∧ vs.length = ts.length ∧
      ∀ p ∈ vs.zip ts, Written h opened true p.1 p.2
  | .nil => ⟨rfl, rfl, forall_mem_nil _⟩
  | .cons hv hvs => by
    obtain ⟨rfl, hwritten⟩ := hv.written
    obtain ⟨hleft, hlength, hparts⟩ := hvs.written
    exact ⟨hleft, congrArg (· + 1) hlength, forall_mem_cons.mpr ⟨hwritten, hparts⟩⟩

end

lemma eq_of_zip {vs : List Value} {ts' : List Bytes} {R : Value → Bytes → Prop}
    (hlength : vs.length = ts.length) (hlength' : vs.length = ts'.length)
    (hts : ∀ p ∈ vs.zip ts, ∀ t', R p.1 t' → p.2 = t') (hts' : ∀ p ∈ vs.zip ts', R p.1 p.2) :
    ts = ts' := by
  refine ext_getElem (hlength.symm.trans hlength') fun i hi hi' => ?_
  have hvs : i < vs.length := hlength ▸ hi
  have hmem : (vs[i], ts[i]) ∈ vs.zip ts := mem_iff_getElem.mpr ⟨i, by simp [hvs, hi], by simp⟩
  have hmem' : (vs[i], ts'[i]) ∈ vs.zip ts' :=
    mem_iff_getElem.mpr ⟨i, by simp [hvs, hi'], by simp⟩
  exact hts _ hmem _ (hts' _ hmem')

lemma Written.unique (hv : Written h above inside v t) (hv' : Written h above inside v t') :
    t = t' := by
  induction hv generalizing t' with
  | basic ht =>
    cases hv' with
    | basic ht' => exact Option.some.inj (ht.symm.trans ht')
    | again hnone _ | first hnone _ _ _ => cases ht.symm.trans hnone
  | again hnone hmem =>
    cases hv' with
    | basic ht => cases ht.symm.trans hnone
    | again _ _ => rfl
    | first _ hnew _ _ => exact absurd hmem hnew
  | first hnone hnew hlength _ ih =>
    cases hv' with
    | basic ht => cases ht.symm.trans hnone
    | again _ hmem => exact absurd hmem hnew
    | first _ _ hlength' hparts' =>
      rw [eq_of_zip hlength hlength' (fun p hp t' => ih p hp) hparts']

/-! ### Where nothing is abbreviated -/

lemma ownText?_of_holds (hvw : h.Holds v w) : v.ownText? inside = none := by
  cases v with
  | array _ | record _ => rfl
  | _ => cases hvw

lemma holds_of_mem_zip {p : Value × Bytes} (hp : p ∈ (h.parts v).zip ts) : h.Holds v p.1 :=
  (of_mem_zip hp).1

lemma Acyclic.of_holds (hv : h.Acyclic v) (hvw : h.Holds v w) : h.Acyclic w :=
  fun u hwu => hv u (.head hvw hwu)

lemma Plain.acc (hv : Plain h inside v t) : Acc (flip h.Holds) v := by
  induction hv with
  | basic ht =>
    refine ⟨_, fun w hw => ?_⟩
    cases ht.symm.trans (ownText?_of_holds hw)
  | @parts inside v ts hnone hlength _ ih =>
    refine ⟨_, fun w hw => ?_⟩
    obtain ⟨i, hi, rfl⟩ := mem_iff_getElem.mp hw
    have hmem : ((h.parts v)[i], ts[i]) ∈ (h.parts v).zip ts :=
      mem_iff_getElem.mpr ⟨i, by simp [hi, ← hlength], by simp⟩
    exact ih _ hmem

lemma Acyclic.avoids {u : Value} (hacyclic : h.Acyclic v) (hholds : h.Holds v u)
    (habove : ∀ w ∈ above, ¬Relation.ReflTransGen h.Holds v w) :
    ∀ w ∈ v :: above, ¬Relation.ReflTransGen h.Holds u w := by
  intro w hw hreach
  obtain rfl | hw := mem_cons.mp hw
  · exact hacyclic _ .refl (.head' hholds hreach)
  · exact habove w hw (.head hholds hreach)

lemma Plain.written (hv : Plain h inside v t) (hacyclic : h.Acyclic v)
    (habove : ∀ w ∈ above, ¬Relation.ReflTransGen h.Holds v w) : Written h above inside v t := by
  induction hv generalizing above with
  | basic ht => exact .basic ht
  | parts hnone hlength _ ih =>
    refine .first hnone (fun hmem => habove _ hmem .refl) hlength fun p hp => ?_
    have hholds := holds_of_mem_zip hp
    exact ih p hp (hacyclic.of_holds hholds) (hacyclic.avoids hholds habove)

lemma Written.plain (hv : Written h above inside v t) (hacyclic : h.Acyclic v)
    (habove : ∀ w ∈ above, ¬Relation.ReflTransGen h.Holds v w) : Plain h inside v t := by
  induction hv with
  | basic ht => exact .basic ht
  | again _ hmem => exact absurd .refl (habove _ hmem)
  | first hnone _ hlength _ ih =>
    refine .parts hnone hlength fun p hp => ?_
    have hholds := holds_of_mem_zip hp
    exact ih p hp (hacyclic.of_holds hholds) (hacyclic.avoids hholds habove)

/-! ### The printer comes to an end -/

lemma print_basic (depth : Nat) (ht : v.ownText? false = some t) : h.print depth v = pure t := by
  cases v with
  | array _ | record _ => cases ht
  | _ =>
    cases ht
    cases depth <;> rfl

lemma mapM_fields (print : Value → Printing Bytes) (fs : List (Bytes × Value)) :
    fs.mapM (fun f => Prod.mk f.1 <$> print f.2) =
      (fs.map Prod.fst).zip <$> (fs.map Prod.snd).mapM print := by
  induction fs with
  | nil => rfl
  | cons f fs ih => simp [ih]

lemma print_succ (depth : Nat) (hnone : v.ownText? inside = none) :
    h.print (depth + 1) v = opening v (h.short v)
      (h.whole v <$> (h.parts v).mapM (part (h.print depth))) := by
  cases v with
  | array ref =>
    rfl
  | record ref =>
    simp only [print, bind_pure_comp, mapM_fields]
    rfl
  | _ => cases hnone

lemma run_opening_of_mem {inside : Printing Bytes} (hv : v ∈ opened) :
    (opening v short inside).run opened = pure (short, opened) := by
  simp [opening, hv]

lemma run_opening {inside : Printing Bytes} (hv : v ∉ opened)
    (hinside : inside.run (v :: opened) = pure (t, v :: opened)) :
    (opening v short inside).run opened = pure (t, opened) := by
  simp [opening, hv, hinside]

/-- The arrays and the records of the heap. -/
def containers : Finset Value :=
  (Finset.range h.arrays.size).image .array ∪ (Finset.range h.records.size).image .record

lemma card_containers_le : h.containers.card ≤ h.size := by
  refine (Finset.card_union_le _ _).trans (Nat.add_le_add ?_ ?_)
  · exact Finset.card_image_le.trans (by simp)
  · exact Finset.card_image_le.trans (by simp)

lemma mem_containers (hvw : h.Holds v w) : v ∈ h.containers := by
  cases v with
  | array ref =>
    have hlt : ref < h.arrays.size := lt_size_of_elems fun hempty => by
      simp [Holds, parts, hempty] at hvw
    exact Finset.mem_union_left _ (Finset.mem_image_of_mem _ (mem_range.mpr hlt))
  | record ref =>
    have hlt : ref < h.records.size := lt_size_of_fields fun hempty => by
      simp [Holds, parts, hempty] at hvw
    exact mem_union_right _ (Finset.mem_image_of_mem _ (Finset.mem_range.mpr hlt))
  | _ => cases hvw

lemma printsAll_mapM
    (hprint : ∀ v, ∃ t, Prints h opened true v t opened ∧ (print v).run opened = pure (t, opened))
    (vs : List Value) :
    ∃ ts, PrintsAll h opened vs ts opened ∧ (vs.mapM print).run opened = pure (ts, opened) := by
  induction vs with
  | nil => exact ⟨[], .nil, rfl⟩
  | cons v vs ih =>
    obtain ⟨t, ht, hrun⟩ := hprint v
    obtain ⟨ts, hts, hruns⟩ := ih
    refine ⟨t :: ts, .cons ht hts, ?_⟩
    rw [mapM_cons, StateT.run_bind, hrun, pure_bind, StateT.run_bind, hruns]
    rfl

lemma exists_prints_part
    (hprint : ∃ t, Prints h opened false v t opened ∧ (print v).run opened = pure (t, opened)) :
    ∃ t, Prints h opened true v t opened ∧ (part print v).run opened = pure (t, opened) := by
  cases v with
  | string s => exact ⟨Quoted.text s, .basic rfl, rfl⟩
  | _ =>
    obtain ⟨t, ht, hrun⟩ := hprint
    refine ⟨t, ?_, hrun⟩
    cases ht with
    | basic ht => exact .basic ht
    | again hnone hmem => exact .again hnone hmem
    | first hnone hnew hall => exact .first hnone hnew hall

/-- The printer comes to an end before its depth is used up, and leaves open what was open. -/
theorem exists_prints {depth : Nat} (hdepth : unvisited h.containers opened < depth) (v : Value) :
    ∃ t, Prints h opened false v t opened ∧ (h.print depth v).run opened = pure (t, opened) := by
  induction depth generalizing opened v with
  | zero => exact absurd hdepth (Nat.not_lt_zero _)
  | succ depth ih =>
    cases hown : v.ownText? false with
    | some t => exact ⟨t, .basic hown, by rw [print_basic _ hown]; rfl⟩
    | none =>
      rw [print_succ depth hown]
      by_cases hmem : v ∈ opened
      · exact ⟨_, .again hown hmem, run_opening_of_mem hmem⟩
      · have hall : ∃ ts, PrintsAll h (v :: opened) (h.parts v) ts (v :: opened) ∧
            ((h.parts v).mapM (part (h.print depth))).run (v :: opened) =
              pure (ts, v :: opened) := by
          cases hparts : h.parts v with
          | nil => exact ⟨[], .nil, rfl⟩
          | cons w ws =>
            have hholds : h.Holds v w := by rw [Holds, hparts]; exact mem_cons_self
            have hlt := unvisited_cons_lt (mem_containers hholds) hmem
            exact printsAll_mapM (fun u => exists_prints_part (ih (by omega) u)) (w :: ws)
        obtain ⟨ts, hts, hrun⟩ := hall
        refine ⟨h.whole v ts, ?_, run_opening hmem ?_⟩
        · have hprints := Prints.first hown hmem hts
          rwa [erase_cons_head] at hprints
        · rw [StateT.run_map, hrun]
          rfl

/-- **The printer comes to an end**, on all heaps and with any arrays and records open, and leaves
open what was open; so the text of a value abbreviates the arrays and records that stand inside
themselves and nothing else.  The plain printer comes to an end exactly where no cycle can be
reached, and with the same text. -/
theorem text_spec : (∀ opened v depth, h.size < depth → ∃ t, Prints h opened false v t opened ∧
      (h.print depth v).run opened = pure (t, opened)) ∧
    (∀ v, Prints h [] false v (h.text v) []) ∧
    (∀ opened inside v, ∃ t, Prints h opened inside v t opened ∧
      ∀ t' left, Prints h opened inside v t' left → t' = t ∧ left = opened) ∧
    (∀ opened inside v t left, Prints h opened inside v t left → Written h opened inside v t) ∧
    (∀ v t, Plain h false v t ↔ h.Acyclic v ∧ t = h.text v) := by
  have hdepth : ∀ opened v depth, h.size < depth → ∃ t, Prints h opened false v t opened ∧
      (h.print depth v).run opened = pure (t, opened) := fun opened v depth hlt =>
    exists_prints (((unvisited_le_card _ _).trans h.card_containers_le).trans_lt hlt) v
  have hprints : ∀ v, Prints h [] false v (h.text v) [] := by
    intro v
    obtain ⟨t, ht, hrun⟩ := hdepth [] v _ (Nat.lt_succ_self _)
    rw [text, hrun]
    exact ht
  refine ⟨hdepth, hprints, fun opened inside v => ?_, fun _ _ _ _ _ hv => hv.written.2,
    fun v t => ?_⟩
  · have hexists : ∃ t, Prints h opened inside v t opened := by
      have hv := hdepth opened v _ (Nat.lt_succ_self _)
      cases inside with
      | false => exact hv.imp fun _ ht => ht.1
      | true => exact (exists_prints_part hv).imp fun _ ht => ht.1
    obtain ⟨t, ht⟩ := hexists
    exact ⟨t, ht, fun t' left ht' => ⟨ht'.written.2.unique ht.written.2, ht'.written.1⟩⟩
  · have hnone : ∀ w ∈ [], ¬Relation.ReflTransGen h.Holds v w := List.forall_mem_nil _
    constructor
    · intro hv
      have hacyclic : h.Acyclic v := fun w => not_cycle_of_acc hv.acc
      exact ⟨hacyclic, (hv.written hacyclic hnone).unique (hprints v).written.2⟩
    · rintro ⟨hacyclic, rfl⟩
      exact (hprints v).written.2.plain hacyclic hnone

/-- An array that holds itself, next to one that is shared. -/
example :
    let h : Heap := ⟨#[#[.array 0, .array 1, .array 1], #[.int 7]], #[]⟩
    h.text (.array 0) = Bytes.ofString "[[...], [7], [7]]" := by decide +kernel

end Heap

end Minilang
