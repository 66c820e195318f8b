import Minilang.Collection.OrderedMap
import Mathlib.Data.List.Induction
import Mathlib.Data.List.Nodup
import Mathlib.Tactic.Common

/-!
# Ordered maps are in step

The keys, the values and the table of places of an ordered map belong together: there are as many
values as keys, and the table gives the place of every key and of nothing else (`Valid`).  What a
map holds follows from the writes that made it: its keys are those that were ever written, each
where it was written first, with the value of the last write that replaces, or else of the first one
(`Refines`).
-/

namespace Minilang

open List

/-! ### Entries by key -/

variable {α β : Type} {k : α} {v : β}

section Entries

variable [BEq α] [LawfulBEq α] {l : List (α × β)}

lemma mem_of_lookup (h : l.lookup k = some v) : (k, v) ∈ l := by
  obtain ⟨l1, l2, rfl, -⟩ := lookup_eq_some_iff.mp h
  exact mem_append_right l1 mem_cons_self

lemma lookup_of_mem (hl : (l.map Prod.fst).Nodup) (h : (k, v) ∈ l) : l.lookup k = some v := by
  obtain ⟨l1, l2, rfl⟩ := append_of_mem h
  refine lookup_eq_some_iff.mpr ⟨l1, l2, rfl, fun e he => ?_⟩
  rw [bne_iff_ne]
  rintro rfl
  rw [map_append, nodup_append] at hl
  exact hl.2.2 e.1 (mem_map_of_mem he) e.1 mem_cons_self rfl

lemma find?_eq_some_iff {γ : Type} [DecidableEq γ] {f : β → γ} {l : List β} (hl : (l.map f).Nodup)
    {x : γ} {b : β} :
    l.find? (fun b => f b = x) = some b ↔ b ∈ l ∧ f b = x := by
  constructor
  · intro hb
    exact ⟨mem_of_find?_eq_some hb, by simpa using find?_some hb⟩
  · rintro ⟨hmem, rfl⟩
    have hsome : (l.find? fun a => f a = f b).isSome :=
      find?_isSome.mpr ⟨b, hmem, decide_eq_true rfl⟩
    obtain ⟨a, ha⟩ := Option.isSome_iff_exists.mp hsome
    have hab : f a = f b := by simpa using find?_some ha
    rw [ha, inj_on_of_nodup_map hl (mem_of_find?_eq_some ha) hmem hab]

lemma eraseDups_of_nodup {l : List α} (h : l.Nodup) : l.eraseDups = l := by
  induction l with
  | nil => rfl
  | cons a l ih =>
    obtain ⟨ha, hl⟩ := nodup_cons.mp h
    have hfilter : l.filter (fun b => !b == a) = l := by
      refine filter_eq_self.mpr fun b hb => ?_
      simpa using ne_of_mem_of_not_mem hb ha
    rw [eraseDups_cons, hfilter, ih hl]

end Entries

namespace OrderedMap

variable [BEq α] [Hashable α] {m : OrderedMap α β} {i : Nat}

/-- Every key has one place, that of its value. -/
structure Valid (m : OrderedMap α β) : Prop where
  size_eq : m.keys.size = m.values.size
  place : ∀ {k : α} {i : Nat}, m.places[k]? = some i ↔ m.keys[i]? = some k

lemma Valid.mem_iff (h : m.Valid) : k ∈ m.keys ↔ m.index? k ≠ none := by
  simp only [Array.mem_iff_getElem?, index?, ne_eq, Option.eq_none_iff_forall_ne_some, not_forall,
    not_not, h.place]

lemma Valid.nodup (h : m.Valid) : m.keys.toList.Nodup := by
  rw [nodup_iff_injective_get]
  intro i j hij
  have hplace (i : Fin m.keys.toList.length) : m.places[m.keys.toList.get i]? = some i.val :=
    h.place.mpr (by simp)
  have hi := hplace i
  rw [hij, hplace j] at hi
  exact Fin.ext (Option.some.inj hi).symm

/-- **The entries are listed by the places of their keys.** -/
theorem Valid.entry_iff (h : m.Valid) :
    m.toList[i]? = some (k, v) ↔ m.index? k = some i ∧ m.load? k = some v := by
  have hplace : m.index? k = some i ↔ m.keys[i]? = some k := h.place
  rw [toList, getElem?_zip_eq_some, Array.getElem?_toList, Array.getElem?_toList, hplace]
  refine and_congr_right fun hk => ?_
  rw [load?, hplace.mpr hk, Option.bind_some]

lemma Valid.map_fst_toList (h : m.Valid) : m.toList.map Prod.fst = m.keys.toList :=
  map_fst_zip (by simp [h.size_eq])

lemma Valid.lookup_reverse (h : m.Valid) [LawfulBEq α] (k : α) :
    m.toList.reverse.lookup k = m.load? k := by
  have hnodup : (m.toList.reverse.map Prod.fst).Nodup := by
    rw [map_reverse, nodup_reverse, h.map_fst_toList]
    exact h.nodup
  refine Option.ext fun v => ⟨fun hv => ?_, fun hv => lookup_of_mem hnodup (mem_reverse.mpr ?_)⟩
  · obtain ⟨i, hi⟩ := mem_iff_getElem?.mp (mem_reverse.mp (mem_of_lookup hv))
    exact (h.entry_iff.mp hi).2
  · obtain ⟨i, hi, -⟩ := Option.bind_eq_some_iff.mp hv
    exact mem_of_getElem? (h.entry_iff.mpr ⟨hi, hv⟩)

lemma valid_empty [EquivBEq α] [LawfulHashable α] : (empty : OrderedMap α β).Valid :=
  ⟨rfl, by simp [empty]⟩

/-! ### Writes -/

/-- An entry that is put into a map.  If its key is there, it may replace the value or leave it. -/
structure Write (α β : Type) where
  entry : α × β
  replaces : Bool

/-- The map after a write. -/
def write (m : OrderedMap α β) (w : Write α β) : OrderedMap α β :=
  if w.replaces then m.store w.entry.1 w.entry.2 else (m.intern w.entry.1 w.entry.2).1

/-- The map after some writes. -/
def writeAll (m : OrderedMap α β) (ws : List (Write α β)) : OrderedMap α β :=
  ws.foldl write m

/-- An operation on one of several maps, which are known by their numbers. -/
inductive Op (α β : Type) where
  | write (id : Nat) (w : Write α β)
  | clone (id : Nat)

/-- The maps after an operation, each with the writes that made it.  A clone takes over those of its
original. -/
def Op.apply (maps : List (OrderedMap α β × List (Write α β))) :
    Op α β → List (OrderedMap α β × List (Write α β))
  | .write id w => maps.modify id fun p => (p.1.write w, p.2 ++ [w])
  | .clone id => maps ++ (maps[id]?.map fun p => (p.1.clone, p.2)).toList

/-- The maps after some operations, each with the writes that it comes from. -/
def run (ops : List (Op α β)) : List (OrderedMap α β × List (Write α β)) :=
  ops.foldl Op.apply [(empty, [])]

lemma run_concat (ops : List (Op α β)) (op : Op α β) : run (ops ++ [op]) = Op.apply (run ops) op :=
  foldl_concat ..

lemma intern_of_none (h : m.index? k = none) (v : β) : m.intern k v = (m.push k v, m.size) := by
  simp only [intern, internAt, storeAt, h]

lemma intern_of_some (h : m.index? k = some i) (v : β) : m.intern k v = (m, i) := by
  simp only [intern, internAt, h]

lemma write_of_none {w : Write α β} (h : m.index? w.entry.1 = none) :
    m.write w = m.push w.entry.1 w.entry.2 := by
  rw [write, store, storeAt, h, intern_of_none h]
  exact ite_self _

lemma write_of_some {w : Write α β} (h : m.index? w.entry.1 = some i) :
    m.write w =
      if w.replaces then { m with values := m.values.setIfInBounds i w.entry.2 } else m := by
  rw [write, store, storeAt, h, intern_of_some h]

variable [LawfulBEq α]

lemma Valid.index_ne (h : m.Valid) {k' : α} (hk : m.index? k = some i) (hne : ¬(k == k') = true) :
    m.index? k' ≠ some i := by
  intro hk'
  have heq := (h.place.mp hk).symm.trans (h.place.mp hk')
  exact hne (beq_iff_eq.mpr (Option.some.inj heq))

variable [LawfulHashable α] (ops more : List (Op α β)) {ws : List (Write α β)}

lemma Valid.push (h : m.Valid) (hk : m.index? k = none) (v : β) : (m.push k v).Valid where
  size_eq := by simp [OrderedMap.push, h.size_eq]
  place := by
    intro k' i
    have hnot : m.places[k]? = none := hk
    simp only [OrderedMap.push, Std.HashMap.getElem?_insert, Array.getElem?_push]
    by_cases hkey : k = k'
    · subst hkey
      have hold : m.keys[i]? ≠ some k := fun hi => by simp [h.place.mpr hi] at hnot
      by_cases hi : i = m.keys.size <;> simp [hi, hold, eq_comm]
    · by_cases hi : i = m.keys.size
      · have hout : m.places[k']? ≠ some m.keys.size := fun hp => by simpa using h.place.mp hp
        simp [hi, hout]
      · simp [hkey, hi, h.place]

lemma Valid.load?_push (h : m.Valid) (k k' : α) (v : β) :
    (m.push k v).load? k' = if k == k' then some v else m.load? k' := by
  simp only [load?, index?, OrderedMap.push, Std.HashMap.getElem?_insert]
  split
  · simp [h.size_eq]
  · refine Option.bind_congr fun j hj => ?_
    have hlt := (getElem?_eq_some_iff.mp (h.place.mp hj)).1
    rw [h.size_eq] at hlt
    rw [Array.getElem?_push, if_neg (by omega)]

/-- What a write does: it adds its key behind the others unless it is there, and touches no value
but that of its key. -/
theorem Valid.write (h : m.Valid) (w : Write α β) : (m.write w).Valid ∧
    (m.write w).keys.toList = (if w.entry.1 ∈ m.keys then m.keys.toList else m.keys.toList ++
      [w.entry.1]) ∧
    ∀ k, (m.write w).load? k = if w.entry.1 == k then
      (if w.replaces then some w.entry.2 else (m.load? k).or (some w.entry.2)) else m.load? k := by
  cases hi : m.index? w.entry.1 with
  | none =>
    rw [write_of_none hi, if_neg (fun hmem => h.mem_iff.mp hmem hi)]
    refine ⟨h.push hi _, Array.toList_push, fun k => ?_⟩
    rw [h.load?_push]
    refine ite_congr rfl (fun heq => ?_) fun _ => rfl
    have hnone : m.load? k = none := by rw [load?, ← eq_of_beq heq, hi]; rfl
    simp [hnone]
  | some i =>
    have hlt : i < m.values.size := h.size_eq ▸ (getElem?_eq_some_iff.mp (h.place.mp hi)).1
    rw [write_of_some hi, if_pos (h.mem_iff.mpr (by simp [hi]))]
    cases w.replaces with
    | false =>
      refine ⟨h, rfl, fun k => ?_⟩
      by_cases heq : w.entry.1 == k
      · simp [← eq_of_beq heq, load?, hi, hlt]
      · simp [heq]
    | true =>
      refine ⟨⟨by simp [h.size_eq], h.place⟩, rfl, fun k => ?_⟩
      have hbind : ∀ vs, (⟨m.keys, vs, m.places⟩ : OrderedMap α β).load? k =
          (m.index? k).bind (vs[·]?) := fun _ => rfl
      simp only [if_true, hbind]
      split
      · rename_i heq
        simp [← eq_of_beq heq, hi, hlt]
      · rename_i hne
        refine Option.bind_congr fun j hj => Array.getElem?_setIfInBounds_ne ?_
        rintro rfl
        exact h.index_ne hi hne hj

/-- What a map holds after writes to the empty map. -/
structure Refines (m : OrderedMap α β) (ws : List (Write α β)) : Prop where
  valid : m.Valid
  keys : m.keys.toList = (ws.map fun w => w.entry.1).eraseDups
  load : ∀ k, m.load? k =
    (((ws.filter (·.replaces)).map (·.entry)).reverse.lookup k).or ((ws.map (·.entry)).lookup k)

lemma Refines.write (h : m.Refines ws) (w : Write α β) : (m.write w).Refines (ws ++ [w]) := by
  obtain ⟨hvalid, hkeys, hload⟩ := h.valid.write w
  obtain ⟨⟨k', v⟩, r⟩ := w
  have hmem : k' ∈ m.keys ↔ k' ∈ ws.map fun w => w.entry.1 := by
    rw [← Array.mem_toList_iff, h.keys, mem_eraseDups]
  refine ⟨hvalid, ?_, fun k => ?_⟩
  · rw [hkeys, map_append, eraseDups_append, h.keys]
    split <;> simp_all [removeAll, eraseDups_cons]
  · rw [hload, h.load, map_append, lookup_append, BEq.comm]
    cases r <;> cases hk : k == k' <;> simp [hk, lookup_cons]

lemma Valid.storeAll (h : m.Valid) (es : List (α × β)) :
    (es.foldl (fun m e => m.store e.1 e.2) m).Valid ∧
      ∀ k, (es.foldl (fun m e => m.store e.1 e.2) m).load? k =
      (es.reverse.lookup k).or (m.load? k) := by
  induction es using reverseRecOn with
  | nil => exact ⟨h, fun _ => rfl⟩
  | append_singleton es e ih =>
    obtain ⟨hvalid, -, hload⟩ := ih.1.write ⟨e, true⟩
    rw [foldl_concat]
    refine ⟨hvalid, fun k => (hload k).trans ?_⟩
    rw [ih.2, reverse_concat, lookup_cons, BEq.comm]
    cases k == e.1 <;> rfl

lemma refines_writeAll (ws : List (Write α β)) : (empty.writeAll ws).Refines ws := by
  induction ws using reverseRecOn with
  | nil => exact ⟨valid_empty, rfl, fun _ => by simp [writeAll, empty, load?]⟩
  | append_singleton ws w ih =>
    rw [writeAll, foldl_concat]
    exact ih.write w

/-- The map with entries for new keys. -/
def internAll (m : OrderedMap α β) (es : List (α × β)) : OrderedMap α β :=
  es.foldl (fun m e => (m.intern e.1 e.2).1) m

/-- **The keys of a map are those put into it, in the order in which they came first.** -/
theorem keys_internAll (es : List (α × β)) : (empty.internAll es).Valid ∧
    (empty.internAll es).keys.toList = (es.map Prod.fst).eraseDups := by
  have hrefines := refines_writeAll (es.map fun e => ⟨e, false⟩)
  rw [writeAll, foldl_map] at hrefines
  exact ⟨hrefines.valid, hrefines.keys.trans (by rw [map_map]; rfl)⟩

lemma Refines.clone (h : m.Refines ws) : m.clone.Refines ws where
  valid := (valid_empty.storeAll _).1
  keys := by
    have hkeys := (refines_writeAll (m.toList.map fun e => ⟨e, true⟩)).keys
    rw [writeAll, foldl_map, map_map] at hkeys
    rw [← h.keys, ← eraseDups_of_nodup h.valid.nodup]
    exact hkeys.trans (congrArg eraseDups h.valid.map_fst_toList)
  load k := by
    have hnone : (empty : OrderedMap α β).load? k = none := (refines_writeAll []).load k
    rw [← h.load, ← h.valid.lookup_reverse, OrderedMap.clone, ofList, (valid_empty.storeAll _).2,
      hnone, Option.or_none]

/-! ### Several maps -/

lemma refines_run (ops : List (Op α β)) : ∀ p ∈ run ops, p.1.Refines p.2 := by
  induction ops using reverseRecOn with
  | nil => exact forall_mem_singleton.mpr (refines_writeAll [])
  | append_singleton ops op ih =>
    rw [run_concat]
    intro p hp
    cases op with
    | write id w =>
      obtain ⟨j, hj⟩ := mem_iff_getElem?.mp hp
      rw [Op.apply, getElem?_modify] at hj
      obtain ⟨q, hq, rfl⟩ := Option.map_eq_some_iff.mp hj
      have hrefines := ih q (mem_of_getElem? hq)
      split
      · exact hrefines.write w
      · exact hrefines
    | clone id =>
      refine (mem_append.mp hp).elim (ih p) fun hp => ?_
      obtain ⟨q, hq, rfl⟩ := Option.map_eq_some_iff.mp (Option.mem_toList.mp hp)
      exact (ih q (mem_of_getElem? hq)).clone

lemma Valid.index?_write (h : m.Valid) (w : Write α β) (hk : m.index? k = some i) :
    (m.write w).index? k = some i := by
  obtain ⟨hvalid, hkeys, -⟩ := h.write w
  have hk' : m.keys.toList[i]? = some k := by simpa using h.place.mp hk
  refine hvalid.place.mpr ?_
  rw [← Array.getElem?_toList, hkeys]
  split
  · exact hk'
  · rw [getElem?_append_left (List.getElem?_eq_some_iff.mp hk').1, hk']

/-- A map keeps the places of its keys, and operations on other maps do not change it. -/
theorem run_append {id : Nat} {p : OrderedMap α β × List (Write α β)}
    (h : (run ops)[id]? = some p) : ∃ q, (run (ops ++ more))[id]? = some q ∧
      (∀ k i, p.1.index? k = some i → q.1.index? k = some i) ∧
      ((∀ w, Op.write id w ∉ more) → q = p) := by
  induction more using reverseRecOn with
  | nil => exact ⟨p, by rwa [append_nil], fun _ _ hi => hi, fun _ => rfl⟩
  | append_singleton more op ih =>
    obtain ⟨q, hq, hindex, hsame⟩ := ih
    have hvalid := (refines_run _ q (mem_of_getElem? hq)).valid
    rw [← append_assoc, run_concat]
    have hbefore : (∀ w, Op.write id w ∉ more ++ [op]) → q = p := fun hw =>
      hsame fun w hmem => hw w (mem_append_left _ hmem)
    cases op with
    | clone j =>
      have hlt := (List.getElem?_eq_some_iff.mp hq).1
      exact ⟨q, by rw [Op.apply, getElem?_append_left hlt, hq], hindex, hbefore⟩
    | write j w =>
      rw [Op.apply, getElem?_modify, hq]
      by_cases hj : j = id
      · refine ⟨_, rfl, fun k i hi => ?_, fun hw => absurd (by simp [hj]) (hw w)⟩
        simpa [hj] using hvalid.index?_write w (hindex k i hi)
      · exact ⟨q, by simp [hj], hindex, hbefore⟩

/-- What a store and an intern return: the place of the key, and whether it is new. -/
theorem Valid.returned (h : m.Valid) (k : α) (v : β) :
    (m.store k v).index? k = some (m.storeAt k v).2 ∧
      (m.internAt k v).1.index? k = some (m.internAt k v).2.1 ∧
      ((m.internAt k v).2.2 = true ↔ k ∉ m.keys) := by
  rw [store, internAt, storeAt, h.mem_iff]
  cases hi : m.index? k with
  | some i => exact ⟨hi, hi, by simp⟩
  | none =>
    have hpush : (m.push k v).index? k = some m.size := by simp [index?, OrderedMap.push, size]
    exact ⟨hpush, hpush, by simp⟩

/-- **An ordered map refines a finite map with ranks.** -/
theorem run_refines {id : Nat} {m : OrderedMap α β} {ws : List (Write α β)}
    (h : (run ops)[id]? = some (m, ws)) :
    m.Refines ws ∧ m.keys.toList.Nodup ∧
      (∀ i k v, m.toList[i]? = some (k, v) ↔ m.index? k = some i ∧ m.load? k = some v) ∧
      m.toList.map Prod.fst = m.keys.toList ∧ m.toList.map Prod.snd = m.values.toList ∧
      (∀ i, m.at? i = m.toList[i]?) ∧ (∀ k v, m.index? k ≠ none → (m.intern k v).1 = m) ∧
      (∀ k v, (m.store k v).index? k = some (m.storeAt k v).2 ∧
        (m.internAt k v).1.index? k = some (m.internAt k v).2.1 ∧
        ((m.internAt k v).2.2 = true ↔ k ∉ m.keys)) ∧
      ∃ m' ws', (run (ops ++ more))[id]? = some (m', ws') ∧
        (∀ k i, m.index? k = some i → m'.index? k = some i) ∧
        ((∀ w, Op.write id w ∉ more) → m' = m) := by
  have hrefines := refines_run ops _ (mem_of_getElem? h)
  have hvalid := hrefines.valid
  obtain ⟨⟨m', ws'⟩, hrun, hindex, hsame⟩ := run_append ops more h
  refine ⟨hrefines, hvalid.nodup, fun _ _ _ => hvalid.entry_iff, hvalid.map_fst_toList, ?_,
    fun i => ?_, fun k v hk => ?_, hvalid.returned, m', ws', hrun, hindex,
    fun hw => congrArg Prod.fst (hsame hw)⟩
  · exact map_snd_zip (by simp [hvalid.size_eq])
  · cases hk : m.keys[i]? <;> cases hv : m.values[i]? <;>
      simp [at?, toList, zip, getElem?_zipWith, hk, hv]
  · obtain ⟨i, hi⟩ := Option.ne_none_iff_exists'.mp hk
    rw [intern_of_some hi]

/-- A map that is cloned and then written to, and the clone, which is not. -/
theorem run_refines_cloned :
    let ops : List (Op Nat Nat) := [.write 0 ⟨(5, 1), true⟩, .clone 0]
    let more : List (Op Nat Nat) := [.write 0 ⟨(7, 2), false⟩, .write 0 ⟨(5, 3), true⟩]
    (∃ m ws, (run (ops ++ more))[0]? = some (m, ws) ∧ m.Refines ws ∧ m.keys.toList = [5, 7] ∧
      m.load? 5 = some 3) ∧
    ∃ c ws ws', (run ops)[1]? = some (c, ws) ∧ (run (ops ++ more))[1]? = some (c, ws') ∧
      c.Refines ws ∧ c.keys.toList = [5] ∧ c.load? 5 = some 1 := by
  intro ops more
  have hm := (@run_refines _ _ _ _ _ _ (ops ++ more) [] 0 _ _ rfl).1
  obtain ⟨hc, -, -, -, -, -, -, -, c', ws', hrun, -, hsame⟩ :=
    @run_refines _ _ _ _ _ _ ops more 1 _ _ rfl
  rw [hsame (by simp [more])] at hrun
  exact ⟨⟨_, _, rfl, hm, hm.keys, hm.load 5⟩, _, _, _, rfl, hrun, hc, hc.keys, hc.load 5⟩

end OrderedMap

end Minilang
