import Minilang.Collection.Scope
import Minilang.Proofs.Collection.OrderedMap

/-!
# Scopes are nested environments

Looking up a name, listing all names and assigning a name go up the chain of scopes, each on its
own.  They agree after every history of definitions and assignments: the names listed are those that
are found, and an assignment goes to the nearest scope that defines the name and changes nothing
else (`chains_nest`).
-/

namespace Minilang.Scopes

open List

variable {α : Type} {s : Scopes α} {id t : Nat} {c : Scope} {name : Bytes} {v : α}

/-- The scopes after an assignment.  One that fails leaves them as they are. -/
def assigned (s : Scopes α) (id : Nat) (name : Bytes) (v : α) : Scopes α :=
  (s.assign id name v).toOption.getD s

/-- The scopes that operations lead to. -/
inductive Reachable : Scopes α → Prop where
  | empty : Reachable .empty
  | addScope {s : Scopes α} {parent : Option Nat} (h : Reachable s)
      (hparent : ∀ p ∈ parent, p < s.scopes.size) : Reachable (s.addScope parent)
  | addReadOnly {s : Scopes α} {parent : Option Nat} (h : Reachable s)
      (hparent : ∀ p ∈ parent, p < s.scopes.size) (names : List (Bytes × α)) :
      Reachable (s.addReadOnly parent names)
  | define {s : Scopes α} (h : Reachable s) (id : Nat) (name : Bytes) (v : α) :
      Reachable (s.define id name v)
  | assigned {s : Scopes α} (h : Reachable s) (id : Nat) (name : Bytes) (v : α) :
      Reachable (s.assigned id name v)

/-- Going up from a scope through writable ones, the first that defines a name. -/
inductive Target (s : Scopes α) (name : Bytes) : Nat → Nat → Prop where
  | here {id : Nat} {c : Scope} (hc : s.scopes[id]? = some c) (hwritable : c.writable = true)
      (hlocal : s.isLocal id name = true) : Target s name id id
  | up {id p t : Nat} {c : Scope} (hc : s.scopes[id]? = some c) (hwritable : c.writable = true)
      (hlocal : s.isLocal id name = false) (hp : c.parent = some p) (h : Target s name p t) :
      Target s name id t

/-! ### Definitions -/

/-- Every scope has the frame of its number and comes after its parent. -/
structure Valid (s : Scopes α) : Prop where
  size_eq : s.frames.size = s.scopes.size
  scope : ∀ {id : Nat} {c : Scope}, s.scopes[id]? = some c → c.frame = id ∧ ∀ p ∈ c.parent, p < id
  frames : ∀ {n : Nat} {m : OrderedMap Bytes α}, s.frames[n]? = some m → m.Valid

section

variable (h : s.Valid)

include h

lemma Valid.locals (c : Scope) : (s.locals c).Valid := by
  unfold Scopes.locals
  cases hm : s.frames[c.frame]? with
  | none => exact OrderedMap.valid_empty
  | some m => exact h.frames hm

lemma Valid.add {parent : Option Nat} (hparent : ∀ p ∈ parent, p < s.scopes.size)
    {names : OrderedMap Bytes α} (hnames : names.Valid) (writable : Bool) :
    (s.add parent names writable).Valid where
  size_eq := by simp [Scopes.add, h.size_eq]
  scope := by
    intro id c hc
    simp only [Scopes.add, Array.getElem?_push] at hc
    split at hc
    · cases hc
      exact ⟨h.size_eq.trans (by omega), by simpa [*] using hparent⟩
    · exact h.scope hc
  frames := by
    intro n m hm
    simp only [Scopes.add, Array.getElem?_push] at hm
    split at hm
    · exact Option.some.inj hm ▸ hnames
    · exact h.frames hm

lemma Valid.defineIn (c : Scope) (name : Bytes) (v : α) : (s.defineIn c name v).Valid where
  size_eq := by simp [Scopes.defineIn, h.size_eq]
  scope := h.scope
  frames := by
    intro n m hm
    rw [Scopes.defineIn, Array.getElem?_modify] at hm
    split at hm
    · obtain ⟨m', hm', rfl⟩ := Option.map_eq_some_iff.mp hm
      exact ((h.frames hm').write ⟨(name, v), true⟩).1
    · exact h.frames hm

section

variable (hc : s.scopes[id]? = some c)

include hc

omit h in
lemma define_eq (name : Bytes) (v : α) : s.define id name v = s.defineIn c name v := by
  rw [define, hc]

omit hc in
lemma Valid.define (id : Nat) (name : Bytes) (v : α) : (s.define id name v).Valid := by
  cases hc : s.scopes[id]? with
  | none => rwa [Scopes.define, hc]
  | some c => exact define_eq hc name v ▸ h.defineIn c name v

/-- A definition changes one name of one scope. -/
theorem Valid.load?_defineIn (c' : Scope) (k : Bytes) : ((s.defineIn c name v).locals c').load? k =
      if c'.frame = id ∧ name = k then some v else (s.locals c').load? k := by
  obtain ⟨rfl, -⟩ := h.scope hc
  have hm := Array.getElem?_eq_getElem (h.size_eq ▸ (getElem?_eq_some_iff.mp hc).1)
  by_cases hc' : c'.frame = c.frame
  · have hload := ((h.frames hm).write ⟨(name, v), true⟩).2.2 k
    simpa [Scopes.locals, Scopes.defineIn, hc', hm, Array.getElem?_modify, OrderedMap.write]
      using hload
  · simp [Scopes.locals, Scopes.defineIn, hc', Array.getElem?_modify, Ne.symm hc']

omit hc in
omit h in
lemma chain_defineIn (c : Scope) (name : Bytes) (v : α) (id : Nat) :
    (s.defineIn c name v).chain id = s.chain id := by
  fun_induction s.chain id with
  | case1 id h => rw [chain, defineIn, h]
  | case2 id c' h ih =>
    rw [chain, defineIn, h]
    refine congrArg (c' :: ·) ?_
    cases c'.parent with
    | none => rfl
    | some p => exact ite_congr rfl (ih p) fun _ => rfl

/-! ### Chains -/

lemma Valid.chain_eq : s.chain id = c :: (c.parent.map s.chain).getD [] := by
  rw [chain, hc]
  cases hp : c.parent with
  | none => simp [hp]
  | some p => simp [hp, (h.scope hc).2 p hp]

lemma Valid.find?_eq (k : Bytes) :
    s.find? id k = ((s.locals c).load? k).or (c.parent.bind (s.find? · k)) := by
  rw [find?, h.chain_eq hc, findSome?_cons]
  cases (s.locals c).load? k <;> cases c.parent <;> rfl

end

/-- **The names in sight are those that are found, with their values.** -/
theorem Valid.items (id : Nat) : (s.items id).Valid ∧ ∀ k, (s.items id).load? k = s.find? id k := by
  unfold Scopes.items find?
  induction s.chain id with
  | nil => exact ⟨OrderedMap.valid_empty, fun k => (OrderedMap.refines_writeAll []).load k⟩
  | cons c cs ih =>
    obtain ⟨hvalid, hload⟩ := ih.1.storeAll (s.locals c).toList
    refine ⟨hvalid, fun k => ?_⟩
    rw [foldr_cons, hload, ih.2, (h.locals c).lookup_reverse, findSome?_cons]
    cases (s.locals c).load? k <;> rfl

/-! ### Assignments -/

lemma Valid.assign_cases (name : Bytes) (v : α) (hc : s.scopes[id]? = some c) :
    (∃ t, s.Target name id t ∧ s.assign id name v = .ok (s.define t name v)) ∨
      (∀ t, ¬s.Target name id t) ∧ ∃ e, s.assign id name v = .error e := by
  induction id using Nat.strongRecOn generalizing c with
  | ind id ih =>
    have hisLocal : s.isLocal id name = (s.locals c).contains name := by rw [isLocal, hc]
    rw [assign, h.chain_eq hc, assignIn]
    cases hwritable : c.writable with
    | false =>
      refine .inr ⟨fun t ht => ?_, _, rfl⟩
      cases ht <;> simp_all
    | true =>
      cases hlocal : (s.locals c).contains name with
      | true =>
        exact .inl ⟨id, .here hc hwritable (hisLocal.trans hlocal), by rw [define_eq hc]; rfl⟩
      | false =>
        cases hp : c.parent with
        | none =>
          refine .inr ⟨fun t ht => ?_, _, rfl⟩
          cases ht <;> simp_all
        | some p =>
          have hlt := (h.scope hc).2 p hp
          have hsize := (getElem?_eq_some_iff.mp hc).1
          obtain ⟨t, ht, hassign⟩ | ⟨hnot, herror⟩ :=
            ih p hlt (Array.getElem?_eq_getElem (by omega))
          · exact .inl ⟨t, .up hc hwritable (hisLocal.trans hlocal) hp ht, hassign⟩
          · refine .inr ⟨fun t ht => ?_, herror⟩
            cases ht with
            | here => simp_all
            | up hc' _ _ hp' ht =>
              cases hc.symm.trans hc'
              cases hp.symm.trans hp'
              exact hnot t ht

omit h in
lemma Target.exists_scope (h : s.Target name id t) : ∃ c, s.scopes[t]? = some c := by
  induction h with
  | here hc => exact ⟨_, hc⟩
  | up _ _ _ _ _ ih => exact ih

lemma Valid.find?_target (htarget : s.Target name id t) (v : α) :
    (s.define t name v).find? id name = some v := by
  obtain ⟨c, hc⟩ := htarget.exists_scope
  have hdefine := @h.load?_defineIn _ _ _ _ name v hc
  rw [define_eq hc]
  induction htarget with
  | here hc' =>
    rw [(h.defineIn c name v).find?_eq hc', hdefine, if_pos ⟨(h.scope hc').1, rfl⟩]
    rfl
  | @up id p t c' hc' _ hlocal hp _ ih =>
    rw [(h.defineIn c name v).find?_eq hc', hdefine, hp, Option.bind_some, ih hc hdefine]
    split
    · rfl
    · rw [isLocal, hc'] at hlocal
      rw [OrderedMap.load?, OrderedMap.index?,
        Std.HashMap.getElem?_eq_none_of_contains_eq_false hlocal]
      rfl

end

lemma Reachable.valid (h : s.Reachable) : s.Valid := by
  induction h with
  | empty => exact ⟨rfl, by simp [Scopes.empty], by simp [Scopes.empty]⟩
  | addScope _ hparent ih => exact ih.add hparent OrderedMap.valid_empty true
  | addReadOnly _ hparent names ih =>
    exact ih.add hparent (OrderedMap.valid_empty.storeAll names).1 false
  | define _ id name v ih => exact ih.define id name v
  | @assigned s _ id name v ih =>
    unfold Scopes.assigned
    cases hc : s.scopes[id]? with
    | none =>
      rw [assign, chain, hc]
      exact ih
    | some c =>
      obtain ⟨t, -, hassign⟩ | ⟨-, e, hassign⟩ := ih.assign_cases name v hc
      · rw [hassign]
        exact ih.define t name v
      · rw [hassign]
        exact ih

/-- The value that a scope itself gives a name. -/
def own? (s : Scopes α) (id : Nat) (k : Bytes) : Option α :=
  s.scopes[id]?.bind fun c => (s.locals c).load? k

/-- **Scopes behave as nested environments.**  The names in sight of a scope are those that are
found there.  An assignment goes to the first scope that defines the name, going up through writable
scopes; it changes this binding and no other, and fails, changing nothing, if there is no such
scope. -/
theorem chains_nest (h : s.Reachable) (hid : id < s.scopes.size) :
    (s.items id).Valid ∧ (∀ k, (s.items id).load? k = s.find? id k) ∧
      ∀ name v, match s.assign id name v with
        | .error _ => (∀ t, ¬s.Target name id t) ∧ s.assigned id name v = s
        | .ok s' => s.assigned id name v = s' ∧ ∃ t, s.Target name id t ∧ s'.scopes = s.scopes ∧
          s'.find? id name = some v ∧
          (∀ j k, s'.own? j k = if j = t ∧ name = k then some v else s.own? j k) ∧
          ∀ j k, k ≠ name → s'.find? j k = s.find? j k := by
  have hvalid := h.valid
  obtain ⟨hitems, hload⟩ := hvalid.items id
  refine ⟨hitems, hload, fun name v => ?_⟩
  obtain ⟨t, ht, hassign⟩ | ⟨hnot, e, hassign⟩ :=
    hvalid.assign_cases name v (Array.getElem?_eq_getElem hid)
  · obtain ⟨c, hc⟩ := ht.exists_scope
    have hfind := hvalid.find?_target ht v
    have hdefine := @hvalid.load?_defineIn _ _ _ _ name v hc
    simp only [assigned, hassign]
    rw [define_eq hc] at hfind ⊢
    refine ⟨rfl, t, ht, rfl, hfind, fun j k => ?_, fun j k hk => ?_⟩
    · have hscopes : (s.defineIn c name v).scopes = s.scopes := rfl
      rw [own?, own?, hscopes]
      cases hj : s.scopes[j]? with
      | none =>
        have hne : j ≠ t := by rintro rfl; cases hj.symm.trans hc
        simp [hne]
      | some c' => rw [Option.bind_some, hdefine, (hvalid.scope hj).1, Option.bind_some]
    · unfold find?
      rw [chain_defineIn]
      exact congrArg (findSome? · _)
        (funext fun c' => by rw [hdefine, if_neg (fun h => hk h.2.symm)])
  · simp only [assigned, hassign]
    exact ⟨hnot, rfl⟩

/-- A scope in a read-only one, which is in a scope. -/
theorem chains_nest_read_only : ∃ s : Scopes Nat, s.scopes.size = 3 ∧ s.Reachable ∧
    ∀ k, (s.items 2).load? k = s.find? 2 k := by
  have hreachable : (((((empty : Scopes Nat).addScope none).define 0 "x" 1).addReadOnly (some 0)
      [("y", 2)]).addScope (some 1)).Reachable :=
    .addScope (.addReadOnly (.define (.addScope .empty (by simp)) 0 "x" 1) (by decide) _)
      (by decide)
  exact ⟨_, rfl, hreachable, (chains_nest hreachable (by decide)).2.1⟩

end Minilang.Scopes
