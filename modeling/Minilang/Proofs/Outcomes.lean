import Mathlib.Tactic.Common

/-!
# How a run ends

The parser, the checker, the lowering and the generator run with a state and may stop with an error.
`Ends` says of a run what its result and its last state are, or what its error is.
-/

namespace Minilang

variable {σ ε α β : Type} {m : StateT σ (Except ε) α} {f : α → StateT σ (Except ε) β} {s s' : σ}

lemma run_bind_ok {r : β × σ} (h : (m >>= f).run s = .ok r) :
    ∃ a s', m.run s = .ok (a, s') ∧ (f a).run s' = .ok r := by
  rw [StateT.run_bind] at h
  cases hm : m.run s with
  | error e =>
    rw [hm] at h
    cases h
  | ok res =>
    rw [hm] at h
    exact ⟨res.1, res.2, rfl, h⟩

/-- A run that begins in a state ends with a result and a state of one kind, or with an error of
another. -/
def Ends (m : StateT σ (Except ε) α) (s : σ) (Q : α → σ → Prop) (E : ε → Prop := fun _ => True) :
    Prop :=
  match m.run s with
  | .ok (a, s') => Q a s'
  | .error e => E e

namespace Ends

variable {Q Q' : α → σ → Prop} {E : ε → Prop} {e : ε} {a : α}

lemma ok (h : Ends m s Q E) (hm : m.run s = .ok (a, s')) : Q a s' := by
  rw [Ends, hm] at h
  exact h

lemma error (h : Ends m s Q E) (hm : m.run s = .error e) : E e := by
  rw [Ends, hm] at h
  exact h

lemma of_run (hok : ∀ a s', m.run s = .ok (a, s') → Q a s')
    (herror : ∀ e, m.run s = .error e → E e) : Ends m s Q E := by
  rw [Ends]
  split
  · rename_i a s' hm
    exact hok a s' hm
  · rename_i e hm
    exact herror e hm

lemma pure (h : Q a s) : Ends (pure a : StateT σ (Except ε) α) s Q E := h

lemma get {Q : σ → σ → Prop} (h : Q s s) : Ends (get : StateT σ (Except ε) σ) s Q E := h

lemma throw (h : E e) : Ends (throw e : StateT σ (Except ε) α) s Q E := h

lemma bind {Q : β → σ → Prop} (h : Ends m s (fun a s' => Ends (f a) s' Q E) E) :
    Ends (m >>= f) s Q E := by
  rw [Ends, StateT.run_bind]
  cases hm : m.run s with
  | ok r => exact h.ok hm
  | error e => exact h.error hm

lemma imp {E' : ε → Prop} (h : Ends m s Q E) (hQ : ∀ a s', Q a s' → Q' a s')
    (hE : ∀ e, E e → E' e) : Ends m s Q' E' :=
  of_run (fun a s' hm => hQ a s' (h.ok hm)) fun e hm => hE e (h.error hm)

lemma mono (h : Ends m s Q E) (hQ : ∀ a s', Q a s' → Q' a s') : Ends m s Q' E :=
  h.imp hQ fun _ h => h

lemma chain {Q' : β → σ → Prop} (h : Ends m s Q E) (hf : ∀ a s', Q a s' → Ends (f a) s' Q' E) :
    Ends (m >>= f) s Q' E :=
  .bind (h.mono hf)

lemma run {Q : β → σ → Prop} (hf : ∀ a s', m.run s = .ok (a, s') → Ends (f a) s' Q) :
    Ends (m >>= f) s Q :=
  .bind (.of_run hf fun _ _ => trivial)

end Ends

end Minilang
