import Minilang.Proofs.Machine.Effects
import Mathlib.Data.List.Chain
import Mathlib.Data.UInt

/-!
# The layout of the stack

The parts of the stack that belong to the calls lie one above the other: each call has its local
variables above those of the call around it and above its operands.  This holds in every state that
a program comes to, whatever its bytecode is.  The local variables of the current call are on the
stack too, unless there are so many that their places are beyond the 64-bit integers.
-/

namespace Minilang.Machine

open Array

/-- The states that a program comes to. -/
inductive Reaches (p : Bytecode.Program) (cap : Int) : State → Prop
  | start {s : State} : start p cap = .ok s → Reaches p cap s
  | step {s s' : State} : Reaches p cap s → (step p cap).run s = .ok none s' →
      Reaches p cap s'

variable {p : Bytecode.Program} {cap : Int} {s : State}

/-- What holds at the start and after each step holds in every state that a program comes to. -/
theorem Reaches.induct {P : State → Prop} (hstart : ∀ s, Machine.start p cap = .ok s → P s)
    (hstep : ∀ s s', P s → Moves p cap s s' → P s') (hs : Reaches p cap s) : P s := by
  induction hs with
  | start h => exact hstart _ h
  | @step s s' _ hs' ih => exact hstep s s' ih ((step_spec p cap s).ok hs')

/-! ### Calls one above the other -/

variable {fr : Frame} {base bottom : Nat}

/-- Where the operands of a call begin. -/
def Frame.top (fr : Frame) : Nat :=
  fr.base + fr.locals

/-- All calls, the first one first. -/
def State.calls (s : State) : List Frame :=
  s.callers.toList ++ [s.frame]

/-- Each call is in a relation to the base of the next, and the last one to `base`. -/
structure Linked (R : Frame → Nat → Prop) (calls : List Frame) (base : Nat) : Prop where
  chain : calls.IsChain fun c d => R c d.base
  last : ∀ c ∈ calls.getLast?, R c base

lemma Linked.nil (R : Frame → Nat → Prop) (base : Nat) : Linked R [] base :=
  ⟨.nil, by simp⟩

lemma linked_concat {R : Frame → Nat → Prop} {calls : List Frame} :
    Linked R (calls ++ [fr]) base ↔ Linked R calls fr.base ∧ R fr base := by
  constructor
  · intro h
    obtain ⟨hchain, -, hlast⟩ := List.isChain_append.mp h.chain
    exact ⟨⟨hchain, fun c hc => hlast c hc fr (by simp)⟩, h.last fr (by simp)⟩
  · rintro ⟨h, hbase⟩
    refine ⟨List.isChain_append.mpr ⟨h.chain, List.isChain_singleton fr, fun c hc d hd => ?_⟩, ?_⟩
    · obtain rfl : fr = d := by simpa using hd
      exact h.last c hc
    · simpa using hbase

/-- Calls whose parts of the stack lie one above the other, from `bottom` up to the part that begins
at `base`. -/
structure Stacked (bottom : Nat) (calls : List Frame) (base : Nat) : Prop where
  bottom_eq : (calls.head?.map Frame.base).getD base = bottom
  apart : Linked (fun c base => c.top ≤ base) calls base

lemma Stacked.nil (base : Nat) : Stacked base [] base :=
  ⟨rfl, .nil _ base⟩

lemma stacked_concat {calls : List Frame} :
    Stacked bottom (calls ++ [fr]) base ↔ Stacked bottom calls fr.base ∧ fr.top ≤ base := by
  have hbottom : ((calls ++ [fr]).head?.map Frame.base).getD base =
      (calls.head?.map Frame.base).getD fr.base := by
    cases calls <;> rfl
  constructor
  · rintro ⟨h, hcalls⟩
    obtain ⟨hcalls, htop⟩ := linked_concat.mp hcalls
    exact ⟨⟨hbottom ▸ h, hcalls⟩, htop⟩
  · rintro ⟨⟨h, hcalls⟩, htop⟩
    exact ⟨hbottom ▸ h, linked_concat.mpr ⟨hcalls, htop⟩⟩

lemma Stacked.bottom_le {calls : List Frame} (h : Stacked bottom calls base) : bottom ≤ base := by
  induction calls using List.reverseRecOn generalizing base with
  | nil => exact le_of_eq h.bottom_eq.symm
  | append_singleton calls fr ih =>
    obtain ⟨hcalls, htop⟩ := stacked_concat.mp h
    have := ih hcalls
    simp only [Frame.top] at htop
    omega

/-! ### Every state of a run -/

/-- The places of the local variables are 64-bit integers. -/
def Frame.Fits (fr : Frame) : Prop :=
  (fr.base : Int) + fr.func.numLocals < 2 ^ 63

/-- The layout of the stack, with at most `cap` calls. -/
structure State.Layout (cap : Int) (s : State) : Prop where
  stacked : Stacked 0 s.callers.toList s.frame.base
  base_le : s.frame.base ≤ s.stack.size
  top_le : s.frame.Fits → s.frame.top ≤ s.stack.size
  depth : (s.callers.size : Int) < cap

lemma size_padded (stack : Array Value) (size : Nat) :
    (padded stack size).size = max stack.size size := by
  simp only [padded, size_append, size_replicate]
  omega

lemma size_makeRoom (fr : Frame) (stack : Array Value) :
    (fr.makeRoom stack).size = max stack.size fr.room :=
  size_padded stack fr.room

lemma room_newFrame {f : Bytecode.Func} {size args : Nat} (hargs : args < 2 ^ 62)
    (hfits : (newFrame f size args).Fits) :
    (newFrame f size args).room = (newFrame f size args).top := by
  refine if_pos ?_
  simp only [Frame.Fits, newFrame] at hfits ⊢
  omega

variable {s' : State}

lemma layout_start (h : start p cap = .ok s) : s.Layout cap := by
  unfold start at h
  split at h
  · cases h
  · rename_i f hf
    split at h
    · cases h
    · rename_i hdepth
      cases h
      refine ⟨Stacked.nil 0, Nat.zero_le _, fun hfits => ?_, by simpa using hdepth⟩
      rw [size_makeRoom]
      exact le_max_right _ _

lemma State.Layout.step (h : s.Layout cap) (hs : Moves p cap s s') : s'.Layout cap := by
  cases hs with
  | @operands i op ip vs next replaces takes gives stack ip_mem frame callers =>
    have hsize : s'.stack.size = s.stack.size - op.takes i.arg.toNat + vs.length := by
      rw [← length_toList, stack, List.length_append, length_toList, s.size_drop]
    have hframe : s'.frame.base = s.frame.base ∧ s'.frame.top = s.frame.top ∧
        s'.frame.func = s.frame.func := by
      rw [frame]
      exact ⟨rfl, rfl, rfl⟩
    obtain ⟨hbase, htop, hfunc⟩ := hframe
    have hbase_le := h.base_le
    have htop' : s.frame.top = s.frame.base + s.frame.locals := rfl
    simp only [operands] at takes
    refine ⟨by rw [callers, hbase]; exact h.stacked, by omega, fun hfits => ?_,
      by rw [callers]; exact h.depth⟩
    have := h.top_le (by rwa [Frame.Fits, ← hbase, ← hfunc])
    omega
  | @store i next takes size below frame callers =>
    have hframe : s'.frame.base = s.frame.base ∧
        s'.frame.top = s.frame.base + max s.frame.locals (i.arg.toNat + 1) := by
      rw [frame]
      exact ⟨rfl, rfl⟩
    obtain ⟨hbase, htop⟩ := hframe
    simp only [operands] at takes
    exact ⟨by rw [callers, hbase]; exact h.stacked, by omega, fun _ => by omega,
      by rw [callers]; exact h.depth⟩
  | @call i f next func params takes depth frame stack callers =>
    have hbase : s'.frame.base = s.stack.size - 1 - i.arg.toNat := by
      rw [frame]
      rfl
    have hsize : s'.stack.size = max (s.stack.size - 1) s'.frame.room := by
      rw [stack, size_makeRoom, s.size_drop]
    have htop : s.advanced.frame.top = s.frame.base + s.frame.locals := rfl
    simp only [operands] at takes
    refine ⟨?_, by omega, fun hfits => ?_, by rw [callers, size_push]; omega⟩
    · rw [callers, toList_push]
      exact stacked_concat.mpr ⟨h.stacked, by omega⟩
    · have hargs : i.arg.toNat < 2 ^ 62 := lt_trans i.arg.toNat_lt (by decide)
      rw [frame] at hfits
      rw [hsize, frame, room_newFrame hargs hfits]
      exact le_max_right _ _
  | ret returns stack callers =>
    have hstacked := h.stacked
    rw [callers, toList_push] at hstacked
    obtain ⟨hcaller, htop⟩ := stacked_concat.mp hstacked
    have hsize : s'.stack.size = min s.frame.base s.stack.size + 1 := by
      rw [← length_toList, stack, List.length_append, List.length_take]
      rfl
    have hbase_le := h.base_le
    have htop' : s'.frame.top = s'.frame.base + s'.frame.locals := rfl
    have hdepth := h.depth
    rw [callers, size_push] at hdepth
    exact ⟨hcaller, by omega, fun _ => by omega, by omega⟩

/-- **The layout of the stack in every state that a program comes to.** -/
theorem Reaches.layout (hs : Reaches p cap s) : s.Layout cap :=
  hs.induct (fun _ h => layout_start h) fun _ _ h hmoves => h.step hmoves

/-! ### A small program -/

/-- A program whose main function pushes a value, calls another and prints what that returns. -/
def relay : Bytecode.Program where
  consts := #[.string "kept", .func "answer" 1, .bool true]
  heap := .empty
  funcs := #[⟨"main", 0, 0, #[.of .const 0, .of .const 1, .of .call 0, .of .print 0], #[]⟩,
    ⟨"answer", 0, 1, #[.of .const 2, .of .store 0, .of .load 0, .of .ret 0], #[]⟩]
  entry := 0

/-- The states of the small program, which is allowed two calls. -/
def relayAfter : Nat → State
  | 0 => ⟨#[], newFrame relay.funcs[0] 0 0, #[], .empty, #[]⟩
  | n + 1 =>
    match (step relay 2).run (relayAfter n) with
    | .ok _ s | .error _ s => s

lemma reaches_relayAfter : Reaches relay 2 (relayAfter 6) := by
  have hstart : Reaches relay 2 (relayAfter 0) := .start rfl
  have hcall : Reaches relay 2 (relayAfter 3) := .step (.step (.step hstart rfl) rfl) rfl
  exact .step (.step (.step hcall rfl) rfl) rfl

end Minilang.Machine
