import Mathlib.Data.Finset.Card
import Mathlib.Logic.Relation

/-!
# Searches that keep what they have visited

The comparison and the printer of values and the search for the type of an alias follow references
that may lead back to where they are.  Each keeps a list of the places that it has visited and goes
on at new places only, so it comes to an end: the number of places that are left, `unvisited`, gets
smaller with every step.  Where all ways come to an end by themselves, there is no way back.
-/

namespace Minilang

section Unvisited

variable {α : Type} [DecidableEq α] {places : Finset α} {visited visited' : List α} {a : α}

/-- The number of places that a search has not visited. -/
def unvisited (places : Finset α) (visited : List α) : Nat :=
  (places.filter (· ∉ visited)).card

lemma unvisited_le_card (places : Finset α) (visited : List α) :
    unvisited places visited ≤ places.card :=
  Finset.card_filter_le _ _

lemma unvisited_le (h : visited ⊆ visited') :
    unvisited places visited' ≤ unvisited places visited := by
  refine Finset.card_le_card fun b hb => ?_
  rw [Finset.mem_filter] at hb ⊢
  exact ⟨hb.1, fun hmem => hb.2 (h hmem)⟩

lemma unvisited_cons_lt (ha : a ∈ places) (hnew : a ∉ visited) :
    unvisited places (a :: visited) < unvisited places visited := by
  refine Finset.card_lt_card (Finset.ssubset_iff_of_subset ?_ |>.mpr ⟨a, ?_, ?_⟩)
  · exact Finset.monotone_filter_right _ fun b _ hb hmem => hb (List.mem_cons_of_mem _ hmem)
  · exact Finset.mem_filter.mpr ⟨ha, hnew⟩
  · simp

end Unvisited

lemma not_cycle_of_acc {α : Type} {r : α → α → Prop} {a b : α} (ha : Acc (flip r) a)
    (hab : Relation.ReflTransGen r a b) : ¬Relation.TransGen r b b := by
  induction ha with
  | intro a _ ih =>
    obtain rfl | ⟨d, had, hdb⟩ := Relation.ReflTransGen.cases_head hab
    · -- A way back to the place leads through one of the next ones.
      intro hcycle
      obtain ⟨d, had, hda⟩ := Relation.TransGen.head'_iff.mp hcycle
      exact ih d had hda hcycle
    · exact ih d had hdb

end Minilang
