/-
# Redundant edges

An edge of an acyclic graph is redundant if there is a longer path between its ends. All
redundant edges can be taken out at once without losing a path: between the ends of each
there are edges that span less.
-/

import Mathlib.Data.Finset.Card
import Mathlib.Logic.Relation

namespace Redundant

open Relation

variable {α : Type*} {r r' : α → α → Prop}

/-- There is a path of at least two edges. -/
def LongPath (r : α → α → Prop) (a b : α) : Prop := ∃ c, TransGen r a c ∧ TransGen r c b

/-- A finite acyclic graph has a number for each node that its edges raise. -/
theorem exists_rank {nodes : Finset α} (inside : ∀ a b, r a b → a ∈ nodes)
    (acyclic : ∀ a, ¬ TransGen r a a) : ∃ rank : α → ℕ, ∀ a b, r a b → rank a < rank b := by
  classical
  -- the number of nodes in front
  refine ⟨fun a => (nodes.filter fun x => TransGen r x a).card, fun a b edge => ?_⟩
  refine Finset.card_lt_card (Finset.ssubset_iff_of_subset ?_ |>.mpr ⟨a, ?_, ?_⟩)
  · intro x member
    obtain ⟨node, path⟩ := Finset.mem_filter.mp member
    exact Finset.mem_filter.mpr ⟨node, path.tail edge⟩
  · exact Finset.mem_filter.mpr ⟨inside a b edge, .single edge⟩
  · intro member
    exact acyclic a (Finset.mem_filter.mp member).2

theorem rank_lt {rank : α → ℕ} (up : ∀ a b, r a b → rank a < rank b) {a b : α}
    (path : TransGen r a b) : rank a < rank b := by
  induction path with
  | single edge => exact up _ _ edge
  | tail _ edge ih => exact ih.trans (up _ _ edge)

/-- **Without redundant edges there are the same paths.** -/
theorem transGen_of_kept {rank : α → ℕ} (up : ∀ a b, r a b → rank a < rank b)
    (kept : ∀ a b, r a b → r' a b ∨ LongPath r a b) {a b : α} (path : TransGen r a b) :
    TransGen r' a b := by
  -- by induction on the span of the path
  obtain ⟨span, bound⟩ : ∃ span, rank b < rank a + span := ⟨rank b + 1, by omega⟩
  induction span generalizing a b with
  | zero =>
    have := rank_lt up path
    omega
  | succ span ih =>
    have parts : ∀ c, TransGen r a c → TransGen r c b → TransGen r' a b := by
      intro c front back
      have low := rank_lt up front
      have high := rank_lt up back
      exact (ih front (by omega)).trans (ih back (by omega))
    cases path with
    | single edge =>
      obtain direct | ⟨c, front, back⟩ := kept a b edge
      · exact .single direct
      · exact parts c front back
    | tail front edge => exact parts _ front (.single edge)

/-- Paths within a part of the graph that the change leaves alone are still there. -/
theorem reach_congr {x y : α}
    (same : ∀ a, ReflTransGen r x a → ∀ b, r' a b ↔ r a b) :
    ReflTransGen r' x y ↔ ReflTransGen r x y := by
  constructor
  · intro path
    induction path with
    | refl => exact .refl
    | tail _ edge ih => exact ih.tail ((same _ ih _).mp edge)
  · intro path
    induction path with
    | refl => exact .refl
    | tail front edge ih => exact ih.tail ((same _ front _).mpr edge)

end Redundant
