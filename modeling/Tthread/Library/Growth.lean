/-
# Relations that grow by fresh nodes

A relation grows by one node: some of its nodes are joined to the new one. Nothing leads
on from the new node, so what leads to the other nodes stays as it was, and the new node
is behind exactly what leads to one of the nodes that were joined to it.
-/

import Mathlib.Data.Set.Defs
import Mathlib.Logic.Relation

namespace Growth

open Relation

variable {α : Type*} {r : α → α → Prop} {s : Set α} {n a b : α}

/-- The relation with the nodes of a set joined to a further node. -/
def JoinTo (r : α → α → Prop) (s : Set α) (n : α) (a b : α) : Prop := r a b ∨ a ∈ s ∧ b = n

/-- Nothing leads from the node, and it is not joined to itself. -/
structure Fresh (r : α → α → Prop) (s : Set α) (n : α) : Prop where
  source : ∀ b, ¬ r n b
  outside : n ∉ s

/-- A node that nothing leads from has no path to any other. -/
theorem not_transGen_of_source (source : ∀ b, ¬ r a b) : ¬ TransGen r a b := by
  intro path
  obtain ⟨c, edge, -⟩ := TransGen.head'_iff.mp path
  exact source c edge

theorem eq_of_source (source : ∀ b, ¬ r a b) (path : ReflTransGen r a b) : b = a := by
  rcases reflTransGen_iff_eq_or_transGen.mp path with same | path
  · exact same
  · exact absurd path (not_transGen_of_source source)

/-- The paths to the other nodes do not change. -/
theorem transGen_joinTo_of_ne (fresh : Fresh r s n) (other : b ≠ n) :
    TransGen (JoinTo r s n) a b ↔ TransGen r a b := by
  constructor
  · intro path
    induction path with
    | single edge =>
      rcases edge with old | ⟨-, new⟩
      · exact .single old
      · exact absurd new other
    | tail _ edge ih =>
      rcases edge with old | ⟨-, new⟩
      · refine .tail (ih ?_) old
        rintro rfl
        exact fresh.source _ old
      · exact absurd new other
  · exact TransGen.mono (fun _ _ edge => .inl edge) a b

/-- The new node is behind what leads to the set. -/
theorem transGen_joinTo_self (fresh : Fresh r s n) (target : ∀ a, ¬ r a n) :
    TransGen (JoinTo r s n) a n ↔ ∃ c ∈ s, ReflTransGen r a c := by
  constructor
  · intro path
    obtain ⟨c, path, edge⟩ := TransGen.tail'_iff.mp path
    have member : c ∈ s := by
      rcases edge with old | ⟨member, -⟩
      · exact absurd old (target c)
      · exact member
    refine ⟨c, member, ?_⟩
    rcases reflTransGen_iff_eq_or_transGen.mp path with rfl | path
    · exact .refl
    · have other : c ≠ n := by
        rintro rfl
        exact fresh.outside member
      exact ((transGen_joinTo_of_ne fresh other).mp path).to_reflTransGen
  · rintro ⟨c, member, path⟩
    exact .tail' (ReflTransGen.mono (fun _ _ edge => .inl edge) a c path) (.inr ⟨member, rfl⟩)

end Growth
