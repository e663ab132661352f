/-
# Graphs that grow forward, and their frontiers

The nodes of a growing graph are numbered in the order in which they are added,
and every edge leads to a node when that node is added, from an earlier one. So
paths lead forward, and later nodes change no path between earlier ones. A frontier
covers a node if the node is on it or has a path to it; joining a new node to the
whole frontier puts it behind everything that is covered.
-/

import Mathlib.Algebra.Order.Group.Nat
import Mathlib.Logic.Relation

namespace Frontier

open Relation

variable {edges new : List (ℕ × ℕ)} {a b c n : ℕ} {frontier other : Set ℕ}

/-- The edge relation of a list of edges. -/
def Edge (edges : List (ℕ × ℕ)) (a b : ℕ) : Prop := (a, b) ∈ edges

/-- A path of at least one edge. -/
def Path (edges : List (ℕ × ℕ)) : ℕ → ℕ → Prop := TransGen (Edge edges)

/-- A path, or the node itself. -/
def Upto (edges : List (ℕ × ℕ)) : ℕ → ℕ → Prop := ReflTransGen (Edge edges)

/-- Every edge leads from an earlier node to one of the first `n`. -/
def Forward (edges : List (ℕ × ℕ)) (n : ℕ) : Prop := ∀ a b, (a, b) ∈ edges → a < b ∧ b < n

theorem Path.upto (path : Path edges a b) : Upto edges a b := TransGen.to_reflTransGen path

theorem Upto.refl (edges : List (ℕ × ℕ)) (a : ℕ) : Upto edges a a := ReflTransGen.refl

theorem Upto.trans (first : Upto edges a b) (second : Upto edges b c) : Upto edges a c :=
  ReflTransGen.trans first second

theorem Upto.path_edge (first : Upto edges a b) (edge : (b, c) ∈ edges) : Path edges a c :=
  TransGen.tail' first edge

theorem Path.append (path : Path edges a b) (new : List (ℕ × ℕ)) : Path (edges ++ new) a b :=
  TransGen.mono (fun _ _ edge => List.mem_append_left new edge) a b path

theorem Upto.append (path : Upto edges a b) (new : List (ℕ × ℕ)) : Upto (edges ++ new) a b :=
  ReflTransGen.mono (fun _ _ edge => List.mem_append_left new edge) a b path

/-- Paths lead forward. -/
theorem Path.lt (forward : Forward edges n) (path : Path edges a b) : a < b ∧ b < n := by
  induction path with
  | single edge => exact forward _ _ edge
  | tail _ edge ih => exact ⟨ih.1.trans (forward _ _ edge).1, (forward _ _ edge).2⟩

/-- The first edge of a path. -/
theorem Path.first_edge (path : Path edges a c) : ∃ b, (a, b) ∈ edges ∧ Upto edges b c := by
  obtain ⟨b, edge, rest⟩ := TransGen.head'_iff.mp path
  exact ⟨b, edge, rest⟩

theorem Upto.le (forward : Forward edges n) (path : Upto edges a b) : a ≤ b := by
  rcases reflTransGen_iff_eq_or_transGen.mp path with rfl | path
  · exact le_rfl
  · exact (Path.lt forward path).1.le

/-- The node is on the frontier or has a path to it. -/
def Covered (edges : List (ℕ × ℕ)) (frontier : Set ℕ) (a : ℕ) : Prop :=
  ∃ f ∈ frontier, Upto edges a f

/-- A frontier whose nodes are covered by another one covers no more. -/
theorem Covered.trans (covered : Covered edges frontier a)
    (moved : ∀ f ∈ frontier, Covered edges other f) : Covered edges other a := by
  obtain ⟨f, member, path⟩ := covered
  obtain ⟨g, member', path'⟩ := moved f member
  exact ⟨g, member', path.trans path'⟩

theorem Covered.append (covered : Covered edges frontier a) (new : List (ℕ × ℕ)) :
    Covered (edges ++ new) frontier a := by
  obtain ⟨f, member, path⟩ := covered
  exact ⟨f, member, path.append new⟩

/-- A node that the whole frontier is joined to is behind everything covered. -/
theorem Covered.path (covered : Covered edges frontier a)
    (joined : ∀ f ∈ frontier, (f, n) ∈ edges) : Path edges a n := by
  obtain ⟨f, member, path⟩ := covered
  exact path.path_edge (joined f member)

end Frontier
