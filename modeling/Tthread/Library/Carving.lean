/-
# Families of disjoint parts that are cut up further

An allocator owns a space and hands out parts of parts of it. Whatever it does, a step takes
some of a part away and gives it to other parts, and so keeps all parts disjoint. Lists that
share no item, and none twice, are kept in the same way while items move between them.
-/

import Mathlib.Data.List.Nodup
import Mathlib.Data.Set.BooleanAlgebra
import Mathlib.Data.Set.Pairwise.Basic
import Mathlib.Order.CompletePartialOrder

namespace Carving

variable {ι α β : Type*} {f g : ι → Set α} {source : ι} {whole : Set α}

/-- What two parts share tells that they are one. -/
theorem eq_of_mem (apart : Pairwise (Function.onFun Disjoint f)) {i j : ι} {x : α}
    (left : x ∈ f i) (right : x ∈ f j) : i = j := by
  by_contra different
  exact Set.disjoint_left.mp (apart different) left right

/-- **Carving keeps parts disjoint.** Each item of a piece of one part gets a new owner, and
the part keeps nothing else of the piece. -/
theorem pairwise_carve (apart : Pairwise (Function.onFun Disjoint f)) (inside : whole ⊆ f source)
    (owner : α → ι) (cut : ∀ i, ∀ x ∈ g i,
      x ∈ whole ∧ i = owner x ∨ x ∈ f i ∧ (i = source → x ∉ whole)) :
    Pairwise (Function.onFun Disjoint g) := by
  intro i j different
  apply Set.disjoint_left.mpr
  intro x left right
  apply different
  -- An item of the piece is in the source, so no other part has it from before.
  have outside : ∀ k, x ∈ f k → (k = source → x ∉ whole) → x ∉ whole := by
    intro k old apart_of piece
    exact apart_of (eq_of_mem apart old (inside piece)) piece
  rcases cut i x left with ⟨piece, rfl⟩ | ⟨old, keeps⟩
  · rcases cut j x right with ⟨-, rfl⟩ | ⟨old', keeps'⟩
    · rfl
    · exact absurd piece (outside j old' keeps')
  · rcases cut j x right with ⟨piece, rfl⟩ | ⟨old', -⟩
    · exact absurd piece (outside i old keeps)
    · exact eq_of_mem apart old old'

/-- Parts that shrink stay disjoint. -/
theorem pairwise_shrink (apart : Pairwise (Function.onFun Disjoint f)) (sub : ∀ i, g i ⊆ f i) :
    Pairwise (Function.onFun Disjoint g) := fun i j different =>
  (apart different).mono (sub i) (sub j)

/-! ## Lists that share nothing -/

/-- No item is in two of the lists, or in one of them twice. -/
structure Spread (lists : ι → List α) : Prop where
  nodup : ∀ i, (lists i).Nodup
  single : ∀ x i j, x ∈ lists i → x ∈ lists j → i = j

namespace Spread

variable {lists lists' : ι → List α} {i : ι} {x : α}

theorem shrink (spread : Spread lists) (sub : ∀ i, (lists' i).Sublist (lists i)) :
    Spread lists' where
  nodup i := (spread.nodup i).sublist (sub i)
  single x i j left right := spread.single x i j ((sub i).subset left) ((sub j).subset right)

variable [DecidableEq ι]

/-- The first item of a list is nowhere once it has left the list. -/
theorem pop (spread : Spread lists) {rest : List α} (first : lists i = x :: rest) :
    Spread (Function.update lists i rest) ∧ ∀ j, x ∉ Function.update lists i rest j := by
  constructor
  · apply spread.shrink
    intro j
    by_cases same : j = i
    · subst same
      rw [Function.update_self, first]
      exact List.sublist_cons_self x rest
    · rw [Function.update_of_ne same]
  · intro j member
    by_cases same : j = i
    · subst same
      rw [Function.update_self] at member
      exact (List.nodup_cons.mp (first ▸ spread.nodup j)).1 member
    · rw [Function.update_of_ne same] at member
      exact same (spread.single x j i member (first ▸ List.mem_cons_self))

/-- An item that is nowhere joins a list. -/
theorem push (spread : Spread lists) (nowhere : ∀ j, x ∉ lists j) :
    Spread (Function.update lists i (x :: lists i)) := by
  have member : ∀ j y, y ∈ Function.update lists i (x :: lists i) j →
      y = x ∧ j = i ∨ y ∈ lists j ∧ y ≠ x := by
    intro j y inside
    have other : ∀ j, y ∈ lists j → y ≠ x := fun j old same => nowhere j (same ▸ old)
    by_cases same : j = i
    · subst same
      rw [Function.update_self] at inside
      rcases List.mem_cons.mp inside with rfl | old
      · exact .inl ⟨rfl, rfl⟩
      · exact .inr ⟨old, other j old⟩
    · rw [Function.update_of_ne same] at inside
      exact .inr ⟨inside, other j inside⟩
  constructor
  · intro j
    by_cases same : j = i
    · subst same
      rw [Function.update_self]
      exact List.nodup_cons.mpr ⟨nowhere j, spread.nodup j⟩
    · rw [Function.update_of_ne same]
      exact spread.nodup j
  · intro y j k left right
    rcases member j y left with ⟨new, rfl⟩ | ⟨old, different⟩
    · rcases member k y right with ⟨-, rfl⟩ | ⟨-, different⟩
      · rfl
      · exact absurd new different
    · rcases member k y right with ⟨new, -⟩ | ⟨old', -⟩
      · exact absurd new different
      · exact spread.single y j k old old'

end Spread

/-- Of items with different keys, the first with a key is the only one. -/
theorem ne_of_mem_eraseP [DecidableEq β] {key : α → β} {items : List α} {k : β} {x : α}
    (distinct : (items.map key).Nodup) (member : x ∈ items.eraseP fun y => key y = k) :
    key x ≠ k := by
  induction items with
  | nil => cases member
  | cons y rest ih =>
    obtain ⟨absent, distinct⟩ := List.nodup_cons.mp distinct
    by_cases found : key y = k
    · rw [List.eraseP_cons_of_pos (by simpa using found)] at member
      exact fun same => absent (found.trans same.symm ▸ List.mem_map_of_mem member)
    · rw [List.eraseP_cons_of_neg (by simpa using found)] at member
      rcases List.mem_cons.mp member with rfl | member
      · exact found
      · exact ih distinct member

end Carving
