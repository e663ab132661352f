/-
# Vectors sorted by a key

A vector kept in strictly increasing order of a key is searched by halving an
interval. The search returns the partition point of the vector, so what stands
before it and what stands from it on are the entries below the bound and the
others. Replacing a stretch of keys by new entries keeps the order if the new
entries are ordered and lie between the two parts.
-/

import Mathlib.Data.List.Basic
import Mathlib.Order.Basic
import Mathlib.Order.Defs.LinearOrder
import Mathlib.Order.Lattice

namespace SortedVector

variable {α κ : Type*}

/-- The halving loop over the `len` positions from `first` on. -/
def search (below : α → Bool) (xs : List α) (first len : ℕ) : ℕ :=
  if len = 0 then first
  else if xs[first + len / 2]?.any below then
    search below xs (first + len / 2 + 1) (len - len / 2 - 1)
  else search below xs first (len / 2)
termination_by len

/-- The first position whose entry is not below the bound, if the entries below
it come first. -/
def lowerBound (below : α → Bool) (xs : List α) : ℕ := search below xs 0 xs.length

section Search

variable {below : α → Bool} {before after : List α}

theorem any_below_iff (lower : ∀ x ∈ before, below x = true)
    (upper : ∀ x ∈ after, below x = false) {i : ℕ} (inside : i < (before ++ after).length) :
    (before ++ after)[i]?.any below = true ↔ i < before.length := by
  rw [List.getElem?_eq_getElem inside, Option.any_some]
  by_cases early : i < before.length
  · rw [List.getElem_append_left early]
    exact iff_of_true (lower _ (List.getElem_mem _)) early
  · rw [List.getElem_append_right (Nat.le_of_not_lt early)]
    have late := upper _ (List.getElem_mem (l := after) (n := i - before.length)
      (by rw [List.length_append] at inside; omega))
    exact iff_of_false (by rw [late]; exact Bool.false_ne_true) early

/-- The loop closes in on the partition point from both sides. -/
theorem search_append (lower : ∀ x ∈ before, below x = true)
    (upper : ∀ x ∈ after, below x = false) (first len : ℕ)
    (left : first ≤ before.length) (right : before.length ≤ first + len)
    (inside : first + len ≤ (before ++ after).length) :
    search below (before ++ after) first len = before.length := by
  induction len using Nat.strongRecOn generalizing first with
  | ind len ih =>
    rw [search]
    split_ifs with empty found
    · omega
    · have early := (any_below_iff lower upper (by omega)).mp found
      exact ih _ (by omega) _ (by omega) (by omega) (by omega)
    · have late := mt (any_below_iff lower upper (by omega)).mpr found
      exact ih _ (by omega) _ left (by omega) (by omega)

theorem lowerBound_append (lower : ∀ x ∈ before, below x = true)
    (upper : ∀ x ∈ after, below x = false) :
    lowerBound below (before ++ after) = before.length :=
  search_append lower upper 0 _ (Nat.zero_le _) (by simp) (by simp)

end Search

section Sorted

variable [LinearOrder κ] (key : α → κ)

/-- The keys increase strictly along the vector. -/
def Sorted (xs : List α) : Prop := xs.Pairwise fun x y => key x < key y

variable {key} {xs : List α}

/-- A sorted vector is what lies below a bound followed by the rest. -/
theorem Sorted.filter_append (sorted : Sorted key xs) (bound : κ) :
    xs.filter (key · < bound) ++ xs.filter (bound ≤ key ·) = xs := by
  induction xs with
  | nil => rfl
  | cons x rest ih =>
    obtain ⟨first, tail⟩ := List.pairwise_cons.mp sorted
    by_cases below : key x < bound
    · have rest_eq := ih tail
      simpa [List.filter_cons, below, not_le.mpr below] using rest_eq
    · have above : bound ≤ key x := not_lt.mp below
      have none_below : rest.filter (key · < bound) = [] := by
        rw [List.filter_eq_nil_iff]
        intro y member
        simpa using (above.trans (first y member).le)
      have rest_eq := ih tail
      rw [none_below, List.nil_append] at rest_eq
      simp [below, above, none_below, rest_eq]

theorem Sorted.lowerBound_eq (sorted : Sorted key xs) (bound : κ) :
    lowerBound (fun x => decide (key x < bound)) xs = (xs.filter (key · < bound)).length := by
  conv_lhs => rw [← sorted.filter_append bound]
  apply lowerBound_append
  · intro x member
    exact (List.mem_filter.mp member).2
  · intro x member
    have above := of_decide_eq_true (List.mem_filter.mp member).2
    exact decide_eq_false (not_lt.mpr above)

theorem Sorted.take_lowerBound (sorted : Sorted key xs) (bound : κ) :
    xs.take (lowerBound (fun x => decide (key x < bound)) xs) = xs.filter (key · < bound) := by
  rw [sorted.lowerBound_eq]
  conv_lhs => enter [2]; rw [← sorted.filter_append bound]
  exact List.take_left

theorem Sorted.drop_lowerBound (sorted : Sorted key xs) (bound : κ) :
    xs.drop (lowerBound (fun x => decide (key x < bound)) xs) = xs.filter (bound ≤ key ·) := by
  rw [sorted.lowerBound_eq]
  conv_lhs => enter [2]; rw [← sorted.filter_append bound]
  exact List.drop_left

theorem Sorted.filter (sorted : Sorted key xs) (p : α → Bool) : Sorted key (xs.filter p) :=
  List.Pairwise.filter p sorted

/-- New entries may stand between the entries below a bound and those from
another bound on. -/
theorem Sorted.splice (sorted : Sorted key xs) {new : List α} (ordered : Sorted key new)
    {low high : κ} (inside : ∀ x ∈ new, low ≤ key x ∧ key x < high) (le : low ≤ high) :
    Sorted key (xs.filter (key · < low) ++ (new ++ xs.filter (high ≤ key ·))) := by
  refine List.pairwise_append.mpr ⟨sorted.filter _,
    List.pairwise_append.mpr ⟨ordered, sorted.filter _, ?_⟩, ?_⟩
  · intro x hx y hy
    have above := of_decide_eq_true (List.mem_filter.mp hy).2
    exact (inside x hx).2.trans_le above
  · intro x hx y hy
    have below := of_decide_eq_true (List.mem_filter.mp hx).2
    rcases List.mem_append.mp hy with hy | hy
    · exact below.trans_le (inside y hy).1
    · have above := of_decide_eq_true (List.mem_filter.mp hy).2
      exact below.trans_le (le.trans above)

/-- The entry at the partition point is the one with the bound as its key, if
there is one. -/
theorem Sorted.getElem?_lowerBound (sorted : Sorted key xs) {bound : κ} {x : α} (hx : x ∈ xs)
    (at_bound : key x = bound) :
    xs[lowerBound (fun y => decide (key y < bound)) xs]? = some x := by
  rw [← List.head?_drop, sorted.drop_lowerBound]
  have member : x ∈ xs.filter (bound ≤ key ·) :=
    List.mem_filter.mpr ⟨hx, decide_eq_true at_bound.ge⟩
  have ordered := sorted.filter (bound ≤ key ·)
  cases rest : xs.filter (bound ≤ key ·) with
  | nil => rw [rest] at member; cases member
  | cons first others =>
    rw [rest] at member ordered
    have above : bound ≤ key first :=
      of_decide_eq_true (List.mem_filter.mp (rest ▸ List.mem_cons_self : first ∈ xs.filter _)).2
    rcases List.mem_cons.mp member with rfl | later
    · rfl
    · have before := (List.pairwise_cons.mp ordered).1 x later
      exact absurd (at_bound ▸ before) (not_lt.mpr above)

/-- What the search finds is an entry of the vector at or above the bound. -/
theorem Sorted.of_getElem?_lowerBound (sorted : Sorted key xs) {bound : κ} {x : α}
    (found : xs[lowerBound (fun y => decide (key y < bound)) xs]? = some x) :
    x ∈ xs ∧ bound ≤ key x := by
  rw [← List.head?_drop, sorted.drop_lowerBound] at found
  obtain ⟨member, above⟩ := List.mem_filter.mp (List.mem_of_mem_head? found)
  exact ⟨member, of_decide_eq_true above⟩

end Sorted

end SortedVector
