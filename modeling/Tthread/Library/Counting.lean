/-
# Counting

How many numbers below a bound have a property, when some of them gain or lose it; and totals
over index sets without a bound, when one summand changes.
-/

import Mathlib.Algebra.Order.BigOperators.Group.Finset
import Mathlib.Data.Nat.Count
import Mathlib.Data.Finset.Dedup

namespace Counting

variable {p q r : ℕ → Prop} [DecidablePred p] [DecidablePred q] [DecidablePred r] {n : ℕ}

theorem count_congr (same : ∀ k < n, p k ↔ q k) : Nat.count p n = Nat.count q n :=
  le_antisymm (Nat.count_mono_left fun k below => (same k below).mp)
    (Nat.count_mono_left fun k below => (same k below).mpr)

/-- The numbers with one of two properties that exclude each other. -/
theorem count_or (split : ∀ k < n, r k ↔ p k ∨ q k) (apart : ∀ k < n, p k → ¬q k) :
    Nat.count r n = Nat.count p n + Nat.count q n := by
  induction n with
  | zero => rfl
  | succ n ih =>
    have before := ih (fun k below => split k (Nat.lt_succ_of_lt below))
      fun k below => apart k (Nat.lt_succ_of_lt below)
    have last := split n (Nat.lt_succ_self n)
    have only := apart n (Nat.lt_succ_self n)
    rw [Nat.count_succ, Nat.count_succ, Nat.count_succ, before]
    by_cases first : p n
    · rw [if_pos (last.mpr (.inl first)), if_pos first, if_neg (only first)]
      omega
    · by_cases second : q n
      · rw [if_pos (last.mpr (.inr second)), if_neg first, if_pos second]
        omega
      · have neither : ¬r n := fun either => (last.mp either).elim first second
        rw [if_neg neither, if_neg first, if_neg second]
        omega

theorem count_mem {l : List ℕ} (nodup : l.Nodup) (bounded : ∀ k ∈ l, k < n) :
    Nat.count (· ∈ l) n = l.length := by
  rw [Nat.count_eq_card_filter_range, ← List.toFinset_card_of_nodup nodup]
  congr 1
  ext k
  rw [Finset.mem_filter, Finset.mem_range, List.mem_toFinset]
  exact ⟨And.right, fun member => ⟨bounded k member, member⟩⟩

/-- Some numbers gain the property. -/
theorem count_gain {l : List ℕ} (nodup : l.Nodup) (bounded : ∀ k ∈ l, k < n)
    (gain : ∀ k < n, q k ↔ p k ∨ k ∈ l) (fresh : ∀ k ∈ l, ¬p k) :
    Nat.count q n = Nat.count p n + l.length := by
  rw [count_or gain fun k _ before member => fresh k member before, count_mem nodup bounded]

theorem count_pos {k : ℕ} (below : k < n) (holds : p k) : 0 < Nat.count p n := by
  rw [Nat.pos_iff_ne_zero, Nat.count_ne_iff_exists]
  exact ⟨k, below, holds⟩

/-- Exactly one number is counted. -/
theorem existsUnique_of_count (bounded : ∀ k, p k → k < n) (one : Nat.count p n = 1) :
    ∃! k, p k := by
  rw [Nat.count_eq_card_filter_range, Finset.card_eq_one] at one
  obtain ⟨k, single⟩ := one
  have member : ∀ j, p j ↔ j = k := by
    intro j
    rw [← Finset.mem_singleton, ← single, Finset.mem_filter, Finset.mem_range]
    exact ⟨fun holds => ⟨bounded j holds, holds⟩, And.right⟩
  exact ⟨k, (member k).mpr rfl, fun j holds => (member j).mp holds⟩

/-- However many summands are taken, they do not exceed the bound. -/
def SumsUpTo {ι : Type*} (f : ι → ℕ) (n : ℕ) : Prop := ∀ F : Finset ι, ∑ i ∈ F, f i ≤ n

namespace SumsUpTo

variable {ι : Type*} {f g : ι → ℕ} {i j : ι}

theorem mono (sums : SumsUpTo f n) (le : ∀ i, g i ≤ f i) : SumsUpTo g n :=
  fun F => (Finset.sum_le_sum fun i _ => le i).trans (sums F)

theorem le (sums : SumsUpTo f n) (i : ι) : f i ≤ n := by
  simpa only [Finset.sum_singleton] using sums {i}

/-- One summand grows by `l` and falls by `k`. -/
theorem shift (sums : SumsUpTo f n) (others : ∀ j ≠ i, g j ≤ f j) (k l : ℕ)
    (here : g i + k ≤ f i + l) : SumsUpTo g (n + l - k) := by
  classical
  intro F
  have wider : ∑ j ∈ F, g j ≤ ∑ j ∈ insert i (F.erase i), g j := by
    refine Finset.sum_le_sum_of_subset fun j member => ?_
    by_cases same : j = i
    · exact Finset.mem_insert.mpr (.inl same)
    · exact Finset.mem_insert_of_mem (Finset.mem_erase.mpr ⟨same, member⟩)
  have rest : ∑ j ∈ F.erase i, g j ≤ ∑ j ∈ F.erase i, f j :=
    Finset.sum_le_sum fun j member => others j (Finset.ne_of_mem_erase member)
  have total := sums (insert i (F.erase i))
  rw [Finset.sum_insert (Finset.notMem_erase i F)] at wider total
  omega

theorem gain (sums : SumsUpTo f n) (others : ∀ j ≠ i, g j ≤ f j) (here : g i ≤ f i + 1) :
    SumsUpTo g (n + 1) :=
  sums.shift others 0 1 here

theorem lose (sums : SumsUpTo f n) (others : ∀ j ≠ i, g j ≤ f j) (here : g i + 1 ≤ f i) :
    SumsUpTo g (n - 1) :=
  sums.shift others 1 0 here

end SumsUpTo

end Counting
