/-
# Numbers as runs

A list of numbers is compressed into closed intervals: the numbers are sorted, and
a number that repeats or follows the last one extends the current run. The runs
contain exactly the numbers of the list, ascend, and leave a gap between each two.
-/

import Mathlib.Data.List.Sort
import Mathlib.Order.Interval.Finset.Nat

namespace Runs

/-- The runs of the numbers from `s` to `e` and of a sorted list behind them. -/
def runsFrom (s e : ℕ) : List ℕ → List (ℕ × ℕ)
  | [] => [(s, e)]
  | i :: rest => if i = e ∨ i = e + 1 then runsFrom s i rest else (s, e) :: runsFrom i i rest

/-- The runs of a list of numbers. -/
def runs (numbers : List ℕ) : List (ℕ × ℕ) :=
  match numbers.insertionSort (· ≤ ·) with
  | [] => []
  | i :: rest => runsFrom i i rest

/-- The numbers of some runs. -/
def numbersOf (intervals : List (ℕ × ℕ)) : Finset ℕ :=
  intervals.foldr (fun interval others => Finset.Icc interval.1 interval.2 ∪ others) ∅

@[simp] theorem numbersOf_nil : numbersOf [] = ∅ := rfl

@[simp] theorem numbersOf_cons (interval : ℕ × ℕ) (others : List (ℕ × ℕ)) :
    numbersOf (interval :: others) = Finset.Icc interval.1 interval.2 ∪ numbersOf others := rfl

/-- A run takes in the numbers that extend it, and nothing between. -/
theorem numbersOf_runsFrom (s e : ℕ) (rest : List ℕ) (le : s ≤ e)
    (sorted : (e :: rest).Pairwise (· ≤ ·)) :
    numbersOf (runsFrom s e rest) = Finset.Icc s e ∪ rest.toFinset := by
  induction rest generalizing s e with
  | nil => simp [runsFrom]
  | cons i rest ih =>
    obtain ⟨first, tail⟩ := List.pairwise_cons.mp sorted
    have above : e ≤ i := first i List.mem_cons_self
    rw [runsFrom]
    split_ifs with extends_run
    · rw [ih s i (le.trans above) tail]
      ext a
      simp only [Finset.mem_union, Finset.mem_Icc, List.toFinset_cons, Finset.mem_insert]
      constructor
      · rintro (inside | later)
        · omega
        · exact .inr (.inr later)
      · rintro (inside | rfl | later)
        · exact .inl (by omega)
        · exact .inl (by omega)
        · exact .inr later
    · rw [numbersOf_cons, ih i i le_rfl tail]
      simp

/-- **The runs contain exactly the numbers.** -/
theorem numbersOf_runs (numbers : List ℕ) : numbersOf (runs numbers) = numbers.toFinset := by
  have same : (numbers.insertionSort (· ≤ ·)).toFinset = numbers.toFinset :=
    List.toFinset_eq_of_perm _ _ (List.perm_insertionSort _ _)
  have sorted := List.pairwise_insertionSort (· ≤ ·) numbers
  rw [runs, ← same]
  cases split : numbers.insertionSort (· ≤ ·) with
  | nil => rfl
  | cons i rest =>
    rw [split] at sorted
    simp only
    rw [numbersOf_runsFrom i i rest le_rfl sorted]
    simp

/-! ## Order -/

/-- Every run goes upwards. -/
def Upwards (intervals : List (ℕ × ℕ)) : Prop :=
  ∀ interval ∈ intervals, interval.1 ≤ interval.2

/-- Each run ends at least one number before any later one begins. -/
def Separated (intervals : List (ℕ × ℕ)) : Prop :=
  intervals.Pairwise fun interval later => interval.2 + 1 < later.1

theorem runsFrom_bounds (s e : ℕ) (rest : List ℕ) (le : s ≤ e)
    (sorted : (e :: rest).Pairwise (· ≤ ·)) :
    ∀ interval ∈ runsFrom s e rest, s ≤ interval.1 ∧ interval.1 ≤ interval.2 := by
  induction rest generalizing s e with
  | nil =>
    intro interval member
    rw [runsFrom, List.mem_singleton] at member
    subst member
    exact ⟨le_rfl, le⟩
  | cons i rest ih =>
    obtain ⟨first, tail⟩ := List.pairwise_cons.mp sorted
    have above : e ≤ i := first i List.mem_cons_self
    rw [runsFrom]
    split_ifs with extends_run
    · exact ih s i (le.trans above) tail
    · intro interval member
      obtain rfl | later := List.mem_cons.mp member
      · exact ⟨le_rfl, le⟩
      · obtain ⟨low, up⟩ := ih i i le_rfl tail interval later
        exact ⟨le.trans (above.trans low), up⟩

theorem runsFrom_separated (s e : ℕ) (rest : List ℕ) (sorted : (e :: rest).Pairwise (· ≤ ·)) :
    Separated (runsFrom s e rest) := by
  induction rest generalizing s e with
  | nil => exact List.pairwise_singleton _ _
  | cons i rest ih =>
    obtain ⟨first, tail⟩ := List.pairwise_cons.mp sorted
    have above : e ≤ i := first i List.mem_cons_self
    rw [runsFrom]
    split_ifs with extends_run
    · exact ih s i tail
    · refine List.pairwise_cons.mpr ⟨fun later member => ?_, ih i i tail⟩
      have low := (runsFrom_bounds i i rest le_rfl tail later member).1
      -- the number did not extend the run
      show e + 1 < later.1
      omega

theorem runs_upwards (numbers : List ℕ) : Upwards (runs numbers) := by
  have sorted := List.pairwise_insertionSort (· ≤ ·) numbers
  rw [runs]
  split
  next => exact fun _ member => absurd member List.not_mem_nil
  next i rest split =>
    rw [split] at sorted
    exact fun interval member => (runsFrom_bounds i i rest le_rfl sorted interval member).2

/-- **The runs ascend with a gap between each two.** -/
theorem runs_separated (numbers : List ℕ) : Separated (runs numbers) := by
  have sorted := List.pairwise_insertionSort (· ≤ ·) numbers
  rw [runs]
  split
  next => exact List.Pairwise.nil
  next i rest split =>
    rw [split] at sorted
    exact runsFrom_separated i i rest sorted

theorem mem_numbersOf {intervals : List (ℕ × ℕ)} {number : ℕ} :
    number ∈ numbersOf intervals ↔
      ∃ interval ∈ intervals, interval.1 ≤ number ∧ number ≤ interval.2 := by
  induction intervals with
  | nil => simp
  | cons interval others ih =>
    rw [numbersOf_cons, Finset.mem_union, Finset.mem_Icc, ih, List.exists_mem_cons_iff]

end Runs
