/-
# The first difference between two schedules

Two schedules of the same jobs agree about every job if neither has a first one that they do
not agree about. The first one is taken by the time at which it arrives in either schedule, and
among those of one time by its place in the schedule where it arrives then.
-/

import Mathlib.Data.Finset.Lattice.Fold
import Mathlib.Data.Finset.Max

namespace FirstDifference

variable {J T : Type*} [LinearOrder T] {jobs : Finset J} {Agrees : J → Prop}
  {arrival arrival' : J → T} {place place' : J → ℕ}

/-- A schedule has no first job that is not agreed about, if such jobs arrive at no earlier time
in the other one. -/
theorem false_of_first
    (sorted : ∀ job ∈ jobs, ∀ other ∈ jobs, place other < place job → arrival other ≤ arrival job)
    (step : ∀ job ∈ jobs, (∀ other ∈ jobs, place other < place job → Agrees other) →
      (∀ other ∈ jobs, arrival other < arrival job ∨ arrival' other < arrival job →
        Agrees other) → Agrees job)
    {first : J} (inside : first ∈ jobs) (differs : ¬ Agrees first)
    (least : ∀ job ∈ jobs, ¬ Agrees job →
      arrival first ≤ arrival job ∧ arrival first ≤ arrival' job) : False := by
  classical
  obtain ⟨job, found, lowest⟩ := Finset.exists_min_image
    (jobs.filter fun job => ¬ Agrees job ∧ arrival job = arrival first) place
    ⟨first, Finset.mem_filter.mpr ⟨inside, differs, rfl⟩⟩
  obtain ⟨member, open_, now⟩ := Finset.mem_filter.mp found
  refine open_ (step job member (fun other among sooner => ?_) fun other among early => ?_)
  · by_contra other_open
    have same : arrival other = arrival first :=
      le_antisymm (now ▸ sorted job member other among sooner) (least other among other_open).1
    have bound := lowest other (Finset.mem_filter.mpr ⟨among, other_open, same⟩)
    exact absurd sooner (Nat.not_lt.mpr bound)
  · by_contra other_open
    obtain ⟨low, low'⟩ := least other among other_open
    rw [now] at early
    exact early.elim (not_lt.mpr low) (not_lt.mpr low')

/-- What holds of a job in two schedules if it holds of all jobs in front of it in one of them,
and of all that arrive earlier in either of them, holds of all jobs. -/
theorem forall_agrees
    (sorted : ∀ job ∈ jobs, ∀ other ∈ jobs, place other < place job → arrival other ≤ arrival job)
    (sorted' : ∀ job ∈ jobs, ∀ other ∈ jobs, place' other < place' job →
      arrival' other ≤ arrival' job)
    (step : ∀ job ∈ jobs, (∀ other ∈ jobs, place other < place job → Agrees other) →
      (∀ other ∈ jobs, arrival other < arrival job ∨ arrival' other < arrival job →
        Agrees other) → Agrees job)
    (step' : ∀ job ∈ jobs, (∀ other ∈ jobs, place' other < place' job → Agrees other) →
      (∀ other ∈ jobs, arrival' other < arrival' job ∨ arrival other < arrival' job →
        Agrees other) → Agrees job) : ∀ job ∈ jobs, Agrees job := by
  classical
  intro job inside
  by_contra differs
  obtain ⟨first, found, lowest⟩ := Finset.exists_min_image (jobs.filter fun job => ¬ Agrees job)
    (fun job => min (arrival job) (arrival' job)) ⟨job, Finset.mem_filter.mpr ⟨inside, differs⟩⟩
  obtain ⟨member, open_⟩ := Finset.mem_filter.mp found
  have least : ∀ job ∈ jobs, ¬ Agrees job → min (arrival first) (arrival' first) ≤ arrival job ∧
      min (arrival first) (arrival' first) ≤ arrival' job := fun job inside differs =>
    le_min_iff.mp (lowest job (Finset.mem_filter.mpr ⟨inside, differs⟩))
  obtain le | le := le_total (arrival first) (arrival' first)
  · rw [min_eq_left le] at least
    exact false_of_first sorted step member open_ least
  · rw [min_eq_right le] at least
    exact false_of_first sorted' step' member open_ fun job inside differs =>
      (least job inside differs).symm

end FirstDifference
