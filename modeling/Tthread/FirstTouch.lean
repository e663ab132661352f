/-
# Scheduling under first touch

A page that no domain has goes to the domain of the fetch that asks for it. What a task is booked
with is fixed by the pages of the other domains then, so that placing its own pages makes no
difference to it, nor to any task whose pages have homes already.
-/

import Tthread.Timetable

namespace Tthread.Racksim

namespace Execution

variable {Time : Type} [Clock Time] {x : Execution Time} {s s' : State Time} {task other : Task}
  {draw : ℕ → ℕ} {own p d : ℕ} {pages extra : Finset ℕ} {numas : ℕ → Finset ℕ}

/-! ## Scheduling under first touch -/

/-- Pages that no other domain has make no difference to what a search finds. -/
theorem search_sdiff {domains : List ℕ}
    (nowhere : ∀ p ∈ extra, ∀ d, p ∉ numas d) :
    (search numas own domains (pages \ extra)).1 = (search numas own domains pages).1 := by
  induction domains generalizing pages with
  | nil => rfl
  | cons domain rest ih =>
    have found : numas domain ∩ (pages \ extra) = numas domain ∩ pages := by
      ext p
      rw [Finset.mem_inter, Finset.mem_inter, Finset.mem_sdiff]
      exact and_congr_right fun home => and_iff_left fun new => nowhere p new domain home
    have left : (pages \ extra) \ (numas domain ∩ pages) =
        (pages \ (numas domain ∩ pages)) \ extra := by
      rw [sdiff_sdiff_comm]
    rw [search, search, found, left]
    split_ifs
    · exact ih
    · exact ih
    · exact congrArg (_ :: ·) ih

/-- The entries of a task. A commit that is not simulated has none. -/
def books (x : Execution Time) (numas : ℕ → Finset ℕ) (task : Task) : List (Device × Event Time) :=
  if task.kind = .commit ∧ x.commit = .moveHere then [] else x.bookings numas task

/-- Under first touch scheduling books a task with its entries. -/
theorem schedule_books (policy : x.initPage = .firstTouch)
    (scheduled : x.schedule draw task s = .ok s') :
    s' = s.booked task (x.books s.numas task) s'.numas := by
  simp only [schedule] at scheduled
  split at scheduled
  -- A fetch moves the pages that are elsewhere and then reserves its own domain.
  · next _ kind =>
    obtain ⟨own, exists_, scheduled⟩ := Folds.bind_ok.mp scheduled
    have present : x.domain task = some own := (ownDomain_ok.mp exists_).1
    obtain ⟨-, -, placed, place, rfl⟩ := (scheduleComm_ok kind).mp scheduled
    have same : placed = s.booked task
        ((x.finds s.numas task own).1.flatMap (x.moveEntries task own)) placed.numas := by
      -- Under first touch the pages placed are those of no domain, and they book nothing.
      split_ifs at place
      · exact Except.ok.inj place ▸ rfl
      · simp only [Execution.place, policy] at place
        obtain rfl := Except.ok.inj place
        rw [State.addPages_eq task, State.booked_booked, List.append_nil]
        rfl
    rw [same, State.reserve_eq, State.booked_booked]
    simp only [books, bookings, kind, present, Option.getD_some, reduceCtorEq, false_and, if_false]
    rfl
  -- A computation waits at its CPU only.
  · next _ kind =>
    split_ifs at scheduled
    obtain rfl := Except.ok.inj scheduled
    simp only [books, bookings, kind, reduceCtorEq, false_and, if_false]
    rfl
  -- A commit that is simulated is booked at its own domain.
  · next kind commits =>
    obtain ⟨own, exists_, scheduled⟩ := Folds.bind_ok.mp scheduled
    have present : x.domain task = some own := (ownDomain_ok.mp exists_).1
    obtain ⟨-, -, rfl⟩ := (scheduleCommit_ok kind).mp scheduled
    simp only [books, bookings, kind, commits, present, Option.getD_some, reduceCtorEq, and_false,
      if_false]
    rfl
  · next kind commits =>
    obtain rfl := Except.ok.inj scheduled
    rw [books, if_pos ⟨kind, commits⟩]
    exact State.booked_nil.symm

/-- With commits that are simulated a task is booked with its entries. -/
theorem schedule_bookings (policy : x.initPage = .firstTouch) (commits : x.commit = .noMove)
    (scheduled : x.schedule draw task s = .ok s') :
    s' = s.booked task (x.bookings s.numas task) s'.numas := by
  have booked := schedule_books policy scheduled
  rwa [books, if_neg fun skipped => by
    rw [commits] at skipped
    cases skipped.2] at booked

/-- Under first touch the pages that are found nowhere go to the domain of the fetch. -/
theorem mem_schedule (policy : x.initPage = .firstTouch)
    (homes : ∀ p d, p ∈ s.numas d → x.IsHome d)
    (scheduled : x.schedule draw task s = .ok s') :
    p ∈ s'.numas d ↔ p ∈ s.numas d ∨
      task.kind = .comm ∧ x.domain task = some d ∧ p ∈ x.needs task ∧ ∀ e, p ∉ s.numas e := by
  obtain ⟨kind, own, -, present, placed, -⟩ | ⟨kind, kept⟩ := schedule_numas scheduled
  · have put : x.PutIn draw own p d ↔ x.domain task = some d := by
      rw [show x.domain task = some own from present, Option.some.injEq]
      simp only [PutIn, policy]
      exact eq_comm
    have nowhere : x.Unfound s p ↔ ∀ e, p ∉ s.numas e := by
      refine ⟨fun unfound e home => ?_, fun nowhere e _ => nowhere e⟩
      have there := homes p e home
      simp only [IsHome, policy] at there
      exact unfound e there home
    rw [placed, put, nowhere]
    tauto
  · rw [kept]
    exact (or_iff_left fun new => kind new.1).symm

/-- New pages of its own domain change nothing about what a task is booked with. -/
theorem bookings_touched {numas' : ℕ → Finset ℕ} (New : ℕ → Prop)
    (touched : ∀ p ∈ x.asks task, ∀ d, p ∈ numas' d ↔ p ∈ numas d ∨
      x.domain task = some d ∧ New p ∧ ∀ e, p ∉ numas e) :
    x.bookings numas' task = x.bookings numas task := by
  classical
  cases domain : x.domain task with
  | none =>
    refine bookings_congr fun p asked d => ?_
    rw [touched p asked d, domain]
    simp
  | some own =>
    obtain ⟨new, mem_new⟩ : ∃ new : Finset ℕ, ∀ p, p ∈ new ↔
        p ∈ x.asks task ∧ New p ∧ ∀ e, p ∉ numas e := ⟨_, fun p => Finset.mem_filter⟩
    have left : x.asks task \ numas' own = (x.asks task \ numas own) \ new := by
      ext p
      rw [Finset.mem_sdiff, Finset.mem_sdiff, Finset.mem_sdiff, mem_new]
      by_cases asked : p ∈ x.asks task
      · rw [touched p asked own]
        tauto
      · tauto
    have others : ∀ p ∈ (x.asks task \ numas own) \ new, ∀ d, p ∈ numas' d ↔ p ∈ numas d := by
      intro p asked d
      rw [Finset.mem_sdiff, Finset.mem_sdiff, mem_new] at asked
      rw [touched p asked.1.1 d]
      tauto
    have found : (search numas' own x.cpus (x.asks task \ numas' own)).1 =
        (search numas own x.cpus (x.asks task \ numas own)).1 := by
      rw [left, search_congr others]
      exact search_sdiff fun p member => ((mem_new p).mp member).2.2
    simp only [bookings, finds, domain, Option.getD_some, found]

/-- Placing its new pages changes nothing about what a task is booked with. -/
theorem bookings_schedule (policy : x.initPage = .firstTouch)
    (homes : ∀ p d, p ∈ s.numas d → x.IsHome d)
    (scheduled : x.schedule draw task s = .ok s') :
    x.bookings s'.numas task = x.bookings s.numas task := by
  refine bookings_touched (fun p => task.kind = .comm ∧ p ∈ x.needs task) fun p _ d => ?_
  rw [mem_schedule policy homes scheduled]
  tauto

/-- Placing pages changes nothing about tasks whose pages have homes. -/
theorem bookings_placed (policy : x.initPage = .firstTouch)
    (homes : ∀ p d, p ∈ s.numas d → x.IsHome d)
    (scheduled : x.schedule draw task s = .ok s')
    (placed : ∀ p ∈ x.needs other, ∃ d, p ∈ s.numas d) :
    x.bookings s'.numas other = x.bookings s.numas other := by
  refine bookings_congr fun p asked d => ?_
  obtain ⟨e, home⟩ := placed p (asks_subset_needs asked)
  rw [mem_schedule policy homes scheduled]
  exact or_iff_left fun new => new.2.2.2 e home

/-- A task is booked with entries of its own, one of which rings last. -/
theorem exists_longest (numas : ℕ → Finset ℕ) (task : Task) (arrival : Time) :
    ∃ entry ∈ x.bookings numas task,
      IsGreatest (x.rings numas arrival task) (arrival + entry.2.time) := by
  have some : x.bookings numas task ≠ [] := by
    simp only [bookings]
    split <;> simp
  obtain ⟨entry, last⟩ : ∃ entry, (x.bookings numas task).argmax (·.2.time) = .some entry :=
    Option.ne_none_iff_exists'.mp fun none => some (List.argmax_eq_none.mp none)
  refine ⟨entry, List.argmax_mem last, ⟨_, ⟨entry, List.argmax_mem last, rfl⟩, rfl⟩, ?_⟩
  rintro _ ⟨_, ⟨other, member, rfl⟩, rfl⟩
  -- rounded sums keep the order of the spans
  have longer : other.2.time ≤ entry.2.time :=
    List.le_of_mem_argmax (f := fun entry : Device × Event Time => entry.2.time) member last
  exact add_le_add_right longer arrival

/-- A device has events of its kind. -/
def Fitting (x : Execution Time) (entry : Device × Event Time) : Prop :=
  match entry.1 with
  | .link _ => entry.2.task.kind ≠ .thunk
  | .cpu id => entry.2.task.kind = .thunk ∧ x.cpu entry.2.task = id
  | .numa _ => entry.2.task.kind ≠ .thunk ∧ entry.2.time = 0

theorem Fitting.cpu {entry : Device × Event Time} (fits : x.Fitting entry)
    (kind : entry.2.task.kind = .thunk) : entry.1 = .cpu (x.cpu entry.2.task) := by
  unfold Fitting at fits
  split at fits
  · exact absurd kind fits
  · next device => rw [device, fits.2]
  · exact absurd kind fits.1

theorem fitting_bookings {entry : Device × Event Time} (member : entry ∈ x.bookings numas task) :
    x.Fitting entry ∧ entry.2.task = task ∧ (x.arch.Unsigned → 0 ≤ entry.2.time) := by
  have moves : ∀ found : List (ℕ × Finset ℕ), task.kind ≠ .thunk →
      entry ∈ found.flatMap (x.moveEntries task ((x.domain task).getD 0)) ++
        [(.numa ((x.domain task).getD 0), ⟨task, 0⟩)] →
      x.Fitting entry ∧ entry.2.task = task ∧ (x.arch.Unsigned → 0 ≤ entry.2.time) := by
    intro found kind member
    obtain link | numa := List.mem_append.mp member
    · obtain ⟨other, -, inside⟩ := List.mem_flatMap.mp link
      obtain ⟨own, late⟩ := moveEntries_own inside
      obtain ⟨id, device⟩ := moveEntries_links inside
      refine ⟨?_, own, late⟩
      rw [Fitting, device]
      exact own ▸ kind
    · obtain rfl := List.mem_singleton.mp numa
      exact ⟨⟨kind, rfl⟩, rfl, fun _ => le_rfl⟩
  simp only [bookings] at member
  split at member
  · next kind =>
    obtain rfl := List.mem_singleton.mp member
    exact ⟨⟨kind, rfl⟩, rfl, fun _ => le_rfl⟩
  · next kind => exact moves _ kind member

/-- A thunk waits for its CPU once, and no other task waits for a CPU. -/
theorem countP_bookings_cpu {id : ℕ} :
    (x.bookings numas task).countP (fun entry => entry.1 = .cpu id) =
      if task.kind = .thunk ∧ x.cpu task = id then 1 else 0 := by
  by_cases thunk : task.kind = .thunk
  · simp [bookings, thunk, List.countP_cons]
  · rw [if_neg fun both => thunk both.1, List.countP_eq_zero]
    intro entry member same
    obtain ⟨fits, own, -⟩ := fitting_bookings member
    rw [Fitting, of_decide_eq_true same, own] at fits
    exact thunk fits.1

omit [Clock Time] in
/-- A task that finds nothing on its CPU leaves at most one entry for each CPU. -/
theorem waits_booked {active entries : List (Device × Event Time)} {id : ℕ}
    (one : entries.countP (fun entry => entry.1 = .cpu id) =
      if task.kind = .thunk ∧ x.cpu task = id then 1 else 0)
    (free : task.kind = .thunk → ∀ entry ∈ active, entry.1 ≠ .cpu (x.cpu task))
    (waits : active.countP (fun entry => entry.1 = .cpu id) ≤ 1) :
    (active ++ entries).countP (fun entry => entry.1 = .cpu id) ≤ 1 := by
  rw [List.countP_append, one]
  split_ifs with mine
  · obtain ⟨kind, rfl⟩ := mine
    have none : active.countP (fun entry => entry.1 = .cpu (x.cpu task)) = 0 :=
      List.countP_eq_zero.mpr fun entry member same =>
        free kind entry member (of_decide_eq_true same)
    rw [none]
  · exact waits

end Execution

end Tthread.Racksim
