/-
# When the order of the sets does not matter

The simulator pops tasks, devices and events from sets. What it pops first makes a difference
in three places: the first fetch of a page decides where the page lives, a CPU takes one of the
thunks that wait for it, and a domain takes one of its events a round. Where no choice of this
kind is open, the times of all tasks follow from those of the tasks in front of them, whatever
is popped first, and so does the time that a run returns.
-/

import Mathlib.Logic.Relation
import Mathlib.Order.Bounds.Basic
import Tthread.Completion
import Tthread.Library.FirstDifference
import Tthread.Placement

namespace Tthread.Racksim

/-- A task is in front of another one. -/
def Programm.Before (prog : Programm Time) : Task → Task → Prop :=
  Relation.TransGen fun other task => other ∈ prog.predecessors task

/-- The place of a task among the ones that have been scheduled, oldest first. -/
def State.place (s : State Time) (task : Task) : ℕ := s.scheduled.reverse.idxOf task

namespace Execution

variable {Time : Type} [Clock Time] (x : Execution Time)

/-- The CPU of a task. -/
def cpu (task : Task) : ℕ := (x.prog.data task.tid).cpu

/-- The domain of that CPU. -/
def domain (task : Task) : Option ℕ := x.cpus[x.cpu task]?

/-- A task was ready at an earlier time. -/
def Earlier (s : State Time) (task : Task) : Prop :=
  0 < s.now ∧ ∀ entry ∈ s.log, entry.1 ∈ x.prog.predecessors task → entry.2 < s.now

/-- Nothing is chosen that makes a difference. A page that a fetch finds in another domain was
asked for at an earlier time, or by a fetch of that domain in front of this one. A thunk finds
nothing that waits for its CPU, and the thunks of that CPU were ready at an earlier time or are
in front of it. A domain has at most one event to choose. -/
structure Uncontested (s : State Time) (label : Label) : Prop where
  page : ∀ choice draw task own p d, label = .pop choice draw → s.ready[choice]? = some task →
    task.kind = .comm → x.domain task = some own → p ∈ x.needs task → p ∈ s.numas d → d ≠ own →
    ∃ other ∈ s.scheduled, other.kind = .comm ∧ p ∈ x.needs other ∧
      (x.Earlier s other ∨ x.domain other = some d ∧ x.prog.Before other task)
  cpu : ∀ choice draw task, label = .pop choice draw → s.ready[choice]? = some task →
    task.kind = .thunk → (∀ entry ∈ s.active, entry.1 ≠ .cpu (x.cpu task)) ∧
      ∀ other ∈ s.scheduled, other.kind = .thunk → x.cpu other = x.cpu task →
        x.Earlier s other ∨ x.prog.Before other task
  numa : ∀ choice event todo id, label = .visit choice event → s.phase = .progress todo →
    todo[choice]? = some (.numa id) → s.active.countP (fun entry => entry.1 = .numa id) ≤ 1

/-! ## What a task is booked with -/

/-- The entries of a task under first touch, if commits are simulated. -/
def bookings (numas : ℕ → Finset ℕ) (task : Task) : List (Device × Event Time) :=
  let own := (x.domain task).getD 0
  match task.kind with
  | .thunk => [(.cpu (x.cpu task), ⟨task, 0⟩)]
  | _ => (x.finds numas task own).1.flatMap (x.moveEntries task own) ++ [(.numa own, ⟨task, 0⟩)]

/-- The times of the entries. -/
def spans (numas : ℕ → Finset ℕ) (task : Task) : Set Time :=
  {time | ∃ entry ∈ x.bookings numas task, entry.2.time = time}

/-- The times at which the entries of a task ring that arrives at the time given. -/
def rings (numas : ℕ → Finset ℕ) (arrival : Time) (task : Task) : Set Time :=
  (arrival + ·) '' x.spans numas task

/-- The times at which the tasks in front of one are done, and zero. -/
def arrivals (s : State Time) (task : Task) : Set Time :=
  insert 0 {time | ∃ other ∈ x.prog.predecessors task, (other, time) ∈ s.log}

/-- The thunks that were scheduled on a CPU before one. -/
def Queued (s : State Time) (task other : Task) : Prop :=
  other.kind = .thunk ∧ x.cpu other = x.cpu task ∧ other ∈ s.scheduled ∧
    s.place other < s.place task

/-- The times at which the thunks in front of one on its CPU are done, and its own arrival. -/
def starts (s : State Time) (arrival : Time) (task : Task) : Set Time :=
  insert arrival {time | ∃ other, x.Queued s task other ∧ (other, time) ∈ s.log}

/-- A task that arrives at the time given is done with its last event, or as long after its start
as it runs. -/
structure Ends (s : State Time) (arrival : Time) (task : Task) (time : Time) : Prop where
  moves : task.kind ≠ .thunk → IsGreatest (x.rings s.numas arrival task) time
  runs : task.kind = .thunk → (∀ other, x.Queued s task other → other ∈ s.logged) ∧
    ∃ start, IsGreatest (x.starts s arrival task) start ∧
      time = start + (x.prog.data task.tid).cputime

/-- All tasks are done in time, where they arrive at the times given. -/
structure Timetable (s : State Time) (arrival : Task → Time) : Prop where
  inside : ∀ task ∈ s.scheduled, task ∈ x.prog.tasks
  single : ∀ task time time', (task, time) ∈ s.log → (task, time') ∈ s.log → time = time'
  front : ∀ task ∈ s.scheduled, ∀ other ∈ x.prog.predecessors task,
    other ∈ s.logged ∧ other ∈ s.scheduled ∧ s.place other < s.place task
  arrives : ∀ task ∈ s.scheduled, IsGreatest (x.arrivals s task) (arrival task)
  sorted : ∀ task ∈ s.scheduled, ∀ other ∈ s.scheduled, s.place other < s.place task →
    arrival other ≤ arrival task
  ends : ∀ task time, (task, time) ∈ s.log → x.Ends s (arrival task) task time
  home : ∀ p d, p ∈ s.numas d → ∃ task ∈ s.scheduled, task.kind = .comm ∧ p ∈ x.needs task ∧
    x.domain task = some d ∧ ∀ other ∈ s.scheduled, other.kind = .comm → p ∈ x.needs other →
      s.place task ≤ s.place other
  page : ∀ task ∈ s.scheduled, ∀ own p d, task.kind = .comm → x.domain task = some own →
    p ∈ x.needs task → p ∈ s.numas d → d ≠ own →
    ∃ other ∈ s.scheduled, other.kind = .comm ∧ p ∈ x.needs other ∧ s.place other < s.place task ∧
      (arrival other < arrival task ∨ x.domain other = some d ∧ x.prog.Before other task)
  cpu : ∀ task ∈ s.scheduled, ∀ other, task.kind = .thunk → x.Queued s task other →
    arrival other < arrival task ∨ x.prog.Before other task

/-! ## Two timetables -/

section Unique

variable {x} {s s' : State Time} {arrival arrival' : Task → Time} {task other : Task}
  {numas numas' : ℕ → Finset ℕ} {own p d : ℕ} {pages : Finset ℕ}

/-- A search looks at the pages asked for only, in the other domains. -/
theorem search_congr {domains : List ℕ}
    (same : ∀ p ∈ pages, ∀ d, p ∈ numas d ↔ p ∈ numas' d) :
    search numas own domains pages = search numas' own domains pages := by
  induction domains generalizing pages with
  | nil => rfl
  | cons domain rest ih =>
    have found : numas domain ∩ pages = numas' domain ∩ pages := by
      ext p
      rw [Finset.mem_inter, Finset.mem_inter]
      exact and_congr_left fun asked => same p asked domain
    rw [search, search, found, ih same,
      ih fun p asked => same p (Finset.mem_sdiff.mp asked).1]

theorem bookings_congr (same : ∀ p ∈ x.asks task, ∀ d, p ∈ numas d ↔ p ∈ numas' d) :
    x.bookings numas task = x.bookings numas' task := by
  have left : x.asks task \ numas ((x.domain task).getD 0) =
      x.asks task \ numas' ((x.domain task).getD 0) := by
    ext p
    rw [Finset.mem_sdiff, Finset.mem_sdiff]
    exact and_congr_right fun asked => not_congr (same p asked _)
  have found : search numas ((x.domain task).getD 0) x.cpus
        (x.asks task \ numas ((x.domain task).getD 0)) =
      search numas' ((x.domain task).getD 0) x.cpus
        (x.asks task \ numas ((x.domain task).getD 0)) :=
    search_congr fun p asked => same p (Finset.mem_sdiff.mp asked).1
  simp only [bookings, finds]
  rw [← left, found]

omit [Clock Time] in
theorem asks_subset_needs : x.asks task ⊆ x.needs task := by
  unfold asks
  split
  · exact Finset.Subset.refl _
  · exact Finset.empty_subset _
  · exact Finset.subset_union_right

namespace Timetable

/-- What is in front of a task was scheduled before it. -/
theorem before (table : x.Timetable s arrival) (before : x.prog.Before other task)
    (scheduled : task ∈ s.scheduled) : other ∈ s.scheduled ∧ s.place other < s.place task := by
  induction before with
  | single edge => exact (table.front _ scheduled _ edge).2
  | tail _ edge ih =>
    obtain ⟨-, inside, place⟩ := table.front _ scheduled _ edge
    obtain ⟨known, sooner⟩ := ih inside
    exact ⟨known, sooner.trans place⟩

/-- Two runs have the same task at the same time. -/
def Agrees (s s' : State Time) (arrival arrival' : Task → Time) (task : Task) : Prop :=
  arrival task = arrival' task ∧
    ∀ time time', (task, time) ∈ s.log → (task, time') ∈ s'.log → time = time'

omit [Clock Time] in
theorem Agrees.symm (agrees : Agrees s s' arrival arrival' task) :
    Agrees s' s arrival' arrival task :=
  ⟨agrees.1.symm, fun time time' entry entry' => (agrees.2 time' time entry' entry).symm⟩

/-- A task that is in the log of both runs is in them with one time. -/
theorem mem_log_iff (table : x.Timetable s arrival) (table' : x.Timetable s' arrival')
    (agrees : Agrees s s' arrival arrival' task) (logged : task ∈ s.logged)
    (logged' : task ∈ s'.logged) {time : Time} : (task, time) ∈ s.log ↔ (task, time) ∈ s'.log := by
  obtain ⟨⟨task, first⟩, done, rfl⟩ := List.mem_map.mp logged
  obtain ⟨⟨_, second⟩, done', same⟩ := List.mem_map.mp logged'
  obtain rfl : _ = task := same
  obtain rfl := agrees.2 first second done done'
  constructor
  · intro entry
    rwa [table.single _ _ _ entry done]
  · intro entry
    rwa [table'.single _ _ _ entry done']

/-- A fetch is scheduled before the other tasks of its thunk. -/
theorem fetch_le (table : x.Timetable s arrival) (scheduled : task ∈ s.scheduled) :
    (⟨.comm, task.tid⟩ : Task) ∈ s.scheduled ∧ s.place ⟨.comm, task.tid⟩ ≤ s.place task := by
  have inside := Programm.mem_tasks.mp (table.inside task scheduled)
  have fetch : (⟨.comm, task.tid⟩ : Task) ∈ x.prog.predecessors ⟨.thunk, task.tid⟩ :=
    Programm.mem_predecessors.mpr ⟨Programm.mem_tasks.mpr inside, List.mem_cons_self⟩
  have thunk : (⟨.thunk, task.tid⟩ : Task) ∈ x.prog.predecessors ⟨.commit, task.tid⟩ :=
    Programm.mem_predecessors.mpr ⟨Programm.mem_tasks.mpr inside, List.mem_cons_self⟩
  obtain ⟨_ | _ | _, t⟩ := task
  · exact ⟨scheduled, le_rfl⟩
  · obtain ⟨-, known, place⟩ := table.front _ scheduled _ fetch
    exact ⟨known, place.le⟩
  · obtain ⟨-, known, place⟩ := table.front _ scheduled _ thunk
    obtain ⟨-, known, sooner⟩ := table.front _ known _ fetch
    exact ⟨known, (sooner.trans place).le⟩

omit [Clock Time] in
theorem place_inj (scheduled : task ∈ s.scheduled) (same : s.place task = s.place other) :
    task = other :=
  (List.idxOf_inj (List.mem_reverse.mpr scheduled)).mp same

/-- What a task waits for is in the log of both runs. -/
theorem arrivals_congr (table : x.Timetable s arrival) (table' : x.Timetable s' arrival')
    (scheduled : task ∈ s.scheduled) (scheduled' : task ∈ s'.scheduled)
    (sooner : ∀ other ∈ x.prog.tasks, s.place other < s.place task →
      Agrees s s' arrival arrival' other) : arrival task = arrival' task := by
  have same : x.arrivals s task = x.arrivals s' task := by
    refine congrArg _ (Set.ext fun time => exists_congr fun other => and_congr_right fun edge => ?_)
    obtain ⟨logged, known, place⟩ := table.front _ scheduled _ edge
    obtain ⟨logged', -, -⟩ := table'.front _ scheduled' _ edge
    exact table.mem_log_iff table' (sooner other (table.inside _ known) place) logged logged'
  exact (table.arrives task scheduled).unique (same ▸ table'.arrives task scheduled')

section Step

variable (table : x.Timetable s arrival) (table' : x.Timetable s' arrival')
  (all : ∀ task ∈ x.prog.tasks, task ∈ s.scheduled)
  (all' : ∀ task ∈ x.prog.tasks, task ∈ s'.scheduled)
  (inside : task ∈ x.prog.tasks)
  (sooner : ∀ other ∈ x.prog.tasks, s.place other < s.place task →
    Agrees s s' arrival arrival' other)
  (early : ∀ other ∈ x.prog.tasks, arrival other < arrival task ∨ arrival' other < arrival task →
    Agrees s s' arrival arrival' other)

include table table' all all' inside sooner early

/-- The first fetch of a page in one run is from the domain where the page lives in the other. -/
theorem home_unique {d' : ℕ} (needed : p ∈ x.needs task) (home : p ∈ s.numas d)
    (home' : p ∈ s'.numas d') : d = d' := by
  obtain ⟨first, known, fetch, asks, own, least⟩ := table.home p d home
  have member := table.inside first known
  obtain ⟨started, before⟩ := table.fetch_le (all task inside)
  have sooner_or : s.place first ≤ s.place task :=
    (least _ started rfl (needed : p ∈ x.needs ⟨.comm, task.tid⟩)).trans before
  -- the first fetch arrives at the same time in both runs
  have time : arrival first = arrival' first := by
    obtain same | less := sooner_or.eq_or_lt
    · obtain rfl := place_inj known same
      exact table.arrivals_congr table' known (all' _ inside) sooner
    · exact (sooner first member less).1
  have bound : arrival first ≤ arrival task := by
    obtain same | less := sooner_or.eq_or_lt
    · obtain rfl := place_inj known same
      exact le_rfl
    · exact table.sorted task (all task inside) first known less
  by_contra other_home
  obtain ⟨other, known', fetch', asks', place', earlier | ⟨own', before'⟩⟩ :=
    table'.page first (all' _ member) d p d' fetch own asks home' (Ne.symm other_home)
  · -- a fetch that arrives earlier in the other run does so in this one
    have among := table'.inside other known'
    have agrees := early other among (.inr (earlier.trans_le (time ▸ bound)))
    have less : arrival other < arrival first := by rw [agrees.1, time]; exact earlier
    obtain same | later := (least other (all other among) fetch' asks').eq_or_lt
    · obtain rfl := place_inj known same
      exact less.false
    · exact (table.sorted other (all other among) first known later).not_gt less
  · obtain ⟨known, place⟩ := table.before before' known
    exact (least other known fetch' asks').not_gt place

/-- The pages of a task live in the same domains. -/
theorem pages_congr (settled : x.Settled s) (settled' : x.Settled s') (needed : p ∈ x.needs task) :
    p ∈ s.numas d ↔ p ∈ s'.numas d := by
  have unique : ∀ {d d'}, p ∈ s.numas d → p ∈ s'.numas d' → d = d' := fun home home' =>
    home_unique table table' all all' inside sooner early needed home home'
  have fetch : (⟨.comm, task.tid⟩ : Task) ∈ x.prog.tasks :=
    Programm.mem_tasks.mpr (Programm.mem_tasks.mp inside :)
  constructor
  · intro home
    obtain ⟨d', -, home'⟩ := settled'.placed _ (all' _ fetch) rfl p needed
    exact unique home home' ▸ home'
  · intro home'
    obtain ⟨d₀, -, home⟩ := settled.placed _ (all _ fetch) rfl p needed
    exact unique home home' ▸ home

/-- The thunks in front of one on its CPU are the same ones, done at the same times. -/
theorem starts_congr (done : ∀ task ∈ s.scheduled, task.kind = .thunk → task ∈ s.logged)
    (done' : ∀ task ∈ s'.scheduled, task.kind = .thunk → task ∈ s'.logged)
    (thunk : task.kind = .thunk) :
    x.starts s (arrival task) task = x.starts s' (arrival' task) task := by
  have scheduled := all task inside
  have scheduled' := all' task inside
  have time := table.arrivals_congr table' scheduled scheduled' sooner
  -- a thunk that is in front by its arrival is so in both runs
  have queued : ∀ {other}, x.Queued s task other → x.Queued s' task other := by
    intro other queue
    obtain ⟨kind, same, known, place⟩ := queue
    have member := table.inside other known
    refine ⟨kind, same, all' other member, ?_⟩
    obtain less | before := table.cpu task scheduled other thunk ⟨kind, same, known, place⟩
    · by_contra late
      obtain equal | later := (Nat.not_lt.mp late).eq_or_lt
      · obtain rfl := place_inj scheduled' equal
        exact less.false
      · have agrees := sooner other member place
        rw [agrees.1, time] at less
        exact (table'.sorted other (all' other member) task scheduled' later).not_gt less
    · exact (table'.before before scheduled').2
  have queued' : ∀ {other}, x.Queued s' task other → x.Queued s task other := by
    intro other queue
    obtain ⟨kind, same, known, place⟩ := queue
    have member := table'.inside other known
    refine ⟨kind, same, all other member, ?_⟩
    obtain less | before := table'.cpu task scheduled' other thunk ⟨kind, same, known, place⟩
    · by_contra late
      obtain equal | later := (Nat.not_lt.mp late).eq_or_lt
      · obtain rfl := place_inj scheduled equal
        exact less.false
      · rw [← time] at less
        have agrees := early other member (.inr less)
        rw [← agrees.1] at less
        exact (table.sorted other (all other member) task scheduled later).not_gt less
    · exact (table.before before scheduled).2
  rw [starts, starts, time]
  refine congrArg _ (Set.ext fun time => exists_congr fun other => ?_)
  constructor
  · rintro ⟨⟨kind, same, known, place⟩, entry⟩
    have member := table.inside other known
    exact ⟨queued ⟨kind, same, known, place⟩, (table.mem_log_iff table' (sooner other member place)
      (done _ known kind) (done' _ (all' other member) kind)).mp entry⟩
  · rintro ⟨queue, entry⟩
    obtain ⟨kind, -, known, place⟩ := queued' queue
    have member := table.inside other known
    exact ⟨queued' queue, (table.mem_log_iff table' (sooner other member place) (done _ known kind)
      (done' _ (all' other member) kind)).mpr entry⟩

/-- A task is the same in two runs that agree about what is in front of it. -/
theorem agrees_step (settled : x.Settled s) (settled' : x.Settled s')
    (done : ∀ task ∈ s.scheduled, task.kind = .thunk → task ∈ s.logged)
    (done' : ∀ task ∈ s'.scheduled, task.kind = .thunk → task ∈ s'.logged) :
    Agrees s s' arrival arrival' task := by
  have time := table.arrivals_congr table' (all task inside) (all' task inside) sooner
  refine ⟨time, fun end_ end' entry entry' => ?_⟩
  by_cases thunk : task.kind = .thunk
  · obtain ⟨-, start, first, rfl⟩ := (table.ends task end_ entry).runs thunk
    obtain ⟨-, start', first', rfl⟩ := (table'.ends task end' entry').runs thunk
    have same := starts_congr table table' all all' inside sooner early done done' thunk
    rw [first.unique (same ▸ first')]
  · have same : x.rings s.numas (arrival task) task = x.rings s'.numas (arrival' task) task := by
      rw [rings, rings, time, spans, spans, bookings_congr fun p asked d => pages_congr table
        table' all all' inside sooner early settled settled' (asks_subset_needs asked)]
    exact ((table.ends task end_ entry).moves thunk).unique
      (same ▸ (table'.ends task end' entry').moves thunk)

end Step

/-- **There is one timetable.** Two runs that have scheduled all tasks and are done with the thunks
have each task at the same time. -/
theorem agrees (table : x.Timetable s arrival) (table' : x.Timetable s' arrival')
    (settled : x.Settled s) (settled' : x.Settled s')
    (all : ∀ task ∈ x.prog.tasks, task ∈ s.scheduled)
    (all' : ∀ task ∈ x.prog.tasks, task ∈ s'.scheduled)
    (done : ∀ task ∈ s.scheduled, task.kind = .thunk → task ∈ s.logged)
    (done' : ∀ task ∈ s'.scheduled, task.kind = .thunk → task ∈ s'.logged)
    (inside : task ∈ x.prog.tasks) : Agrees s s' arrival arrival' task := by
  have sorted : ∀ job ∈ x.prog.tasks.toFinset, ∀ other ∈ x.prog.tasks.toFinset,
      s.place other < s.place job → arrival other ≤ arrival job := fun job inside other among =>
    table.sorted job (all job (List.mem_toFinset.mp inside)) other
      (all other (List.mem_toFinset.mp among))
  have sorted' : ∀ job ∈ x.prog.tasks.toFinset, ∀ other ∈ x.prog.tasks.toFinset,
      s'.place other < s'.place job → arrival' other ≤ arrival' job :=
    fun job inside other among =>
      table'.sorted job (all' job (List.mem_toFinset.mp inside)) other
        (all' other (List.mem_toFinset.mp among))
  refine FirstDifference.forall_agrees sorted sorted' ?_ ?_ task (List.mem_toFinset.mpr inside)
  · intro job inside sooner early
    simp only [List.mem_toFinset] at inside sooner early
    exact agrees_step table table' all all' inside sooner early settled settled' done done'
  · intro job inside sooner early
    simp only [List.mem_toFinset] at inside sooner early
    exact (agrees_step table' table all' all inside
      (fun other among before => (sooner other among before).symm)
      (fun other among before => (early other among before).symm) settled' settled done' done).symm

end Timetable

end Unique

end Execution

end Tthread.Racksim
