/-
# The rounds of a run

A run goes in rounds: it schedules what is ready, visits the devices, and rings alarms until a
task is finished. Where no choice within a round is open, and no alarm of the time at which it
ends is left, the state in front of the next round is fixed by the one in front of this round, up
to the order of its sets. This is so for programs with any number of sources and sinks, whatever
becomes of commits and however long thunks run, and it fixes the time that a run returns.
-/

import Tthread.Clockwork

namespace Tthread.Racksim

namespace Execution

variable {Time : Type} [Clock Time] {x : Execution Time} {s s' s₀ s₁ s₀' s₁' : State Time}
  {task other : Task} {draw : ℕ → ℕ} {choice event : ℕ} {label : Label} {p d : ℕ}
  {last last' earliest time : Time} {popped finished : List Task} {seen todo : List Device}

/-- Nothing is chosen within a round that makes a difference. A page that a fetch finds in another
domain was asked for by a fetch that is through with its devices. A thunk finds nothing that
waits for its CPU. A domain has at most one event to choose. A round leaves no alarm of the time
at which it ends. -/
structure Unordered (x : Execution Time) (s : State Time) (label : Label) : Prop where
  page : ∀ choice draw task own p d, label = .pop choice draw → s.ready[choice]? = some task →
    task.kind = .comm → x.domain task = some own → p ∈ x.needs task → p ∈ s.numas d → d ≠ own →
    ∃ other ∈ s.scheduled, other.kind = .comm ∧ p ∈ x.needs other ∧
      ∀ entry ∈ s.active, entry.2.task ≠ other
  cpu : ∀ choice draw task, label = .pop choice draw → s.ready[choice]? = some task →
    task.kind = .thunk → ∀ entry ∈ s.active, entry.1 ≠ .cpu (x.cpu task)
  numa : ∀ choice event todo id, label = .visit choice event → s.phase = .progress todo →
    todo[choice]? = some (.numa id) → s.active.countP (fun entry => entry.1 = .numa id) ≤ 1
  alarm : ∀ earliest last finished, label = .release →
    s.phase = .complete earliest (some last) finished → ∀ alarm ∈ s.alarms, last < alarm.time

/-! ## What holds in every state -/

/-- The books are kept, each page has one home, and at most one thunk waits for a CPU. -/
structure Tidy (x : Execution Time) (s : State Time) : Prop where
  ledger : ∃ stuck, x.Ledger x.unstarted stuck s
  settled : x.Settled s
  waits : ∀ id, s.active.countP (fun entry => entry.1 = .cpu id) ≤ 1

/-- A thunk waits for its CPU once, and no other task waits for a CPU. -/
theorem countP_books_cpu {numas : ℕ → Finset ℕ} {id : ℕ} :
    (x.books numas task).countP (fun entry => entry.1 = .cpu id) =
      if task.kind = .thunk ∧ x.cpu task = id then 1 else 0 := by
  rw [books]
  split_ifs with moves mine
  · cases mine.1.symm.trans moves.1
  · rfl
  · rw [countP_bookings_cpu, if_pos ‹_›]
  · rw [countP_bookings_cpu, if_neg ‹_›]

/-- A fetch waits for its own domain. -/
theorem exists_books_comm (numas : ℕ → Finset ℕ) (kind : task.kind = .comm) :
    ∃ entry ∈ x.books numas task, entry.2.task = task := by
  refine ⟨(.numa ((x.domain task).getD 0), ⟨task, 0⟩), ?_, rfl⟩
  simp only [books, bookings, kind, reduceCtorEq, false_and, if_false]
  exact List.mem_append_right _ (List.mem_singleton_self _)

namespace Tidy

omit [Clock Time] in
theorem known (tidy : x.Tidy s) (done : task ∈ s.logged) : task ∈ s.scheduled := by
  obtain ⟨stuck, ledger⟩ := tidy.ledger
  exact ledger.known (List.mem_append_right _ done)

omit [Clock Time] in
/-- What is ready or has been scheduled waits for nothing. -/
theorem front (tidy : x.Tidy s) (enabled : task ∈ s.ready ∨ task ∈ s.scheduled) :
    ∀ other ∈ x.prog.predecessors task, other ∈ s.logged := by
  obtain ⟨stuck, ledger⟩ := tidy.ledger
  have enabled : task ∈ s.ready ∨ task ∈ (State.among s x.unstarted).scheduled :=
    enabled.imp_right (List.mem_append_left _)
  exact (ledger.tracked.enabled task (ledger.tracked.inside task enabled)).mp enabled

omit [Clock Time] in
theorem fresh (tidy : x.Tidy s) (ready : task ∈ s.ready) : task ∉ s.scheduled := by
  obtain ⟨stuck, ledger⟩ := tidy.ledger
  exact fun member => ledger.tracked.fresh task ready (List.mem_append_left _ member)

omit [Clock Time] in
/-- The pages of a fetch that has been scheduled have homes. -/
theorem placed (tidy : x.Tidy s) (scheduled : other ∈ s.scheduled) (kind : other.kind = .comm)
    (needed : p ∈ x.needs other) : ∃ d, p ∈ s.numas d := by
  obtain ⟨d, -, home⟩ := tidy.settled.placed other scheduled kind p needed
  exact ⟨d, home⟩

theorem pop (tidy : x.Tidy s) (policy : x.initPage = .firstTouch)
    (calm : x.Unordered s (.pop choice draw)) (move : x.step s (.pop choice draw) = some s') :
    s'.Stopped ∨ ∀ id, s'.active.countP (fun entry => entry.1 = .cpu id) ≤ 1 := by
  obtain ⟨task, phase, ready, ⟨message, -, rfl⟩ | scheduled⟩ := step_pop move
  · exact .inl trivial
  right
  intro id
  have active : s'.active = s.active ++ x.books s.numas task := by
    rw [schedule_books policy scheduled]
    rfl
  rw [active]
  exact waits_booked countP_books_cpu (calm.cpu choice draw task rfl ready) (tidy.waits id)

theorem step (tidy : x.Tidy s) (policy : x.initPage = .firstTouch) (calm : x.Unordered s label)
    (move : x.step s label = some s') : s'.Stopped ∨ x.Tidy s' := by
  obtain ⟨stuck, ledger⟩ := tidy.ledger
  have settled := tidy.settled.step (drawsOwn_of_firstTouch policy) move
  obtain stopped | ledger' := ledger.step move
  · exact .inl stopped
  refine Or.imp_right (fun waits => ⟨ledger', settled, waits⟩) ?_
  cases label with
  | test =>
    obtain ⟨-, ⟨-, rfl⟩ | ⟨-, -, rfl⟩⟩ := step_test move <;> exact .inr tidy.waits
  | pop choice draw => exact tidy.pop policy calm move
  | start =>
    obtain ⟨-, -, rfl⟩ := step_start move
    exact .inr tidy.waits
  | visit choice event =>
    obtain ⟨todo, device, after, -, -, visited, rfl⟩ := step_visit move
    obtain ⟨taken, kept, running, split, -, rfl, -⟩ := visit_moved visited
    refine .inr fun id => le_trans ?_ (tidy.waits id)
    show kept.countP _ ≤ _
    rw [← split.countP_eq, List.countP_append]
    exact Nat.le_add_left _ _
  | complete =>
    obtain ⟨-, ⟨-, rfl⟩ | ⟨earliest, -, rfl⟩⟩ := step_complete move <;> exact .inr tidy.waits
  | ring choice =>
    obtain ⟨earliest, last, finished, alarm, -, -, -, -, rfl⟩ := step_ring move
    rw [callBack_eq]
    exact .inr tidy.waits
  | release =>
    obtain ⟨_, last, finished, -, -, ⟨-, rfl⟩ | ⟨-, -, -, rfl⟩ | ⟨-, -, rfl⟩⟩ := step_release move
    · exact .inl trivial
    · exact .inl trivial
    · obtain ⟨wait, ready, released⟩ := @foldl_release Time x { s with now := last } finished
      rw [released]
      exact .inr tidy.waits

end Tidy

theorem tidy_initial (init : x.system.Init s) : x.Tidy s where
  ledger := ledger_initial init
  settled := by
    obtain ⟨entry, -, rfl⟩ := init
    exact settled_initial entry
  waits id := by
    obtain ⟨entry, -, rfl⟩ := init
    exact Nat.zero_le 1

/-! ## Tasks are popped -/

/-- A page without a home is placed by some task of these. -/
def Touched (x : Execution Time) (s₀ : State Time) (popped : List Task) (p d : ℕ) : Prop :=
  (∃ task ∈ popped, task.kind = .comm ∧ x.domain task = some d ∧ p ∈ x.needs task) ∧
    ∀ e, p ∉ s₀.numas e

/-- Some tasks have been popped since the round began, latest first. -/
structure Pops (x : Execution Time) (s₀ : State Time) (popped : List Task) (s : State Time) :
    Prop where
  split : (popped ++ s.ready).Perm s₀.ready
  scheduled : s.scheduled = popped ++ s₀.scheduled
  numas : ∀ p d, p ∈ s.numas d ↔ p ∈ s₀.numas d ∨ x.Touched s₀ popped p d
  active : s.active.Perm (s₀.active ++ popped.flatMap (x.books s₀.numas))
  now : s.now = s₀.now
  log : s.log = s₀.log
  running : s.running = s₀.running
  alarms : s.alarms = s₀.alarms

/-- An element goes from one part of a list to the other. -/
theorem perm_of_moved {α : Type*} {moved rest all : List α} {a : α} {i : ℕ}
    (place : rest[i]? = some a) (split : (moved ++ rest).Perm all) :
    (a :: moved ++ rest.eraseIdx i).Perm all := by
  have out : (moved ++ a :: rest.eraseIdx i).Perm (moved ++ rest) :=
    (perm_eraseIdx place).append_left moved
  exact (List.perm_middle.symm.trans out).trans split

namespace Pops

theorem logged (pops : x.Pops s₀ popped s) : s.logged = s₀.logged := by
  rw [State.logged, pops.log, ← State.logged]

/-- A fetch that is through with its devices has been popped in a round before. -/
theorem old_of_through (pops : x.Pops s₀ popped s) (scheduled : other ∈ s.scheduled)
    (kind : other.kind = .comm) (through : ∀ entry ∈ s.active, entry.2.task ≠ other) :
    other ∈ s₀.scheduled := by
  rw [pops.scheduled] at scheduled
  refine (List.mem_append.mp scheduled).resolve_left fun popped => ?_
  obtain ⟨entry, member, own⟩ := exists_books_comm (x := x) s₀.numas kind
  refine through entry (pops.active.mem_iff.mpr ?_) own
  exact List.mem_append_right _ (List.mem_flatMap.mpr ⟨other, popped, member⟩)

/-- A page that a fetch needs and that had no home is in its own domain if anywhere. -/
theorem own_of_new (pops : x.Pops s₀ popped s) (tidy₀ : x.Tidy s₀)
    (calm : x.Unordered s (.pop choice draw)) (ready : s.ready[choice]? = some task)
    (kind : task.kind = .comm) {own : ℕ} (domain : x.domain task = some own)
    (needed : p ∈ x.needs task) (homeless : ∀ e, p ∉ s₀.numas e) (home : p ∈ s.numas d) :
    d = own := by
  by_contra away
  obtain ⟨other, scheduled, comm, needed, through⟩ :=
    calm.page choice draw task own p d rfl ready kind domain needed home away
  obtain ⟨e, old⟩ := tidy₀.placed (pops.old_of_through scheduled comm through) comm needed
  exact homeless e old

/-- A commit writes pages that were placed in a round before. -/
theorem placed_of_commit (pops : x.Pops s₀ popped s) (tidy₀ : x.Tidy s₀) (tidy : x.Tidy s)
    (ready : task ∈ s.ready) (kind : task.kind = .commit) (asked : p ∈ x.asks task) :
    ∃ d, p ∈ s₀.numas d := by
  obtain ⟨_, tid⟩ := task
  obtain rfl : _ = Kind.commit := kind
  obtain ⟨stuck, ledger⟩ := tidy.ledger
  have inside := Programm.mem_tasks.mp (ledger.tracked.inside _ (.inl ready))
  have thunk : (⟨.thunk, tid⟩ : Task) ∈ s.logged :=
    tidy.front (.inl ready) _ (Programm.mem_predecessors.mpr
      ⟨Programm.mem_tasks.mpr inside, List.mem_cons_self⟩)
  have comm : (⟨.comm, tid⟩ : Task) ∈ s.logged :=
    tidy.front (.inr (tidy.known thunk)) _ (Programm.mem_predecessors.mpr
      ⟨Programm.mem_tasks.mpr inside, List.mem_singleton_self _⟩)
  rw [pops.logged] at comm
  have needed : p ∈ x.needs ⟨.comm, tid⟩ := (asks_subset_needs asked :)
  exact tidy₀.placed (tidy₀.known comm) rfl needed

/-- A task is booked with the pages of the beginning of the round. -/
theorem books_eq (pops : x.Pops s₀ popped s) (tidy₀ : x.Tidy s₀) (tidy : x.Tidy s)
    (calm : x.Unordered s (.pop choice draw)) (ready : s.ready[choice]? = some task)
    (present : task.kind = .comm → ∃ own, x.domain task = some own) :
    x.books s.numas task = x.books s₀.numas task := by
  have member := List.mem_of_getElem? ready
  have same : x.bookings s.numas task = x.bookings s₀.numas task := by
    refine bookings_touched (fun p => ∃ other ∈ popped, other.kind = .comm ∧
      x.domain other = x.domain task ∧ p ∈ x.needs other) fun p asked d => ?_
    rw [pops.numas, Touched]
    refine or_congr_right ⟨?_, ?_⟩
    · rintro ⟨⟨other, popped, comm, domain, needed⟩, homeless⟩
      have home : p ∈ s.numas d :=
        (pops.numas p d).mpr (.inr ⟨⟨other, popped, comm, domain, needed⟩, homeless⟩)
      cases kind : task.kind with
      | comm =>
        obtain ⟨own, present⟩ := present kind
        obtain rfl := pops.own_of_new tidy₀ calm ready kind present (asks_subset_needs asked)
          homeless home
        exact ⟨present, ⟨other, popped, comm, domain.trans present.symm, needed⟩, homeless⟩
      | thunk =>
        rw [asks, kind] at asked
        exact absurd asked (Finset.notMem_empty p)
      | commit =>
        obtain ⟨e, old⟩ := pops.placed_of_commit tidy₀ tidy member kind asked
        exact absurd old (homeless e)
    · rintro ⟨domain, ⟨other, popped, comm, same, needed⟩, homeless⟩
      exact ⟨⟨other, popped, comm, same.trans domain, needed⟩, homeless⟩
  rw [books, books, same]

/-- **Popping a task** goes on with the round. -/
theorem pop (pops : x.Pops s₀ popped s) (policy : x.initPage = .firstTouch) (tidy₀ : x.Tidy s₀)
    (tidy : x.Tidy s) (calm : x.Unordered s (.pop choice draw))
    (ready : s.ready[choice]? = some task)
    (scheduled : x.schedule draw task { s with
      ready := s.ready.eraseIdx choice
      scheduled := task :: s.scheduled } = .ok s') : x.Pops s₀ (task :: popped) s' := by
  have present : task.kind = .comm → ∃ own, x.domain task = some own := by
    intro kind
    obtain ⟨-, own, -, present, -⟩ | ⟨other, -⟩ := schedule_numas scheduled
    · exact ⟨own, present⟩
    · exact absurd kind other
  have entries : x.books s.numas task = x.books s₀.numas task :=
    pops.books_eq tidy₀ tidy calm ready present
  have placed : ∀ p d, p ∈ s'.numas d ↔ p ∈ s.numas d ∨ task.kind = .comm ∧
      x.domain task = some d ∧ p ∈ x.needs task ∧ ∀ e, p ∉ s.numas e :=
    fun p d => (mem_schedule policy (by exact tidy.settled.home) scheduled :)
  have booked := schedule_books policy scheduled
  have active : s'.active = s.active ++ x.books s.numas task := by rw [booked]; rfl
  refine
    { split := ?_
      scheduled := ?_
      numas := fun p d => ?_
      active := ?_
      now := by rw [booked]; exact pops.now
      log := by rw [booked]; exact pops.log
      running := by rw [booked]; exact pops.running
      alarms := by rw [booked]; exact pops.alarms }
  · have rest : s'.ready = s.ready.eraseIdx choice := by rw [booked]; rfl
    rw [rest]
    exact perm_of_moved ready pops.split
  · rw [booked]
    exact congrArg (task :: ·) pops.scheduled
  · rw [placed, pops.numas, or_assoc]
    refine or_congr_right ⟨?_, ?_⟩
    · rintro (⟨⟨first, popped, touched⟩, homeless⟩ | ⟨kind, domain, needed, nowhere⟩)
      · exact ⟨⟨first, List.mem_cons_of_mem _ popped, touched⟩, homeless⟩
      · refine ⟨⟨task, List.mem_cons_self, kind, domain, needed⟩, fun e home => nowhere e ?_⟩
        exact (pops.numas p e).mpr (.inl home)
    · rintro ⟨⟨first, popped, kind, domain, needed⟩, homeless⟩
      obtain rfl | popped := List.mem_cons.mp popped
      · -- some task of the same domain may have placed the page in this round already
        by_cases nowhere : ∀ e, p ∉ s.numas e
        · exact .inr ⟨kind, domain, needed, nowhere⟩
        · obtain ⟨e, home⟩ := not_forall_not.mp nowhere
          obtain rfl := pops.own_of_new tidy₀ calm ready kind domain needed homeless home
          exact .inl (((pops.numas p e).mp home).resolve_left (homeless e))
      · exact .inl ⟨⟨first, popped, kind, domain, needed⟩, homeless⟩
  · rw [active, entries, List.flatMap_cons]
    refine (pops.active.append_right _).trans ?_
    rw [List.append_assoc]
    exact List.perm_append_comm.append_left _

end Pops

/-! ## Devices are visited -/

/-- What is on the devices once all that is ready has been scheduled. -/
def laden (x : Execution Time) (s₀ : State Time) : List (Device × Event Time) :=
  s₀.active ++ s₀.ready.flatMap (x.books s₀.numas)

/-- Devices that are visited take all that waits for them, but for CPUs that run something. -/
def takes (s₀ : State Time) (seen : List Device) (entry : Device × Event Time) : Bool :=
  entry.1 ∈ seen && match entry.1 with
    | .cpu id => !s₀.running id
    | _ => true

/-- What waits for a device when these have been visited. -/
def waiting (x : Execution Time) (s₀ : State Time) (seen : List Device) :
    List (Device × Event Time) :=
  (x.laden s₀).filter fun entry => !takes s₀ seen entry

/-- The alarms that are set then. -/
def ringing (x : Execution Time) (s₀ : State Time) (seen : List Device) : List (Alarm Time) :=
  ((x.laden s₀).filter (takes s₀ seen)).map (fun entry => x.alarm s₀.now entry.1 entry.2) ++
    s₀.alarms

/-- The CPU runs something then. -/
def Runs (x : Execution Time) (s₀ : State Time) (seen : List Device) (id : ℕ) : Prop :=
  s₀.running id = true ∨ .cpu id ∈ seen ∧ ∃ entry ∈ x.laden s₀, entry.1 = .cpu id

/-- All that was ready when the round began has been scheduled. -/
structure Scheduled (x : Execution Time) (s₀ s : State Time) : Prop where
  ready : s.ready = []
  scheduled : ∀ task, task ∈ s.scheduled ↔ task ∈ s₀.ready ∨ task ∈ s₀.scheduled
  numas : ∀ p d, p ∈ s.numas d ↔ p ∈ s₀.numas d ∨ x.Touched s₀ s₀.ready p d
  log : s.log = s₀.log
  time : s.time = s₀.now

/-- Some devices have been visited since the round began. -/
structure Visits (x : Execution Time) (s₀ : State Time) (seen todo : List Device)
    (s : State Time) : Prop extends x.Scheduled s₀ s where
  split : (seen ++ todo).Perm x.arch.devices
  active : s.active.Perm (x.waiting s₀ seen)
  alarms : s.alarms.Perm (x.ringing s₀ seen)
  running : ∀ id, s.running id = true ↔ x.Runs s₀ seen id

omit [Clock Time] in
theorem touched_perm (same : popped.Perm finished) :
    x.Touched s₀ popped p d ↔ x.Touched s₀ finished p d := by
  simp only [Touched, same.mem_iff]

/-- The devices are visited when nothing is ready any more. -/
theorem Pops.start (pops : x.Pops s₀ popped s) (move : x.step s .start = some s') :
    x.Visits s₀ [] x.arch.devices s' := by
  obtain ⟨-, ready, rfl⟩ := step_start move
  have split : popped.Perm s₀.ready := by
    have split := pops.split
    rwa [ready, List.append_nil] at split
  have none : ∀ entry, takes s₀ [] entry = false := fun _ => rfl
  refine
    { ready := ready
      scheduled := fun task => ?_
      numas := fun p d => ?_
      log := pops.log
      time := pops.now
      split := List.Perm.refl _
      active := ?_
      alarms := ?_
      running := fun id => ?_ }
  · show task ∈ s.scheduled ↔ _
    rw [pops.scheduled, List.mem_append, split.mem_iff]
  · show p ∈ s.numas d ↔ _
    rw [pops.numas, touched_perm split]
  · show s.active.Perm _
    rw [waiting, List.filter_eq_self.mpr fun entry _ => by rw [none]; rfl]
    exact pops.active.trans ((split.flatMap_right _).append_left _)
  · show s.alarms.Perm _
    rw [ringing, List.filter_eq_nil_iff.mpr fun entry _ => by rw [none]; exact Bool.false_ne_true,
      pops.alarms]
    exact List.Perm.refl _
  · show s.running id = true ↔ _
    rw [pops.running, Runs]
    exact (or_iff_left fun none => List.not_mem_nil none.1).symm

/-- A list is split as a test splits it. -/
theorem perm_filter_of_split {α : Type*} {taken kept l : List α} {P : α → Bool}
    (split : (taken ++ kept).Perm l) (yes : ∀ a ∈ taken, P a = true)
    (no : ∀ a ∈ kept, P a = false) :
    taken.Perm (l.filter P) ∧ kept.Perm (l.filter fun a => !P a) := by
  have first := split.filter P
  have second := split.filter fun a => !P a
  rw [List.filter_append, List.filter_eq_self.mpr yes,
    List.filter_eq_nil_iff.mpr fun a member => by rw [no a member]; exact Bool.false_ne_true,
    List.append_nil] at first
  rw [List.filter_append, List.filter_eq_nil_iff.mpr fun a member => by simp [yes a member],
    List.filter_eq_self.mpr fun a member => by rw [no a member]; rfl, List.nil_append] at second
  exact ⟨first, second⟩

namespace Visits

/-- A CPU that something waits for runs if it did when the round began. -/
theorem runs_of_waiting (visits : x.Visits s₀ seen todo s) {entry : Device × Event Time} {id : ℕ}
    (member : entry ∈ x.waiting s₀ seen) (cpu : entry.1 = .cpu id) :
    s.running id = s₀.running id := by
  obtain ⟨inside, kept⟩ := List.mem_filter.mp member
  rw [Bool.eq_iff_iff, visits.running, Runs]
  refine or_iff_left_of_imp fun ⟨visited, _⟩ => ?_
  simpa [takes, cpu, visited] using kept

/-- What a CPU that stands could have taken still waits. -/
theorem waits_of_stands (visits : x.Visits s₀ seen todo s) {entry : Device × Event Time} {id : ℕ}
    (member : entry ∈ x.laden s₀) (cpu : entry.1 = .cpu id) (stands : ¬ s.running id = true) :
    entry ∈ x.waiting s₀ seen := by
  refine List.mem_filter.mpr ⟨member, ?_⟩
  rw [visits.running, Runs, not_or] at stands
  have unseen : .cpu id ∉ seen := fun visited => stands.2 ⟨visited, entry, member, cpu⟩
  simp [takes, cpu, unseen]

theorem runs_cons {device : Device} {id : ℕ} : x.Runs s₀ (device :: seen) id ↔
    x.Runs s₀ seen id ∨ device = .cpu id ∧ ∃ entry ∈ x.laden s₀, entry.1 = .cpu id := by
  rw [Runs, Runs, List.mem_cons, eq_comm (a := device), or_and_right, or_assoc]
  exact or_congr_right or_comm

omit [Clock Time] in
/-- A device takes the one event that waits for it. -/
theorem ne_of_one {device : Device} {entry : Device × Event Time}
    {kept active : List (Device × Event Time)} (split : ([entry] ++ kept).Perm active)
    (own : entry.1 = device) (one : active.countP (fun entry => entry.1 = device) ≤ 1) :
    ∀ other ∈ kept, other.1 ≠ device := by
  rw [← split.countP_eq, List.singleton_append, List.countP_cons,
    if_pos (decide_eq_true own)] at one
  intro other member same
  have rest : 0 < kept.countP (fun entry => entry.1 = device) :=
    List.countP_pos_iff.mpr ⟨other, member, decide_eq_true same⟩
  omega

omit [Clock Time] in
theorem takes_singleton {device : Device} {entry : Device × Event Time} :
    takes s₀ [device] entry = true ↔
      entry.1 = device ∧ ∀ id, device = .cpu id → s₀.running id = false := by
  obtain ⟨owner, event⟩ := entry
  rw [takes, Bool.and_eq_true, decide_eq_true_eq, List.mem_singleton]
  refine and_congr_right fun same => ?_
  obtain rfl : owner = device := same
  cases owner <;> simp

omit [Clock Time] in
theorem takes_cons {device : Device} {entry : Device × Event Time} :
    takes s₀ (device :: seen) entry = (takes s₀ seen entry || takes s₀ [device] entry) := by
  simp only [takes, List.mem_cons, List.not_mem_nil, or_false, Bool.decide_or]
  cases decide (entry.1 = device) <;> cases decide (entry.1 ∈ seen) <;> simp

/-- **Visiting a device** takes what waits for it, whatever was visited before. -/
theorem visit (visits : x.Visits s₀ seen todo s) (tidy : x.Tidy s)
    (phase : s.phase = .progress todo) (calm : x.Unordered s (.visit choice event))
    (move : x.step s (.visit choice event) = some s') :
    ∃ device todo', s'.phase = .progress todo' ∧ x.Visits s₀ (device :: seen) todo' s' := by
  obtain ⟨_, device, after, same, chosen, visited, rfl⟩ := step_visit move
  obtain rfl := Phase.progress.inj (phase.symm.trans same)
  obtain ⟨taken, kept, running, split, own, rfl, cases_⟩ := visit_moved visited
  have inside : ∀ entry ∈ s.active, entry ∈ x.waiting s₀ seen := fun entry member =>
    visits.active.mem_iff.mp member
  -- the device takes what `takes` says of it, and leaves the rest
  have yes : ∀ entry ∈ taken, takes s₀ [device] entry = true := by
    intro entry member
    refine takes_singleton.mpr ⟨own entry member, fun id cpu => ?_⟩
    have known := inside entry (split.mem_iff.mp (List.mem_append_left _ member))
    rw [← visits.runs_of_waiting known ((own entry member).trans cpu)]
    obtain ⟨other, -⟩ | ⟨id', cpu', ⟨none, -⟩ | ⟨stands, -⟩⟩ := cases_
    · exact absurd cpu (other id)
    · rw [none] at member
      exact absurd member List.not_mem_nil
    · obtain rfl := Device.cpu.inj (cpu.symm.trans cpu')
      exact stands
  have no : ∀ entry ∈ kept, takes s₀ [device] entry = false := by
    intro entry member
    have known := inside entry (split.mem_iff.mp (List.mem_append_right _ member))
    rw [Bool.eq_false_iff, Ne, takes_singleton]
    rintro ⟨same, stands⟩
    obtain ⟨-, -, none | ⟨id, first, rfl, rfl⟩⟩ |
      ⟨id, rfl, ⟨-, -, none | runs⟩ | ⟨-, -, first, rfl⟩⟩ :=
      cases_
    · exact none entry member same
    · exact ne_of_one split (own first (List.mem_singleton_self _))
        (calm.numa choice event todo id rfl phase chosen) entry member same
    · exact none entry member same
    · rw [visits.runs_of_waiting known same, stands id rfl] at runs
      cases runs
    · exact ne_of_one split (own first (List.mem_singleton_self _)) (tidy.waits id)
        entry member same
  obtain ⟨takes_, keeps⟩ := perm_filter_of_split split yes no
  -- which is seen on what has been left since the round began
  have waits : ∀ Q : Device × Event Time → Bool, (s.active.filter Q).Perm
      ((x.laden s₀).filter fun entry => Q entry && !takes s₀ seen entry) := fun Q => by
    have kept := visits.active.filter Q
    rwa [waiting, List.filter_filter] at kept
  have or_seen : ∀ entry, takes s₀ (device :: seen) entry =
      (takes s₀ seen entry || takes s₀ [device] entry) := fun _ => takes_cons
  refine ⟨device, todo.eraseIdx choice, rfl,
    { ready := visits.ready
      scheduled := visits.scheduled
      numas := visits.numas
      log := visits.log
      time := visits.time
      split := ?_
      active := ?_
      alarms := ?_
      running := fun id => ?_ }⟩
  · exact perm_of_moved chosen visits.split
  · refine (keeps.trans (waits _)).trans (List.Perm.of_eq (List.filter_congr fun entry _ => ?_))
    rw [or_seen, Bool.not_or, Bool.and_comm]
  · show (taken.map (fun entry => x.alarm s.time entry.1 entry.2) ++ s.alarms).Perm _
    have both : (taken ++ (x.laden s₀).filter (takes s₀ seen)).Perm
        ((x.laden s₀).filter (takes s₀ (device :: seen))) := by
      have parts := List.filter_append_perm (takes s₀ seen)
        ((x.laden s₀).filter (takes s₀ (device :: seen)))
      rw [List.filter_filter, List.filter_filter] at parts
      refine (List.perm_append_comm.trans (List.Perm.append ?_ ?_)).trans parts
      · refine List.Perm.of_eq (List.filter_congr fun entry _ => ?_)
        rw [or_seen]
        cases takes s₀ seen entry <;> rfl
      · refine (takes_.trans (waits _)).trans
          (List.Perm.of_eq (List.filter_congr fun entry _ => ?_))
        rw [or_seen]
        cases takes s₀ seen entry <;> cases takes s₀ [device] entry <;> rfl
    rw [visits.time, ringing]
    refine (visits.alarms.append_left _).trans ?_
    rw [ringing, ← List.append_assoc, ← List.map_append]
    exact (both.map _).append_right _
  · have laden : ∀ entry ∈ s.active, entry ∈ x.laden s₀ := fun entry member =>
      (List.mem_filter.mp (inside entry member)).1
    rw [runs_cons, ← visits.running]
    obtain ⟨other, rfl, -⟩ | ⟨id', rfl, ⟨rfl, rfl, idle⟩ | ⟨-, rfl, first, rfl⟩⟩ := cases_
    · exact (or_iff_left fun cpu => other id cpu.1).symm
    · -- a CPU that stands has nothing to take
      refine (or_iff_left_of_imp fun ⟨same, entry, known, cpu⟩ => ?_).symm
      obtain rfl := Device.cpu.inj same
      by_contra stands
      have waits : entry ∈ x.waiting s₀ seen := visits.waits_of_stands known cpu stands
      have member : entry ∈ kept := split.mem_iff.mpr (visits.active.mem_iff.mpr waits)
      obtain none | runs := idle
      · exact none entry member cpu
      · exact stands runs
    · have member :=
        laden first (split.mem_iff.mp (List.mem_append_left _ (List.mem_singleton_self _)))
      by_cases same : id = id'
      · subst same
        refine iff_of_true (Function.update_self _ _ _) (.inr ⟨rfl, first, member, ?_⟩)
        exact own first (List.mem_singleton_self _)
      · show Function.update s.running id' true id = true ↔ _
        rw [Function.update_of_ne same]
        exact (or_iff_left fun cpu => same (Device.cpu.inj cpu.1).symm).symm

end Visits

/-! ## Alarms ring -/

/-- What waits for a device when all have been visited. -/
def parked (x : Execution Time) (s₀ : State Time) : List (Device × Event Time) :=
  x.waiting s₀ x.arch.devices

/-- The alarms of the round. -/
def clocked (x : Execution Time) (s₀ : State Time) : List (Alarm Time) :=
  x.ringing s₀ x.arch.devices

/-- A task is finished by the alarms up to a time. -/
def Through (x : Execution Time) (s₀ : State Time) (time : Time) (task : Task) : Prop :=
  (∃ alarm ∈ x.clocked s₀, alarm.time ≤ time ∧ alarm.event.task = task) ∧
    (∀ entry ∈ x.parked s₀, entry.2.task ≠ task) ∧
      ∀ alarm ∈ x.clocked s₀, alarm.event.task = task → alarm.time ≤ time

/-- Some alarms have rung since the round began. -/
structure Rung (x : Execution Time) (s₀ : State Time) (earliest : Time) (last : Option Time)
    (finished : List Task) (rung : List (Alarm Time)) (s : State Time) : Prop
    extends x.Scheduled s₀ s where
  split : (rung ++ s.alarms).Perm (x.clocked s₀)
  active : s.active.Perm (x.parked s₀)
  running : ∀ id, s.running id = true ↔
    x.Runs s₀ x.arch.devices id ∧ ∀ alarm ∈ rung, alarm.callback ≠ some (.cpu id)
  first : Earliest (x.clocked s₀) earliest
  -- the last time is that of the last alarm that rang, and no alarm of an earlier one is left
  early : ∀ alarm ∈ rung, ∃ time, last = some time ∧ alarm.time ≤ time
  late : ∀ time, last = some time →
    (∃ alarm ∈ rung, alarm.time = time) ∧ ∀ alarm ∈ s.alarms, time ≤ alarm.time
  finished : ∀ task, task ∈ finished ↔ (∃ alarm ∈ rung, alarm.event.task = task) ∧
    (∀ entry ∈ s.active, entry.2.task ≠ task) ∧ ∀ alarm ∈ s.alarms, alarm.event.task ≠ task
  -- another alarm rings after the earliest time only while nothing is finished
  idle : ∀ time, earliest ≤ time → (∃ final, last = some final ∧ time < final) →
    ∀ task, ¬ x.Through s₀ time task

omit [Clock Time] in
theorem takes_perm (same : seen.Perm todo) : takes s₀ seen = takes s₀ todo := by
  funext entry
  simp only [takes, same.mem_iff]

/-- The alarms ring when all devices have been visited. -/
theorem Visits.complete (visits : x.Visits s₀ seen [] s) (move : x.step s .complete = some s') :
    s'.Stopped ∨ ∃ earliest, s'.phase = .complete earliest none [] ∧
      x.Rung s₀ earliest none [] [] s' := by
  obtain ⟨-, ⟨-, rfl⟩ | ⟨earliest, first, rfl⟩⟩ := step_complete move
  · exact .inl trivial
  have all : seen.Perm x.arch.devices := List.append_nil seen ▸ visits.split
  have parked : x.waiting s₀ seen = x.parked s₀ := by
    rw [Execution.parked, waiting, waiting, takes_perm all]
  have clocked : x.ringing s₀ seen = x.clocked s₀ := by
    rw [Execution.clocked, ringing, ringing, takes_perm all]
  have alarms := visits.alarms
  rw [clocked] at alarms
  refine .inr ⟨earliest, rfl,
    { toScheduled := ⟨visits.ready, visits.scheduled, visits.numas, visits.log, visits.time⟩
      split := alarms
      active := parked ▸ visits.active
      running := fun id => ?_
      first := ?_
      early := fun _ member => absurd member List.not_mem_nil
      late := fun _ none => by cases none
      finished := fun task => iff_of_false List.not_mem_nil fun rung => ?_
      idle := fun _ _ none => ?_ }⟩
  · rw [visits.running, Runs, Runs, all.mem_iff]
    exact (and_iff_left fun _ member => absurd member List.not_mem_nil).symm
  · simpa only [Earliest, alarms.mem_iff] using first
  · obtain ⟨_, member, -⟩ := rung.1
    exact absurd member List.not_mem_nil
  · obtain ⟨_, none, -⟩ := none
    cases none

namespace Rung

variable {rung : List (Alarm Time)} {previous : Option Time}

/-- What has rung and what has not make up the alarms of the round. -/
theorem mem_clocked (rings : x.Rung s₀ earliest previous finished rung s) {alarm : Alarm Time} :
    alarm ∈ x.clocked s₀ ↔ alarm ∈ rung ∨ alarm ∈ s.alarms := by
  rw [← rings.split.mem_iff, List.mem_append]

/-- When the alarms up to some time have rung the tasks that are finished are the ones that are
finished by them. -/
theorem through_iff (rings : x.Rung s₀ earliest previous finished rung s)
    (early : ∀ alarm ∈ rung, alarm.time ≤ time) (late : ∀ alarm ∈ s.alarms, time < alarm.time) :
    x.Through s₀ time task ↔ task ∈ finished := by
  rw [rings.finished, Through]
  refine and_congr ⟨?_, ?_⟩ (and_congr ?_ ⟨fun all alarm member same => ?_, fun none => ?_⟩)
  · rintro ⟨alarm, member, le, same⟩
    refine ⟨alarm, (rings.mem_clocked.mp member).resolve_right fun left => ?_, same⟩
    exact (late alarm left).not_ge le
  · rintro ⟨alarm, member, same⟩
    exact ⟨alarm, rings.mem_clocked.mpr (.inl member), early alarm member, same⟩
  · exact forall_congr' fun entry => by rw [rings.active.mem_iff]
  · exact (late alarm member).not_ge (all alarm (rings.mem_clocked.mpr (.inr member)) same)
  · intro alarm member same
    obtain rang | left := rings.mem_clocked.mp member
    · exact early alarm rang
    · exact absurd same (none alarm left)

/-- **An alarm that rings** goes on with the round. -/
theorem ring (rings : x.Rung s₀ earliest previous finished rung s) (tidy' : x.Tidy s')
    (phase : s.phase = .complete earliest previous finished)
    (move : x.step s (.ring choice) = some s') : ∃ last finished rung,
      s'.phase = .complete earliest last finished ∧ x.Rung s₀ earliest last finished rung s' := by
  obtain ⟨stuck, ledger'⟩ := tidy'.ledger
  have quiet : ∀ task, s'.counter task = 0 ↔ (∀ entry ∈ s'.active, entry.2.task ≠ task) ∧
      ∀ alarm ∈ s'.alarms, alarm.event.task ≠ task := fun _ => ledger'.quiet_iff
  obtain ⟨earliest', previous', finished', alarm, same, chosen, least, goes, rfl⟩ := step_ring move
  obtain ⟨rfl, rfl, rfl⟩ := Phase.complete.inj (phase.symm.trans same)
  have mem_alarms : ∀ other, other ∈ s.alarms ↔
      other = alarm ∨ other ∈ s.alarms.eraseIdx choice := fun other => by
    rw [← (perm_eraseIdx chosen).mem_iff, List.mem_cons]
  have member : alarm ∈ s.alarms := (mem_alarms alarm).mpr (.inl rfl)
  refine ⟨some alarm.time, _, alarm :: rung, rfl, ?_⟩
  rw [callBack_eq] at quiet ⊢
  refine
    { toScheduled := ⟨rings.ready, rings.scheduled, rings.numas, rings.log, rings.time⟩
      split := perm_of_moved chosen rings.split
      active := rings.active
      running := fun id => ?_
      first := rings.first
      early := List.forall_mem_cons.mpr ⟨⟨_, rfl, le_rfl⟩, fun other rang => ?_⟩
      late := ?_
      finished := fun task => ?_
      idle := fun time after before task through => ?_ }
  · show (callBack s alarm.callback).running id = true ↔ _
    rw [callBack_running, List.forall_mem_cons, and_left_comm, ← rings.running]
    split_ifs with back
    · exact iff_of_false (fun none => none) fun both => both.1 back
    · exact (and_iff_right back).symm
  · obtain ⟨time, same, le⟩ := rings.early other rang
    exact ⟨_, rfl, le.trans ((rings.late time same).2 alarm member)⟩
  · rintro _ ⟨⟩
    refine ⟨⟨alarm, List.mem_cons_self, rfl⟩, fun other left => ?_⟩
    exact least.2 other ((mem_alarms other).mpr (.inr left))
  · -- only the task of the alarm may be new
    by_cases own : alarm.event.task = task
    · subst own
      have open_ : alarm.event.task ∉ finished := fun done =>
        ((rings.finished _).mp done).2.2 alarm member rfl
      have counter := quiet alarm.event.task
      simp only [Function.update_self] at counter
      refine Iff.trans ?_ ((and_iff_right ⟨alarm, List.mem_cons_self, rfl⟩).trans counter.symm).symm
      split_ifs with last
      · exact iff_of_true (List.mem_append_right _ (List.mem_singleton_self _)) last
      · exact iff_of_false open_ last
    · have same : (task ∈ if s.counter alarm.event.task - 1 = 0 then finished ++ [alarm.event.task]
          else finished) ↔ task ∈ finished := by
        split_ifs
        · rw [List.mem_append, List.mem_singleton, or_iff_left (Ne.symm own)]
        · rfl
      refine same.trans ((rings.finished task).trans (and_congr ?_ (and_congr_right fun _ => ?_)))
      · simp only [List.mem_cons, exists_eq_or_imp, own, false_or]
      · simp only [mem_alarms, forall_eq_or_imp, own, ne_eq, not_false_eq_true, true_and]
  · obtain ⟨final, same, before⟩ := before
    obtain rfl := Option.some.inj same
    by_cases again : ∃ final, previous = some final ∧ time < final
    · exact rings.idle time after again task through
    · -- nothing was finished when this alarm rang
      have none : finished = [] := goes.resolve_left fun same => (same ▸ before).not_ge after
      have early : ∀ other ∈ rung, other.time ≤ time := by
        intro other rang
        obtain ⟨final, same, le⟩ := rings.early other rang
        exact le.trans (not_lt.mp fun later => again ⟨final, same, later⟩)
      have late : ∀ other ∈ s.alarms, time < other.time := fun other left =>
        before.trans_le (least.2 other left)
      rw [rings.through_iff early late, none] at through
      exact absurd through List.not_mem_nil

end Rung

/-! ## A whole round -/

/-- The loop of `run` goes on. -/
def Goes (x : Execution Time) (s : State Time) : Prop :=
  0 < (x.prog.exit.map s.wait).getD 0 ∨ s.ready ≠ []

/-- A round leads from a state in front of the loop to the next one. It ends with the first time
at which a task is finished, or with the last alarm. -/
structure Round (x : Execution Time) (s₀ s₁ : State Time) (last : Time) : Prop where
  goes : x.Goes s₀
  time : s₁.time = s₀.now
  now : s₁.now = last
  scheduled : ∀ task, task ∈ s₁.scheduled ↔ task ∈ s₀.ready ∨ task ∈ s₀.scheduled
  numas : ∀ p d, p ∈ s₁.numas d ↔ p ∈ s₀.numas d ∨ x.Touched s₀ s₀.ready p d
  logged : ∀ task, task ∈ s₁.logged ↔ x.Through s₀ last task ∨ task ∈ s₀.logged
  active : s₁.active.Perm (x.parked s₀)
  alarms : s₁.alarms.Perm ((x.clocked s₀).filter fun alarm => last < alarm.time)
  running : ∀ id, s₁.running id = true ↔ x.Runs s₀ x.arch.devices id ∧
    ∀ alarm ∈ x.clocked s₀, alarm.time ≤ last → alarm.callback ≠ some (.cpu id)
  -- the round ends at the time of an alarm, before which no task was finished, and it ends because
  -- a task is finished or no alarm is left
  rings : ∃ alarm ∈ x.clocked s₀, alarm.time = last
  idle : ∀ earliest time, Earliest (x.clocked s₀) earliest → earliest ≤ time → time < last →
    ∀ task, ¬ x.Through s₀ time task
  stops : (∀ alarm ∈ x.clocked s₀, alarm.time ≤ last) ∨ ∃ task, x.Through s₀ last task

theorem Rung.release {rung : List (Alarm Time)} {previous : Option Time}
    (rings : x.Rung s₀ earliest previous finished rung s) (goes : x.Goes s₀)
    (phase : s.phase = .complete earliest previous finished) (calm : x.Unordered s .release)
    (move : x.step s .release = some s') :
    s'.Stopped ∨ s'.phase = .test ∧ ∃ last, x.Round s₀ s' last := by
  obtain ⟨earliest', last, finished', same, ended, ⟨-, rfl⟩ | ⟨-, -, -, rfl⟩ | ⟨-, -, rfl⟩⟩ :=
    step_release move
  · exact .inl trivial
  · exact .inl trivial
  obtain ⟨rfl, rfl, rfl⟩ := Phase.complete.inj (phase.symm.trans same)
  have late : ∀ alarm ∈ s.alarms, last < alarm.time := calm.alarm earliest last finished rfl phase
  have early : ∀ alarm ∈ rung, alarm.time ≤ last := by
    intro alarm rang
    obtain ⟨time, same, le⟩ := rings.early alarm rang
    exact Option.some.inj same ▸ le
  have through : ∀ task, x.Through s₀ last task ↔ task ∈ finished := fun _ =>
    rings.through_iff early late
  obtain ⟨⟨alarm, rang, at_⟩, -⟩ := rings.late last rfl
  obtain ⟨wait, ready, released⟩ := @foldl_release Time x { s with now := last } finished
  rw [released]
  refine .inr ⟨rfl, last,
    { goes := goes
      time := rings.time
      now := rfl
      scheduled := rings.scheduled
      numas := rings.numas
      logged := fun task => ?_
      active := rings.active
      alarms := ?_
      running := fun id => ?_
      rings := ⟨alarm, rings.mem_clocked.mpr (.inl rang), at_⟩
      idle := fun earliest' time first after before => ?_
      stops := ?_ }⟩
  · show task ∈ (((finished.map fun task => (task, last)).reverse ++ s.log).map Prod.fst) ↔ _
    rw [through, rings.log, State.logged]
    simp
  · exact (perm_filter_of_split (List.perm_append_comm.trans rings.split)
      (fun alarm left => decide_eq_true (late alarm left))
      fun alarm rang => decide_eq_false (early alarm rang).not_gt).1
  · rw [show s.running id = true ↔ _ from rings.running id]
    refine and_congr_right fun _ => ⟨fun none alarm member le => ?_, fun none alarm rang => ?_⟩
    · refine none alarm ((rings.mem_clocked.mp member).resolve_right fun left => ?_)
      exact (late alarm left).not_ge le
    · exact none alarm (rings.mem_clocked.mpr (.inl rang)) (early alarm rang)
  · obtain ⟨⟨first', member', at'⟩, least'⟩ := first
    obtain ⟨⟨first, member, at_first⟩, least⟩ := rings.first
    have same : earliest = earliest' :=
      le_antisymm (at' ▸ least first' member') (at_first ▸ least' first member)
    exact rings.idle time (same ▸ after) ⟨last, rfl, before⟩
  · obtain none | ⟨-, some⟩ := ended
    · refine .inl fun alarm member => ?_
      obtain rang | left := rings.mem_clocked.mp member
      · exact early alarm rang
      · rw [none] at left
        exact absurd left List.not_mem_nil
    · obtain ⟨task, member⟩ := List.exists_mem_of_ne_nil _ some
      exact .inr ⟨task, (through task).mpr member⟩

/-! ## Two rounds -/

/-- Two states in front of the loop are the same up to the order of their sets. -/
structure Alike (s s' : State Time) : Prop where
  now : s.now = s'.now
  time : s.time = s'.time
  scheduled : ∀ task, task ∈ s.scheduled ↔ task ∈ s'.scheduled
  logged : ∀ task, task ∈ s.logged ↔ task ∈ s'.logged
  numas : s.numas = s'.numas
  active : s.active.Perm s'.active
  alarms : s.alarms.Perm s'.alarms
  running : s.running = s'.running

namespace Alike

omit [Clock Time] in
/-- The same tasks are ready, as these are the ones that wait for nothing. -/
theorem ready (alike : Alike s s') (tidy : x.Tidy s) (tidy' : x.Tidy s') :
    s.ready.Perm s'.ready := by
  obtain ⟨stuck, ledger⟩ := tidy.ledger
  obtain ⟨stuck', ledger'⟩ := tidy'.ledger
  -- a task is ready if it has not been scheduled and all tasks in front of it are done
  have member : ∀ {s : State Time} {stuck}, x.Ledger x.unstarted stuck s → ∀ task,
      task ∈ s.ready ↔ task ∈ x.prog.tasks ∧ (task ∉ s.scheduled ∧ task ∉ x.unstarted) ∧
        ∀ other ∈ x.prog.predecessors task, other ∈ s.logged := by
    intro s stuck ledger task
    have known : task ∈ (State.among s x.unstarted).scheduled ↔
        task ∈ s.scheduled ∨ task ∈ x.unstarted := List.mem_append
    constructor
    · intro ready
      have inside := ledger.tracked.inside task (.inl ready)
      have fresh := ledger.tracked.fresh task ready
      rw [known, not_or] at fresh
      exact ⟨inside, fresh, (ledger.tracked.enabled task inside).mp (.inl ready)⟩
    · rintro ⟨inside, fresh, front⟩
      refine ((ledger.tracked.enabled task inside).mpr front).resolve_right fun member => ?_
      exact (known.mp member).elim fresh.1 fresh.2
  refine (List.perm_ext_iff_of_nodup ledger.tracked.ready ledger'.tracked.ready).mpr fun task => ?_
  refine (member ledger task).trans (Iff.trans ?_ (member ledger' task).symm)
  simp only [alike.scheduled, alike.logged]

omit [Clock Time] in
theorem goes (alike : Alike s s') (tidy : x.Tidy s) (tidy' : x.Tidy s') :
    x.Goes s ↔ x.Goes s' := by
  obtain ⟨stuck, ledger⟩ := tidy.ledger
  obtain ⟨stuck', ledger'⟩ := tidy'.ledger
  refine or_congr ?_ (not_congr ?_)
  · cases final : x.prog.exit with
    | none => rfl
    | some exit =>
      have inside : exit ∈ x.prog.tasks := (List.mem_filter.mp (List.mem_of_getLast? final)).1
      have waits : s.wait exit = s'.wait exit := by
        refine (ledger.tracked.waits exit inside).trans
          (Eq.trans ?_ (ledger'.tracked.waits exit inside).symm)
        refine List.countP_congr fun other _ => ?_
        rw [decide_eq_true_eq, decide_eq_true_eq]
        exact not_congr (alike.logged other)
      simp only [Option.map_some, Option.getD_some, waits]
  · rw [← List.length_eq_zero_iff, ← List.length_eq_zero_iff,
      (alike.ready tidy tidy').length_eq]

theorem laden (alike : Alike s s') (tidy : x.Tidy s) (tidy' : x.Tidy s') :
    (x.laden s).Perm (x.laden s') := by
  rw [Execution.laden, Execution.laden, alike.numas]
  exact alike.active.append ((alike.ready tidy tidy').flatMap_right _)

omit [Clock Time] in
theorem takes (alike : Alike s s') : takes s = takes s' := by
  funext seen entry
  simp only [Execution.takes, alike.running]

theorem parked (alike : Alike s s') (tidy : x.Tidy s) (tidy' : x.Tidy s') :
    (x.parked s).Perm (x.parked s') := by
  rw [Execution.parked, Execution.parked, waiting, waiting, alike.takes]
  exact (alike.laden tidy tidy').filter _

theorem clocked (alike : Alike s s') (tidy : x.Tidy s) (tidy' : x.Tidy s') :
    (x.clocked s).Perm (x.clocked s') := by
  rw [Execution.clocked, Execution.clocked, ringing, ringing, alike.takes, alike.now]
  exact (((alike.laden tidy tidy').filter _).map _).append alike.alarms

theorem through (alike : Alike s s') (tidy : x.Tidy s) (tidy' : x.Tidy s') :
    x.Through s = x.Through s' := by
  funext time task
  simp only [Through, (alike.clocked tidy tidy').mem_iff, (alike.parked tidy tidy').mem_iff]

theorem runs (alike : Alike s s') (tidy : x.Tidy s) (tidy' : x.Tidy s') :
    x.Runs s = x.Runs s' := by
  funext seen id
  simp only [Runs, (alike.laden tidy tidy').mem_iff, alike.running]

omit [Clock Time] in
theorem touched (alike : Alike s s') (tidy : x.Tidy s) (tidy' : x.Tidy s') :
    x.Touched s s.ready = x.Touched s' s'.ready := by
  funext p d
  simp only [Touched, (alike.ready tidy tidy').mem_iff, alike.numas]

end Alike

namespace Round

/-- The first time at which a task is finished is the same. -/
theorem last_le (alike : Alike s₀ s₀') (tidy₀ : x.Tidy s₀) (tidy₀' : x.Tidy s₀')
    (round : x.Round s₀ s₁ last) (round' : x.Round s₀' s₁' last') : last ≤ last' := by
  by_contra before
  rw [not_le] at before
  have clocked := alike.clocked tidy₀ tidy₀'
  obtain ⟨alarm, member, at_⟩ := round.rings
  obtain ⟨alarm', member', at'⟩ := round'.rings
  obtain ⟨first, inside, least⟩ := exists_earliest (List.ne_nil_of_mem member)
  have earliest : Earliest (x.clocked s₀) first.time := ⟨⟨first, inside, rfl⟩, least⟩
  have after : first.time ≤ last' := at' ▸ least alarm' (clocked.mem_iff.mpr member')
  -- the round that ends first has no alarm left, or has finished a task
  obtain all | ⟨task, through⟩ := round'.stops
  · exact (all alarm (clocked.mem_iff.mp member)).not_gt (at_ ▸ before)
  · rw [← alike.through tidy₀ tidy₀'] at through
    exact round.idle first.time last' earliest after before task through

/-- **Two rounds** from states that are alike lead to states that are alike. -/
theorem alike (alike : Alike s₀ s₀') (tidy₀ : x.Tidy s₀) (tidy₀' : x.Tidy s₀')
    (round : x.Round s₀ s₁ last) (round' : x.Round s₀' s₁' last') : Alike s₁ s₁' := by
  have clocked := alike.clocked tidy₀ tidy₀'
  -- so neither round ends before the other
  have back : Alike s₀' s₀ :=
    { now := alike.now.symm
      time := alike.time.symm
      scheduled := fun task => (alike.scheduled task).symm
      logged := fun task => (alike.logged task).symm
      numas := alike.numas.symm
      active := alike.active.symm
      alarms := alike.alarms.symm
      running := alike.running.symm }
  obtain rfl : last = last' :=
    le_antisymm (last_le alike tidy₀ tidy₀' round round') (last_le back tidy₀' tidy₀ round' round)
  refine
    { now := round.now.trans round'.now.symm
      time := round.time.trans (alike.now.trans round'.time.symm)
      scheduled := fun task => ?_
      logged := fun task => ?_
      numas := ?_
      active := round.active.trans ((alike.parked tidy₀ tidy₀').trans round'.active.symm)
      alarms := round.alarms.trans ((clocked.filter _).trans round'.alarms.symm)
      running := ?_ }
  · rw [round.scheduled, round'.scheduled, (alike.ready tidy₀ tidy₀').mem_iff, alike.scheduled]
  · rw [round.logged, round'.logged, alike.through tidy₀ tidy₀', alike.logged]
  · funext d
    ext p
    rw [round.numas, round'.numas, alike.touched tidy₀ tidy₀', alike.numas]
  · funext id
    rw [Bool.eq_iff_iff, round.running, round'.running, alike.runs tidy₀ tidy₀']
    simp only [clocked.mem_iff]

end Round

/-! ## The rounds of a run -/

/-- A state in front of the loop after so many rounds. -/
inductive Begins (x : Execution Time) : ℕ → State Time → Prop
  | first {s₀ : State Time} (init : x.system.Init s₀) : Begins x 0 s₀
  | next {n : ℕ} {s₀ s₁ : State Time} {last : Time} (before : Begins x n s₀) (tidy : x.Tidy s₁)
      (round : x.Round s₀ s₁ last) : Begins x (n + 1) s₁

namespace Begins

variable {n m : ℕ}

theorem tidy (begins : x.Begins n s) : x.Tidy s := by
  cases begins with
  | first init => exact tidy_initial init
  | next _ tidy _ => exact tidy

theorem alike (begins : x.Begins n s) (begins' : x.Begins n s') : Alike s s' := by
  -- both runs start in one state, and each round leads on from states that are alike
  induction begins generalizing s' with
  | first init =>
    obtain ⟨entry, first, rfl⟩ := init
    cases begins' with
    | first init' =>
      obtain ⟨entry', first', rfl⟩ := init'
      obtain rfl := Option.some.inj (first.symm.trans first')
      exact ⟨rfl, rfl, fun _ => .rfl, fun _ => .rfl, rfl, .rfl, .rfl, rfl⟩
  | next before _ round ih =>
    cases begins' with
    | next before' _ round' => exact round.alike (ih before') before.tidy before'.tidy round'

/-- The loop went on in every round but the last. -/
theorem exists_goes (begins : x.Begins n s) (fewer : m < n) : ∃ s₀, x.Begins m s₀ ∧ x.Goes s₀ := by
  induction begins with
  | first => exact absurd fewer (Nat.not_lt_zero m)
  | next before _ round ih =>
    obtain earlier | rfl := Nat.lt_succ_iff_lt_or_eq.mp fewer
    · exact ih earlier
    · exact ⟨_, before, round.goes⟩

/-- The number of rounds after which the loop does not go on is the same. -/
theorem le_of_not_goes (begins : x.Begins n s) (begins' : x.Begins m s') (ends : ¬ x.Goes s) :
    m ≤ n := by
  by_contra fewer
  obtain ⟨s₀, before, goes⟩ := begins'.exists_goes (not_le.mp fewer)
  exact ends (((begins.alike before).goes begins.tidy before.tidy).mpr goes)

end Begins

/-- Where the run is in the round that began with a state. -/
def InRound (x : Execution Time) (s₀ s : State Time) : Prop :=
  match s.phase with
  | .test => s = s₀
  | .schedule => x.Goes s₀ ∧ ∃ popped, x.Pops s₀ popped s
  | .progress todo => x.Goes s₀ ∧ ∃ seen, x.Visits s₀ seen todo s
  | .complete earliest last finished =>
      x.Goes s₀ ∧ ∃ rung, x.Rung s₀ earliest last finished rung s
  | .returned time => ¬ x.Goes s₀ ∧ time = s₀.time
  | .raised _ | .debugging => True

/-- **Step lemma.** A step goes on with the round, or ends it. -/
theorem InRound.step (inside : x.InRound s₀ s) (policy : x.initPage = .firstTouch)
    (tidy₀ : x.Tidy s₀) (tidy : x.Tidy s) (tidy' : x.Tidy s') (calm : x.Unordered s label)
    (move : x.step s label = some s') :
    s'.Stopped ∨ x.InRound s₀ s' ∨ s'.phase = .test ∧ ∃ last, x.Round s₀ s' last := by
  rw [InRound] at inside
  cases label with
  | test =>
    obtain ⟨phase, ⟨more, rfl⟩ | ⟨through, ready, rfl⟩⟩ := step_test move
    · rw [phase] at inside
      subst inside
      refine .inr (.inl ⟨more, [], ?_⟩)
      exact ⟨.refl _, rfl, fun p d => (or_iff_left fun new => by
        obtain ⟨⟨_, member, -⟩, -⟩ := new
        exact absurd member List.not_mem_nil).symm, by rw [List.flatMap_nil, List.append_nil],
        rfl, rfl, rfl, rfl⟩
    · rw [phase] at inside
      subst inside
      refine .inr (.inl ⟨?_, rfl⟩)
      rintro (waits | some)
      · exact waits.ne' through
      · exact some ready
  | pop choice draw =>
    obtain ⟨task, phase, ready, ⟨message, -, rfl⟩ | scheduled⟩ := step_pop move
    · exact .inl trivial
    · rw [phase] at inside
      obtain ⟨goes, popped, pops⟩ := inside
      have phase' : s'.phase = .schedule := by
        rw [schedule_books policy scheduled]
        exact phase
      refine .inr (.inl ?_)
      rw [InRound, phase']
      exact ⟨goes, _, pops.pop policy tidy₀ tidy calm ready scheduled⟩
  | start =>
    obtain ⟨phase, -, rfl⟩ := step_start move
    rw [phase] at inside
    obtain ⟨goes, popped, pops⟩ := inside
    exact .inr (.inl ⟨goes, [], pops.start move⟩)
  | visit choice event =>
    obtain ⟨todo, device, after, phase, -⟩ := step_visit move
    rw [phase] at inside
    obtain ⟨goes, seen, visits⟩ := inside
    obtain ⟨device, todo', phase', visits'⟩ := visits.visit tidy phase calm move
    refine .inr (.inl ?_)
    rw [InRound, phase']
    exact ⟨goes, _, visits'⟩
  | complete =>
    obtain ⟨phase, -⟩ := step_complete move
    rw [phase] at inside
    obtain ⟨goes, seen, visits⟩ := inside
    obtain stopped | ⟨earliest, phase', rings⟩ := visits.complete move
    · exact .inl stopped
    · refine .inr (.inl ?_)
      rw [InRound, phase']
      exact ⟨goes, _, rings⟩
  | ring choice =>
    obtain ⟨earliest, last, finished, alarm, phase, -⟩ := step_ring move
    rw [phase] at inside
    obtain ⟨goes, rung, rings⟩ := inside
    obtain ⟨last', finished', rung', phase', rings'⟩ := rings.ring tidy' phase move
    refine .inr (.inl ?_)
    rw [InRound, phase']
    exact ⟨goes, _, rings'⟩
  | release =>
    obtain ⟨earliest, last, finished, phase, -⟩ := step_release move
    rw [phase] at inside
    obtain ⟨goes, rung, rings⟩ := inside
    exact (rings.release goes phase calm move).imp_right .inr

/-- **Run lemma.** Every state of a run is in some round, unless the run has stopped. -/
theorem reachable_inRound (policy : x.initPage = .firstTouch)
    (reach : x.system.Reachable x.Unordered s) :
    s.Stopped ∨ x.Tidy s ∧ ∃ n s₀, x.Begins n s₀ ∧ x.InRound s₀ s := by
  refine reach.invariant
    (fun s => s.Stopped ∨ x.Tidy s ∧ ∃ n s₀, x.Begins n s₀ ∧ x.InRound s₀ s) (fun s init => ?_) ?_
  · refine .inr ⟨tidy_initial init, 0, s, .first init, ?_⟩
    obtain ⟨entry, -, rfl⟩ := init
    exact rfl
  · rintro s label s' (stopped | ⟨tidy, n, s₀, begins, inside⟩) calm move
    · exact absurd move (not_step_of_stopped stopped)
    obtain stopped | tidy' := tidy.step policy calm move
    · exact .inl stopped
    obtain stopped | inside' | ⟨phase, last, round⟩ :=
      inside.step policy begins.tidy tidy tidy' calm move
    · exact .inl stopped
    · exact .inr ⟨tidy', n, s₀, begins, inside'⟩
    · refine .inr ⟨tidy', n + 1, s', .next begins tidy' round, ?_⟩
      rw [InRound, phase]

/-- **Where no choice within a round is open, all runs return one time.** -/
theorem returned_unique_of_unordered (policy : x.initPage = .firstTouch) {time' : Time}
    (reach : x.system.Reachable x.Unordered s) (reach' : x.system.Reachable x.Unordered s')
    (returned : s.phase = .returned time) (returned' : s'.phase = .returned time') :
    time = time' := by
  have ends : ∀ {s : State Time} {time : Time}, x.system.Reachable x.Unordered s →
      s.phase = .returned time → ∃ n s₀, x.Begins n s₀ ∧ ¬ x.Goes s₀ ∧ time = s₀.time := by
    intro s time reach returned
    obtain stopped | ⟨-, n, s₀, begins, inside⟩ := reachable_inRound policy reach
    · rw [State.Stopped, returned] at stopped
      exact stopped.elim
    · rw [InRound, returned] at inside
      exact ⟨n, s₀, begins, inside⟩
  obtain ⟨n, s₀, begins, ended, rfl⟩ := ends reach returned
  obtain ⟨m, s₀', begins', ended', rfl⟩ := ends reach' returned'
  obtain rfl : n = m := le_antisymm (begins'.le_of_not_goes begins ended')
    (begins.le_of_not_goes begins' ended)
  exact (begins.alike begins').time

end Execution

end Tthread.Racksim
