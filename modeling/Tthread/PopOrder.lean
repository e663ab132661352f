/-
# First touch, whatever is popped first

A task that is popped joins the timetable of the run. As long as nothing is chosen that makes a
difference, all of the timetable is fixed by the program and the machine, so that two runs of a
program with one source and one sink return the same time. Runs of other programs do so where no
choice is open within their rounds. Two readers of one page that are ready together make a
difference: the page lives with the one that is popped first, and the other has to fetch it.
-/

import Tthread.Rounds

namespace Tthread.Racksim

namespace Execution

variable {Time : Type} [Clock Time] {x : Execution Time} {s s' : State Time}
  {arrival : Task → Time} {task other : Task} {draw : ℕ → ℕ} {p : ℕ} {time : Time}

/-! ## A task is scheduled -/

/-- A task is scheduled behind the others, under first touch. -/
structure Joins (x : Execution Time) (s s' : State Time) (task : Task) : Prop where
  fresh : task ∉ s.scheduled
  scheduled : s'.scheduled = task :: s.scheduled
  log : s'.log = s.log
  numas : ∀ p d, p ∈ s'.numas d ↔ p ∈ s.numas d ∨
    task.kind = .comm ∧ x.domain task = some d ∧ p ∈ x.needs task ∧ ∀ e, p ∉ s.numas e
  bookings : ∀ other ∈ s.scheduled, x.bookings s'.numas other = x.bookings s.numas other

omit [Clock Time] in
theorem place_lt (scheduled : other ∈ s.scheduled) : s.place other < s.scheduled.length := by
  rw [State.place, ← List.length_reverse]
  exact List.idxOf_lt_length_iff.mpr (List.mem_reverse.mpr scheduled)

namespace Joins

theorem place_old (joins : x.Joins s s' task) (old : other ∈ s.scheduled) :
    s'.place other = s.place other := by
  rw [State.place, joins.scheduled, List.reverse_cons,
    List.idxOf_append_of_mem (List.mem_reverse.mpr old), State.place]

theorem place_new (joins : x.Joins s s' task) : s'.place task = s.scheduled.length := by
  rw [State.place, joins.scheduled, List.reverse_cons,
    List.idxOf_append_of_notMem fun member => joins.fresh (List.mem_reverse.mp member),
    List.length_reverse, List.idxOf_cons_self, Nat.add_zero]

/-- The new task is behind all others. -/
theorem old_of_lt (joins : x.Joins s s' task) {third : Task} (known : third ∈ s'.scheduled)
    (other_known : other ∈ s'.scheduled) (place : s'.place third < s'.place other) :
    third ∈ s.scheduled := by
  rw [joins.scheduled, List.mem_cons] at known other_known
  refine known.resolve_left fun same => ?_
  subst same
  rw [joins.place_new] at place
  obtain rfl | old := other_known
  · exact absurd place (by rw [joins.place_new]; exact lt_irrefl _)
  · rw [joins.place_old old] at place
    exact absurd place (place_lt old).not_gt

theorem queued (joins : x.Joins s s' task) (old : other ∈ s.scheduled) {third : Task} :
    x.Queued s' other third ↔ x.Queued s other third := by
  have known : other ∈ s'.scheduled := joins.scheduled ▸ List.mem_cons_of_mem _ old
  constructor
  · rintro ⟨kind, same, inside, place⟩
    have before := joins.old_of_lt inside known place
    rw [joins.place_old before, joins.place_old old] at place
    exact ⟨kind, same, before, place⟩
  · rintro ⟨kind, same, before, place⟩
    refine ⟨kind, same, joins.scheduled ▸ List.mem_cons_of_mem _ before, ?_⟩
    rwa [joins.place_old before, joins.place_old old]

theorem arrivals (joins : x.Joins s s' task) : x.arrivals s' = x.arrivals s := by
  funext other
  rw [Execution.arrivals, Execution.arrivals, joins.log]

theorem spans (joins : x.Joins s s' task) (old : other ∈ s.scheduled) :
    x.spans s'.numas other = x.spans s.numas other := by
  rw [Execution.spans, Execution.spans, joins.bookings other old]

theorem rings_eq (joins : x.Joins s s' task) (old : other ∈ s.scheduled) {arrival : Time} :
    x.rings s'.numas arrival other = x.rings s.numas arrival other := by
  rw [Execution.rings, Execution.rings, joins.spans old]

theorem ends (joins : x.Joins s s' task) (old : other ∈ s.scheduled) {arrival : Time}
    (ends : x.Ends s arrival other time) : x.Ends s' arrival other time := by
  refine ⟨fun thunk => joins.rings_eq old ▸ ends.moves thunk, fun thunk => ?_⟩
  obtain ⟨front, start, first, same⟩ := ends.runs thunk
  have starts : x.starts s' arrival other = x.starts s arrival other := by
    rw [Execution.starts, Execution.starts, joins.log]
    exact congrArg _ (Set.ext fun time => exists_congr fun third =>
      and_congr_left fun _ => joins.queued old)
  refine ⟨fun third queue => ?_, start, starts ▸ first, same⟩
  rw [State.logged, joins.log]
  exact front third ((joins.queued old).mp queue)

theorem arrival_old (joins : x.Joins s s' task) (old : other ∈ s.scheduled) :
    Function.update arrival task time other = arrival other :=
  Function.update_of_ne (fun same : other = task => joins.fresh (same ▸ old)) _ _

theorem old_or_new (joins : x.Joins s s' task) (known : other ∈ s'.scheduled) :
    other = task ∨ other ∈ s.scheduled := List.mem_cons.mp (joins.scheduled ▸ known)

theorem known_old (joins : x.Joins s s' task) (old : other ∈ s.scheduled) :
    other ∈ s'.scheduled := joins.scheduled ▸ List.mem_cons_of_mem _ old

/-- What waits in front of a task of a CPU was there before it. -/
theorem rings (joins : x.Joins s s' task) {alarm : Alarm Time}
    (old : alarm.event.task ∈ s.scheduled) (rings : x.Rings s arrival alarm) :
    x.Rings s' (Function.update arrival task time) alarm := by
  unfold Rings at rings ⊢
  rw [joins.arrival_old old]
  split at rings
  · exact ⟨rings.1, rings.2.1, joins.ends old rings.2.2⟩
  · exact rings

end Joins

/-- A task that was ready earlier arrived earlier. -/
theorem Earlier.arrival_lt (earlier : x.Earlier s other) {arrival : Time}
    (arrives : IsGreatest (x.arrivals s other) arrival) : arrival < s.now := by
  obtain rfl | ⟨before, edge, entry⟩ := arrives.1
  · exact earlier.1
  · exact earlier.2 _ entry edge

namespace Clockwork

/-- The task that is popped arrives now. -/
theorem arrives_now (clock : x.Clockwork s arrival) (ready : task ∈ s.ready) :
    IsGreatest (x.arrivals s task) s.now := by
  refine ⟨clock.ready task ready, ?_⟩
  rintro _ (rfl | ⟨other, -, entry⟩)
  · exact clock.now
  · exact clock.log _ entry

theorem timetable (clock : x.Clockwork s arrival) (joins : x.Joins s s' task) {choice : ℕ}
    (ready : s.ready[choice]? = some task) (free : x.Uncontested s (.pop choice draw)) :
    x.Timetable s' (Function.update arrival task s.now) := by
  have member := List.mem_of_getElem? ready
  have inside := clock.tracked.inside task (.inl member)
  have through := (clock.tracked.enabled task inside).mp (.inl member)
  have known := clock.known
  have before : ∀ other ∈ s.scheduled, s'.place other < s'.place task := fun other old => by
    rw [joins.place_old old, joins.place_new]
    exact place_lt old
  have logged : s'.logged = s.logged := by rw [State.logged, joins.log, State.logged]
  have lt_now : ∀ other ∈ s.scheduled, x.Earlier s other → arrival other < s.now :=
    fun other old earlier => earlier.arrival_lt (clock.table.arrives other old)
  -- the pages of a fetch that was scheduled before have homes
  have placed : ∀ other ∈ s.scheduled, other.kind = .comm → ∀ p ∈ x.needs other,
      ∃ d, p ∈ s.numas d := fun other old kind p needed => by
    obtain ⟨d, -, home⟩ := clock.settled.placed other old kind p needed
    exact ⟨d, home⟩
  refine
    { inside := fun other known => ?_
      single := joins.log ▸ clock.table.single
      front := fun other known' before' edge => ?_
      arrives := fun other known => ?_
      sorted := fun other known third known' sooner => ?_
      ends := fun other time entry => ?_
      home := fun p d home => ?_
      page := fun other known own p d kind domain needed home away => ?_
      cpu := fun other known third kind queue => ?_ }
  · obtain rfl | old := joins.old_or_new known
    · exact inside
    · exact clock.table.inside other old
  · rw [logged]
    obtain rfl | old := joins.old_or_new known'
    · have done := through before' edge
      have old := known before' done
      exact ⟨done, joins.known_old old, before before' old⟩
    · obtain ⟨done, old', place⟩ := clock.table.front other old before' edge
      refine ⟨done, joins.known_old old', ?_⟩
      rwa [joins.place_old old, joins.place_old old']
  · rw [joins.arrivals]
    obtain rfl | old := joins.old_or_new known
    · rw [Function.update_self]
      exact clock.arrives_now member
    · rw [joins.arrival_old old]
      exact clock.table.arrives other old
  · have old' := joins.old_of_lt known' known sooner
    rw [joins.arrival_old old']
    obtain rfl | old := joins.old_or_new known
    · rw [Function.update_self]
      exact (clock.arrival_bounds old').2
    · rw [joins.arrival_old old]
      rw [joins.place_old old, joins.place_old old'] at sooner
      exact clock.table.sorted other old third old' sooner
  · rw [joins.log] at entry
    have old := known other (List.mem_map_of_mem entry)
    rw [joins.arrival_old old]
    exact joins.ends old (clock.table.ends other time entry)
  · obtain old | ⟨kind, domain, needed, nowhere⟩ := (joins.numas p d).mp home
    · obtain ⟨first, old, kind, needed, domain, least⟩ := clock.table.home p d old
      refine ⟨first, joins.known_old old, kind, needed, domain, fun other known kind' needed' => ?_⟩
      obtain rfl | old' := joins.old_or_new known
      · exact (before first old).le
      · rw [joins.place_old old, joins.place_old old']
        exact least other old' kind' needed'
    · refine ⟨task, joins.scheduled ▸ List.mem_cons_self, kind, needed, domain,
        fun other known kind' needed' => ?_⟩
      obtain rfl | old' := joins.old_or_new known
      · exact le_rfl
      · obtain ⟨e, there⟩ := placed other old' kind' p needed'
        exact absurd there (nowhere e)
  · obtain old_home | ⟨-, domain', -, nowhere⟩ := (joins.numas p d).mp home
    · obtain rfl | old := joins.old_or_new known
      · obtain ⟨first, old, kind', needed', reason⟩ :=
          free.page choice draw other own p d rfl ready kind domain needed old_home away
        refine ⟨first, joins.known_old old, kind', needed', before first old, ?_⟩
        rw [joins.arrival_old old, Function.update_self]
        exact reason.imp_left (lt_now first old)
      · obtain ⟨first, old', kind', needed', place, reason⟩ :=
          clock.table.page other old own p d kind domain needed old_home away
        refine ⟨first, joins.known_old old', kind', needed', ?_, ?_⟩
        · rwa [joins.place_old old, joins.place_old old']
        · rwa [joins.arrival_old old, joins.arrival_old old']
    · obtain rfl | old := joins.old_or_new known
      · exact absurd (Option.some.inj (domain'.symm.trans domain)) away
      · obtain ⟨e, there⟩ := placed other old kind p needed
        exact absurd there (nowhere e)
  · have old' := joins.old_of_lt queue.2.2.1 known queue.2.2.2
    rw [joins.arrival_old old']
    obtain rfl | old := joins.old_or_new known
    · rw [Function.update_self]
      exact ((free.cpu choice draw other rfl ready kind).2 third old' queue.1 queue.2.1).imp_left
        (lt_now third old')
    · rw [joins.arrival_old old]
      exact clock.table.cpu other old third kind ((joins.queued old).mp queue)

/-- A task of a thunk that has been scheduled looks for pages that have homes. -/
theorem placed (clock : x.Clockwork s arrival) (old : other ∈ s.scheduled)
    (needed : p ∈ x.needs other) : ∃ d, p ∈ s.numas d := by
  obtain ⟨fetch, -⟩ := clock.table.fetch_le old
  obtain ⟨d, -, home⟩ := clock.settled.placed _ fetch rfl p needed
  exact ⟨d, home⟩

theorem pop (clock : x.Clockwork s arrival) (policy : x.initPage = .firstTouch)
    (commits : x.commit = .noMove) (unsigned : x.Unsigned) {choice : ℕ}
    (free : x.Uncontested s (.pop choice draw)) (move : x.step s (.pop choice draw) = some s') :
    s'.Stopped ∨ ∃ arrival, x.Clockwork s' arrival := by
  have settled := clock.settled.step (drawsOwn_of_firstTouch policy) move
  obtain ⟨task, phase, ready, ⟨message, -, rfl⟩ | scheduled⟩ := step_pop move
  · exact .inl trivial
  have member := List.mem_of_getElem? ready
  have fresh := clock.tracked.fresh task member
  have outcome := scheduled
  generalize popped : ({ s with
    ready := s.ready.eraseIdx choice
    scheduled := task :: s.scheduled } : State Time) = s₀ at scheduled
  have numas : s₀.numas = s.numas := by rw [← popped]
  have homes : ∀ p d, p ∈ s₀.numas d → x.IsHome d := numas ▸ clock.settled.home
  have booked := schedule_bookings policy commits scheduled
  rw [numas, ← popped] at booked
  have own : x.bookings s'.numas task = x.bookings s.numas task :=
    numas ▸ bookings_schedule policy homes scheduled
  have scheduled' : s'.scheduled = task :: s.scheduled := by rw [booked]; rfl
  have log' : s'.log = s.log := by rw [booked]; rfl
  have joins : x.Joins s s' task :=
    { fresh := fresh
      scheduled := scheduled'
      log := log'
      numas := fun p d => numas ▸ mem_schedule policy homes scheduled
      bookings := fun other old => by
        rw [← numas]
        refine bookings_placed policy homes scheduled fun p needed => ?_
        rw [numas]
        exact clock.placed old needed }
  have phase' : s'.phase = .schedule := by rw [booked]; exact phase
  have logged' : s'.logged = s.logged := by rw [State.logged, log', State.logged]
  have done : s.done = s.logged := by rw [State.done, phase]; rfl
  have done' : s'.done = s.done := by rw [State.done, phase', logged', done]; rfl
  have now' : s'.now = s.now := by rw [booked]; rfl
  have alarms' : s'.alarms = s.alarms := by rw [booked]; rfl
  have running' : s'.running = s.running := by rw [booked]; rfl
  have active' : s'.active = s.active ++ x.bookings s.numas task := by rw [booked]; rfl
  have ready' : s'.ready = s.ready.eraseIdx choice := by rw [booked]; rfl
  have counter' : s'.counter =
      Function.update s.counter task (s.counter task + (x.bookings s.numas task).length) := by
    rw [booked]
    rfl
  have books : ∀ entry ∈ x.bookings s.numas task,
      x.Fitting entry ∧ entry.2.task = task ∧ 0 ≤ entry.2.time := by
    intro entry booked
    have fitting := fitting_bookings booked
    exact ⟨fitting.1, fitting.2.1, fitting.2.2 unsigned.arch⟩
  -- what is outstanding now was so before, or has just been booked
  have split : ∀ event, Outstanding s' event ↔
      Outstanding s event ∨ ∃ device, (device, event) ∈ x.bookings s.numas task := fun event => by
    simp only [Outstanding, active', alarms', List.mem_append, exists_or]
    exact or_right_comm
  have known : ∀ {event}, Outstanding s event → event.task ∈ s.scheduled := fun open_ =>
    (clock.open_event open_).1
  have spans : x.spans s'.numas task = x.spans s.numas task := by
    rw [Execution.spans, Execution.spans, own]
  have waiting := clock.phase
  rw [Punctual, phase] at waiting
  right
  refine ⟨Function.update arrival task s.now,
    { tracked := by
        rw [booked]
        exact clock.tracked.pop ready
      counted := ?_
      settled := settled
      table := clock.timetable joins ready free
      now := now' ▸ clock.now
      log := by
        rw [log', now']
        exact clock.log
      ready := fun other rest => ?_
      fitting := active' ▸ List.forall_mem_append.mpr
        ⟨clock.fitting, fun entry member => (books entry member).1⟩
      listed := fun event open_ => ?_
      longest := fun other known' undone kind => ?_
      latest := fun entry member other known' kind kind' cpu => ?_
      rings := fun alarm member => ?_
      one := fun other kind => ?_
      waits := fun id => ?_
      rung := by
        rw [alarms', running']
        exact clock.rung
      phase := ?_
      exit := fun exit final known' => ?_ }⟩
  · obtain ⟨entries, same, books, some⟩ := schedule_booked outcome
    rw [done', same]
    exact clock.counted.booked fresh books (some (.inl commits)) _ _
  · rw [ready'] at rest
    rw [now', joins.arrivals]
    exact clock.ready other ((List.eraseIdx_sublist _ _).subset rest)
  · obtain old | ⟨device, new⟩ := (split event).mp open_
    · rw [joins.spans (known old)]
      exact clock.listed event old
    · obtain ⟨-, same, late⟩ := books _ new
      rw [show event.task = task from same, spans]
      exact ⟨late, _, new, rfl⟩
  · obtain rfl | old := joins.old_or_new known'
    · obtain ⟨entry, new, longest⟩ := exists_longest (x := x) s.numas other s.now
      refine ⟨entry.2, (split _).mpr (.inr ⟨entry.1, new⟩), (books entry new).2.1, ?_⟩
      rw [Function.update_self, Execution.rings, spans]
      exact longest
    · obtain ⟨event, open_, same, longest⟩ := clock.longest other old (done' ▸ undone) kind
      refine ⟨event, (split _).mpr (.inl open_), same, ?_⟩
      rw [joins.arrival_old old, joins.rings_eq old]
      exact longest
  · rw [active'] at member
    obtain old | new := List.mem_append.mp member
    · have before := known (.inl ⟨entry.1, old⟩)
      obtain rfl | old' := joins.old_or_new known'
      · -- no other thunk waits for the CPU
        have device := (clock.fitting entry old).cpu kind
        rw [← cpu] at device
        exact absurd device ((free.cpu choice draw other rfl ready kind').1 entry old)
      · rw [joins.place_old before, joins.place_old old']
        exact clock.latest entry old other old' kind kind' cpu
    · rw [(books entry new).2.1, joins.place_new]
      obtain rfl | old' := joins.old_or_new known'
      · exact joins.place_new.le
      · rw [joins.place_old old']
        exact (place_lt old').le
  · rw [alarms'] at member
    obtain ⟨rings, late⟩ := clock.rings alarm member
    exact ⟨joins.rings (known (.inr ⟨alarm, member, rfl⟩)) rings, now' ▸ late⟩
  · rw [counter', Function.update_apply]
    split_ifs with same
    · subst same
      have none : s.counter other = 0 :=
        (clock.counted.idle other).mpr fun known => absurd known fresh
      simp [none, bookings, kind]
    · exact clock.one other kind
  · rw [active']
    exact waits_booked countP_bookings_cpu
      (fun kind => (free.cpu choice draw task rfl ready kind).1) (clock.waits id)
  · rw [Punctual, phase', active', now']
    intro entry member
    obtain old | new := List.mem_append.mp member
    · have before := known (.inl ⟨entry.1, old⟩)
      rw [joins.arrival_old before]
      obtain now | ⟨id, device, held⟩ := waiting entry old
      · exact .inl now
      · refine .inr ⟨id, device, ?_⟩
        rw [Held, running', log', now']
        obtain runs | ⟨other, queue, ended⟩ := held
        · exact .inl runs
        · exact .inr ⟨other, (joins.queued before).mpr queue, ended⟩
    · rw [(books entry new).2.1, Function.update_self]
      exact .inl rfl
  · rw [ExitAt, phase', now']
    obtain rfl | old := joins.old_or_new known'
    · rw [Function.update_self]
    · rw [joins.arrival_old old]
      have now := clock.exit exit final old
      rw [ExitAt, phase] at now
      exact now

/-- What one step keeps. -/
theorem step (clock : x.Clockwork s arrival) (policy : x.initPage = .firstTouch)
    (commits : x.commit = .noMove) (sink : x.prog.SingleSink) (unsigned : x.Unsigned)
    {label : Label} (free : x.Uncontested s label) (move : x.step s label = some s') :
    s'.Stopped ∨ ∃ arrival, x.Clockwork s' arrival := by
  cases label with
  | test => exact .inr ⟨arrival, clock.test sink move⟩
  | pop choice draw => exact clock.pop policy commits unsigned free move
  | start => exact .inr ⟨arrival, clock.start move⟩
  | visit choice event => exact .inr ⟨arrival, clock.visit policy unsigned free move⟩
  | complete => exact (clock.complete move).imp_right fun after => ⟨arrival, after⟩
  | ring choice => exact .inr ⟨arrival, clock.ring policy move⟩
  | release => exact (clock.release policy move).imp_right fun after => ⟨arrival, after⟩

end Clockwork

theorem clockwork_initial (source : x.prog.SingleSource) {start : State Time}
    (init : x.system.Init start) : x.Clockwork start fun _ => 0 := by
  have inv := inv_initial source init
  obtain ⟨entry, -, rfl⟩ := init
  exact
    { tracked := inv.tracked
      counted := inv.counted
      settled := settled_initial entry
      table :=
        { inside := fun _ member => absurd member List.not_mem_nil
          single := fun _ _ _ member => absurd member List.not_mem_nil
          front := fun _ member => absurd member List.not_mem_nil
          arrives := fun _ member => absurd member List.not_mem_nil
          sorted := fun _ member => absurd member List.not_mem_nil
          ends := fun _ _ member => absurd member List.not_mem_nil
          home := fun p _ home => absurd home (Finset.notMem_empty p)
          page := fun _ member => absurd member List.not_mem_nil
          cpu := fun _ member => absurd member List.not_mem_nil }
      now := le_rfl
      log := fun _ member => absurd member List.not_mem_nil
      ready := fun _ _ => .inl rfl
      fitting := fun _ member => absurd member List.not_mem_nil
      listed := fun _ open_ => open_.elim (fun ⟨_, member⟩ => absurd member List.not_mem_nil)
        fun ⟨_, member, _⟩ => absurd member List.not_mem_nil
      longest := fun _ member => absurd member List.not_mem_nil
      latest := fun _ member => absurd member List.not_mem_nil
      rings := fun _ member => absurd member List.not_mem_nil
      one := fun _ _ => Nat.zero_le 1
      waits := fun _ => Nat.zero_le 1
      rung := fun _ => Nat.zero_le _
      phase := fun _ member => absurd member List.not_mem_nil
      exit := fun _ _ member => absurd member List.not_mem_nil }

/-- Every state of a run in which nothing is contested keeps a timetable, unless there was an
error. -/
theorem reachable_clockwork (policy : x.initPage = .firstTouch) (commits : x.commit = .noMove)
    (source : x.prog.SingleSource) (sink : x.prog.SingleSink) (unsigned : x.Unsigned)
    (reach : x.system.Reachable x.Uncontested s) :
    s.Stopped ∨ ∃ arrival, x.Clockwork s arrival := by
  refine reach.invariant (fun s => s.Stopped ∨ ∃ arrival, x.Clockwork s arrival)
    (fun s init => .inr ⟨_, clockwork_initial source init⟩) ?_
  rintro s label s' (stopped | ⟨arrival, clock⟩) free move
  · exact absurd move (not_step_of_stopped stopped)
  · exact clock.step policy commits sink unsigned free move

/-- Where the run has returned all tasks but the last are done, and it returns the time at which
that one is ready. -/
theorem Clockwork.returned (clock : x.Clockwork s arrival) (sink : x.prog.SingleSink)
    (returned : s.phase = .returned time) :
    (∀ task ∈ x.prog.tasks, task ∈ s.scheduled) ∧
      (∀ task ∈ s.scheduled, task.kind = .thunk → task ∈ s.logged) ∧
      ∀ exit, x.prog.exit = some exit → time = arrival exit := by
  obtain ⟨exit, final, -, commit, behind⟩ := Programm.exit_eq sink
  have phase := clock.phase
  rw [Punctual, returned] at phase
  have scheduled := phase exit final
  have others := clock.tracked.others clock.known behind (.inr scheduled)
  refine ⟨fun task inside => ?_, fun task known kind => ?_, fun last same => ?_⟩
  · by_cases same : task = exit
    · exact same ▸ scheduled
    · exact clock.known task (others task inside same)
  · refine others task (clock.tracked.inside task (.inr known)) fun same => ?_
    rw [same, commit] at kind
    cases kind
  · have at_ := clock.exit last same (phase last same)
    rw [ExitAt, returned] at at_
    exact at_

/-- The program has one source and one sink, commits are simulated, and no time is negative. Then
the times of the tasks fix the one that is returned, whatever rounds there are. -/
structure Simple (x : Execution Time) : Prop where
  source : x.prog.SingleSource
  sink : x.prog.SingleSink
  noMove : x.commit = .noMove
  unsigned : x.Unsigned

theorem returned_unique_of_uncontested (policy : x.initPage = .firstTouch) (simple : x.Simple)
    {time' : Time} (reach : x.system.Reachable x.Uncontested s)
    (reach' : x.system.Reachable x.Uncontested s') (returned : s.phase = .returned time)
    (returned' : s'.phase = .returned time') : time = time' := by
  obtain ⟨source, sink, commits, unsigned⟩ := simple
  obtain stopped | ⟨arrival, clock⟩ :=
    reachable_clockwork policy commits source sink unsigned reach
  · rw [State.Stopped, returned] at stopped
    exact stopped.elim
  obtain stopped | ⟨arrival', clock'⟩ :=
    reachable_clockwork policy commits source sink unsigned reach'
  · rw [State.Stopped, returned'] at stopped
    exact stopped.elim
  obtain ⟨exit, final, inside, -, -⟩ := Programm.exit_eq sink
  obtain ⟨all, done, at_⟩ := clock.returned sink returned
  obtain ⟨all', done', at'⟩ := clock'.returned sink returned'
  rw [at_ exit final, at' exit final]
  exact (clock.table.agrees clock'.table clock.settled clock'.settled all all' done done' inside).1

/-- What is fixed while nothing is chosen that makes a difference: the rounds of the run, or the
times of its tasks. -/
inductive View
  | rounds
  | times

/-- Nothing is chosen that makes a difference to what is fixed. -/
def Determined (x : Execution Time) (view : View) (s : State Time) (label : Label) : Prop :=
  match view with
  | .rounds => x.Unordered s label
  | .times => x.Simple ∧ x.Uncontested s label

/-- **The order of the sets does not matter where nothing is chosen that makes a difference.** Two
such runs return the same time. -/
theorem returned_unique (policy : x.initPage = .firstTouch) (view : View) {time' : Time}
    (reach : x.system.Reachable (x.Determined view) s)
    (reach' : x.system.Reachable (x.Determined view) s') (returned : s.phase = .returned time)
    (returned' : s'.phase = .returned time') : time = time' := by
  cases view with
  | rounds => exact returned_unique_of_unordered policy reach reach' returned returned'
  | times =>
    -- a run that has returned has made a step
    have simple : x.Simple := by
      cases reach with
      | init init =>
        obtain ⟨entry, -, rfl⟩ := init
        cases returned
      | step _ _ ok _ => exact ok.1
    exact returned_unique_of_uncontested policy simple (reach.mono fun _ _ => And.right)
      (reach'.mono fun _ _ => And.right) returned returned'

/-! ## Two readers of one page -/

/-- A thunk, two behind it on one CPU each, and one behind these, with the pages that they read. -/
def diamond (pages : ℕ → Finset ℕ) : Execution ExactTime where
  arch := .pair
  prog :=
    { thunks := [(0, 1), (0, 2), (0, 3), (0, 4)]
      edges := [((0, 1), (0, 2)), ((0, 1), (0, 3)), ((0, 2), (0, 4)), ((0, 3), (0, 4))]
      data t := ⟨if t.2 = 3 then 1 else 0, (if t.2 = 3 then 20 else 10 : ℕ), pages t.2, ∅⟩
      distinct := by decide
      single := by decide
      inside := by decide
      acyclic := ⟨Prod.snd, by decide⟩ }
  initPage := .firstTouch
  commit := .noMove

/-- A round that pops the tasks at these places. -/
def turn (pops places rings : List ℕ) : List Label :=
  .test :: pops.map (.pop · fun _ => 0) ++ rest places rings

/-- A run of the diamond, with these rounds for the two thunks in the middle. -/
def around (middle : List Label) : List Label :=
  let quick (pops : List ℕ) : List Label := turn pops [0, 0, 0, 0, 0] [0]
  quick [0] ++ quick [0] ++ quick [0] ++ middle ++ quick [0] ++ quick [] ++
    quick [0] ++ quick [0] ++ quick [0] ++ quick [0] ++ [.test]

theorem diamond_singleSource (pages : ℕ → Finset ℕ) : (diamond pages).prog.SingleSource := by
  -- the graph does not depend on the pages
  change (diamond fun _ => ∅).prog.SingleSource
  have only : ∀ task ∈ (diamond fun _ => ∅).prog.tasks,
      (diamond fun _ => ∅).prog.predecessors task = [] → task = ⟨.comm, (0, 1)⟩ := by decide
  exact ⟨⟨.comm, (0, 1)⟩, ⟨by decide, by decide⟩, fun task ⟨member, first⟩ =>
    only task member first⟩

theorem diamond_singleSink (pages : ℕ → Finset ℕ) : (diamond pages).prog.SingleSink := by
  change (diamond fun _ => ∅).prog.SingleSink
  have only : ∀ task ∈ (diamond fun _ => ∅).prog.tasks,
      (diamond fun _ => ∅).prog.successors task = [] → task = ⟨.commit, (0, 4)⟩ := by decide
  exact ⟨⟨.commit, (0, 4)⟩, ⟨by decide, by decide⟩, fun task ⟨member, last⟩ =>
    only task member last⟩

theorem diamond_unsigned (pages : ℕ → Finset ℕ) : (diamond pages).Unsigned where
  cputime t := by
    refine .inr ?_
    show (0 : ExactTime) ≤ (if t.2 = 3 then 20 else 10 : ℕ)
    split_ifs <;> decide
  arch := Architecture.pair_unsigned

theorem diamond_simple (pages : ℕ → Finset ℕ) : (diamond pages).Simple where
  source := diamond_singleSource pages
  sink := diamond_singleSink pages
  noMove := rfl
  unsigned := diamond_unsigned pages

/-- A thunk and two behind it on one CPU each, of which the last one is the quicker. -/
def branches : Execution ExactTime :=
  { siblings with
    prog := { siblings.prog with
      data t := ⟨if t.2 = 3 then 1 else 0, (if t.2 = 2 then 20 else 10 : ℕ), ∅, ∅⟩ } }

/-- A test of the conditions for programs without pages. -/
def calm (x : Execution Time) (s : State Time) : Label → Bool
  | .pop choice _ => (s.ready[choice]?).all fun task =>
      x.needs task = ∅ && (task.kind ≠ .thunk ||
        (s.active.all (·.1 ≠ .cpu (x.cpu task)) && s.scheduled.all fun other =>
          other.kind ≠ .thunk || x.cpu other ≠ x.cpu task || 0 < s.now &&
            s.log.all fun entry => entry.1 ∉ x.prog.predecessors other || entry.2 < s.now))
  | .visit choice _ =>
      match s.phase with
      | .progress todo => (todo[choice]?).all fun device =>
          match device with
          | .numa id => s.active.countP (fun entry => entry.1 = .numa id) ≤ 1
          | _ => true
      | _ => true
  | .release =>
      match s.phase with
      | .complete _ (some last) _ => s.alarms.all (last < ·.time)
      | _ => true
  | _ => true

theorem uncontested_of_calm {label : Label} (test : calm x s label = true) :
    x.Uncontested s label := by
  refine ⟨?_, ?_, ?_⟩
  · rintro choice draw task own p d rfl ready - - needed - -
    simp only [calm, ready, Option.all_some, Bool.and_eq_true, decide_eq_true_eq] at test
    rw [test.1] at needed
    exact absurd needed (Finset.notMem_empty p)
  · rintro choice draw task rfl ready kind
    simp only [calm, ready, Option.all_some, Bool.and_eq_true, decide_eq_true_eq, Bool.or_eq_true,
      List.all_eq_true, kind, ne_eq, not_true_eq_false, false_or] at test
    obtain ⟨-, free, earlier⟩ := test
    refine ⟨free, fun other known thunk same => .inl ?_⟩
    obtain (no | no) | ⟨late, before⟩ := earlier other known
    · exact absurd thunk no
    · exact absurd same no
    · exact ⟨late, fun entry member edge => (before entry member).resolve_left fun no => no edge⟩
  · rintro choice event todo id rfl phase chosen
    simpa only [calm, phase, chosen, Option.all_some, decide_eq_true_eq] using test

theorem determined_of_calm {view : View} (simple : view = .times → x.Simple) {label : Label}
    (test : calm x s label = true) : x.Determined view s label := by
  have free := uncontested_of_calm test
  cases view with
  | times => exact ⟨simple rfl, free⟩
  | rounds =>
    refine ⟨?_, fun choice draw task same ready kind =>
      (free.cpu choice draw task same ready kind).1, free.numa, ?_⟩
    · rintro choice draw task own p d rfl ready - - needed - -
      simp only [calm, ready, Option.all_some, Bool.and_eq_true, decide_eq_true_eq] at test
      rw [test.1] at needed
      exact absurd needed (Finset.notMem_empty p)
    · rintro earliest last finished rfl phase alarm member
      simp only [calm, phase, List.all_eq_true, decide_eq_true_eq] at test
      exact test alarm member

/-- Without pages the thunks of the diamond can be popped in any order, and so can those of a
program with two sinks, which returns before the slow one is done. -/
theorem returned_unique_small :
    (∀ view, ∃ s s' : State ExactTime,
      (diamond fun _ => ∅).system.Reachable ((diamond fun _ => ∅).Determined view) s ∧
        (diamond fun _ => ∅).system.Reachable ((diamond fun _ => ∅).Determined view) s' ∧
        s.scheduled ≠ s'.scheduled ∧ s.phase = .returned 40 ∧ s'.phase = .returned 40) ∧
      ∃ s s' : State ExactTime, branches.system.Reachable (branches.Determined .rounds) s ∧
        branches.system.Reachable (branches.Determined .rounds) s' ∧
        s.scheduled ≠ s'.scheduled ∧ ⟨.thunk, (0, 2)⟩ ∉ s.logged ∧ s.phase = .returned 20 ∧
        s'.phase = .returned 20 := by
  constructor
  · intro view
    let x := diamond fun _ => ∅
    have start : x.system.Reachable (x.Determined view) (x.initial ⟨.comm, (0, 1)⟩) :=
      .init ⟨_, by decide, rfl⟩
    have ran : (x.system.runIf x.calm (x.initial ⟨.comm, (0, 1)⟩) (around
        (turn [0, 0] [0, 0, 0, 0, 0] [0, 0] ++ turn [0, 0] [0, 1, 0, 0, 0] [1]))).any (fun s =>
          (x.system.runIf x.calm (x.initial ⟨.comm, (0, 1)⟩) (around
            (turn [1, 0] [0, 0, 0, 1, 0] [0, 0] ++ turn [1, 0] [0, 0, 0, 0, 0] [1]))).any fun s' =>
              decide (s.scheduled ≠ s'.scheduled ∧ s.phase = .returned 40 ∧
                s'.phase = .returned s'.time)) = true := by decide +kernel
    obtain ⟨s, execution, others⟩ := (Option.any_eq_true _ _).mp ran
    obtain ⟨s', execution', test⟩ := (Option.any_eq_true _ _).mp others
    obtain ⟨apart, returned, returned'⟩ := of_decide_eq_true test
    have ok : ∀ s label, calm x s label = true → x.Determined view s label :=
      fun _ _ => determined_of_calm fun _ => diamond_simple _
    have reach := start.runIf ok execution
    have reach' := start.runIf ok execution'
    have same := returned_unique rfl view reach reach' returned returned'
    exact ⟨s, s', reach, reach', apart, returned, same ▸ returned'⟩
  · let quick (pops : List ℕ) : List Label := turn pops [0, 0, 0, 0, 0] [0]
    let along (middle : List Label) : List Label :=
      quick [0] ++ quick [0] ++ quick [0] ++ middle ++ quick [0] ++ [.test]
    have start : branches.system.Reachable (branches.Determined .rounds)
        (branches.initial ⟨.comm, (0, 1)⟩) := .init ⟨_, by decide, rfl⟩
    have ran : (branches.system.runIf branches.calm (branches.initial ⟨.comm, (0, 1)⟩) (along
        (turn [0, 0] [0, 0, 0, 0, 0] [0, 0] ++ turn [0, 0] [0, 1, 0, 0, 0] [0]))).any (fun s =>
          (branches.system.runIf branches.calm (branches.initial ⟨.comm, (0, 1)⟩) (along
            (turn [1, 0] [0, 0, 0, 1, 0] [0, 0] ++ turn [1, 0] [0, 0, 0, 0, 0] [0]))).any fun s' =>
              decide (s.scheduled ≠ s'.scheduled ∧ ⟨.thunk, (0, 2)⟩ ∉ s.logged ∧
                s.phase = .returned 20 ∧ s'.phase = .returned s'.time)) = true := by decide +kernel
    obtain ⟨s, execution, others⟩ := (Option.any_eq_true _ _).mp ran
    obtain ⟨s', execution', test⟩ := (Option.any_eq_true _ _).mp others
    obtain ⟨apart, slow, returned, returned'⟩ := of_decide_eq_true test
    have ok : ∀ s label, calm branches s label = true → branches.Determined .rounds s label :=
      fun _ _ => determined_of_calm fun other => by cases other
    have reach := start.runIf ok execution
    have reach' := start.runIf ok execution'
    have same := returned_unique rfl .rounds reach reach' returned returned'
    exact ⟨s, s', reach, reach', apart, slow, returned, same ▸ returned'⟩

/-- The reader of the page that is popped first does not have to fetch it. -/
theorem not_returned_unique :
    ¬ ∀ (x : Execution ExactTime) (s s' : State ExactTime) (time time' : ExactTime),
    x.initPage = .firstTouch → x.system.Reachable Transition.AnyStep s →
      x.system.Reachable Transition.AnyStep s' → s.phase = .returned time →
      s'.phase = .returned time' → time = time' := by
  intro claim
  let x := diamond fun t => if t = 2 ∨ t = 3 then {7} else ∅
  have start : x.system.Reachable Transition.AnyStep (x.initial ⟨.comm, (0, 1)⟩) :=
    .init ⟨_, by decide, rfl⟩
  have first : (x.system.run (x.initial ⟨.comm, (0, 1)⟩) (around
      (turn [0, 0] [0, 0, 0, 0, 0] [0, 0] ++ turn [0] [0, 0, 0, 0, 0] [1] ++
        turn [0] [0, 0, 0, 0, 0] [1]))).any (fun s => decide (s.phase = .returned 42)) = true := by
    decide +kernel
  have second : (x.system.run (x.initial ⟨.comm, (0, 1)⟩) (around
      (turn [1, 0] [0, 0, 0, 1, 0] [0, 0] ++ turn [0] [0, 0, 0, 0, 0] [1] ++
        turn [0] [0, 0, 0, 0, 0] [0]))).any (fun s => decide (s.phase = .returned 40)) = true := by
    decide +kernel
  obtain ⟨s, execution, returned⟩ := (Option.any_eq_true _ _).mp first
  obtain ⟨s', execution', returned'⟩ := (Option.any_eq_true _ _).mp second
  have same := claim x s s' 42 40 rfl (start.run execution) (start.run execution')
    (of_decide_eq_true returned) (of_decide_eq_true returned')
  exact absurd same (by decide +kernel)

end Execution

end Tthread.Racksim
