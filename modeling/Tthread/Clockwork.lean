/-
# The clock of a run

A run keeps the timetable of its tasks: a fetch or a commit is done with the last event it was
booked with, which counts from the time at which it was ready, and a thunk is done as long after
the start as it runs, which is when it was ready or when the one in front of it on its CPU was
done. The steps that visit the devices, ring alarms and complete tasks keep it, as long as no
domain has a choice between two events.
-/

import Tthread.FetchTimes
import Tthread.FirstTouch

namespace Tthread.Racksim

namespace Execution

variable {Time : Type} [Clock Time] {x : Execution Time} {s s' : State Time}
  {arrival : Task → Time} {task other : Task} {time : Time}

/-! ## What a step leaves as it was -/

/-- Nothing is scheduled, completed or placed. -/
structure Keeps (s s' : State Time) : Prop where
  scheduled : s'.scheduled = s.scheduled
  log : s'.log = s.log
  numas : s'.numas = s.numas

omit [Clock Time] in
theorem keeps_rephase {phase : Phase Time} : Keeps s { s with phase := phase, time := time } :=
  ⟨rfl, rfl, rfl⟩

omit [Clock Time] in
theorem Keeps.queued (keeps : Keeps s s') : x.Queued s' = x.Queued s := by
  funext task other
  rw [Queued, Queued, State.place, State.place, State.place, State.place, keeps.scheduled]

theorem Keeps.arrivals (keeps : Keeps s s') : x.arrivals s' = x.arrivals s := by
  funext task
  rw [Execution.arrivals, Execution.arrivals, keeps.log]

theorem Keeps.ends {arrival : Time} (keeps : Keeps s s') (ends : x.Ends s arrival task time) :
    x.Ends s' arrival task time where
  moves thunk := by
    rw [keeps.numas]
    exact ends.moves thunk
  runs thunk := by
    rw [starts, State.logged, keeps.queued, keeps.log]
    exact ends.runs thunk

theorem Keeps.timetable (keeps : Keeps s s') (table : x.Timetable s arrival) :
    x.Timetable s' arrival where
  inside := keeps.scheduled ▸ table.inside
  single := keeps.log ▸ table.single
  front := by
    simp only [State.place, State.logged, keeps.scheduled, keeps.log]
    exact table.front
  arrives := by
    rw [keeps.scheduled, keeps.arrivals]
    exact table.arrives
  sorted := by
    simp only [State.place, keeps.scheduled]
    exact table.sorted
  ends task time entry := keeps.ends (table.ends task time (keeps.log ▸ entry))
  home := by
    simp only [State.place, keeps.scheduled, keeps.numas]
    exact table.home
  page := by
    simp only [State.place, keeps.scheduled, keeps.numas]
    exact table.page
  cpu := by
    rw [keeps.scheduled, keeps.queued]
    exact table.cpu

/-! ## What holds in every state -/

/-- An event is booked or rings. -/
def Outstanding (s : State Time) (event : Event Time) : Prop :=
  (∃ device, (device, event) ∈ s.active) ∨ ∃ alarm ∈ s.alarms, alarm.event = event

/-- An alarm rings at the end of its event, which is the end of its task for a thunk. -/
def Rings (x : Execution Time) (s : State Time) (arrival : Task → Time) (alarm : Alarm Time) :
    Prop :=
  match alarm.callback with
  | some (.cpu id) => alarm.event.task.kind = .thunk ∧ x.cpu alarm.event.task = id ∧
      x.Ends s (arrival alarm.event.task) alarm.event.task alarm.time
  | _ => alarm.event.task.kind ≠ .thunk ∧
      alarm.time = arrival alarm.event.task + alarm.event.time

/-- The CPU runs something, or the thunk in front on it has just ended. -/
def Held (x : Execution Time) (s : State Time) (id : ℕ) (task : Task) : Prop :=
  s.running id = true ∨ ∃ other, x.Queued s task other ∧ (other, s.now) ∈ s.log

/-- What holds in a phase. Only CPUs let an event wait, for the thunk that they run. -/
def Punctual (x : Execution Time) (s : State Time) (arrival : Task → Time) : Prop :=
  match s.phase with
  | .test => ∀ entry ∈ s.active, ∃ id, entry.1 = .cpu id ∧ x.Held s id entry.2.task
  | .schedule => ∀ entry ∈ s.active, arrival entry.2.task = s.now ∨
      ∃ id, entry.1 = .cpu id ∧ x.Held s id entry.2.task
  | .progress todo => s.ready = [] ∧ s.time = s.now ∧ ∀ entry ∈ s.active,
      (entry.1 ∈ todo ∧ (arrival entry.2.task = s.now ∨
        ∃ id, entry.1 = .cpu id ∧ x.Held s id entry.2.task)) ∨
      ∃ id, entry.1 = .cpu id ∧ s.running id = true
  | .complete earliest last finished => s.ready = [] ∧
      (∀ entry ∈ s.active, ∃ id, entry.1 = .cpu id ∧ (s.running id = true ∨
        ∃ other ∈ finished, x.Queued s entry.2.task other)) ∧
      (∀ alarm ∈ s.alarms, earliest ≤ alarm.time) ∧
      match last with
      | none => finished = []
      | some time => earliest ≤ time ∧ (∀ alarm ∈ s.alarms, time ≤ alarm.time) ∧
          (s.now ≤ time ∨ time = ⊥ ∧ finished ≠ []) ∧
          ∀ task ∈ finished, x.Ends s (arrival task) task time
  | .returned _ => ∀ exit, x.prog.exit = some exit → exit ∈ s.scheduled
  | .raised _ | .debugging => True

/-- What holds in a phase once the last task has been scheduled. -/
def ExitAt (s : State Time) (arrival : Time) : Prop :=
  match s.phase with
  | .schedule => s.now = arrival
  | .test | .progress _ | .complete _ _ _ => s.time = arrival
  | .returned time => time = arrival
  | .raised _ | .debugging => True

structure Clockwork (x : Execution Time) (s : State Time) (arrival : Task → Time) : Prop where
  tracked : x.Tracked s
  counted : x.Counted s s.done
  settled : x.Settled s
  table : x.Timetable s arrival
  now : 0 ≤ s.now
  log : ∀ entry ∈ s.log, entry.2 ≤ s.now
  ready : ∀ task ∈ s.ready, s.now ∈ x.arrivals s task
  fitting : ∀ entry ∈ s.active, x.Fitting entry
  listed : ∀ event, Outstanding s event →
    0 ≤ event.time ∧ event.time ∈ x.spans s.numas event.task
  longest : ∀ task ∈ s.scheduled, task ∉ s.done → task.kind ≠ .thunk →
    ∃ event, Outstanding s event ∧ event.task = task ∧
      IsGreatest (x.rings s.numas (arrival task) task) (arrival task + event.time)
  latest : ∀ entry ∈ s.active, ∀ other ∈ s.scheduled, entry.2.task.kind = .thunk →
    other.kind = .thunk → x.cpu other = x.cpu entry.2.task →
    s.place other ≤ s.place entry.2.task
  rings : ∀ alarm ∈ s.alarms, x.Rings s arrival alarm ∧ (alarm.time = ⊥ ∨ s.now ≤ alarm.time)
  one : ∀ task : Task, task.kind = .thunk → s.counter task ≤ 1
  waits : ∀ id, s.active.countP (fun entry => entry.1 = .cpu id) ≤ 1
  rung : ∀ id, s.alarms.countP (fun alarm => alarm.callback = some (.cpu id)) ≤
    if s.running id then 1 else 0
  phase : x.Punctual s arrival
  exit : ∀ exit, x.prog.exit = some exit → exit ∈ s.scheduled → ExitAt s (arrival exit)

theorem Keeps.rings {alarm : Alarm Time} (keeps : Keeps s s') (rings : x.Rings s arrival alarm) :
    x.Rings s' arrival alarm := by
  unfold Rings at rings ⊢
  split at rings
  · exact ⟨rings.1, rings.2.1, keeps.ends rings.2.2⟩
  · exact rings

namespace Clockwork

theorem known (clock : x.Clockwork s arrival) : ∀ task ∈ s.logged, task ∈ s.scheduled :=
  fun task member => clock.counted.known task (List.mem_append_right _ member)

/-- An event is of a task that has been scheduled and is not done. -/
theorem open_event (clock : x.Clockwork s arrival) {event : Event Time}
    (open_ : Outstanding s event) :
    event.task ∈ s.scheduled ∧ event.task ∉ s.done := by
  have positive : s.counter event.task ≠ 0 := by
    rw [clock.counted.counts, Nat.ne_zero_iff_zero_lt]
    obtain ⟨device, member⟩ | ⟨alarm, member, rfl⟩ := open_
    · exact Nat.add_pos_left (List.countP_pos_iff.mpr ⟨_, member, decide_eq_true rfl⟩) _
    · exact Nat.add_pos_right _ (List.countP_pos_iff.mpr ⟨_, member, decide_eq_true rfl⟩)
  rw [Ne, clock.counted.idle] at positive
  exact Classical.not_imp.mp positive

/-- No task arrives before time zero, or later than now. -/
theorem arrival_bounds (clock : x.Clockwork s arrival) (scheduled : task ∈ s.scheduled) :
    0 ≤ arrival task ∧ arrival task ≤ s.now := by
  obtain ⟨member, upper⟩ := clock.table.arrives task scheduled
  refine ⟨upper (Set.mem_insert _ _), ?_⟩
  obtain same | ⟨other, -, entry⟩ := member
  · exact same ▸ clock.now
  · exact clock.log _ entry

/-- Going on to another phase changes nothing else. -/
theorem rephase (clock : x.Clockwork s arrival) {phase : Phase Time}
    (done : State.done { s with phase := phase, time := time } = s.done)
    (onTime : x.Punctual { s with phase := phase, time := time } arrival)
    (exit : ∀ exit, x.prog.exit = some exit → exit ∈ s.scheduled →
      ExitAt { s with phase := phase, time := time } (arrival exit)) :
    x.Clockwork { s with phase := phase, time := time } arrival where
  tracked := clock.tracked.frame rfl rfl rfl rfl
  counted := (done.symm ▸ clock.counted).frame rfl rfl rfl rfl rfl
  settled := ⟨⟨clock.settled.single, clock.settled.placed⟩, clock.settled.home⟩
  table := keeps_rephase.timetable clock.table
  now := clock.now
  log := clock.log
  ready := clock.ready
  fitting := clock.fitting
  listed := clock.listed
  longest := done.symm ▸ clock.longest
  latest := clock.latest
  rings alarm member :=
    ⟨keeps_rephase.rings (clock.rings alarm member).1, (clock.rings alarm member).2⟩
  one := clock.one
  waits := clock.waits
  rung := clock.rung
  phase := onTime
  exit := exit

theorem test (clock : x.Clockwork s arrival) (sink : x.prog.SingleSink)
    (move : x.step s .test = some s') : x.Clockwork s' arrival := by
  obtain ⟨phase, ⟨more, rfl⟩ | ⟨through, empty, rfl⟩⟩ := step_test move
  · have waiting := clock.phase
    rw [Punctual, phase] at waiting
    refine clock.rephase (by rw [State.done, State.done, phase]; rfl)
      (fun entry member => .inr (waiting entry member)) fun exit last scheduled => ?_
    -- the loop does not go on once the last task has been scheduled
    obtain ⟨found, same, inside, -, behind⟩ := Programm.exit_eq sink
    obtain rfl := Option.some.inj (same.symm.trans last)
    rw [last, Option.map_some, Option.getD_some,
      (clock.tracked.wait_eq_zero inside).mpr (.inr scheduled)] at more
    obtain ⟨task, ready⟩ := List.exists_mem_of_ne_nil _ (more.resolve_left (Nat.lt_irrefl 0))
    have fresh := clock.tracked.fresh task ready
    have logged := clock.tracked.others clock.known behind (.inr scheduled) task
      (clock.tracked.inside task (.inl ready)) fun own => fresh (own ▸ scheduled)
    exact absurd (clock.known task logged) fresh
  · refine clock.rephase (by rw [State.done, State.done, phase]; rfl) (fun exit last => ?_)
      fun exit last scheduled => ?_
    · -- the last task does not wait, and nothing is ready
      obtain ⟨found, same, inside, -, -⟩ := Programm.exit_eq sink
      obtain rfl := Option.some.inj (same.symm.trans last)
      rw [last, Option.map_some, Option.getD_some] at through
      refine ((clock.tracked.wait_eq_zero inside).mp through).resolve_left fun ready => ?_
      rw [empty] at ready
      exact absurd ready List.not_mem_nil
    have time := clock.exit exit last scheduled
    rw [ExitAt, phase] at time
    exact time

theorem start (clock : x.Clockwork s arrival) (move : x.step s .start = some s') :
    x.Clockwork s' arrival := by
  obtain ⟨phase, ready, rfl⟩ := step_start move
  have waiting := clock.phase
  rw [Punctual, phase] at waiting
  refine clock.rephase (by rw [State.done, State.done, phase]; rfl)
    ⟨ready, rfl, fun entry member =>
      .inl ⟨clock.counted.devices entry member, waiting entry member⟩⟩
    fun exit last scheduled => ?_
  have now := clock.exit exit last scheduled
  rw [ExitAt, phase] at now
  exact now

theorem complete (clock : x.Clockwork s arrival) (move : x.step s .complete = some s') :
    s'.Stopped ∨ x.Clockwork s' arrival := by
  obtain ⟨phase, ⟨-, rfl⟩ | ⟨earliest, first, rfl⟩⟩ := step_complete move
  · exact .inl trivial
  · have waiting := clock.phase
    rw [Punctual, phase] at waiting
    obtain ⟨ready, -, active⟩ := waiting
    refine .inr (clock.rephase (by rw [State.done, State.done, phase]; rfl)
      ⟨ready, fun entry member => ?_, first.2, rfl⟩ fun exit last scheduled => ?_)
    · obtain ⟨none, -⟩ | ⟨id, device, runs⟩ := active entry member
      · exact absurd none List.not_mem_nil
      · exact ⟨id, device, .inl runs⟩
    · have time := clock.exit exit last scheduled
      rw [ExitAt, phase] at time
      exact time

end Clockwork

/-! ## Devices take their events -/

theorem eq_of_countP_le_one {α : Type*} {l : List α} {P : α → Bool} (one : l.countP P ≤ 1)
    {a b : α} (first : a ∈ l) (holds : P a = true) (second : b ∈ l) (holds' : P b = true) :
    a = b := by
  rw [List.countP_eq_length_filter] at one
  have inside := List.mem_filter.mpr ⟨first, holds⟩
  have inside' := List.mem_filter.mpr ⟨second, holds'⟩
  generalize l.filter P = found at one inside inside'
  match found with
  | [] => exact absurd inside List.not_mem_nil
  | [only] => exact (List.mem_singleton.mp inside).trans (List.mem_singleton.mp inside').symm
  | _ :: _ :: _ => exact absurd one (by simp)

theorem alarm_callback {now : Time} {device : Device} {event : Event Time} {id : ℕ} :
    (x.alarm now device event).callback = some (.cpu id) ↔ device = .cpu id := by
  cases device <;> simp [alarm]

/-- What is outstanding stays so while events are turned into alarms. -/
theorem outstanding_moved {taken kept : List (Device × Event Time)} {running : ℕ → Bool}
    {event : Event Time} (split : (taken ++ kept).Perm s.active) :
    Outstanding { s with
        active := kept
        alarms := taken.map (fun entry => x.alarm s.time entry.1 entry.2) ++ s.alarms
        running := running } event ↔ Outstanding s event := by
  constructor
  · rintro (⟨device, member⟩ | ⟨alarm, member, rfl⟩)
    · exact .inl ⟨device, split.mem_iff.mp (List.mem_append_right _ member)⟩
    · obtain new | old := List.mem_append.mp member
      · obtain ⟨entry, inside, rfl⟩ := List.mem_map.mp new
        rw [alarm_event]
        exact .inl ⟨entry.1, split.mem_iff.mp (List.mem_append_left _ inside)⟩
      · exact .inr ⟨alarm, old, rfl⟩
  · rintro (⟨device, member⟩ | ⟨alarm, member, rfl⟩)
    · obtain inside | kept := List.mem_append.mp (split.mem_iff.mpr member)
      · exact .inr ⟨_, List.mem_append_left _ (List.mem_map_of_mem inside), alarm_event⟩
      · exact .inl ⟨device, kept⟩
    · exact .inr ⟨alarm, List.mem_append_right _ member, rfl⟩

theorem drawsOwn_of_firstTouch (policy : x.initPage = .firstTouch) {label : Label} :
    x.DrawsOwn s label := by
  intro choice draw task own p after at_ ready kind present needed nowhere random
  rw [policy] at random
  cases random

namespace Clockwork

/-- A CPU that stands is through with the thunks in front of the one that it takes. -/
theorem queued_logged (clock : x.Clockwork s arrival) (done : s.done = s.logged) {id : ℕ}
    {event : Event Time} (waits : ((.cpu id, event) : Device × Event Time) ∈ s.active)
    (stands : s.running id = false) : ∀ other, x.Queued s event.task other → other ∈ s.logged := by
  intro other queued
  obtain ⟨kind, same, scheduled, place⟩ := queued
  obtain ⟨-, own⟩ : _ ∧ x.cpu event.task = id := clock.fitting _ waits
  by_contra undone
  have positive : s.counter other ≠ 0 := fun zero =>
    undone (done ▸ (clock.counted.idle other).mp zero scheduled)
  rw [clock.counted.counts] at positive
  obtain booked | ringing : 0 < s.active.countP (·.2.task = other) ∨
      0 < s.alarms.countP (·.event.task = other) := by omega
  · -- two events would wait for the CPU
    obtain ⟨⟨device, event'⟩, member, task⟩ := List.countP_pos_iff.mp booked
    obtain rfl : event'.task = other := of_decide_eq_true task
    have fitting := clock.fitting _ member
    obtain _ | id' | _ := device
    · exact fitting kind
    · obtain ⟨-, own'⟩ : _ ∧ x.cpu event'.task = id' := fitting
      obtain rfl : id' = id := own'.symm.trans (same.trans own)
      have one := eq_of_countP_le_one (clock.waits id') waits (decide_eq_true rfl) member
        (decide_eq_true rfl)
      cases one
      exact place.false
    · exact fitting.1 kind
  · obtain ⟨alarm, member, task⟩ := List.countP_pos_iff.mp ringing
    obtain rfl : alarm.event.task = other := of_decide_eq_true task
    have rings := (clock.rings alarm member).1
    unfold Rings at rings
    split at rings
    · next id' back =>
      obtain rfl : id' = id := rings.2.1.symm.trans (same.trans own)
      have none := clock.rung id'
      rw [stands] at none
      exact absurd none (Nat.not_le.mpr (List.countP_pos_iff.mpr
        ⟨alarm, member, decide_eq_true back⟩))
    · exact rings.1 kind

/-- A device takes its events on time. -/
theorem rings_of_taken (clock : x.Clockwork s arrival) (unsigned : x.Unsigned) {todo : List Device}
    (phase : s.phase = .progress todo) {entry : Device × Event Time} (member : entry ∈ s.active)
    (stands : ∀ id, entry.1 = .cpu id → s.running id = false) :
    x.Rings s arrival (x.alarm s.time entry.1 entry.2) ∧
      ((x.alarm s.time entry.1 entry.2).time = ⊥ ∨
        s.now ≤ (x.alarm s.time entry.1 entry.2).time) := by
  have waiting := clock.phase
  rw [Punctual, phase] at waiting
  obtain ⟨-, clocked, active⟩ := waiting
  have onTime := active entry member
  have fitting := clock.fitting entry member
  have late := (clock.listed entry.2 (.inl ⟨entry.1, member⟩)).1
  obtain ⟨device, event⟩ := entry
  rw [clocked]
  -- links and domains take what was booked in this round
  have new : (∀ id, device ≠ .cpu id) → arrival event.task = s.now := by
    intro other
    obtain ⟨-, now | ⟨id, cpu, -⟩⟩ | ⟨id, cpu, -⟩ := onTime
    · exact now
    · exact absurd cpu (other id)
    · exact absurd cpu (other id)
  cases device with
  | link id =>
    have now := new (fun _ other => by cases other)
    refine ⟨⟨fitting, ?_⟩, .inr (le_add_of_nonneg_right late)⟩
    show s.now + event.time = arrival event.task + event.time
    rw [now]
  | numa id =>
    have now := new (fun _ other => by cases other)
    obtain ⟨kind, zero⟩ : event.task.kind ≠ .thunk ∧ event.time = 0 := fitting
    refine ⟨⟨kind, ?_⟩, .inr le_rfl⟩
    show s.now = arrival event.task + event.time
    rw [now, zero, add_zero]
  | cpu id =>
    obtain ⟨kind, own⟩ : event.task.kind = .thunk ∧ x.cpu event.task = id := fitting
    have done : s.done = s.logged := by rw [State.done, phase]; rfl
    have stands := stands id rfl
    have bounds := clock.arrival_bounds (clock.open_event (.inl ⟨_, member⟩)).1
    have started : IsGreatest (x.starts s (arrival event.task) event.task) s.now := by
      constructor
      · obtain ⟨-, now | ⟨id', cpu, due⟩⟩ | ⟨id', cpu, runs⟩ := onTime
        · exact .inl now.symm
        · cases cpu
          obtain runs | ⟨other, queued, entry⟩ := due
          · rw [stands] at runs
            cases runs
          · exact .inr ⟨other, queued, entry⟩
        · cases cpu
          rw [stands] at runs
          cases runs
      · rintro time (rfl | ⟨other, -, entry⟩)
        · exact bounds.2
        · exact clock.log _ entry
    refine ⟨⟨kind, own, ⟨fun other => absurd kind other, fun _ =>
      ⟨clock.queued_logged done member stands, s.now, started, rfl⟩⟩⟩, ?_⟩
    exact Clock.end_of_unsigned (unsigned.cputime event.task.tid)

theorem visit (clock : x.Clockwork s arrival) (policy : x.initPage = .firstTouch)
    (unsigned : x.Unsigned) {choice event : ℕ} (calm : x.Uncontested s (.visit choice event))
    (move : x.step s (.visit choice event) = some s') : x.Clockwork s' arrival := by
  have settled := clock.settled.step (drawsOwn_of_firstTouch policy) move
  obtain ⟨todo, device, after, phase, chosen, visited, rfl⟩ := step_visit move
  have done : s.done = s.logged := by rw [State.done, phase]; rfl
  have counted := clock.counted.visit visited
  obtain ⟨taken, kept, running, split, own, rfl, left⟩ := visit_moved visited
  have waiting := clock.phase
  rw [Punctual, phase] at waiting
  obtain ⟨ready, clocked, active⟩ := waiting
  have inside : ∀ entry ∈ kept, entry ∈ s.active := fun entry member =>
    split.mem_iff.mp (List.mem_append_right _ member)
  have outstanding := fun event => @outstanding_moved Time _ x s taken kept running event split
  have runs_on : ∀ id, s.running id = true → running id = true := by
    intro id runs
    obtain ⟨-, rfl, -⟩ | ⟨other, -, ⟨-, rfl, -⟩ | ⟨-, rfl, -⟩⟩ := left
    · exact runs
    · exact runs
    · rw [Function.update_apply]
      split_ifs
      · rfl
      · exact runs
  have stood : ∀ entry ∈ taken, ∀ id, entry.1 = .cpu id → s.running id = false := by
    intro entry member id cpu
    have same := (own entry member).symm.trans cpu
    obtain ⟨other, -, -⟩ | ⟨other, rfl, ⟨rfl, -⟩ | ⟨stands, -⟩⟩ := left
    · exact absurd same (other id)
    · exact absurd member List.not_mem_nil
    · cases same
      exact stands
  refine
    { tracked := clock.tracked.frame rfl rfl rfl rfl
      counted := (done ▸ counted).frame rfl rfl rfl rfl rfl
      settled := settled
      table := Keeps.timetable (s := s) ⟨rfl, rfl, rfl⟩ clock.table
      now := clock.now
      log := clock.log
      ready := clock.ready
      fitting := fun entry member => clock.fitting entry (inside entry member)
      listed := fun event booked => clock.listed event ((outstanding event).mp booked)
      longest := fun task scheduled undone kind => ?_
      latest := fun entry member => clock.latest entry (inside entry member)
      rings := fun alarm member => ?_
      one := clock.one
      waits := fun id => ?_
      rung := fun id => ?_
      phase := ⟨ready, clocked, fun entry member => ?_⟩
      exit := fun exit last scheduled => ?_ }
  · obtain ⟨event, booked, rest⟩ := clock.longest task scheduled (done ▸ undone) kind
    exact ⟨event, (outstanding event).mpr booked, rest⟩
  · obtain new | old := List.mem_append.mp member
    · obtain ⟨entry, taking, rfl⟩ := List.mem_map.mp new
      obtain ⟨rings, late⟩ := clock.rings_of_taken unsigned phase
        (split.mem_iff.mp (List.mem_append_left _ taking)) (stood entry taking)
      exact ⟨Keeps.rings (s := s) ⟨rfl, rfl, rfl⟩ rings, late⟩
    · obtain ⟨rings, late⟩ := clock.rings alarm old
      exact ⟨Keeps.rings (s := s) ⟨rfl, rfl, rfl⟩ rings, late⟩
  · have before := clock.waits id
    rw [← split.countP_eq, List.countP_append] at before
    exact (Nat.le_add_left _ _).trans before
  · -- an alarm calls the CPU back that its event was taken from
    have before := clock.rung id
    show (taken.map _ ++ s.alarms).countP _ ≤ _
    have back : ∀ entry ∈ taken, decide ((x.alarm s.time entry.1 entry.2).callback =
        some (.cpu id)) = decide (device = .cpu id) := fun entry member =>
      decide_eq_decide.mpr (alarm_callback.trans (by rw [own entry member]))
    rw [List.countP_append, List.countP_map]
    have new : taken.countP ((fun alarm : Alarm Time => decide (alarm.callback = some (.cpu id))) ∘
        fun entry => x.alarm s.time entry.1 entry.2) =
        taken.countP fun _ => decide (device = .cpu id) :=
      List.countP_congr fun entry member => by
        simp only [Function.comp_apply]
        rw [back entry member]
    rw [new]
    obtain ⟨other, rfl, -⟩ | ⟨other, rfl, ⟨rfl, rfl, -⟩ | ⟨stands, rfl, entry, rfl⟩⟩ := left
    · simpa [other id] using before
    · simpa using before
    · by_cases same : other = id
      · subst same
        rw [stands] at before
        simpa using before
      · simpa [same, Function.update_of_ne (Ne.symm same)] using before
  · have onTime := active entry (inside entry member)
    obtain ⟨waits, now⟩ | ⟨id, cpu, runs⟩ := onTime
    · by_cases own' : entry.1 = device
      · -- what is left on the device waits for a CPU that runs
        obtain ⟨other, -, none | ⟨id, only, rfl, rfl⟩⟩ |
          ⟨id, rfl, ⟨-, rfl, none | runs⟩ | ⟨-, rfl, -⟩⟩ := left
        · exact absurd own' (none entry member)
        · have one := calm.numa choice event todo id rfl phase chosen
          rw [← split.countP_eq, List.countP_append, List.countP_singleton,
            if_pos (decide_eq_true (own only (List.mem_singleton_self _)))] at one
          have rest : 0 < kept.countP (fun entry => entry.1 = .numa id) :=
            List.countP_pos_iff.mpr ⟨entry, member, decide_eq_true own'⟩
          omega
        · exact absurd own' (none entry member)
        · exact .inr ⟨id, own', runs⟩
        · exact .inr ⟨id, own', Function.update_self _ _ _⟩
      · refine .inl ⟨mem_eraseIdx_of_ne chosen waits own', now.imp_right ?_⟩
        rintro ⟨id, cpu, runs | queued⟩
        · exact ⟨id, cpu, .inl (runs_on id runs)⟩
        · exact ⟨id, cpu, .inr queued⟩
    · exact .inr ⟨id, cpu, runs_on id runs⟩
  · have time := clock.exit exit last scheduled
    rw [ExitAt, phase] at time
    exact time

end Clockwork

/-! ## Alarms ring -/

omit [Clock Time] in
theorem callBack_running {callback : Option Device} {id : ℕ} :
    (callBack s callback).running id =
      if callback = some (.cpu id) then false else s.running id := by
  obtain _ | (_ | other | _) := callback
  · rfl
  · rfl
  · by_cases same : id = other
    · subst same
      simp [callBack]
    · simp [callBack, same, Ne.symm same]
  · rfl

omit [Clock Time] in
/-- What is outstanding besides an alarm. -/
theorem outstanding_rest {choice : ℕ} {alarm : Alarm Time} (chosen : s.alarms[choice]? = some alarm)
    {event : Event Time} (booked : Outstanding s event) :
    event = alarm.event ∨ (∃ device, (device, event) ∈ s.active) ∨
      ∃ other ∈ s.alarms.eraseIdx choice, other.event = event := by
  have split := perm_eraseIdx chosen
  obtain active | ⟨other, member, rfl⟩ := booked
  · exact .inr (.inl active)
  · obtain rfl | rest := List.mem_cons.mp (split.mem_iff.mpr member)
    · exact .inl rfl
    · exact .inr (.inr ⟨other, rest, rfl⟩)

/-- What the task of an alarm waits for besides. -/
theorem Clockwork.counter_rest (clock : x.Clockwork s arrival) {choice : ℕ} {alarm : Alarm Time}
    (chosen : s.alarms[choice]? = some alarm) : s.counter alarm.event.task - 1 =
      s.active.countP (·.2.task = alarm.event.task) +
        (s.alarms.eraseIdx choice).countP (·.event.task = alarm.event.task) := by
  rw [clock.counted.counts, ← (perm_eraseIdx chosen).countP_eq, List.countP_cons,
    if_pos (decide_eq_true rfl)]
  omega

theorem Rings.moves {alarm : Alarm Time} (rings : x.Rings s arrival alarm)
    (kind : alarm.event.task.kind ≠ .thunk) :
    alarm.time = arrival alarm.event.task + alarm.event.time := by
  unfold Rings at rings
  split at rings
  · exact absurd rings.1 kind
  · exact rings.2

theorem Rings.runs {alarm : Alarm Time} (rings : x.Rings s arrival alarm)
    (kind : alarm.event.task.kind = .thunk) :
    alarm.callback = some (.cpu (x.cpu alarm.event.task)) ∧
      x.Ends s (arrival alarm.event.task) alarm.event.task alarm.time := by
  unfold Rings at rings
  split at rings
  · next back => exact ⟨back.trans (by rw [rings.2.1]), rings.2.2⟩
  · exact absurd kind rings.1

namespace Clockwork

/-- A thunk is done with its only event. -/
theorem counter_eq_one (clock : x.Clockwork s arrival) {event : Event Time}
    (open_ : Outstanding s event) (kind : event.task.kind = .thunk) :
    s.counter event.task = 1 := by
  obtain ⟨scheduled, undone⟩ := clock.open_event open_
  have positive : s.counter event.task ≠ 0 := fun zero =>
    undone ((clock.counted.idle event.task).mp zero scheduled)
  have one := clock.one event.task kind
  omega

/-- The last alarm of a task rings at its end. -/
theorem ends_of_ring (clock : x.Clockwork s arrival) {choice : ℕ} {alarm : Alarm Time}
    (chosen : s.alarms[choice]? = some alarm) (last : s.counter alarm.event.task - 1 = 0) :
    x.Ends s (arrival alarm.event.task) alarm.event.task alarm.time := by
  have member := List.mem_of_getElem? chosen
  have rings := (clock.rings alarm member).1
  obtain ⟨scheduled, undone⟩ := clock.open_event (.inr ⟨alarm, member, rfl⟩)
  by_cases kind : alarm.event.task.kind = .thunk
  · exact (rings.runs kind).2
  · refine ⟨fun _ => ?_, fun thunk => absurd thunk kind⟩
    obtain ⟨event, booked, own, longest⟩ := clock.longest _ scheduled undone kind
    -- the event that takes the longest is the one that is left
    have rest := clock.counter_rest chosen
    rw [last] at rest
    obtain same | ⟨device, active⟩ | ⟨other, ringing, rfl⟩ := outstanding_rest chosen booked
    · rw [rings.moves kind]
      exact same ▸ own ▸ longest
    · have some : 0 < s.active.countP (·.2.task = alarm.event.task) :=
        List.countP_pos_iff.mpr ⟨_, active, decide_eq_true own⟩
      omega
    · have some : 0 < (s.alarms.eraseIdx choice).countP (·.event.task = alarm.event.task) :=
        List.countP_pos_iff.mpr ⟨_, ringing, decide_eq_true own⟩
      omega

/-- In the loop of `complete` another event of the task of an alarm rings no sooner, if there is
one. -/
theorem longest_of_ring (clock : x.Clockwork s arrival) {choice : ℕ} {alarm : Alarm Time}
    (chosen : s.alarms[choice]? = some alarm) (first : Earliest s.alarms alarm.time)
    (waiting : ∀ entry ∈ s.active, ∃ id, entry.1 = .cpu id)
    (kind : alarm.event.task.kind ≠ .thunk) (more : s.counter alarm.event.task - 1 ≠ 0)
    (longest : IsGreatest (x.rings s.numas (arrival alarm.event.task) alarm.event.task)
      (arrival alarm.event.task + alarm.event.time)) :
    ∃ other ∈ s.alarms.eraseIdx choice, other.event.task = alarm.event.task ∧
      IsGreatest (x.rings s.numas (arrival alarm.event.task) alarm.event.task)
        (arrival alarm.event.task + other.event.time) := by
  have member := List.mem_of_getElem? chosen
  rw [clock.counter_rest chosen] at more
  have none : s.active.countP (·.2.task = alarm.event.task) = 0 := by
    refine List.countP_eq_zero.mpr fun entry booked own => ?_
    obtain ⟨id, cpu⟩ := waiting entry booked
    have fitting := clock.fitting entry booked
    rw [Fitting, cpu] at fitting
    exact kind (of_decide_eq_true own ▸ fitting.1)
  rw [none, Nat.zero_add, ← Nat.pos_iff_ne_zero, List.countP_pos_iff] at more
  obtain ⟨other, ringing, own⟩ := more
  have own : other.event.task = alarm.event.task := of_decide_eq_true own
  have inside : other ∈ s.alarms := (List.eraseIdx_sublist _ _).subset ringing
  have late : arrival alarm.event.task + alarm.event.time ≤
      arrival alarm.event.task + other.event.time := by
    have order := first.2 other inside
    rwa [(clock.rings alarm member).1.moves kind, (clock.rings other inside).1.moves (own ▸ kind),
      own] at order
  have listed := (clock.listed other.event (.inr ⟨other, inside, rfl⟩)).2
  rw [own] at listed
  exact ⟨other, ringing, own, ⟨_, listed, rfl⟩, fun time member => (longest.2 member).trans late⟩

/-- An alarm that calls a CPU back ends a thunk. -/
theorem kind_of_back (clock : x.Clockwork s arrival) {alarm : Alarm Time} {id : ℕ}
    (member : alarm ∈ s.alarms) (back : alarm.callback = some (.cpu id)) :
    alarm.event.task.kind = .thunk := by
  have rings := (clock.rings alarm member).1
  rw [Rings, back] at rings
  exact rings.1

/-- The thunk that a CPU runs was scheduled before the one that waits for it. -/
theorem queued_of_rings (clock : x.Clockwork s arrival) {entry : Device × Event Time}
    {alarm : Alarm Time} {id : ℕ} (booked : entry ∈ s.active) (cpu : entry.1 = .cpu id)
    (member : alarm ∈ s.alarms)
    (back : alarm.callback = some (.cpu id)) : x.Queued s entry.2.task alarm.event.task := by
  have rings := (clock.rings alarm member).1
  rw [Rings, back] at rings
  obtain ⟨kind, own, -⟩ := rings
  have fitting := clock.fitting entry booked
  rw [Fitting, cpu] at fitting
  obtain ⟨kind', own'⟩ := fitting
  have scheduled := (clock.open_event (.inr ⟨alarm, member, rfl⟩)).1
  have place := clock.latest entry booked _ scheduled kind' kind (own.trans own'.symm)
  refine ⟨kind, own.trans own'.symm, scheduled, place.lt_of_ne fun same => ?_⟩
  -- a thunk has one event
  have task := Timetable.place_inj scheduled same
  have one := clock.one entry.2.task kind'
  have waits : 0 < s.active.countP (·.2.task = entry.2.task) :=
    List.countP_pos_iff.mpr ⟨entry, booked, decide_eq_true rfl⟩
  have ringing : 0 < s.alarms.countP (·.event.task = entry.2.task) :=
    List.countP_pos_iff.mpr ⟨alarm, member, decide_eq_true task⟩
  rw [clock.counted.counts] at one
  omega

theorem ring (clock : x.Clockwork s arrival) (policy : x.initPage = .firstTouch) {choice : ℕ}
    (move : x.step s (.ring choice) = some s') : x.Clockwork s' arrival := by
  have settled := clock.settled.step (drawsOwn_of_firstTouch policy) move
  obtain ⟨earliest, last, finished, alarm, phase, chosen, first, goes, rfl⟩ := step_ring move
  have done : s.done = finished ++ s.logged := by rw [State.done, phase]
  have member := List.mem_of_getElem? chosen
  have inside : ∀ other ∈ s.alarms.eraseIdx choice, other ∈ s.alarms := fun other inside =>
    (List.eraseIdx_sublist _ _).subset inside
  obtain ⟨rings, late⟩ := clock.rings alarm member
  have waiting := clock.phase
  rw [Punctual, phase] at waiting
  obtain ⟨ready, active, above, order⟩ := waiting
  have rung := (done ▸ clock.counted).ring chosen (.complete earliest (some alarm.time)
    (if s.counter alarm.event.task - 1 = 0 then finished ++ [alarm.event.task] else finished))
  have only : alarm.event.task.kind = .thunk → s.counter alarm.event.task - 1 = 0 := fun kind => by
    rw [clock.counter_eq_one (.inr ⟨alarm, member, rfl⟩) kind]
  have runs : ∀ id, (callBack s alarm.callback).running id =
      if alarm.callback = some (.cpu id) then false else s.running id := fun id => callBack_running
  rw [callBack_eq] at settled rung ⊢
  generalize (callBack s alarm.callback).running = running at settled rung runs ⊢
  refine
    { tracked := clock.tracked.frame rfl rfl rfl rfl
      counted := rung.perm ?_
      settled := settled
      table := Keeps.timetable (s := s) ⟨rfl, rfl, rfl⟩ clock.table
      now := clock.now
      log := clock.log
      ready := clock.ready
      fitting := clock.fitting
      listed := fun event booked => clock.listed event ?_
      longest := fun task scheduled undone kind => ?_
      latest := clock.latest
      rings := fun other member => ?_
      one := fun task kind => ?_
      waits := clock.waits
      rung := fun id => ?_
      phase := ⟨ready, fun entry booked => ?_,
        fun other member => above other (inside other member), above alarm member,
        fun other member => first.2 other (inside other member), ?_,
        fun task ended => ?_⟩
      exit := fun exit final scheduled => ?_ }
  · show List.Perm _ ((if _ then _ else _) ++ s.logged)
    split_ifs
    · rw [List.append_assoc]
      exact List.perm_middle.symm
    · rfl
  · obtain waits | ⟨other, ringing, same⟩ := booked
    · exact .inl waits
    · exact .inr ⟨other, inside other ringing, same⟩
  · have undone' : task ∉ (if s.counter alarm.event.task - 1 = 0
        then finished ++ [alarm.event.task] else finished) ++ s.logged := undone
    have before : task ∉ s.done := by
      rw [done]
      refine fun ended => undone' ?_
      split_ifs
      · rw [List.append_assoc]
        exact (List.mem_append.mp ended).elim (List.mem_append_left _)
          fun logged => List.mem_append_right _ (List.mem_append_right _ logged)
      · exact ended
    obtain ⟨event, booked, own, longest⟩ := clock.longest task scheduled before kind
    obtain rfl | active | ringing := outstanding_rest chosen booked
    · subst own
      have more : s.counter alarm.event.task - 1 ≠ 0 := fun last => by
        rw [if_pos last] at undone'
        exact undone' (List.mem_append_left _ (List.mem_append_right _
          (List.mem_singleton_self _)))
      obtain ⟨other, ringing, same, longest⟩ := clock.longest_of_ring chosen first
        (fun entry booked => (active entry booked).imp fun _ => And.left) kind more longest
      exact ⟨other.event, .inr ⟨other, ringing, rfl⟩, same, longest⟩
    · exact ⟨event, .inl active, own, longest⟩
    · exact ⟨event, .inr ringing, own, longest⟩
  · obtain ⟨rings, late⟩ := clock.rings other (inside other member)
    exact ⟨Keeps.rings (s := s) ⟨rfl, rfl, rfl⟩ rings, late⟩
  · have one := clock.one task kind
    show Function.update s.counter _ _ task ≤ 1
    rw [Function.update_apply]
    split_ifs with same
    · subst same
      omega
    · exact one
  · -- an alarm that calls a CPU back is the only one to do so
    have before := clock.rung id
    rw [← (perm_eraseIdx chosen).countP_eq, List.countP_cons] at before
    show (s.alarms.eraseIdx choice).countP _ ≤ if running id = true then 1 else 0
    rw [runs id]
    by_cases back : alarm.callback = some (.cpu id)
    · rw [if_pos (decide_eq_true back)] at before
      rw [if_pos back, if_neg Bool.false_ne_true]
      split_ifs at before <;> omega
    · rw [if_neg (by simpa using back)] at before
      rw [if_neg back]
      exact before
  · obtain ⟨id, cpu, waits⟩ := active entry booked
    refine ⟨id, cpu, ?_⟩
    show running id = true ∨ ∃ other ∈ (if s.counter alarm.event.task - 1 = 0
      then finished ++ [alarm.event.task] else finished), x.Queued s entry.2.task other
    obtain stays | ⟨other, ended, queued⟩ := waits
    · rw [runs id]
      split_ifs with back last
      · -- the thunk that ends was scheduled before the one that waits
        refine .inr ⟨alarm.event.task, List.mem_append_right _ (List.mem_singleton_self _), ?_⟩
        exact clock.queued_of_rings booked cpu member back
      · exact absurd (only (clock.kind_of_back member back)) last
      · exact .inl stays
      · exact .inl stays
    · refine .inr ⟨other, ?_, queued⟩
      split_ifs
      · exact List.mem_append_left _ ended
      · exact ended
  · obtain never | later := late
    · refine .inr ⟨never, ?_⟩
      -- only the alarm of a thunk has no time
      have thunk : alarm.event.task.kind = .thunk := by
        by_contra kind
        have start := (clock.arrival_bounds (clock.open_event (.inr ⟨alarm, member, rfl⟩)).1).1
        have span := (clock.listed alarm.event (.inr ⟨alarm, member, rfl⟩)).1
        have time : 0 ≤ alarm.time := by
          rw [rings.moves kind]
          exact add_nonneg start span
        exact Clock.ne_bot_of_nonneg time never
      show (if s.counter alarm.event.task - 1 = 0 then finished ++ [alarm.event.task]
        else finished) ≠ []
      rw [if_pos (only thunk)]
      exact List.append_ne_nil_of_right_ne_nil _ (List.cons_ne_nil _ _)
    · exact .inl later
  · have ended' : task ∈ (if s.counter alarm.event.task - 1 = 0 then finished ++ [alarm.event.task]
        else finished) := ended
    refine Keeps.ends (s := s) ⟨rfl, rfl, rfl⟩ ?_
    by_cases before : task ∈ finished
    · -- once something is finished only the alarms of the same time ring
      have now := goes.resolve_right (List.ne_nil_of_mem before)
      cases last with
      | none =>
        rw [show finished = [] from order] at before
        exact absurd before List.not_mem_nil
      | some time =>
        obtain ⟨later, least, -, ends⟩ := order
        have same : alarm.time = time := le_antisymm (now.trans_le later) (least alarm member)
        exact same ▸ ends task before
    · split_ifs at ended' with last
      · obtain rfl := List.mem_singleton.mp ((List.mem_append.mp ended').resolve_left before)
        exact clock.ends_of_ring chosen last
      · exact absurd ended' before
  · have time := clock.exit exit final scheduled
    rw [ExitAt, phase] at time
    exact time

end Clockwork

/-! ## Tasks are completed -/

omit [Clock Time] in
theorem queued_congr (scheduled : s'.scheduled = s.scheduled) : x.Queued s' = x.Queued s := by
  funext task other
  rw [Queued, Queued, State.place, State.place, State.place, State.place, scheduled]

/-- Some tasks are completed, and the schedule stays as it is. -/
structure Completes (s s' : State Time) (finished : List Task) (last : Time) : Prop where
  scheduled : s'.scheduled = s.scheduled
  numas : s'.numas = s.numas
  log : ∀ entry, entry ∈ s'.log ↔ entry.1 ∈ finished ∧ entry.2 = last ∨ entry ∈ s.log
  fresh : ∀ task ∈ finished, task ∉ s.logged

namespace Completes

variable {finished : List Task} {last : Time} (completes : Completes s s' finished last)

include completes

omit [Clock Time] in
theorem logged : task ∈ s'.logged ↔ task ∈ finished ∨ task ∈ s.logged := by
  simp only [State.logged, List.mem_map]
  constructor
  · rintro ⟨entry, member, rfl⟩
    obtain ⟨new, -⟩ | old := (completes.log entry).mp member
    · exact .inl new
    · exact .inr ⟨entry, old, rfl⟩
  · rintro (new | ⟨entry, old, rfl⟩)
    · exact ⟨(task, last), (completes.log _).mpr (.inl ⟨new, rfl⟩), rfl⟩
    · exact ⟨entry, (completes.log entry).mpr (.inr old), rfl⟩

omit [Clock Time] in
/-- What was done before is done when it was. -/
theorem old (logged : task ∈ s.logged) : (task, time) ∈ s'.log ↔ (task, time) ∈ s.log :=
  (completes.log _).trans (or_iff_right fun new => completes.fresh _ new.1 logged)

/-- The end of a task stays where it is when others are completed. -/
theorem ends {arrival : Time} (ends : x.Ends s arrival task time) :
    x.Ends s' arrival task time := by
  have queued : x.Queued s' = x.Queued s := queued_congr completes.scheduled
  refine ⟨fun moves => completes.numas ▸ ends.moves moves, fun thunk => ?_⟩
  obtain ⟨front, start, first, same⟩ := ends.runs thunk
  refine ⟨fun other queue => completes.logged.mpr (.inr (front other (queued ▸ queue))), start, ?_,
    same⟩
  rw [starts, queued]
  have same : ∀ time, (∃ other, x.Queued s task other ∧ (other, time) ∈ s'.log) ↔
      ∃ other, x.Queued s task other ∧ (other, time) ∈ s.log := fun time =>
    exists_congr fun other => and_congr_right fun queue => completes.old (front other queue)
  simp only [same]
  exact first

theorem timetable (table : x.Timetable s arrival)
    (ended : ∀ task ∈ finished, x.Ends s (arrival task) task last) : x.Timetable s' arrival where
  inside := completes.scheduled ▸ table.inside
  single task time time' entry entry' := by
    rw [completes.log] at entry entry'
    obtain ⟨new, rfl⟩ | entry := entry
    · obtain ⟨-, rfl⟩ | entry' := entry'
      · rfl
      · exact absurd (List.mem_map_of_mem entry') (completes.fresh task new)
    · obtain ⟨new, -⟩ | entry' := entry'
      · exact absurd (List.mem_map_of_mem entry) (completes.fresh task new)
      · exact table.single task time time' entry entry'
  front := by
    simp only [State.place, completes.scheduled]
    intro task scheduled other edge
    obtain ⟨logged, before⟩ := table.front task scheduled other edge
    exact ⟨completes.logged.mpr (.inr logged), before⟩
  arrives := by
    rw [completes.scheduled]
    intro task scheduled
    -- what a task waited for was done before it was scheduled
    have same : ∀ time, (∃ other ∈ x.prog.predecessors task, (other, time) ∈ s'.log) ↔
        ∃ other ∈ x.prog.predecessors task, (other, time) ∈ s.log := fun time =>
      exists_congr fun other => and_congr_right fun edge =>
        completes.old (table.front task scheduled other edge).1
    simp only [arrivals, same]
    exact table.arrives task scheduled
  sorted := by
    simp only [State.place, completes.scheduled]
    exact table.sorted
  ends task time entry := by
    obtain ⟨new, rfl⟩ | old := (completes.log _).mp entry
    · exact completes.ends (ended task new)
    · exact completes.ends (table.ends task time old)
  home := by
    simp only [State.place, completes.scheduled, completes.numas]
    exact table.home
  page := by
    simp only [State.place, completes.scheduled, completes.numas]
    exact table.page
  cpu := by
    rw [completes.scheduled, queued_congr completes.scheduled]
    exact table.cpu

theorem rings {alarm : Alarm Time} (rings : x.Rings s arrival alarm) :
    x.Rings s' arrival alarm := by
  unfold Rings at rings ⊢
  split at rings
  · exact ⟨rings.1, rings.2.1, completes.ends rings.2.2⟩
  · exact rings

end Completes

namespace Clockwork

/-- Tasks that were held back by a finished one are ready at its time. -/
theorem release (clock : x.Clockwork s arrival) (policy : x.initPage = .firstTouch)
    (move : x.step s .release = some s') :
    s'.Stopped ∨ x.Clockwork s' arrival := by
  have settled := clock.settled.step (drawsOwn_of_firstTouch policy) move
  obtain ⟨earliest, last, finished, phase, -, ⟨-, rfl⟩ | ⟨-, -, -, rfl⟩ | ⟨start, -, rfl⟩⟩ :=
    step_release move
  · exact .inl trivial
  · exact .inl trivial
  have done : s.done = finished ++ s.logged := by rw [State.done, phase]
  have counted : x.Counted s (finished ++ s.logged) := done ▸ clock.counted
  have waiting := clock.phase
  rw [Punctual, phase] at waiting
  obtain ⟨empty, active, -, -, least, late, ends⟩ := waiting
  have later : s.now ≤ last := late.resolve_right fun never =>
    Clock.ne_bot_of_nonneg start never.1
  have scheduled : ∀ task ∈ finished, task ∈ s.scheduled := fun task member =>
    counted.known task (List.mem_append_left _ member)
  have clocked : x.Tracked { s with now := last } := clock.tracked.frame rfl rfl rfl rfl
  have tracked : x.Tracked (finished.foldl x.release { s with now := last }) :=
    clocked.foldl_release scheduled counted.once
  obtain ⟨wait, ready, released⟩ : ∃ wait ready,
      finished.foldl x.release { s with now := last } =
      { s with
        now := last
        log := (finished.map fun task => (task, last)).reverse ++ s.log
        wait := wait
        ready := ready } := foldl_release
  rw [released] at tracked settled ⊢
  right
  generalize after : ({ s with
    now := last
    log := (finished.map fun task => (task, last)).reverse ++ s.log
    wait := wait
    ready := ready
    phase := .test } : State Time) = s₁ at settled ⊢
  have completes : Completes s s₁ finished last := by
    subst after
    refine ⟨rfl, rfl, fun entry => ?_, fun task member logged =>
      (List.nodup_append.mp counted.once).2.2 task member task logged rfl⟩
    rw [List.mem_append, List.mem_reverse, List.mem_map]
    refine or_congr_left ⟨?_, ?_⟩
    · rintro ⟨task, new, rfl⟩
      exact ⟨new, rfl⟩
    · rintro ⟨new, same⟩
      exact ⟨entry.1, new, Prod.ext rfl same.symm⟩
  have logged : s₁.done = finished.reverse ++ s.logged := by
    subst after
    rw [State.done, State.logged, List.map_append, List.map_reverse, List.map_map, State.logged]
    exact congrArg (List.reverse · ++ _) (List.map_id _)
  have tracked₁ : x.Tracked s₁ := by
    subst after
    exact tracked.frame rfl rfl rfl rfl
  have undone : ∀ task, task ∉ s₁.done → task ∉ s.done := by
    intro task
    rw [logged, done, List.mem_append, List.mem_append, List.mem_reverse]
    exact id
  -- nothing was ready, so a task that is ready now waited for one that has just been finished
  have readied : ∀ task ∈ s₁.ready, last ∈ x.arrivals s₁ task := by
    intro task member
    have inside := tracked₁.inside task (.inl member)
    have through := (tracked₁.enabled task inside).mp (.inl member)
    by_contra old
    have before : ∀ other ∈ x.prog.predecessors task, other ∈ s.logged := fun other edge =>
      (completes.logged.mp (through other edge)).resolve_left fun new =>
        old (.inr ⟨other, edge, (completes.log _).mpr (.inl ⟨new, rfl⟩)⟩)
    obtain waiting | started := (clock.tracked.enabled task inside).mpr before
    · rw [empty] at waiting
      exact absurd waiting List.not_mem_nil
    · exact tracked₁.fresh task member (completes.scheduled ▸ started)
  subst after
  exact
    { tracked := tracked₁
      counted := by
        rw [logged]
        exact (counted.perm ((List.reverse_perm _).symm.append_right _)).frame rfl rfl rfl rfl rfl
      settled := settled
      table := completes.timetable clock.table ends
      now := start
      log := fun entry member => by
        obtain ⟨-, same⟩ | old := (completes.log entry).mp member
        · exact same.le
        · exact (clock.log entry old).trans later
      ready := readied
      fitting := clock.fitting
      listed := clock.listed
      longest := fun task scheduled open_ => clock.longest task scheduled (undone task open_)
      latest := clock.latest
      rings := fun alarm member =>
        ⟨completes.rings (clock.rings alarm member).1, .inr (least alarm member)⟩
      one := clock.one
      waits := clock.waits
      rung := clock.rung
      phase := fun entry member => by
        obtain ⟨id, cpu, runs | ⟨other, ended, queue⟩⟩ := active entry member
        · exact ⟨id, cpu, .inl runs⟩
        · refine ⟨id, cpu, .inr ⟨other, ?_, (completes.log _).mpr (.inl ⟨ended, rfl⟩)⟩⟩
          exact queued_congr (s := s) (x := x) rfl ▸ queue
      exit := fun exit final scheduled => by
        have time := clock.exit exit final scheduled
        rw [ExitAt, phase] at time
        exact time }

end Clockwork

end Execution

end Tthread.Racksim
