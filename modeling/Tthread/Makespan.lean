/-
# How long a program takes at least

Whatever is popped from the sets, and wherever pages are placed, the simulator respects the
order of the program and runs one thunk at a time on a CPU. So a run takes at least as long as
the thunks on any path through the program, and as long as all thunks of any CPU. And a CPU
does not stand while a thunk that could run on it has yet to.
-/

import Tthread.Completion

namespace Tthread.Racksim

namespace Execution

variable {Time : Type} [Clock Time] {x : Execution Time} {s s' : State Time} {task other : Task}
  {time : Time}

/-- No thunk takes a negative time. -/
def Forward (x : Execution Time) : Prop := ∀ t ∈ x.prog.thunks, 0 ≤ (x.prog.data t).cputime

/-- What a CPU does for a task. -/
def work (x : Execution Time) (task : Task) : Time :=
  match task.kind with
  | .thunk => (x.prog.data task.tid).cputime
  | _ => 0

/-- The CPU that runs a task. -/
def runsOn (x : Execution Time) (task : Task) (id : ℕ) : Prop :=
  task.kind = .thunk ∧ (x.prog.data task.tid).cpu = id

instance (x : Execution Time) (task : Task) (id : ℕ) : Decidable (x.runsOn task id) :=
  inferInstanceAs (Decidable (_ ∧ _))

/-- A task has to be done before another one can run: it is in front of it in the program, or
both run on one CPU. -/
def Blocks (x : Execution Time) (task other : Task) : Prop :=
  task ∈ x.prog.predecessors other ∨ ∃ id, x.runsOn task id ∧ x.runsOn other id

/-- A task was done no earlier than another one, which it is not in front of, and only after its
own work if that one blocks it. -/
structure Follows (x : Execution Time) (late early : Task × Time) : Prop where
  le : early.2 ≤ late.2
  behind : late.1 ∉ x.prog.predecessors early.1
  leaves : x.Blocks early.1 late.1 → early.2 + x.work late.1 ≤ late.2

/-! ## The clock -/

/-- What holds in a phase. Behind the round in which the last task was scheduled everything else is
done since the beginning of that round. -/
def OnClock (x : Execution Time) (s : State Time) : Prop :=
  match s.phase with
  | .test => ∀ exit, x.prog.exit = some exit → exit ∈ s.scheduled →
      ∀ entry ∈ s.log, entry.1 ≠ exit → entry.2 ≤ s.time
  | .schedule | .raised _ | .debugging => True
  | .progress todo => s.ready = [] ∧ s.time = s.now ∧
      ∀ entry ∈ s.active, ∀ id, entry.1 = .cpu id → .cpu id ∈ todo ∨ s.running id = true
  | .complete _ none finished => s.ready = [] ∧ s.time = s.now ∧ finished = [] ∧
      ∀ entry ∈ s.active, ∀ id, entry.1 = .cpu id → s.running id = true
  | .complete _ (some last) finished => s.time = s.now ∧ s.now ≤ last ∧
      (∀ alarm ∈ s.alarms, last ≤ alarm.time) ∧
      (∀ task ∈ finished, ∀ entry ∈ s.log, x.Blocks entry.1 task →
        entry.2 + x.work task ≤ last) ∧
      (∀ task ∈ finished, ∀ id, x.runsOn task id → s.running id = false) ∧
      finished.Pairwise fun task other => ∀ id, x.runsOn task id → ¬ x.runsOn other id
  | .returned time => (∀ task ∈ x.prog.tasks, task.kind ≠ .commit → task ∈ s.logged) ∧
      ∀ entry ∈ s.log, entry.1.kind ≠ .commit → entry.2 ≤ time

/-- The events of thunks, and only these, are on the CPUs, which run one at a time; an alarm leaves
time for the work of its task after what blocks it. -/
structure Clocked (x : Execution Time) (s : State Time) : Prop where
  tracked : x.Tracked s
  counted : x.Counted s s.done
  now : 0 ≤ s.now
  past : ∀ entry ∈ s.log, 0 ≤ entry.2 ∧ entry.2 ≤ s.now
  order : s.log.Pairwise x.Follows
  times : ∀ entry ∈ s.active, 0 ≤ entry.2.time
  booked : ∀ entry ∈ s.active, ∀ id, entry.1 = .cpu id ↔ x.runsOn entry.2.task id
  rings : ∀ alarm ∈ s.alarms, s.now ≤ alarm.time ∧
    ∀ id, alarm.callback = some (.cpu id) ↔ x.runsOn alarm.event.task id
  leaves : ∀ alarm ∈ s.alarms, ∀ entry ∈ s.log, x.Blocks entry.1 alarm.event.task →
    entry.2 + x.work alarm.event.task ≤ alarm.time
  alone : ∀ id, s.alarms.countP (fun alarm => alarm.callback = some (.cpu id)) =
    if s.running id then 1 else 0
  phase : x.OnClock s

theorem Clocked.known (clock : x.Clocked s) : ∀ task ∈ s.logged, task ∈ s.scheduled :=
  fun task member => clock.counted.known task (List.mem_append_right _ member)

/-- A CPU with an alarm runs. -/
theorem Clocked.runs (clock : x.Clocked s) {alarm : Alarm Time} (member : alarm ∈ s.alarms)
    {id : ℕ} (on : x.runsOn alarm.event.task id) : s.running id = true := by
  have back := ((clock.rings alarm member).2 id).mpr on
  have positive : 0 < s.alarms.countP fun alarm => alarm.callback = some (.cpu id) :=
    List.countP_pos_iff.mpr ⟨alarm, member, decide_eq_true back⟩
  rw [clock.alone id] at positive
  by_contra stands
  rw [if_neg stands] at positive
  exact Nat.lt_irrefl 0 positive

omit [Clock Time] in
/-- An event on a device is of a task that has been scheduled and is not done. -/
theorem Counted.open_entry {done : List Task} (counted : x.Counted s done)
    {entry : Device × Event Time} (member : entry ∈ s.active) :
    entry.2.task ∈ s.scheduled ∧ entry.2.task ∉ done := by
  have positive : s.counter entry.2.task ≠ 0 := by
    rw [counted.counts, Nat.ne_zero_iff_zero_lt]
    exact Nat.add_pos_left (List.countP_pos_iff.mpr ⟨entry, member, decide_eq_true rfl⟩) _
  rw [Ne, counted.idle] at positive
  exact Classical.not_imp.mp positive

/-- Going on to another phase changes nothing else. -/
theorem Clocked.rephase (clock : x.Clocked s) {phase : Phase Time} {time : Time}
    (done : State.done { s with phase := phase, time := time } = s.done)
    (ok : x.OnClock { s with phase := phase, time := time }) :
    x.Clocked { s with phase := phase, time := time } where
  tracked := clock.tracked.frame rfl rfl rfl rfl
  counted := by
    rw [done]
    exact clock.counted.frame rfl rfl rfl rfl rfl
  now := clock.now
  past := clock.past
  order := clock.order
  times := clock.times
  booked := clock.booked
  rings := clock.rings
  leaves := clock.leaves
  alone := clock.alone
  phase := ok

theorem Clocked.test (clock : x.Clocked s) (sink : x.prog.SingleSink)
    (move : x.step s .test = some s') : x.Clocked s' := by
  obtain ⟨phase, ⟨-, rfl⟩ | ⟨through, ready, rfl⟩⟩ := step_test move
  · exact clock.rephase (by rw [State.done, State.done, phase]; rfl) trivial
  · refine clock.rephase (by rw [State.done, State.done, phase]; rfl) ?_
    obtain ⟨exit, last, inside, commit, behind⟩ := Programm.exit_eq sink
    rw [last, Option.map_some, Option.getD_some] at through
    have scheduled : exit ∈ s.scheduled := by
      have enabled := (clock.tracked.wait_eq_zero inside).mp through
      rw [ready] at enabled
      exact enabled.resolve_left List.not_mem_nil
    have early := clock.phase
    rw [OnClock, phase] at early
    have apart : ∀ task : Task, task.kind ≠ .commit → task ≠ exit :=
      fun task other same => other (same ▸ commit)
    exact ⟨fun task inside other =>
        clock.tracked.others clock.known behind (.inr scheduled) task inside (apart task other),
      fun entry member other => early exit last scheduled entry member (apart _ other)⟩

theorem Clocked.start (clock : x.Clocked s) (move : x.step s .start = some s') :
    x.Clocked s' := by
  obtain ⟨phase, ready, rfl⟩ := step_start move
  refine clock.rephase (by rw [State.done, State.done, phase]; rfl) ⟨ready, rfl, ?_⟩
  intro entry member id cpu
  exact .inl (cpu ▸ clock.counted.devices entry member)

theorem Clocked.complete (clock : x.Clocked s) (move : x.step s .complete = some s') :
    x.Clocked s' := by
  obtain ⟨phase, ⟨-, rfl⟩ | ⟨earliest, -, rfl⟩⟩ := step_complete move
  · exact clock.rephase (by rw [State.done, State.done, phase]; rfl) trivial
  · refine clock.rephase (by rw [State.done, State.done, phase]; rfl) ?_
    have going := clock.phase
    rw [OnClock, phase] at going
    obtain ⟨ready, time, active⟩ := going
    -- all devices have been visited
    exact ⟨ready, time, rfl, fun entry member id cpu =>
      (active entry member id cpu).resolve_left List.not_mem_nil⟩

/-! ## What a task is booked with -/

/-- Fetches and commits are not booked on CPUs, and a thunk on its own only. -/
theorem schedule_cpu {draw : ℕ → ℕ} (scheduled : x.schedule draw task s = .ok s') :
    ∀ entry ∈ s'.active, entry ∈ s.active ∨
      entry.2.task = task ∧ ∀ id, entry.1 = .cpu id ↔ x.runsOn task id := by
  have moved : ∀ entries : List (Device × Event Time), task.kind ≠ .thunk →
      (∀ entry ∈ entries, entry.2.task = task ∧ ∀ id, entry.1 ≠ .cpu id) →
        ∀ entry ∈ s.active ++ entries, entry ∈ s.active ∨
          entry.2.task = task ∧ ∀ id, entry.1 = .cpu id ↔ x.runsOn task id := by
    intro entries other booked entry member
    obtain old | new := List.mem_append.mp member
    · exact .inl old
    · exact .inr ⟨(booked entry new).1, fun id =>
        iff_of_false ((booked entry new).2 id) fun on => other on.1⟩
  have links : ∀ {own : ℕ} {moves : List (Device × Event Time)}, x.BooksLinks task moves →
      ∀ entry ∈ moves ++ [(.numa own, ⟨task, 0⟩)],
        entry.2.task = task ∧ ∀ id, entry.1 ≠ .cpu id := by
    intro own moves booked entry member
    obtain move | last := List.mem_append.mp member
    · obtain ⟨same, ⟨link, -, device⟩, -⟩ := booked entry move
      exact ⟨same, fun id cpu => by rw [device] at cpu; cases cpu⟩
    · obtain rfl := List.mem_singleton.mp last
      exact ⟨rfl, fun id cpu => by cases cpu⟩
  simp only [schedule] at scheduled
  split at scheduled
  · next comm =>
    obtain ⟨own, -, scheduled⟩ := Folds.bind_ok.mp scheduled
    obtain ⟨moves, same, booked⟩ := scheduleComm_booked comm scheduled
    rw [same]
    exact moved _ (by rw [comm]; decide) (links booked)
  · next thunk =>
    split_ifs at scheduled
    obtain rfl := Except.ok.inj scheduled
    intro entry member
    obtain old | new := List.mem_append.mp member
    · exact .inl old
    · obtain rfl := List.mem_singleton.mp new
      refine .inr ⟨rfl, fun id => ?_⟩
      rw [Device.cpu.injEq]
      exact ⟨fun same => ⟨thunk, same⟩, fun on => on.2⟩
  · next commit _ =>
    obtain ⟨own, -, scheduled⟩ := Folds.bind_ok.mp scheduled
    obtain ⟨-, ways, rfl⟩ := (scheduleCommit_ok commit).mp scheduled
    exact moved _ (by rw [commit]; decide) (links (booksLinks_moves ways))
  · obtain rfl := Except.ok.inj scheduled
    exact fun entry member => .inl member

theorem Clocked.pop (clock : x.Clocked s) (noMove : x.commit = .noMove)
    (lengths : x.arch.Unsigned) {choice : ℕ} {draw : ℕ → ℕ}
    (move : x.step s (.pop choice draw) = some s') : x.Clocked s' := by
  obtain ⟨task, phase, ready, ⟨message, -, rfl⟩ | scheduled⟩ := step_pop move
  · exact clock.rephase (by rw [State.done, State.done, phase]; rfl) trivial
  have fresh := clock.tracked.fresh task (List.mem_of_getElem? ready)
  have same : s.done = s.logged := by rw [State.done, phase]; rfl
  have counted : x.Counted s s.logged := same ▸ clock.counted
  have cpu := schedule_cpu scheduled
  obtain ⟨entries, booked, books, some⟩ := schedule_booked scheduled
  have phase' : s'.phase = .schedule := by rw [booked]; exact phase
  have log' : s'.log = s.log := by rw [booked]; rfl
  have logged' : s'.logged = s.logged := by rw [State.logged, log', ← State.logged]
  have done' : s'.done = s.logged := by rw [State.done, phase', logged']; rfl
  have now' : s'.now = s.now := by rw [booked]; rfl
  have alarms' : s'.alarms = s.alarms := by rw [booked]; rfl
  have running' : s'.running = s.running := by rw [booked]; rfl
  refine ⟨?_, ?_, ?_, ?_, ?_, ?_, ?_, ?_, ?_, ?_, ?_⟩
  · rw [booked]
    exact clock.tracked.pop ready
  · rw [done', booked]
    exact counted.booked fresh books (some (.inl noMove)) _ _
  · exact now' ▸ clock.now
  · rw [log', now']
    exact clock.past
  · exact log' ▸ clock.order
  · rw [booked]
    exact List.forall_mem_append.mpr ⟨clock.times, fun entry new => (books entry new).2.2 lengths⟩
  · intro entry member id
    obtain old | ⟨own, on⟩ := cpu entry member
    · exact clock.booked entry old id
    · rw [own]
      exact on id
  · rw [alarms', now']
    exact clock.rings
  · rw [alarms', log']
    exact clock.leaves
  · rw [alarms', running']
    exact clock.alone
  · rw [OnClock, phase']
    trivial

/-! ## Devices and alarms -/

/-- A CPU that takes an event runs, and has one alarm more. -/
theorem visit_alone {device : Device} {event : ℕ} (visited : x.visit s device event = some s')
    (alone : ∀ id, s.alarms.countP (fun alarm => alarm.callback = some (.cpu id)) =
      if s.running id then 1 else 0) :
    ∀ id, s'.alarms.countP (fun alarm => alarm.callback = some (.cpu id)) =
      if s'.running id then 1 else 0 := by
  intro id
  obtain ⟨rfl, -⟩ | ⟨link, rfl, -, rfl⟩ | ⟨domain, rfl, taken⟩ |
    ⟨cpu, after, rfl, stands, taken, rfl⟩ := visit_cases visited
  · exact alone id
  · have none : ((s.active.filter fun entry => entry.1 = .link link).map fun entry =>
        x.alarm s.time (.link link) entry.2).countP
          (fun alarm => alarm.callback = some (.cpu id)) = 0 := by
      refine List.countP_eq_zero.mpr fun alarm member => ?_
      obtain ⟨entry, -, rfl⟩ := List.mem_map.mp member
      rw [decide_eq_true_eq, alarm]
      exact (Option.some_ne_none _).symm
    rw [takeAll, List.countP_append, none, Nat.zero_add]
    exact alone id
  · obtain ⟨entry, -, rfl⟩ := take_cases taken
    rw [List.countP_cons_of_neg]
    · exact alone id
    · rw [decide_eq_true_eq, alarm, Option.some.injEq]
      exact fun same => by cases same
  · obtain ⟨entry, -, rfl⟩ := take_cases taken
    show List.countP _ (_ :: s.alarms) = if Function.update s.running cpu true id then 1 else 0
    by_cases here : id = cpu
    · subst here
      rw [Function.update_self, List.countP_cons_of_pos, alone id, stands]
      · rfl
      · exact decide_eq_true rfl
    · rw [Function.update_of_ne here, List.countP_cons_of_neg, alone id]
      rw [decide_eq_true_eq, alarm, Option.some.injEq, Device.cpu.injEq]
      exact fun same => here same.symm

/-- A CPU that was visited runs if an event is left for it, and one that runs goes on. -/
theorem visit_running {device : Device} {event : ℕ} (visited : x.visit s device event = some s') :
    (∀ id, s.running id = true → s'.running id = true) ∧
      ∀ entry ∈ s'.active, ∀ id, entry.1 = .cpu id → device = .cpu id → s'.running id = true := by
  obtain ⟨rfl, idle | ⟨id, rfl, runs⟩⟩ | ⟨link, rfl, -, rfl⟩ | ⟨domain, rfl, taken⟩ |
    ⟨cpu, after, rfl, stands, taken, rfl⟩ := visit_cases visited
  · exact ⟨fun _ runs => runs, fun entry member id cpu same =>
      absurd (cpu.trans same.symm) (idle entry member)⟩
  · refine ⟨fun _ runs => runs, fun entry member other cpu same => ?_⟩
    cases same
    exact runs
  · exact ⟨fun _ runs => runs, fun _ _ _ _ same => by cases same⟩
  · obtain ⟨entry, -, rfl⟩ := take_cases taken
    exact ⟨fun _ runs => runs, fun _ _ _ _ same => by cases same⟩
  · obtain ⟨entry, -, rfl⟩ := take_cases taken
    refine ⟨fun id runs => ?_, fun _ _ id _ same => ?_⟩
    · show Function.update s.running cpu true id = true
      by_cases here : id = cpu
      · rw [here, Function.update_self]
      · rw [Function.update_of_ne here]
        exact runs
    · cases same
      exact Function.update_self _ _ _

theorem work_eq_zero (other : task.kind ≠ .thunk) : x.work task = 0 := by
  rw [work]
  split
  · next thunk => exact absurd thunk other
  · rfl

/-- The alarm of an event leaves time for the work of its task from now on. -/
theorem alarm_leaves (forward : x.Forward) {device : Device} {event : Event Time}
    (late : 0 ≤ event.time) (inside : event.task ∈ x.prog.tasks)
    (on : ∀ id, device = .cpu id ↔ x.runsOn event.task id) :
    s.time ≤ (x.alarm s.time device event).time ∧
      s.time + x.work event.task ≤ (x.alarm s.time device event).time ∧
      ∀ id, (x.alarm s.time device event).callback = some (.cpu id) ↔ x.runsOn event.task id := by
  have idle : (∀ id, device ≠ .cpu id) → x.work event.task = 0 := fun other =>
    work_eq_zero fun thunk => other _ ((on _).mpr ⟨thunk, rfl⟩)
  cases device with
  | link id =>
    have ends : s.time ≤ (x.alarm s.time (.link id) event).time :=
      le_add_of_nonneg_right late
    refine ⟨ends, ?_, fun other => ?_⟩
    · rw [idle fun _ => Device.noConfusion, add_zero]
      exact ends
    · rw [← on]
      exact iff_of_false (Option.some_ne_none _).symm Device.noConfusion
  | numa id =>
    refine ⟨le_rfl, ?_, fun other => ?_⟩
    · rw [idle fun _ => Device.noConfusion, add_zero]
      exact le_rfl
    · rw [← on, alarm, Option.some.injEq]
  | cpu id =>
    have thunk := ((on id).mp rfl).1
    have runs : x.work event.task = (x.prog.data event.task.tid).cputime := by rw [work, thunk]
    refine ⟨?_, ?_, fun other => ?_⟩
    · exact le_add_of_nonneg_right (forward _ (Programm.mem_tasks.mp inside))
    · rw [runs]
      exact le_rfl
    · rw [← on, alarm, Option.some.injEq]

theorem Clocked.visit (clock : x.Clocked s) (forward : x.Forward) {choice event : ℕ}
    (move : x.step s (.visit choice event) = some s') : x.Clocked s' := by
  obtain ⟨todo, device, after, phase, chosen, visited, rfl⟩ := step_visit move
  have same : s.done = s.logged := by rw [State.done, phase]; rfl
  have counted : x.Counted s s.logged := same ▸ clock.counted
  have going := clock.phase
  rw [OnClock, phase] at going
  obtain ⟨ready, now, active⟩ := going
  obtain ⟨-, now', time', ready', wait', scheduled', log'⟩ := visit_frame visited
  have logged' : after.logged = s.logged := by rw [State.logged, log', ← State.logged]
  have runs : ∀ id, s.running id = true → s.alarms ≠ [] := by
    intro id running
    obtain ⟨_, member, _⟩ := counted.running id running
    exact List.ne_nil_of_mem member
  obtain ⟨kept, -⟩ := visit_active runs visited
  obtain ⟨goes, taken⟩ := visit_running visited
  -- a new alarm is of an event that was on the device
  have new : ∀ alarm ∈ after.alarms, alarm ∈ s.alarms ∨ s.now ≤ alarm.time ∧
      s.now + x.work alarm.event.task ≤ alarm.time ∧
      ∀ id, alarm.callback = some (.cpu id) ↔ x.runsOn alarm.event.task id := by
    intro alarm member
    obtain old | ⟨entry, inside, rfl, -⟩ := visit_alarms visited alarm member
    · exact .inl old
    · have known := clock.tracked.inside _ (.inr (counted.open_entry inside).1)
      rw [alarm_event, ← now]
      exact .inr (alarm_leaves forward (clock.times _ inside) known (clock.booked _ inside))
  refine ⟨clock.tracked.frame ready' scheduled' wait' log', ?_, ?_, ?_, ?_, ?_, ?_, ?_, ?_, ?_, ?_⟩
  · have done' : State.done { after with phase := .progress (todo.eraseIdx choice) } = s.logged :=
      logged'
    rw [done']
    exact (counted.visit visited).frame rfl rfl rfl rfl rfl
  · exact now' ▸ clock.now
  · show ∀ entry ∈ after.log, 0 ≤ entry.2 ∧ entry.2 ≤ after.now
    rw [log', now']
    exact clock.past
  · exact log' ▸ clock.order
  · exact fun entry member => clock.times entry (kept entry member)
  · exact fun entry member => clock.booked entry (kept entry member)
  · show ∀ alarm ∈ after.alarms, after.now ≤ alarm.time ∧ _
    rw [now']
    intro alarm member
    obtain old | ⟨late, -, back⟩ := new alarm member
    · exact clock.rings alarm old
    · exact ⟨late, back⟩
  · show ∀ alarm ∈ after.alarms, ∀ entry ∈ after.log, _
    rw [log']
    intro alarm member entry done blocks
    obtain old | ⟨-, late, -⟩ := new alarm member
    · exact clock.leaves alarm old entry done blocks
    · exact (add_le_add_left (clock.past entry done).2 _).trans late
  · have alone := visit_alone visited clock.alone
    exact alone
  · refine ⟨ready'.trans ready, time'.trans (now.trans now'.symm), fun entry member id cpu => ?_⟩
    obtain waits | runs := active entry (kept entry member) id cpu
    · by_cases here : device = .cpu id
      · exact .inr (taken entry member id cpu here)
      · exact .inl (mem_eraseIdx_of_ne chosen waits (Ne.symm here))
    · exact .inr (goes id runs)

omit [Clock Time] in
/-- An alarm that has rung on a CPU leaves it standing. -/
theorem callBack_running_eq {callback : Option Device} {id : ℕ} :
    (callBack s callback).running id =
      if callback = some (.cpu id) then false else s.running id := by
  obtain _ | (_ | other | _) := callback
  · rfl
  · rfl
  · by_cases same : id = other
    · subst same
      rw [if_pos rfl]
      exact Function.update_self _ _ _
    · rw [if_neg fun back => same (by cases back; rfl)]
      exact Function.update_of_ne same _ _
  · rfl

theorem Clocked.ring (clock : x.Clocked s) {choice : ℕ}
    (move : x.step s (.ring choice) = some s') : x.Clocked s' := by
  obtain ⟨earliest, last, finished, alarm, phase, chosen, first, -, rfl⟩ := step_ring move
  have same : s.done = finished ++ s.logged := by rw [State.done, phase]
  have counted : x.Counted s (finished ++ s.logged) := same ▸ clock.counted
  have member := List.mem_of_getElem? chosen
  have split := perm_eraseIdx chosen
  have fewer : ∀ other ∈ s.alarms.eraseIdx choice, other ∈ s.alarms := fun other inside =>
    (List.eraseIdx_sublist _ _).subset inside
  have going : s.time = s.now ∧
      (∀ task ∈ finished, ∀ entry ∈ s.log, x.Blocks entry.1 task →
        entry.2 + x.work task ≤ alarm.time) ∧
      (∀ task ∈ finished, ∀ id, x.runsOn task id → s.running id = false) ∧
      finished.Pairwise fun task other => ∀ id, x.runsOn task id → ¬ x.runsOn other id := by
    have going := clock.phase
    rw [OnClock, phase] at going
    cases last with
    | none =>
      obtain ⟨-, now, rfl, -⟩ := going
      exact ⟨now, fun _ none => absurd none List.not_mem_nil,
        fun _ none => absurd none List.not_mem_nil, List.Pairwise.nil⟩
    | some last =>
      obtain ⟨now, -, late, leaves, stand, apart⟩ := going
      exact ⟨now, fun task done entry logged blocks =>
        (leaves task done entry logged blocks).trans (late alarm member), stand, apart⟩
  obtain ⟨now, leaves, stand, apart⟩ := going
  have back := (clock.rings alarm member).2
  -- the CPU of the alarm has run until now
  have other : ∀ task ∈ finished, ∀ id, x.runsOn task id → ¬ x.runsOn alarm.event.task id := by
    intro task done id on on'
    have runs := clock.runs member on'
    rw [stand task done id on] at runs
    cases runs
  have among : ∀ task ∈ (if s.counter alarm.event.task - 1 = 0 then
      finished ++ [alarm.event.task] else finished), task ∈ finished ∨ task = alarm.event.task := by
    intro task done
    split_ifs at done
    · exact (List.mem_append.mp done).imp_right List.mem_singleton.mp
    · exact .inl done
  have rung := counted.ring chosen (.complete earliest (some alarm.time)
    (if s.counter alarm.event.task - 1 = 0 then finished ++ [alarm.event.task] else finished))
  rw [callBack_eq] at rung ⊢
  refine ⟨clock.tracked.frame rfl rfl rfl rfl, rung.perm ?_, clock.now, clock.past, clock.order,
    clock.times, clock.booked, fun alarm inside => clock.rings alarm (fewer alarm inside),
    fun alarm inside => clock.leaves alarm (fewer alarm inside), fun id => ?_,
    now, (clock.rings alarm member).1, fun later inside => first.2 later (fewer later inside),
    ?_, ?_, ?_⟩
  · show List.Perm _ ((if _ then _ else _) ++ s.logged)
    split_ifs
    · rw [List.append_assoc]
      exact List.perm_middle.symm
    · rfl
  · -- one alarm less for its CPU
    have before := clock.alone id
    rw [← split.countP_eq, List.countP_cons] at before
    show (s.alarms.eraseIdx choice).countP _ =
      if (callBack s alarm.callback).running id then 1 else 0
    rw [callBack_running_eq]
    by_cases own : alarm.callback = some (.cpu id)
    · have runs := clock.runs member ((back id).mp own)
      rw [if_pos (decide_eq_true own), runs, if_pos rfl] at before
      rw [if_pos own, if_neg Bool.false_ne_true]
      omega
    · rw [if_neg (by simpa using own), Nat.add_zero] at before
      rw [if_neg own]
      exact before
  · intro task done entry logged blocks
    obtain old | rfl := among task done
    · exact leaves task old entry logged blocks
    · exact clock.leaves alarm member entry logged blocks
  · intro task done id on
    show (callBack s alarm.callback).running id = false
    rw [callBack_running_eq]
    split_ifs with own
    · rfl
    · obtain old | rfl := among task done
      · exact stand task old id on
      · exact absurd ((back id).mpr on) own
  · split_ifs
    · refine List.pairwise_append.mpr ⟨apart, List.pairwise_singleton _ _, ?_⟩
      intro task done new member id on
      obtain rfl := List.mem_singleton.mp member
      exact other task done id on
    · exact apart

/-- What has finished is logged with the time of the last alarm, and tasks that waited for it are
ready. -/
theorem Clocked.released (clock : x.Clocked s) (sink : x.prog.SingleSink) {earliest last : Time}
    {finished : List Task} (phase : s.phase = .complete earliest (some last) finished)
    (start : 0 ≤ last) :
    x.Clocked { finished.foldl x.release { s with now := last } with phase := .test } := by
  have same : s.done = finished ++ s.logged := by rw [State.done, phase]
  have counted : x.Counted s (finished ++ s.logged) := same ▸ clock.counted
  have going := clock.phase
  rw [OnClock, phase] at going
  obtain ⟨time, late, ringing, leaves, stand, apart⟩ := going
  have scheduled : ∀ task ∈ finished, task ∈ s.scheduled := fun task member =>
    counted.known task (List.mem_append_left _ member)
  have fresh : ∀ task ∈ finished, task ∉ s.logged := fun task member logged =>
    (List.nodup_append.mp counted.once).2.2 task member task logged rfl
  -- a task that is done now is in front of no task that has been scheduled
  have front : ∀ task ∈ finished, ∀ next ∈ s.scheduled, task ∉ x.prog.predecessors next :=
    fun task member next later before => fresh task member
      ((clock.tracked.enabled next (clock.tracked.inside next (.inr later))).mp (.inr later) task
        before)
  have clocked : x.Tracked { s with now := last } := clock.tracked.frame rfl rfl rfl rfl
  have tracked : x.Tracked (finished.foldl x.release { s with now := last }) :=
    clocked.foldl_release scheduled counted.once
  obtain ⟨wait, ready', released⟩ : ∃ wait ready, finished.foldl x.release { s with now := last } =
    { s with
      now := last
      log := (finished.map fun task => (task, last)).reverse ++ s.log
      wait := wait
      ready := ready } := foldl_release
  rw [released] at tracked ⊢
  have entries : ∀ entry ∈ (finished.map fun task => (task, last)).reverse ++ s.log,
      entry.1 ∈ finished ∧ entry.2 = last ∨ entry ∈ s.log := by
    intro entry member
    obtain new | old := List.mem_append.mp member
    · obtain ⟨task, done, rfl⟩ := List.mem_map.mp (List.mem_reverse.mp new)
      exact .inl ⟨done, rfl⟩
    · exact .inr old
  have logged : ((finished.map fun task => (task, last)).reverse ++ s.log).map Prod.fst =
      finished.reverse ++ s.logged := by
    rw [List.map_append, List.map_reverse, List.map_map]
    exact congrArg (List.reverse · ++ _) (List.map_id _)
  refine ⟨tracked.frame rfl rfl rfl rfl, ?_, start, fun entry member => ?_, ?_, clock.times,
    clock.booked, fun alarm member => ⟨ringing alarm member, (clock.rings alarm member).2⟩, ?_,
    clock.alone, fun exit final started entry member other => ?_⟩
  · have done : ∀ s' : State Time,
        s'.log = (finished.map fun task => (task, last)).reverse ++ s.log → s'.phase = .test →
          s'.done = finished.reverse ++ s.logged := by
      intro s' log phase
      rw [State.done, phase, State.logged, log]
      exact logged
    rw [done _ rfl rfl]
    exact (counted.perm ((List.reverse_perm _).symm.append_right _)).frame rfl rfl rfl rfl rfl
  · obtain ⟨-, new⟩ | old := entries entry member
    · exact ⟨new ▸ start, new.le⟩
    · exact ⟨(clock.past entry old).1, (clock.past entry old).2.trans late⟩
  · refine List.pairwise_append.mpr ⟨?_, clock.order, ?_⟩
    · -- tasks that are done together do not block each other
      refine List.pairwise_reverse.mpr (List.pairwise_map.mpr (apart.imp_of_mem ?_))
      intro task next done done' other
      refine ⟨le_rfl, front next done' task (scheduled task done), ?_⟩
      rintro (before | ⟨id, on, on'⟩)
      · exact absurd before (front task done next (scheduled next done'))
      · exact absurd on' (other id on)
    · intro entry new old before
      obtain ⟨task, done, rfl⟩ := List.mem_map.mp (List.mem_reverse.mp new)
      refine ⟨(clock.past old before).2.trans late, front task done _ ?_,
        leaves task done old before⟩
      exact clock.known _ (List.mem_map_of_mem before)
  · intro alarm member entry done blocks
    obtain ⟨new, -⟩ | old := entries entry done
    · have open_ := (counted.open_alarm member).1
      obtain before | ⟨id, on, on'⟩ := blocks
      · exact absurd before (front entry.1 new _ open_)
      · have runs := clock.runs member on'
        rw [stand entry.1 new id on] at runs
        cases runs
    · exact clock.leaves alarm member entry old blocks
  · obtain ⟨new, -⟩ | old := entries entry member
    · obtain ⟨found, first, -, -, behind⟩ := Programm.exit_eq sink
      obtain rfl := Option.some.inj (first.symm.trans final)
      have inside := clock.tracked.inside _ (.inr (scheduled _ new))
      exact absurd (clock.tracked.others clock.known behind (.inr started) _ inside other)
        (fresh _ new)
    · exact (clock.past entry old).2.trans time.ge

/-- The log is that of a run that goes on. -/
def Halted (x : Execution Time) (s : State Time) : Prop :=
  s.phase = .debugging ∧ ∃ before, x.Clocked before ∧ before.log = s.log

theorem Clocked.release (clock : x.Clocked s) (sink : x.prog.SingleSink)
    (move : x.step s .release = some s') : x.Clocked s' ∨ x.Halted s' := by
  obtain ⟨earliest, last, finished, phase, -, ⟨early, -⟩ | ⟨start, -, -, rfl⟩ | ⟨start, -, rfl⟩⟩ :=
    step_release move
  · have going := clock.phase
    rw [OnClock, phase] at going
    exact absurd (clock.now.trans going.2.1) (not_le_of_gt early)
  · obtain ⟨wait, ready, same⟩ := @foldl_release Time x { s with now := last } finished
    refine .inr ⟨rfl, _, clock.released sink phase start, ?_⟩
    show (finished.foldl x.release { s with now := last }).log = _
    rw [same]
  · exact .inl (clock.released sink phase start)

theorem Clocked.step (clock : x.Clocked s) (noMove : x.commit = .noMove) (forward : x.Forward)
    (lengths : x.arch.Unsigned) (sink : x.prog.SingleSink) {label : Label}
    (move : x.step s label = some s') : x.Clocked s' ∨ x.Halted s' := by
  cases label with
  | test => exact .inl (clock.test sink move)
  | pop choice draw => exact .inl (clock.pop noMove lengths move)
  | start => exact .inl (clock.start move)
  | visit choice event => exact .inl (clock.visit forward move)
  | complete => exact .inl (clock.complete move)
  | ring choice => exact .inl (clock.ring move)
  | release => exact clock.release sink move

theorem clocked_initial (source : x.prog.SingleSource) {start : State Time}
    (init : x.system.Init start) : x.Clocked start := by
  have inv := inv_initial source init
  obtain ⟨entry, found, rfl⟩ := init
  exact ⟨inv.tracked, inv.counted, inv.now, fun _ member => absurd member List.not_mem_nil,
    List.Pairwise.nil, inv.times, fun _ member => absurd member List.not_mem_nil,
    fun _ member => absurd member List.not_mem_nil,
    fun _ member => absurd member List.not_mem_nil, fun _ => rfl,
    fun _ _ member => absurd member List.not_mem_nil⟩

/-! ## Runs -/

theorem clocked_of_reachable (noMove : x.commit = .noMove) (forward : x.Forward)
    (lengths : x.arch.Unsigned) (source : x.prog.SingleSource) (sink : x.prog.SingleSink)
    (reach : x.system.Reachable Transition.AnyStep s) : x.Clocked s ∨ x.Halted s := by
  refine reach.invariant (fun s => x.Clocked s ∨ x.Halted s)
    (fun _ init => .inl (clocked_initial source init)) ?_
  rintro s label s' (clock | ⟨halted, -⟩) - move
  · exact clock.step noMove forward lengths sink move
  · refine absurd move (not_step_of_stopped ?_)
    rw [State.Stopped, halted]
    trivial

/-- Two entries of a log are in some order. -/
theorem Clocked.compare (clock : x.Clocked s) {a b : Task × Time} (first : a ∈ s.log)
    (second : b ∈ s.log) (apart : a ≠ b) : x.Follows a b ∨ x.Follows b a := by
  obtain ⟨later, earlier, split⟩ := List.append_of_mem first
  have order := clock.order
  rw [split] at order second
  obtain ⟨-, tail, across⟩ := List.pairwise_append.mp order
  obtain late | rest := List.mem_append.mp second
  · exact .inr (across b late a List.mem_cons_self)
  · obtain same | early := List.mem_cons.mp rest
    · exact absurd same.symm apart
    · exact .inl ((List.pairwise_cons.mp tail).1 b early)

/-- A task that is in front of another one is done before that one's work. -/
theorem Clocked.front (clock : x.Clocked s) {before after : Time} (first : (task, before) ∈ s.log)
    (second : (other, after) ∈ s.log) (edge : task ∈ x.prog.predecessors other) :
    before + x.work other ≤ after := by
  have apart : (other, after) ≠ (task, before) := by
    intro same
    obtain ⟨rfl, -⟩ := Prod.mk.inj same
    obtain ⟨rank, ranked⟩ := Programm.exists_rank x.prog
    exact Nat.lt_irrefl _ (ranked other other (Programm.mem_predecessors.mp edge).2)
  obtain follows | follows := clock.compare second first apart
  · exact follows.leaves (.inl edge)
  · exact absurd edge follows.behind

omit [Clock Time] in
theorem fetch_in_front {t : ThunkId} (inside : t ∈ x.prog.thunks) :
    (⟨.comm, t⟩ : Task) ∈ x.prog.predecessors ⟨.thunk, t⟩ :=
  Programm.mem_predecessors.mpr ⟨Programm.mem_tasks.mpr inside, List.mem_singleton_self _⟩

/-- A thunk ends no earlier than the fetch in front of it and its own time. -/
theorem Clocked.runs_after (clock : x.Clocked s) {t : ThunkId} (inside : t ∈ x.prog.thunks)
    (done : (⟨.thunk, t⟩, time) ∈ s.log) :
    ∃ fetched, (⟨.comm, t⟩, fetched) ∈ s.log ∧ 0 ≤ fetched ∧
      fetched + (x.prog.data t).cputime ≤ time := by
  have logged : (⟨.thunk, t⟩ : Task) ∈ s.logged := List.mem_map_of_mem done
  have scheduled := clock.known _ logged
  have before := (clock.tracked.enabled _ (Programm.mem_tasks.mpr inside)).mp (.inr scheduled) _
    (fetch_in_front inside)
  obtain ⟨⟨task, fetched⟩, member, same⟩ := List.mem_map.mp before
  obtain rfl : task = ⟨.comm, t⟩ := same
  exact ⟨fetched, member, (clock.past _ member).1, clock.front member done (fetch_in_front inside)⟩

/-- A thunk ends no earlier than one in front of it and its own time. -/
theorem Clocked.runs_behind (clock : x.Clocked s) {t u : ThunkId} {first second : Time}
    (edge : (t, u) ∈ x.prog.edges) (done : (⟨.thunk, t⟩, first) ∈ s.log)
    (done' : (⟨.thunk, u⟩, second) ∈ s.log) : first + (x.prog.data u).cputime ≤ second := by
  obtain ⟨inside, inside'⟩ := x.prog.inside _ edge
  obtain ⟨fetched, member, -, runs⟩ := clock.runs_after inside' done'
  have fetch : (⟨.thunk, t⟩ : Task) ∈ x.prog.predecessors ⟨.comm, u⟩ := by
    refine Programm.mem_predecessors.mpr ⟨Programm.mem_tasks.mpr inside, ?_⟩
    exact List.mem_cons_of_mem _ (Programm.mem_outThunks.mpr ⟨rfl, edge⟩)
  have waits := clock.front done member fetch
  rw [work_eq_zero Kind.noConfusion, add_zero] at waits
  exact (add_le_add_left waits _).trans runs

/-- **The order of the program is kept.** A thunk ends no earlier than each thunk in front of it
and its own time, and of two thunks on one CPU one ends no earlier than the other and its own
time. -/
theorem runsInOrder_of_reachable (noMove : x.commit = .noMove) (forward : x.Forward)
    (lengths : x.arch.Unsigned) (source : x.prog.SingleSource) (sink : x.prog.SingleSink)
    (reach : x.system.Reachable Transition.AnyStep s) {t u : ThunkId} {first second : Time}
    (done : (⟨.thunk, t⟩, first) ∈ s.log) (done' : (⟨.thunk, u⟩, second) ∈ s.log) :
    ((t, u) ∈ x.prog.edges → first + (x.prog.data u).cputime ≤ second) ∧
      (t ≠ u → (x.prog.data t).cpu = (x.prog.data u).cpu →
        first + (x.prog.data u).cputime ≤ second ∨ second + (x.prog.data t).cputime ≤ first) := by
  obtain ⟨before, clock, same⟩ : ∃ before, x.Clocked before ∧ before.log = s.log := by
    obtain clock | ⟨-, halted⟩ := clocked_of_reachable noMove forward lengths source sink reach
    · exact ⟨s, clock, rfl⟩
    · exact halted
  rw [← same] at done done'
  refine ⟨fun edge => clock.runs_behind edge done done', fun apart cpu => ?_⟩
  have apart' : ((⟨.thunk, u⟩, second) : Task × Time) ≠ (⟨.thunk, t⟩, first) := by
    intro same
    cases same
    exact apart rfl
  obtain follows | follows := clock.compare done' done apart'
  · exact .inl (follows.leaves (.inr ⟨_, ⟨rfl, cpu⟩, rfl, rfl⟩))
  · exact .inr (follows.leaves (.inr ⟨_, ⟨rfl, cpu.symm⟩, rfl, rfl⟩))

/-- The thunks that a CPU has run, oldest first. -/
def ran (x : Execution Time) (s : State Time) (id : ℕ) : List ThunkId :=
  ((s.logged.filter fun task => x.runsOn task id).map Task.tid).reverse

/-- All work of a CPU that is done by some time takes no longer. -/
theorem Clocked.cpu_work (clock : x.Clocked s) (id : ℕ) {last : Time} (start : 0 ≤ last)
    (done : ∀ entry ∈ s.log, entry.1.kind ≠ .commit → entry.2 ≤ last) :
    Clock.after 0 ((x.ran s id).map fun t => (x.prog.data t).cputime) ≤ last := by
  have jobs : (x.ran s id).map (fun t => (x.prog.data t).cputime) =
      ((s.log.filter fun entry => x.runsOn entry.1 id).reverse).map
        fun entry => (x.prog.data entry.1.tid).cputime := by
    rw [ran, State.logged, List.filter_map, List.map_map, List.map_reverse, List.map_reverse,
      List.map_map]
    rfl
  have runs : ∀ entry ∈ (s.log.filter fun entry => x.runsOn entry.1 id).reverse,
      entry ∈ s.log ∧ x.runsOn entry.1 id ∧ x.work entry.1 = (x.prog.data entry.1.tid).cputime := by
    intro entry member
    obtain ⟨logged, on⟩ := List.mem_filter.mp (List.mem_reverse.mp member)
    have on := of_decide_eq_true on
    exact ⟨logged, on, by rw [work, on.1]⟩
  have chain := List.Pairwise.isChain <| List.Pairwise.imp_of_mem
    (fun {early late} member member' (follows : x.Follows late early) => by
      have leaves := follows.leaves (.inr ⟨id, (runs early member).2.1, (runs late member').2.1⟩)
      exact (runs late member').2.2 ▸ leaves)
    (List.pairwise_reverse.mpr (clock.order.filter fun entry => x.runsOn entry.1 id))
  rw [jobs]
  generalize (s.log.filter fun entry => x.runsOn entry.1 id).reverse = entries at runs chain
  obtain none | ⟨final, same⟩ := Option.eq_none_or_eq_some entries.getLast?
  · rw [List.getLast?_eq_none_iff.mp none]
    exact start
  refine (Clock.after_le_of_chain (fun job first => ?_) chain final same).trans ?_
  · obtain ⟨⟨⟨kind, t⟩, time⟩, rfl⟩ : ∃ entry : Task × Time, entry = job := ⟨job, rfl⟩
    obtain ⟨logged, on, -⟩ := runs _ (List.mem_of_mem_head? first)
    obtain rfl : kind = .thunk := on.1
    have inside := clock.tracked.inside _ (.inr (clock.known _ (List.mem_map_of_mem logged)))
    obtain ⟨fetched, -, early, after⟩ := clock.runs_after (Programm.mem_tasks.mp inside) logged
    exact (Clock.add_mono early le_rfl).trans after
  · obtain ⟨logged, on, -⟩ := runs final (List.mem_of_getLast? same)
    exact done final logged (by rw [on.1]; decide)

/-- The thunks of a CPU that are done are all its thunks. -/
theorem Clocked.ran_perm (clock : x.Clocked s) (id : ℕ)
    (all : ∀ t ∈ x.prog.thunks, (⟨.thunk, t⟩ : Task) ∈ s.logged) :
    (x.ran s id).Perm (x.prog.thunks.filter fun t => (x.prog.data t).cpu = id) := by
  have once : s.logged.Nodup :=
    clock.counted.once.sublist (List.sublist_append_right _ _)
  have same : (s.logged.filter fun task => x.runsOn task id).Perm
      ((x.prog.thunks.filter fun t => (x.prog.data t).cpu = id).map fun t => ⟨.thunk, t⟩) := by
    refine (List.perm_ext_iff_of_nodup (once.filter _)
      ((x.prog.distinct.filter _).map fun t u same => by cases same; rfl)).mpr fun task => ?_
    rw [List.mem_filter, decide_eq_true_eq, List.mem_map]
    constructor
    · rintro ⟨logged, thunk, cpu⟩
      have inside := clock.tracked.inside task (.inr (clock.known task logged))
      refine ⟨task.tid, List.mem_filter.mpr
        ⟨Programm.mem_tasks.mp inside, decide_eq_true cpu⟩, ?_⟩
      rw [← thunk]
    · rintro ⟨t, member, rfl⟩
      obtain ⟨inside, cpu⟩ := List.mem_filter.mp member
      exact ⟨all t inside, rfl, of_decide_eq_true cpu⟩
  have mapped := same.map Task.tid
  rw [List.map_map] at mapped
  exact (List.reverse_perm _).trans (mapped.trans (List.map_id _ ▸ .refl _))

/-- **A run takes its time.** When the simulation returns, the time is at least that of the thunks
on any path through the program, one after the other, and that of all thunks of any CPU in the order
in which it has run them. -/
theorem atLeast_of_returned (noMove : x.commit = .noMove) (forward : x.Forward)
    (lengths : x.arch.Unsigned) (source : x.prog.SingleSource) (sink : x.prog.SingleSink)
    (reach : x.system.Reachable Transition.AnyStep s) (returned : s.phase = .returned time) :
    (∀ path : List ThunkId, (∀ t ∈ path, t ∈ x.prog.thunks) →
        (path.IsChain fun t u => (t, u) ∈ x.prog.edges) →
          Clock.after 0 (path.map fun t => (x.prog.data t).cputime) ≤ time) ∧
      ∀ id, (x.ran s id).Perm (x.prog.thunks.filter fun t => (x.prog.data t).cpu = id) ∧
        Clock.after 0 ((x.ran s id).map fun t => (x.prog.data t).cputime) ≤ time := by
  obtain clock | ⟨halted, -⟩ := clocked_of_reachable noMove forward lengths source sink reach
  · have going := clock.phase
    rw [OnClock, returned] at going
    obtain ⟨all, early⟩ := going
    have thunks : ∀ t ∈ x.prog.thunks, (⟨.thunk, t⟩ : Task) ∈ s.logged := fun t inside =>
      all _ (Programm.mem_tasks.mpr inside) Kind.noConfusion
    have ends : ∀ t, ∃ finish, t ∈ x.prog.thunks → (⟨.thunk, t⟩, finish) ∈ s.log := by
      intro t
      by_cases inside : t ∈ x.prog.thunks
      · obtain ⟨⟨task, finish⟩, member, same⟩ := List.mem_map.mp (thunks t inside)
        obtain rfl : task = ⟨.thunk, t⟩ := same
        exact ⟨finish, fun _ => member⟩
      · exact ⟨0, fun other => absurd other inside⟩
    choose finish done using ends
    have start : 0 ≤ time := by
      obtain ⟨exit, -, inside, -, -⟩ := Programm.exit_eq sink
      have member := done exit.tid (Programm.mem_tasks.mp inside)
      exact (clock.past _ member).1.trans (early _ member Kind.noConfusion)
    refine ⟨fun path inside chain => ?_, fun id =>
      ⟨clock.ran_perm id thunks, clock.cpu_work id start early⟩⟩
    obtain none | ⟨last, final⟩ := Option.eq_none_or_eq_some path.getLast?
    · rw [List.getLast?_eq_none_iff.mp none]
      exact start
    have member := inside last (List.mem_of_getLast? final)
    refine (Clock.after_le_of_chain (fun t first => ?_) ?_ last final).trans
      (early _ (done last member) Kind.noConfusion)
    · have among := inside t (List.mem_of_mem_head? first)
      obtain ⟨fetched, -, late, runs⟩ := clock.runs_after among (done t among)
      exact (Clock.add_mono late le_rfl).trans runs
    · refine chain.imp_of_mem_imp fun t u among among' edge => ?_
      exact clock.runs_behind edge (done t (inside t among)) (done u (inside u among'))
  · rw [returned] at halted
    cases halted

/-- **No CPU stands idle.** Whenever the clock is about to move on, a CPU runs if it has a thunk
to run that has been fetched and is not done. -/
theorem runs_of_waits (noMove : x.commit = .noMove) (forward : x.Forward)
    (lengths : x.arch.Unsigned) (source : x.prog.SingleSource) (sink : x.prog.SingleSink)
    (reach : x.system.Reachable Transition.AnyStep s) {earliest : Time} {finished : List Task}
    (phase : s.phase = .complete earliest none finished) {t : ThunkId}
    (inside : t ∈ x.prog.thunks) (fetched : (⟨.comm, t⟩ : Task) ∈ s.logged)
    (undone : (⟨.thunk, t⟩ : Task) ∉ s.logged) : s.running (x.prog.data t).cpu = true := by
  obtain clock | ⟨halted, -⟩ := clocked_of_reachable noMove forward lengths source sink reach
  swap
  · rw [phase] at halted
    cases halted
  have going := clock.phase
  rw [OnClock, phase] at going
  obtain ⟨ready, -, rfl, active⟩ := going
  have member : (⟨.thunk, t⟩ : Task) ∈ x.prog.tasks := Programm.mem_tasks.mpr inside
  -- only the fetch is in front of the thunk
  have enabled := (clock.tracked.enabled _ member).mpr fun other before => by
    obtain ⟨-, edge⟩ := Programm.mem_predecessors.mp before
    obtain ⟨same, ⟨first, -⟩ | ⟨-, second⟩⟩ | ⟨comm, -⟩ := Programm.mem_successors edge
    · obtain ⟨kind, tid⟩ := other
      obtain rfl : kind = .comm := first
      obtain rfl : t = tid := same
      exact fetched
    · cases second
    · cases comm
  rw [ready] at enabled
  have scheduled := enabled.resolve_left List.not_mem_nil
  have done : s.done = s.logged := by rw [State.done, phase]; rfl
  have open_ : s.counter ⟨.thunk, t⟩ ≠ 0 := by
    rw [Ne, clock.counted.idle, done]
    exact fun all => undone (all scheduled)
  have on : x.runsOn ⟨.thunk, t⟩ (x.prog.data t).cpu := ⟨rfl, rfl⟩
  rw [clock.counted.counts] at open_
  obtain some | some := Nat.add_pos_iff_pos_or_pos.mp (Nat.pos_of_ne_zero open_)
  · obtain ⟨entry, inside, own⟩ := List.countP_pos_iff.mp some
    have own := of_decide_eq_true own
    exact active entry inside _ ((clock.booked entry inside _).mpr (own ▸ on))
  · obtain ⟨alarm, inside, own⟩ := List.countP_pos_iff.mp some
    have own := of_decide_eq_true own
    exact clock.runs inside (own ▸ on)

/-! ## Two thunks on two CPUs -/

theorem chain_forward (cpu : ℕ → ℕ) : (chainExecution cpu).Forward := by
  intro t _
  show (0 : ExactTime) ≤ 10
  decide

/-- A run to its end, with the times at which the thunks are done. -/
theorem chain_returns : ∃ s, (chainExecution fun n => n - 1).system.Reachable Transition.AnyStep s ∧
    s.phase = .returned 22 ∧ ((⟨.thunk, (0, 1)⟩ : Task), (10 : ExactTime)) ∈ s.log ∧
      ((⟨.thunk, (0, 2)⟩ : Task), (22 : ExactTime)) ∈ s.log := by
  have start : (chainExecution fun n => n - 1).system.Reachable Transition.AnyStep
      ((chainExecution fun n => n - 1).initial ⟨.comm, (0, 1)⟩) := .init ⟨_, by decide, rfl⟩
  obtain ⟨s, execution, all⟩ := (Option.any_eq_true _ _).mp
    (show ((chainExecution fun n => n - 1).system.run
      ((chainExecution fun n => n - 1).initial ⟨.comm, (0, 1)⟩)
      (round 1 ++ round 1 ++ round 1 ++ round 2 ++ round 1 ++ round 2 ++ [.test])).any
        (fun s => decide (s.phase = .returned 22 ∧
          ((⟨.thunk, (0, 1)⟩ : Task), (10 : ExactTime)) ∈ s.log ∧
          ((⟨.thunk, (0, 2)⟩ : Task), (22 : ExactTime)) ∈ s.log)) = true by
      decide +kernel)
  exact ⟨s, start.run execution, of_decide_eq_true all⟩

theorem runsInOrder_chain : (10 : ExactTime) + (10 : ExactTime) ≤ 22 := by
  obtain ⟨s, reach, -, first, second⟩ := chain_returns
  exact (runsInOrder_of_reachable rfl (chain_forward _) Architecture.pair_unsigned
    (chain_singleSource _) (chain_singleSink _) reach first second).1 (by decide)

theorem atLeast_chain : Clock.after 0 (([(0, 1), (0, 2)] : List ThunkId).map fun t =>
    ((chainExecution fun n => n - 1).prog.data t).cputime) ≤ 22 := by
  obtain ⟨s, reach, returned, -⟩ := chain_returns
  exact (atLeast_of_returned rfl (chain_forward _) Architecture.pair_unsigned
    (chain_singleSource _) (chain_singleSink _) reach returned).1 _ (by decide)
    (by simp [chainExecution, Programm.chain])

theorem runs_chain : ∃ s, (chainExecution fun n => n - 1).system.Reachable Transition.AnyStep s ∧
    s.running 0 = true := by
  have start : (chainExecution fun n => n - 1).system.Reachable Transition.AnyStep
      ((chainExecution fun n => n - 1).initial ⟨.comm, (0, 1)⟩) := .init ⟨_, by decide, rfl⟩
  obtain ⟨s, execution, all⟩ := (Option.any_eq_true _ _).mp
    (show ((chainExecution fun n => n - 1).system.run
      ((chainExecution fun n => n - 1).initial ⟨.comm, (0, 1)⟩)
      (round 1 ++ [.test, .pop 0 fun _ => 0, .start] ++ List.replicate 5 (.visit 0 0) ++
        [.complete])).any
        (fun s => decide (s.phase = .complete 10 none [] ∧
          (⟨.comm, (0, 1)⟩ : Task) ∈ s.logged ∧ (⟨.thunk, (0, 1)⟩ : Task) ∉ s.logged)) = true by
      decide +kernel)
  obtain ⟨phase, fetched, undone⟩ := of_decide_eq_true all
  have reach := start.run execution
  exact ⟨s, reach, runs_of_waits rfl (chain_forward _) Architecture.pair_unsigned
    (chain_singleSource _) (chain_singleSink _) reach phase (by decide) fetched undone⟩

end Execution

end Tthread.Racksim
