/-
# When a fetch is done

A fetch books the links that its pages come over and then its own domain, and is done with the
last of these events. The links take all their events in the round after, and the longest one
should say when the fetch is done. But a domain takes one event a round: a fetch whose turn has
not come when its last page is there is done only at the end of a later round, which the other
tasks decide. A fetch is on time exactly if no alarm behind its time is popped while its own
domain still lets it wait.
-/

import Tthread.Completion

namespace Tthread.Racksim

/-- A device is a link. -/
def Device.IsLink : Device → Prop
  | .link _ => True
  | _ => False

/-- A device is a domain. -/
def Device.IsNuma : Device → Prop
  | .numa _ => True
  | _ => False

instance : DecidablePred Device.IsLink := fun device => by
  cases device <;> unfold Device.IsLink <;> infer_instance

instance : DecidablePred Device.IsNuma := fun device => by
  cases device <;> unfold Device.IsNuma <;> infer_instance

variable {Time : Type} [Clock Time]

/-- The longest link event of a task that has just been scheduled, zero if it has none. -/
def State.longest (s : State Time) (task : Task) : Time :=
  (s.active.filter fun entry => entry.1.IsLink ∧ entry.2.task = task).foldr
    (fun entry time => max entry.2.time time) 0

/-- The time of its scheduling plus its longest link event. -/
def State.due (s : State Time) (task : Task) : Time := s.now + s.longest task

/-- The time of the simulation, within the loop of `complete` that of the last alarm. -/
def State.clock (s : State Time) : Time :=
  match s.phase with
  | .complete _ (some last) _ => max s.now last
  | _ => s.now

/-- A task is returned at the time given: no later, and with no other time. -/
structure State.OnTime (s : State Time) (task : Task) (due : Time) : Prop where
  returned : ∀ time, (task, time) ∈ s.log → time = due
  by_then : due < s.clock → task ∈ s.done

/-- No alarm that is later than the time given is popped while a domain lets the task wait. -/
def State.TakesTurn (task : Task) (due : Time) (s : State Time) (label : Label) : Prop :=
  ∀ choice alarm entry, label = .ring choice → s.alarms[choice]? = some alarm →
    entry ∈ s.active → entry.1.IsNuma → entry.2.task = task → alarm.time ≤ due

instance {task : Task} {due : Time} {s : State Time} {label : Label} :
    Decidable (State.TakesTurn task due s label) :=
  match label with
  | .ring choice =>
      decidable_of_iff (∀ alarm ∈ s.alarms[choice]?, ∀ entry ∈ s.active, entry.1.IsNuma →
          entry.2.task = task → alarm.time ≤ due)
        ⟨fun turn _ alarm entry same chosen => by
            cases same
            exact turn alarm chosen entry,
          fun turn alarm chosen entry => turn choice alarm entry rfl chosen⟩
  | .test | .pop _ _ | .start | .visit _ _ | .complete | .release =>
      isTrue fun _ _ _ same => nomatch same

namespace Execution

/-- The CPU times come from unsigned fields, where the end of a thunk was read, and no length of
the machine is negative. -/
structure Unsigned (x : Execution Time) : Prop where
  cputime : ∀ t, (x.prog.data t).cputime = ⊥ ∨ 0 ≤ (x.prog.data t).cputime
  arch : x.arch.Unsigned

variable {x : Execution Time} {s s' : State Time} {task other : Task} {draw : ℕ → ℕ}
  {choice event : ℕ}

/-! ## Who is open -/

/-- The sources besides the entry. -/
def unstarted (x : Execution Time) : List Task :=
  x.prog.tasks.filter fun task => x.prog.predecessors task = [] ∧ x.prog.entry ≠ some task

/-- The state in which some tasks count as scheduled that never become ready. -/
def State.among (s : State Time) (others : List Task) : State Time :=
  { s with scheduled := s.scheduled ++ others }

/-- The tasks are tracked and their events counted, where sources besides the entry count as
scheduled, and these and the commits that book nothing as done. -/
structure Ledger (x : Execution Time) (others stuck : List Task) (s : State Time) : Prop where
  tracked : x.Tracked (State.among s others)
  counted : x.Counted (State.among s others) (stuck ++ s.done)
  idle : ∀ task ∈ stuck, task.kind = .commit ∨ task ∈ others
  unstarted : ∀ task ∈ others, task ∈ stuck

omit [Clock Time] in
/-- A task that books nothing counts as done. -/
theorem Counted.skipped {done : List Task} (counted : x.Counted s done)
    (fresh : task ∉ s.scheduled) (ready : List Task) (numas : ℕ → Finset ℕ) :
    x.Counted
      ({ s with ready := ready, scheduled := task :: s.scheduled }.booked task [] numas)
      (task :: done) := by
  have undone : task ∉ done := fun member => fresh (counted.known task member)
  have zero : s.counter task = 0 := (counted.idle task).mpr fun scheduled => absurd scheduled fresh
  have counter : Function.update s.counter task
      (s.counter task + ([] : List (Device × Event Time)).length) = s.counter := by simp
  refine ⟨fun other => ?_, fun other => ?_, fun other member => ?_,
    List.nodup_cons.mpr ⟨undone, counted.once⟩, counted.running, ?_⟩
  · show Function.update s.counter task _ other = (s.active ++ []).countP _ + s.alarms.countP _
    rw [counter, List.append_nil]
    exact counted.counts other
  · show Function.update s.counter task _ other = 0 ↔
      (other ∈ task :: s.scheduled → other ∈ task :: done)
    rw [counter, List.mem_cons, List.mem_cons]
    by_cases same : other = task
    · subst same
      exact iff_of_true zero fun _ => .inl rfl
    · rw [counted.idle other, or_iff_right same, or_iff_right same]
  · obtain rfl | old := List.mem_cons.mp member
    · exact List.mem_cons_self
    · exact List.mem_cons_of_mem _ (counted.known other old)
  · show ∀ entry ∈ s.active ++ [], _
    rw [List.append_nil]
    exact counted.devices

/-- No device looks at who has been scheduled. -/
theorem visit_among {others : List Task} {device : Device} :
    x.visit (State.among s others) device event =
      (x.visit s device event).map (State.among · others) := by
  have takes : x.take (State.among s others) device event =
      (x.take s device event).map (State.among · others) := by
    simp only [take, State.among]
    split
    · rfl
    · split_ifs <;> rfl
  simp only [visit, takes]
  show (if ∀ entry ∈ s.active, entry.1 ≠ device then _ else _) = _
  split_ifs
  · rfl
  · cases device with
    | link id => rfl
    | numa id => rfl
    | cpu id =>
      show (if s.running id then _ else _) = _
      simp only
      split_ifs
      · rfl
      · rw [Option.map_map, Option.map_map]
        rfl

omit [Clock Time] in
/-- Who is told of a finished task does not depend on who has been scheduled. -/
theorem foldl_release_among {others finished : List Task} :
    finished.foldl x.release (State.among s others) =
      State.among (finished.foldl x.release s) others := by
  induction finished generalizing s with
  | nil => rfl
  | cons task rest ih =>
    have told : x.release (State.among s others) task = State.among (x.release s task) others := by
      rw [release_eq, release_eq]
      rfl
    rw [List.foldl_cons, List.foldl_cons, told, ih]

namespace Ledger

variable {others stuck : List Task}

omit [Clock Time] in
theorem apart (ledger : x.Ledger others stuck s) (scheduled : task ∈ s.scheduled) :
    task ∉ others := fun member =>
  (List.nodup_append.mp ledger.tracked.scheduled).2.2 task scheduled task member rfl

omit [Clock Time] in
/-- What is done was scheduled. -/
theorem known (ledger : x.Ledger others stuck s) (done : task ∈ s.done) : task ∈ s.scheduled := by
  have known := ledger.counted.known task (List.mem_append_right _ done)
  refine (List.mem_append.mp known).resolve_right fun other => ?_
  exact (List.nodup_append.mp ledger.counted.once).2.2 task (ledger.unstarted task other) task done
    rfl

omit [Clock Time] in
/-- A fetch that was scheduled is done when it has no event left. -/
theorem counter_eq_zero (ledger : x.Ledger others stuck s) (scheduled : task ∈ s.scheduled)
    (kind : task.kind = .comm) : s.counter task = 0 ↔ task ∈ s.done := by
  have free : task ∉ stuck := fun member => by
    obtain commit | among := ledger.idle task member
    · rw [kind] at commit
      cases commit
    · exact ledger.apart scheduled among
  have known : task ∈ (State.among s others).scheduled := List.mem_append_left _ scheduled
  have idle : s.counter task = 0 ↔ _ := ledger.counted.idle task
  rw [idle, List.mem_append, or_iff_right free]
  exact ⟨fun all => all known, fun done _ => done⟩

omit [Clock Time] in
/-- A task whose counter is zero has nothing booked, and nothing rings for it. -/
theorem quiet_iff (ledger : x.Ledger others stuck s) : s.counter task = 0 ↔
    (∀ entry ∈ s.active, entry.2.task ≠ task) ∧ ∀ alarm ∈ s.alarms, alarm.event.task ≠ task := by
  have counts : s.counter task =
      s.active.countP (·.2.task = task) + s.alarms.countP (·.event.task = task) :=
    ledger.counted.counts task
  rw [counts, Nat.add_eq_zero_iff, List.countP_eq_zero, List.countP_eq_zero]
  simp only [decide_eq_true_eq, ne_eq]

omit [Clock Time] in
theorem done_iff (ledger : x.Ledger others stuck s) (scheduled : task ∈ s.scheduled)
    (kind : task.kind = .comm) : task ∈ s.done ↔
      (∀ entry ∈ s.active, entry.2.task ≠ task) ∧ ∀ alarm ∈ s.alarms, alarm.event.task ≠ task := by
  rw [← ledger.counter_eq_zero scheduled kind, ledger.quiet_iff]

omit [Clock Time] in
/-- A task that is ready has not been scheduled, and has left no trace. -/
theorem fresh (ledger : x.Ledger others stuck s) (ready : task ∈ s.ready) :
    task ∉ s.done ∧ (∀ entry ∈ s.active, entry.2.task ≠ task) ∧
      ∀ alarm ∈ s.alarms, alarm.event.task ≠ task := by
  have fresh : task ∉ (State.among s others).scheduled := ledger.tracked.fresh task ready
  refine ⟨fun done => ?_, ledger.quiet_iff.mp ?_⟩
  · exact fresh (ledger.counted.known task (List.mem_append_right _ done))
  · exact (ledger.counted.idle task).mpr fun scheduled => absurd scheduled fresh

omit [Clock Time] in
theorem rephase (ledger : x.Ledger others stuck s) {phase : Phase Time} {time : Time}
    (done : State.done { s with phase := phase, time := time } = s.done) :
    x.Ledger others stuck { s with phase := phase, time := time } where
  tracked := ledger.tracked.frame rfl rfl rfl rfl
  counted := (done.symm ▸ ledger.counted).frame rfl rfl rfl rfl rfl
  idle := ledger.idle
  unstarted := ledger.unstarted

theorem pop (ledger : x.Ledger others stuck s) (phase : s.phase = .schedule)
    (ready : s.ready[choice]? = some task)
    (scheduled : x.schedule draw task { s with
      ready := s.ready.eraseIdx choice
      scheduled := task :: s.scheduled } = .ok s') : ∃ stuck, x.Ledger others stuck s' := by
  have fresh : task ∉ (State.among s others).scheduled :=
    ledger.tracked.fresh task (List.mem_of_getElem? ready)
  have done : s.done = s.logged := by rw [State.done, phase]; rfl
  obtain ⟨entries, booked, books, some⟩ := schedule_booked scheduled
  have done' : s'.done = s.done := by
    have phase' : s'.phase = .schedule := by rw [booked]; exact phase
    have log' : s'.log = s.log := by rw [booked]; rfl
    rw [done, State.done, phase', State.logged, log']
    rfl
  have tracked : x.Tracked (State.among s' others) := by
    rw [booked]
    exact ledger.tracked.pop ready
  by_cases none : entries = []
  · -- only a commit books nothing
    have commit : task.kind = .commit := by
      by_contra other
      exact some (.inr other) none
    refine ⟨task :: stuck, tracked, ?_, List.forall_mem_cons.mpr ⟨.inl commit, ledger.idle⟩,
      fun other inside => List.mem_cons_of_mem _ (ledger.unstarted other inside)⟩
    rw [done', booked, none]
    exact ledger.counted.skipped fresh _ _
  · refine ⟨stuck, tracked, ?_, ledger.idle, ledger.unstarted⟩
    rw [done', booked]
    exact ledger.counted.booked fresh books none _ _

theorem visit (ledger : x.Ledger others stuck s) {todo : List Device} {device : Device}
    (phase : s.phase = .progress todo) (visited : x.visit s device event = some s')
    (left : List Device) : x.Ledger others stuck { s' with phase := .progress left } := by
  have done : s.done = s.logged := by rw [State.done, phase]; rfl
  obtain ⟨-, -, -, ready, wait, scheduled, log⟩ := visit_frame visited
  have visited' : x.visit (State.among s others) device event = some (State.among s' others) := by
    rw [visit_among, visited, Option.map_some]
  have same : ({ s' with phase := .progress left } : State Time).done = s.done := by
    rw [done, State.done, State.logged, State.logged]
    exact congrArg (List.map Prod.fst) log
  refine ⟨ledger.tracked.frame ready ?_ wait log, ?_, ledger.idle, ledger.unstarted⟩
  · exact congrArg (· ++ others) scheduled
  · rw [same]
    exact (ledger.counted.visit visited').frame rfl rfl rfl rfl rfl

theorem ring (ledger : x.Ledger others stuck s) (move : x.step s (.ring choice) = some s') :
    x.Ledger others stuck s' := by
  obtain ⟨earliest, last, finished, alarm, phase, chosen, -, -, rfl⟩ := step_ring move
  have done : s.done = finished ++ s.logged := by rw [State.done, phase]
  have rung := Counted.ring (s := State.among s others) ledger.counted chosen
    (.complete earliest (some alarm.time)
      (if s.counter alarm.event.task - 1 = 0 then finished ++ [alarm.event.task] else finished))
  have running : (callBack s alarm.callback).running =
      (callBack (State.among s others) alarm.callback).running := by
    obtain _ | (_ | _ | _) := alarm.callback <;> rfl
  rw [callBack_eq] at rung ⊢
  refine ⟨ledger.tracked.frame rfl rfl rfl rfl, (rung.perm ?_).frame rfl rfl rfl rfl running,
    ledger.idle, ledger.unstarted⟩
  show List.Perm
    (if s.counter alarm.event.task - 1 = 0 then alarm.event.task :: (stuck ++ s.done)
      else stuck ++ s.done)
    (stuck ++ ((if s.counter alarm.event.task - 1 = 0 then finished ++ [alarm.event.task]
      else finished) ++ s.logged))
  rw [done]
  split_ifs
  · rw [List.append_assoc, ← List.append_assoc stuck finished s.logged,
      ← List.append_assoc stuck finished]
    exact List.perm_middle.symm
  · rfl

theorem release (ledger : x.Ledger others stuck s) (move : x.step s .release = some s') :
    s'.Stopped ∨ x.Ledger others stuck s' := by
  obtain ⟨earliest, last, finished, phase, -, ⟨-, rfl⟩ | ⟨-, -, -, rfl⟩ | ⟨-, -, rfl⟩⟩ :=
    step_release move
  · exact .inl trivial
  · exact .inl trivial
  have done : s.done = finished ++ s.logged := by rw [State.done, phase]
  have counted := ledger.counted
  rw [done] at counted
  have scheduled : ∀ task ∈ finished, task ∈ s.scheduled ++ others := fun task member =>
    counted.known task (List.mem_append_right _ (List.mem_append_left _ member))
  have clocked : x.Tracked (State.among { s with now := last } others) :=
    ledger.tracked.frame rfl rfl rfl rfl
  have tracked := clocked.foldl_release scheduled (List.nodup_append.mp counted.once).2.1
  rw [foldl_release_among] at tracked
  obtain ⟨wait, ready, released⟩ : ∃ wait ready, finished.foldl x.release { s with now := last } =
    { s with
      now := last
      log := (finished.map fun task => (task, last)).reverse ++ s.log
      wait := wait
      ready := ready } := foldl_release
  rw [released] at tracked ⊢
  refine .inr ⟨tracked.frame rfl rfl rfl rfl, (counted.perm ?_).frame rfl rfl rfl rfl rfl,
    ledger.idle, ledger.unstarted⟩
  show List.Perm _ (stuck ++ ((finished.map fun task => (task, last)).reverse ++ s.log).map
    Prod.fst)
  have same : (finished.map fun task => (task, last)).map Prod.fst = finished := by
    rw [List.map_map]
    exact List.map_id finished
  rw [List.map_append, List.map_reverse, same]
  exact List.Perm.append_left stuck ((List.reverse_perm finished).symm.append_right s.logged)

end Ledger

/-- The other sources are never ready, as nothing in front of them is done. -/
theorem ledger_initial {start : State Time} (init : x.system.Init start) :
    ∃ stuck, x.Ledger x.unstarted stuck start := by
  obtain ⟨entry, first, rfl⟩ := init
  obtain ⟨inside, source⟩ := List.mem_filter.mp (List.mem_of_getLast? first)
  have distinct : x.unstarted.Nodup := Programm.tasks_nodup.filter _
  have mem_others : ∀ task, task ∈ x.unstarted ↔ task ≠ entry ∧ task ∈ x.prog.tasks ∧
      x.prog.predecessors task = [] := by
    intro task
    rw [unstarted, List.mem_filter, decide_eq_true_eq, first, Ne, Option.some.injEq,
      eq_comm (a := entry)]
    tauto
  have empty : x.prog.predecessors entry = [] :=
    List.length_eq_zero_iff.mp (of_decide_eq_true source)
  refine ⟨x.unstarted, ⟨?_, ?_, ?_, ?_, ?_, ?_⟩, ⟨?_, ?_, ?_, ?_, ?_, ?_⟩, fun task member =>
    .inr member, fun task member => member⟩
  · exact List.nodup_singleton entry
  · exact distinct
  · intro task ready member
    exact ((mem_others task).mp member).1 (List.mem_singleton.mp ready)
  · rintro task (ready | member)
    · exact List.mem_singleton.mp ready ▸ inside
    · exact ((mem_others task).mp member).2.1
  · intro task _
    show (x.prog.predecessors task).length = _
    exact (List.countP_eq_length.mpr fun _ _ => decide_eq_true List.not_mem_nil).symm
  · intro task member
    show task ∈ [entry] ∨ task ∈ x.unstarted ↔ ∀ other ∈ x.prog.predecessors task, other ∈ []
    have none : (∀ other ∈ x.prog.predecessors task, other ∈ []) ↔
        x.prog.predecessors task = [] := by
      rw [List.eq_nil_iff_forall_not_mem]
      exact forall₂_congr fun _ _ => iff_of_false List.not_mem_nil id
    rw [List.mem_singleton, mem_others, none]
    by_cases same : task = entry
    · exact iff_of_true (.inl same) (same ▸ empty)
    · rw [or_iff_right same]
      exact ⟨fun rest => rest.2.2, fun source => ⟨same, member, source⟩⟩
  · exact fun _ => rfl
  · intro task
    exact iff_of_true rfl fun member => List.mem_append_left _ member
  · intro task member
    show task ∈ [] ++ x.unstarted
    obtain member | logged := List.mem_append.mp member
    · exact member
    · exact absurd logged List.not_mem_nil
  · show (x.unstarted ++ []).Nodup
    rw [List.append_nil]
    exact distinct
  · exact fun _ runs => absurd runs Bool.false_ne_true
  · exact fun _ member => absurd member List.not_mem_nil

theorem Ledger.step {others stuck : List Task} (ledger : x.Ledger others stuck s) {label : Label}
    (move : x.step s label = some s') :
    s'.Stopped ∨ ∃ stuck, x.Ledger others stuck s' := by
  cases label with
  | test =>
    obtain ⟨phase, outcome⟩ := step_test move
    have done : s.done = s.logged := by rw [State.done, phase]; rfl
    obtain ⟨-, rfl⟩ | ⟨-, -, rfl⟩ := outcome <;>
      exact .inr ⟨stuck, ledger.rephase (by rw [done]; rfl)⟩
  | pop choice draw =>
    obtain ⟨task, phase, ready, ⟨message, -, rfl⟩ | scheduled⟩ := step_pop move
    · exact .inl trivial
    · exact .inr (ledger.pop phase ready scheduled)
  | start =>
    obtain ⟨phase, -, rfl⟩ := step_start move
    have done : s.done = s.logged := by rw [State.done, phase]; rfl
    exact .inr ⟨stuck, ledger.rephase (by rw [done]; rfl)⟩
  | visit choice event =>
    obtain ⟨todo, device, after, phase, -, visited, rfl⟩ := step_visit move
    exact .inr ⟨stuck, ledger.visit phase visited _⟩
  | complete =>
    obtain ⟨phase, outcome⟩ := step_complete move
    have done : s.done = s.logged := by rw [State.done, phase]; rfl
    obtain ⟨-, rfl⟩ | ⟨earliest, -, rfl⟩ := outcome
    · exact .inl trivial
    · exact .inr ⟨stuck, ledger.rephase (by rw [done]; rfl)⟩
  | ring choice => exact .inr ⟨stuck, ledger.ring move⟩
  | release => exact (ledger.release move).imp_right fun after => ⟨stuck, after⟩

/-! ## The clock goes on -/

/-- What holds of the times in a phase. The alarms of a round ring in order. -/
def PhaseTimes (s : State Time) : Prop :=
  match s.phase with
  | .progress _ => s.time = s.now
  | .complete earliest none finished =>
      finished = [] ∧ ∀ alarm ∈ s.alarms, earliest ≤ alarm.time
  | .complete earliest (some last) _ =>
      earliest ≤ last ∧ (last = ⊥ ∨ s.now ≤ last) ∧ ∀ alarm ∈ s.alarms, last ≤ alarm.time
  | _ => True

/-- No alarm is behind the clock, unless its thunk never ends. -/
structure Orderly (s : State Time) : Prop where
  now : 0 ≤ s.now
  alarms : ∀ alarm ∈ s.alarms, alarm.time = ⊥ ∨ s.now ≤ alarm.time
  active : ∀ entry ∈ s.active, 0 ≤ entry.2.time
  phase : PhaseTimes s

/-- A visit turns some events of the device into alarms, and keeps the others. Only a CPU that
stands keeps count of it, and only a domain or a CPU may have something left. -/
theorem visit_moved {device : Device} (visited : x.visit s device event = some s') :
    ∃ taken kept running, (taken ++ kept).Perm s.active ∧ (∀ entry ∈ taken, entry.1 = device) ∧
      s' = { s with
        active := kept
        alarms := taken.map (fun entry => x.alarm s.time entry.1 entry.2) ++ s.alarms
        running := running } ∧
      ((∀ id, device ≠ .cpu id) ∧ running = s.running ∧
          ((∀ entry ∈ kept, entry.1 ≠ device) ∨ ∃ id entry, device = .numa id ∧ taken = [entry]) ∨
        ∃ id, device = .cpu id ∧
          (taken = [] ∧ running = s.running ∧
              ((∀ entry ∈ kept, entry.1 ≠ device) ∨ s.running id = true) ∨
            s.running id = false ∧ running = Function.update s.running id true ∧
              ∃ entry, taken = [entry])) := by
  obtain ⟨rfl, idle⟩ | ⟨id, rfl, -, rfl⟩ | ⟨id, rfl, taken⟩ |
    ⟨id, after, rfl, stands, taken, rfl⟩ :=
    visit_cases visited
  · refine ⟨[], s'.active, s'.running, List.Perm.refl _,
      fun _ member => absurd member List.not_mem_nil, rfl, ?_⟩
    -- Nothing is taken: the device is idle, or it is a CPU that runs.
    by_cases cpu : ∃ id, device = .cpu id
    · obtain ⟨id, rfl⟩ := cpu
      refine .inr ⟨id, rfl, .inl ⟨rfl, rfl, ?_⟩⟩
      obtain idle | ⟨_, same, runs⟩ := idle
      · exact .inl idle
      · cases same
        exact .inr runs
    · simp only [not_exists] at cpu
      refine .inl ⟨cpu, rfl, .inl ?_⟩
      obtain idle | ⟨id, same, -⟩ := idle
      · exact idle
      · exact absurd same (cpu id)
  · -- A link gives all it has at once.
    refine ⟨s.active.filter fun entry => entry.1 = .link id,
      s.active.filter fun entry => entry.1 ≠ .link id, s.running, ?_, ?_, ?_, ?_⟩
    · have split := List.filter_append_perm (fun entry : Device × Event Time => entry.1 = .link id)
        s.active
      simpa using split
    · exact fun entry member => of_decide_eq_true (List.mem_filter.mp member).2
    · have same : (s.active.filter fun entry => entry.1 = .link id).map
          (fun entry => x.alarm s.time (.link id) entry.2) =
          (s.active.filter fun entry => entry.1 = .link id).map
            fun entry => x.alarm s.time entry.1 entry.2 :=
        List.map_congr_left fun entry member => by
          rw [show entry.1 = .link id from of_decide_eq_true (List.mem_filter.mp member).2]
      rw [takeAll, same]
    · exact .inl ⟨(fun _ other => by cases other), rfl, .inl fun entry member =>
        of_decide_eq_true (List.mem_filter.mp member).2⟩
  · -- A domain gives the one event that it takes out at random.
    obtain ⟨entry, chosen, rfl⟩ := take_cases taken
    refine ⟨[(.numa id, entry)], _, s.running, perm_eraseIdx chosen, ?_, rfl, ?_⟩
    · exact List.forall_mem_singleton.mpr rfl
    · exact .inl ⟨(fun _ other => by cases other), rfl, .inr ⟨id, _, rfl, rfl⟩⟩
  · -- So does a CPU that stands, and it runs from here on.
    obtain ⟨entry, chosen, rfl⟩ := take_cases taken
    refine ⟨[(.cpu id, entry)], _, _, perm_eraseIdx chosen, ?_, rfl, ?_⟩
    · exact List.forall_mem_singleton.mpr rfl
    · exact .inr ⟨id, rfl, .inr ⟨stands, rfl, _, rfl⟩⟩

/-- A visit turns some events of the device into alarms, and all events of a link. -/
theorem visit_takes {device : Device} (visited : x.visit s device event = some s') :
    ∃ taken kept running, (taken ++ kept).Perm s.active ∧
      (∀ entry ∈ taken, entry.1 = device) ∧ (device.IsLink → ∀ entry ∈ kept, entry.1 ≠ device) ∧
      s' = { s with
        active := kept
        alarms := taken.map (fun entry => x.alarm s.time entry.1 entry.2) ++ s.alarms
        running := running } := by
  obtain ⟨taken, kept, running, split, own, rfl, rest⟩ := visit_moved visited
  refine ⟨taken, kept, running, split, own, fun link => ?_, rfl⟩
  obtain ⟨-, -, none | ⟨id, entry, rfl, -⟩⟩ | ⟨id, rfl, -⟩ := rest
  · exact none
  · exact link.elim
  · exact link.elim

/-- No alarm is set for a time before now. -/
theorem le_alarm (unsigned : x.Unsigned) {now : Time} {entry : Device × Event Time}
    (time : 0 ≤ entry.2.time) : (x.alarm now entry.1 entry.2).time = ⊥ ∨
      now ≤ (x.alarm now entry.1 entry.2).time := by
  obtain ⟨_ | id | _, event⟩ := entry
  · exact .inr (le_add_of_nonneg_right time)
  · exact Clock.end_of_unsigned (unsigned.cputime event.task.tid)
  · exact .inr le_rfl

/-- The end of `complete` raises an exception, or logs what has finished, whether or not the run
then waits in the debugger. -/
theorem release_frame (move : x.step s .release = some s') :
    ∃ earliest last finished, s.phase = .complete earliest (some last) finished ∧
      (last < 0 ∧ s' = { s with phase := .raised "Wrong time" } ∨
        0 ≤ last ∧ ∃ phase wait ready, (phase = .test ∨ phase = .debugging) ∧ s' = { s with
          phase := phase
          now := last
          log := (finished.map fun task => (task, last)).reverse ++ s.log
          wait := wait
          ready := ready }) := by
  obtain ⟨earliest, last, finished, phase, -, outcome⟩ := step_release move
  refine ⟨earliest, last, finished, phase, ?_⟩
  obtain raised | ⟨late, -, -, rfl⟩ | ⟨late, -, rfl⟩ := outcome
  · exact .inl raised
  · exact .inr ⟨late, _, _, _, .inr rfl, rfl⟩
  · obtain ⟨wait, ready, released⟩ := @foldl_release Time x { s with now := last } finished
    exact .inr ⟨late, .test, wait, ready, .inl rfl, by rw [released]⟩

namespace Orderly

theorem pop (orderly : Orderly s) (unsigned : x.Unsigned)
    (move : x.step s (.pop choice draw) = some s') : Orderly s' := by
  obtain ⟨task, phase, -, ⟨message, -, rfl⟩ | scheduled⟩ := step_pop move
  · exact ⟨orderly.now, orderly.alarms, orderly.active, trivial⟩
  · obtain ⟨entries, booked, books, -⟩ := schedule_booked scheduled
    have phase' : s'.phase = .schedule := by rw [booked]; exact phase
    have times : PhaseTimes s' := by rw [PhaseTimes, phase']; trivial
    rw [booked] at times ⊢
    refine ⟨orderly.now, orderly.alarms, ?_, times⟩
    exact List.forall_mem_append.mpr
      ⟨orderly.active, fun entry member => (books entry member).2.2 unsigned.arch⟩

theorem visit (orderly : Orderly s) (unsigned : x.Unsigned)
    (move : x.step s (.visit choice event) = some s') : Orderly s' := by
  obtain ⟨todo, device, after, phase, -, visited, rfl⟩ := step_visit move
  obtain ⟨taken, kept, running, split, -, -, rfl⟩ := visit_takes visited
  have clock : s.time = s.now := by
    have clock := orderly.phase
    rwa [PhaseTimes, phase] at clock
  refine ⟨orderly.now, ?_, fun entry member => ?_, clock⟩
  · refine List.forall_mem_append.mpr ⟨fun alarm member => ?_, orderly.alarms⟩
    obtain ⟨entry, taking, rfl⟩ := List.mem_map.mp member
    have early := orderly.active entry (split.mem_iff.mp (List.mem_append_left _ taking))
    exact clock ▸ le_alarm unsigned early
  · exact orderly.active entry (split.mem_iff.mp (List.mem_append_right _ member))

theorem ring (orderly : Orderly s) (move : x.step s (.ring choice) = some s') : Orderly s' := by
  obtain ⟨earliest, last, finished, alarm, phase, chosen, first, goes, rfl⟩ := step_ring move
  have member := List.mem_of_getElem? chosen
  have fewer : ∀ other ∈ s.alarms.eraseIdx choice, other ∈ s.alarms := fun other inside =>
    (List.eraseIdx_sublist _ _).subset inside
  have order := orderly.phase
  rw [PhaseTimes, phase] at order
  have late : earliest ≤ alarm.time := by
    cases last with
    | none => exact order.2 alarm member
    | some last => exact order.1.trans (order.2.2 alarm member)
  rw [callBack_eq]
  exact ⟨orderly.now, fun other inside => orderly.alarms other (fewer other inside),
    orderly.active, late, orderly.alarms alarm member, fun other inside =>
      first.2 other (fewer other inside)⟩

theorem release (orderly : Orderly s) (move : x.step s .release = some s') : Orderly s' := by
  obtain ⟨earliest, last, finished, phase, ⟨-, rfl⟩ | ⟨late, _, wait, ready, rfl | rfl, rfl⟩⟩ :=
    release_frame move
  · exact ⟨orderly.now, orderly.alarms, orderly.active, trivial⟩
  all_goals
    have order := orderly.phase
    rw [PhaseTimes, phase] at order
    exact ⟨late, fun alarm member => .inr (order.2.2 alarm member), orderly.active, trivial⟩

theorem step (orderly : Orderly s) (unsigned : x.Unsigned) {label : Label}
    (move : x.step s label = some s') : Orderly s' := by
  cases label with
  | test =>
    obtain ⟨-, ⟨-, rfl⟩ | ⟨-, -, rfl⟩⟩ := step_test move <;>
      exact ⟨orderly.now, orderly.alarms, orderly.active, trivial⟩
  | pop choice draw => exact orderly.pop unsigned move
  | start =>
    obtain ⟨-, -, rfl⟩ := step_start move
    exact ⟨orderly.now, orderly.alarms, orderly.active, rfl⟩
  | visit choice event => exact orderly.visit unsigned move
  | complete =>
    obtain ⟨-, ⟨-, rfl⟩ | ⟨earliest, first, rfl⟩⟩ := step_complete move
    · exact ⟨orderly.now, orderly.alarms, orderly.active, trivial⟩
    · exact ⟨orderly.now, orderly.alarms, orderly.active, rfl, first.2⟩
  | ring choice => exact orderly.ring move
  | release => exact orderly.release move

end Orderly

/-! ## One fetch -/

/-- The device has yet to take what was booked in this round. -/
def Ahead (s : State Time) (device : Device) : Prop :=
  match s.phase with
  | .schedule | .raised _ | .debugging => True
  | .progress todo => device ∈ todo
  | _ => False

/-- The longest link event of a fetch is booked or rings, or the fetch waits for its own domain
when all links are through. -/
def Pending (s : State Time) (task : Task) (start : Time) (span : Time) : Prop :=
  (∃ entry ∈ s.active, entry.1.IsLink ∧ entry.2.task = task ∧ entry.2.time = span) ∨
    (∃ alarm ∈ s.alarms, alarm.event.task = task ∧ alarm.time = start + span) ∨
    start + span ≤ s.clock ∧ ∃ entry ∈ s.active, entry.1.IsNuma ∧ entry.2.task = task

/-- A fetch that was scheduled at some time with a longest link event is on time. -/
structure Fetching (s : State Time) (task : Task) (start : Time) (span : Time) : Prop where
  scheduled : task ∈ s.scheduled
  nonneg : 0 ≤ start + span
  logged : ∀ time, (task, time) ∈ s.log → time = start + span
  finished : ∀ earliest last finished, s.phase = .complete earliest last finished →
    task ∈ finished → last = some (start + span)
  in_time : task ∉ s.done → s.clock ≤ start + span
  active : ∀ entry ∈ s.active, entry.2.task = task → entry.1.IsNuma ∨
    entry.1.IsLink ∧ entry.2.time ≤ span ∧ s.now = start ∧ Ahead s entry.1
  alarms : ∀ alarm ∈ s.alarms, alarm.event.task = task → alarm.time ≤ start + span
  pending : task ∉ s.done → Pending s task start span

theorem alarm_link {now : Time} {entry : Device × Event Time} (link : entry.1.IsLink) :
    (x.alarm now entry.1 entry.2).time = now + entry.2.time := by
  obtain ⟨_ | _ | _, event⟩ := entry
  · rfl
  · exact link.elim
  · exact link.elim

theorem alarm_numa {now : Time} {entry : Device × Event Time} (numa : entry.1.IsNuma) :
    (x.alarm now entry.1 entry.2).time = now := by
  obtain ⟨_ | _ | _, event⟩ := entry
  · exact numa.elim
  · exact numa.elim
  · rfl

theorem not_isLink {device : Device} (numa : device.IsNuma) : ¬ device.IsLink := by
  cases device with
  | link id => exact numa.elim
  | cpu id => exact numa.elim
  | numa _ => exact id

theorem now_le_clock : s.now ≤ s.clock := by
  rw [State.clock]
  split
  · exact le_max_left _ _
  · exact le_rfl

namespace Fetching

variable {start : Time} {span : Time} {others stuck : List Task}

theorem onTime (fetch : Fetching s task start span) : s.OnTime task (start + span) where
  returned := fetch.logged
  by_then late := by
    by_contra undone
    exact (fetch.in_time undone).not_gt late

/-- Going on to another phase changes nothing. -/
theorem rephase (fetch : Fetching s task start span) {phase : Phase Time} {time : Time}
    (done : task ∈ State.done { s with phase := phase, time := time } ↔ task ∈ s.done)
    (clock : State.clock { s with phase := phase, time := time } = s.clock)
    (ahead : ∀ entry ∈ s.active, Ahead s entry.1 →
      Ahead { s with phase := phase, time := time } entry.1)
    (first : ∀ earliest last finished, phase = .complete earliest last finished → finished = []) :
    Fetching { s with phase := phase, time := time } task start span where
  scheduled := fetch.scheduled
  nonneg := fetch.nonneg
  logged := fetch.logged
  finished earliest last finished same member := by
    rw [first earliest last finished same] at member
    exact absurd member List.not_mem_nil
  in_time undone := clock ▸ fetch.in_time (done.not.mp undone)
  active entry member own := by
    obtain numa | ⟨link, short, now, visit⟩ := fetch.active entry member own
    · exact .inl numa
    · exact .inr ⟨link, short, now, ahead entry member visit⟩
  alarms := fetch.alarms
  pending undone := by
    obtain link | alarm | ⟨late, numa⟩ := fetch.pending (done.not.mp undone)
    · exact .inl link
    · exact .inr (.inl alarm)
    · exact .inr (.inr ⟨clock.symm ▸ late, numa⟩)

theorem test (fetch : Fetching s task start span) (move : x.step s .test = some s') :
    Fetching s' task start span := by
  obtain ⟨phase, outcome⟩ := step_test move
  have done : s.done = s.logged := by rw [State.done, phase]; rfl
  have clock : s.clock = s.now := by rw [State.clock, phase]
  have none : ∀ device, ¬ Ahead s device := fun device => by rw [Ahead, phase]; exact id
  obtain ⟨-, rfl⟩ | ⟨-, -, rfl⟩ := outcome
  · exact fetch.rephase (by rw [done]; rfl) (by rw [clock]; rfl)
      (fun _ _ visit => absurd visit (none _)) (fun _ _ _ same => by cases same)
  · exact fetch.rephase (by rw [done]; rfl) (by rw [clock]; rfl)
      (fun _ _ visit => absurd visit (none _)) (fun _ _ _ same => by cases same)

theorem begin (fetch : Fetching s task start span) (ledger : x.Ledger others stuck s)
    (move : x.step s .start = some s') : Fetching s' task start span := by
  obtain ⟨phase, -, rfl⟩ := step_start move
  have done : s.done = s.logged := by rw [State.done, phase]; rfl
  have clock : s.clock = s.now := by rw [State.clock, phase]
  exact fetch.rephase (by rw [done]; rfl) (by rw [clock]; rfl)
    (fun entry member _ => ledger.counted.devices entry member) (fun _ _ _ same => by cases same)

theorem complete (fetch : Fetching s task start span) (move : x.step s .complete = some s') :
    Fetching s' task start span := by
  obtain ⟨phase, outcome⟩ := step_complete move
  have done : s.done = s.logged := by rw [State.done, phase]; rfl
  have clock : s.clock = s.now := by rw [State.clock, phase]
  have none : ∀ device, ¬ Ahead s device := fun device => by
    rw [Ahead, phase]
    exact List.not_mem_nil
  obtain ⟨-, rfl⟩ | ⟨earliest, -, rfl⟩ := outcome
  · exact fetch.rephase (by rw [done]; rfl) (by rw [clock]; rfl)
      (fun _ _ visit => absurd visit (none _)) (fun _ _ _ same => by cases same)
  · refine fetch.rephase (by rw [done]; rfl) (by rw [clock]; rfl)
      (fun _ _ visit => absurd visit (none _)) (fun _ _ _ same => ?_)
    cases same
    rfl

/-- Scheduling another task books nothing for this one. -/
theorem pop (fetch : Fetching s task start span) (ledger : x.Ledger others stuck s)
    (move : x.step s (.pop choice draw) = some s') : Fetching s' task start span := by
  obtain ⟨other, phase, ready, outcome⟩ := step_pop move
  have done : s.done = s.logged := by rw [State.done, phase]; rfl
  have clock : s.clock = s.now := by rw [State.clock, phase]
  obtain ⟨message, -, rfl⟩ | scheduled := outcome
  · exact fetch.rephase (by rw [done]; rfl) (by rw [clock]; rfl) (fun _ _ _ => trivial)
      (fun _ _ _ same => by cases same)
  -- A task that is ready has not been scheduled, so it is not the one in question.
  have apart : other ≠ task := by
    rintro rfl
    exact ledger.tracked.fresh other (List.mem_of_getElem? ready)
      (List.mem_append_left _ fetch.scheduled)
  obtain ⟨entries, booked, books, -⟩ := schedule_booked scheduled
  have phase' : s'.phase = .schedule := by rw [booked]; exact phase
  have log' : s'.log = s.log := by rw [booked]; rfl
  have done' : s'.done = s.done := by
    rw [done, State.done, phase', State.logged, log']
    rfl
  have now' : s'.now = s.now := by rw [booked]; rfl
  have clock' : s'.clock = s.clock := by rw [clock, State.clock, phase', now']
  have alarms' : s'.alarms = s.alarms := by rw [booked]; rfl
  have active' : s'.active = s.active ++ entries := by rw [booked]; rfl
  have scheduled' : s'.scheduled = other :: s.scheduled := by rw [booked]; rfl
  refine
    { scheduled := scheduled' ▸ List.mem_cons_of_mem _ fetch.scheduled
      nonneg := fetch.nonneg
      logged := log' ▸ fetch.logged
      finished := fun _ _ _ same => by cases phase'.symm.trans same
      in_time := fun undone => clock' ▸ fetch.in_time (done' ▸ undone)
      active := fun entry member own => ?_
      alarms := alarms' ▸ fetch.alarms
      pending := fun undone => ?_ }
  · rw [active'] at member
    obtain old | new := List.mem_append.mp member
    · obtain numa | ⟨link, short, now, -⟩ := fetch.active entry old own
      · exact .inl numa
      · refine .inr ⟨link, short, now'.trans now, ?_⟩
        rw [Ahead, phase']
        trivial
    · -- The new entries are for the task that is scheduled.
      exact absurd ((books entry new).1.symm.trans own) apart
  · rw [Pending, active', alarms', clock']
    obtain ⟨entry, member, link⟩ | alarm | ⟨late, entry, member, numa⟩ :=
      fetch.pending (done' ▸ undone)
    · exact .inl ⟨entry, List.mem_append_left _ member, link⟩
    · exact .inr (.inl alarm)
    · exact .inr (.inr ⟨late, entry, List.mem_append_left _ member, numa⟩)

theorem visit (fetch : Fetching s task start span) (ledger : x.Ledger others stuck s)
    (kind : task.kind = .comm) (orderly : Orderly s)
    (move : x.step s (.visit choice event) = some s') : Fetching s' task start span := by
  obtain ⟨todo, device, after, phase, chosen, visited, rfl⟩ := step_visit move
  obtain ⟨taken, kept, running, split, own, links, rfl⟩ := visit_takes visited
  have done : s.done = s.logged := by rw [State.done, phase]; rfl
  have clock : s.clock = s.now := by rw [State.clock, phase]
  have time : s.time = s.now := by
    have times := orderly.phase
    rwa [PhaseTimes, phase] at times
  have taken_active : ∀ entry ∈ taken, entry ∈ s.active := fun entry member =>
    split.mem_iff.mp (List.mem_append_left _ member)
  have kept_active : ∀ entry ∈ kept, entry ∈ s.active := fun entry member =>
    split.mem_iff.mp (List.mem_append_right _ member)
  -- a domain that takes the fetch does so in time
  have in_time : ∀ entry ∈ s.active, entry.2.task = task → s.now ≤ start + span := by
    intro entry member same
    refine clock ▸ fetch.in_time fun finished => ?_
    exact ((ledger.done_iff fetch.scheduled kind).mp finished).1 entry member same
  refine
    { scheduled := fetch.scheduled
      nonneg := fetch.nonneg
      logged := fetch.logged
      finished := fun _ _ _ same => by cases same
      in_time := fun undone => clock ▸ fetch.in_time (done ▸ undone)
      active := fun entry member same => ?_
      alarms := ?_
      pending := fun undone => ?_ }
  · obtain numa | ⟨link, short, now, todo⟩ := fetch.active entry (kept_active entry member) same
    · exact .inl numa
    · refine .inr ⟨link, short, now, ?_⟩
      rw [Ahead, phase] at todo
      refine mem_eraseIdx_of_ne chosen todo fun visiting => ?_
      exact links (visiting ▸ link) entry member visiting
  · refine List.forall_mem_append.mpr ⟨fun alarm member same => ?_, fetch.alarms⟩
    obtain ⟨entry, taking, rfl⟩ := List.mem_map.mp member
    rw [alarm_event] at same
    have active := taken_active entry taking
    obtain numa | ⟨link, short, now, -⟩ := fetch.active entry active same
    · rw [alarm_numa numa, time]
      exact in_time entry active same
    · rw [alarm_link link, time, now]
      exact add_le_add_right short start
  · obtain ⟨entry, member, link, same, longest⟩ | ⟨alarm, member, rings⟩ |
      ⟨late, entry, member, numa, same⟩ := fetch.pending (done ▸ undone)
    · obtain taking | waits := List.mem_append.mp (split.mem_iff.mpr member)
      · refine .inr (.inl ⟨_, List.mem_append_left _ (List.mem_map_of_mem taking), ?_, ?_⟩)
        · rw [alarm_event, same]
        · obtain numa | ⟨-, -, now, -⟩ := fetch.active entry member same
          · exact absurd link (not_isLink numa)
          · rw [alarm_link link, longest, time, now]
      · exact .inl ⟨entry, waits, link, same, longest⟩
    · exact .inr (.inl ⟨alarm, List.mem_append_right _ member, rings⟩)
    · rw [clock] at late
      obtain taking | waits := List.mem_append.mp (split.mem_iff.mpr member)
      · refine .inr (.inl ⟨_, List.mem_append_left _ (List.mem_map_of_mem taking), ?_, ?_⟩)
        · rw [alarm_event, same]
        · rw [alarm_numa numa, time]
          exact le_antisymm (in_time entry member same) late
      · exact .inr (.inr ⟨late, entry, waits, numa, same⟩)

/-- No alarm that rings while a fetch is open is behind its time, unless its domain lets it
wait. -/
theorem alarm_le (fetch : Fetching s task start span) {earliest : Time} {last : Option Time}
    {finished : List Task} (phase : s.phase = .complete earliest last finished) {alarm : Alarm Time}
    (chosen : s.alarms[choice]? = some alarm) (first : Earliest s.alarms alarm.time)
    (turn : State.TakesTurn task (start + span) s (.ring choice)) (undone : task ∉ s.done) :
    alarm.time ≤ start + span := by
  obtain ⟨entry, member, link, same, -⟩ | ⟨other, member, -, rings⟩ |
    ⟨-, entry, member, numa, same⟩ := fetch.pending undone
  · -- the links have taken everything when the first alarm rings
    obtain numa | ⟨-, -, -, visit⟩ := fetch.active entry member same
    · exact absurd link (not_isLink numa)
    · rw [Ahead, phase] at visit
      exact visit.elim
  · exact rings ▸ first.2 other member
  · exact turn choice alarm entry rfl chosen member numa same

theorem ring (fetch : Fetching s task start span) (ledger : x.Ledger others stuck s)
    (kind : task.kind = .comm) (orderly : Orderly s)
    (turn : State.TakesTurn task (start + span) s (.ring choice))
    (move : x.step s (.ring choice) = some s') : Fetching s' task start span := by
  have ledger' := ledger.ring move
  obtain ⟨earliest, last, finished, alarm, phase, chosen, first, goes, same⟩ := step_ring move
  rw [callBack_eq] at same
  have done : s.done = finished ++ s.logged := by rw [State.done, phase]
  have late : ∀ device, ¬ Ahead s device := fun device => by rw [Ahead, phase]; exact id
  have times := orderly.phase
  rw [PhaseTimes, phase] at times
  have member := List.mem_of_getElem? chosen
  have fewer : ∀ other ∈ s.alarms.eraseIdx choice, other ∈ s.alarms := fun other inside =>
    (List.eraseIdx_sublist _ _).subset inside
  have active' : s'.active = s.active := by rw [same]
  have alarms' : s'.alarms = s.alarms.eraseIdx choice := by rw [same]
  have clock' : s'.clock = max s.now alarm.time := by rw [same]; rfl
  have scheduled' : s'.scheduled = s.scheduled := by rw [same]
  have log' : s'.log = s.log := by rw [same]
  have phase' : s'.phase = .complete earliest (some alarm.time)
      (if s.counter alarm.event.task - 1 = 0 then finished ++ [alarm.event.task]
        else finished) := by rw [same]
  have done' : s'.done = (if s.counter alarm.event.task - 1 = 0
      then finished ++ [alarm.event.task] else finished) ++ s.logged := by
    rw [State.done, phase', State.logged, log', State.logged]
  have more : task ∈ s.done → task ∈ s'.done := by
    rw [done, done']
    intro already
    split_ifs
    · exact List.mem_append.mpr ((List.mem_append.mp already).imp_left (List.mem_append_left _))
    · exact already
  have le_clock : s.clock ≤ s'.clock := by
    rw [clock', State.clock, phase]
    cases last with
    | none => exact le_max_left _ _
    | some last => exact max_le_max le_rfl (times.2.2 alarm member)
  have done_iff' := ledger'.done_iff (scheduled' ▸ fetch.scheduled) kind
  rw [active', alarms'] at done_iff'
  have no_link : ∀ entry ∈ s.active, entry.2.task = task → entry.1.IsNuma := by
    intro entry member own
    obtain numa | ⟨-, -, -, visit⟩ := fetch.active entry member own
    · exact numa
    · exact absurd visit (late _)
  refine
    { scheduled := scheduled' ▸ fetch.scheduled
      nonneg := fetch.nonneg
      logged := log' ▸ fetch.logged
      finished := ?_
      in_time := fun undone => ?_
      active := fun entry member own => .inl (no_link entry (active' ▸ member) own)
      alarms := fun other member => fetch.alarms other (fewer other (alarms' ▸ member))
      pending := fun undone => ?_ }
  · rintro _ _ round current own
    obtain ⟨rfl, rfl, rfl⟩ := Phase.complete.inj (phase'.symm.trans current)
    refine congrArg some ?_
    by_cases before : task ∈ finished
    · -- once something is finished only the alarms of the same time ring
      obtain rfl := fetch.finished _ _ _ phase before
      have now := goes.resolve_right (List.ne_nil_of_mem before)
      exact le_antisymm (now.trans_le times.1) (times.2.2 alarm member)
    · have last_event : alarm.event.task = task := by
        split_ifs at own
        · exact (List.mem_singleton.mp ((List.mem_append.mp own).resolve_left before)).symm
        · exact absurd own before
      have undone : task ∉ s.done := fun finished =>
        ((ledger.done_iff fetch.scheduled kind).mp finished).2 alarm member last_event
      obtain ⟨waits, rings⟩ := done_iff'.mp (done' ▸ List.mem_append_left _ own)
      refine le_antisymm (fetch.alarm_le phase chosen first turn undone) ?_
      -- nothing is left, so this was the alarm of the longest link
      obtain ⟨entry, inside, -, own, -⟩ | ⟨other, inside, own, time⟩ |
        ⟨-, entry, inside, -, own⟩ := fetch.pending undone
      · exact absurd own (waits entry inside)
      · by_cases rung : other = alarm
        · exact rung ▸ time.ge
        · exact absurd own (rings other (mem_eraseIdx_of_ne chosen inside rung))
      · exact absurd own (waits entry inside)
  · have undone := fun before => undone (more before)
    rw [clock']
    exact max_le (now_le_clock.trans (fetch.in_time undone))
      (fetch.alarm_le phase chosen first turn undone)
  · rw [Pending, active', alarms']
    obtain ⟨entry, inside, link, own, -⟩ | ⟨other, inside, own, rings⟩ | ⟨waits, numa⟩ :=
      fetch.pending fun before => undone (more before)
    · exact absurd link (not_isLink (no_link entry inside own))
    · by_cases rung : other = alarm
      · -- the rest of the fetch rings at the same time, or waits for the domain
        rw [rung] at own rings
        rw [done_iff', not_and_or] at undone
        push Not at undone
        obtain ⟨entry, inside, own⟩ | ⟨other, inside, own⟩ := undone
        · refine .inr (.inr ⟨?_, entry, inside, no_link entry inside own, own⟩)
          rw [clock', ← rings]
          exact le_max_right _ _
        · refine .inr (.inl ⟨other, inside, own, le_antisymm ?_ ?_⟩)
          · exact fetch.alarms other (fewer other inside) own
          · exact rings ▸ first.2 other (fewer other inside)
      · exact .inr (.inl ⟨other, mem_eraseIdx_of_ne chosen inside rung, own, rings⟩)
    · exact .inr (.inr ⟨waits.trans le_clock, numa⟩)

theorem release (fetch : Fetching s task start span) (orderly : Orderly s)
    (move : x.step s .release = some s') : Fetching s' task start span := by
  obtain ⟨earliest, last, finished, phase, outcome⟩ := release_frame move
  have done : s.done = finished ++ s.logged := by rw [State.done, phase]
  have clock : s.clock = max s.now last := by rw [State.clock, phase]
  have late : ∀ device, ¬ Ahead s device := fun device => by rw [Ahead, phase]; exact id
  have times := orderly.phase
  rw [PhaseTimes, phase] at times
  -- Alarms that ring before the time: nothing is released, and the clock stays.
  obtain ⟨early, rfl⟩ | ⟨start_le, after, wait, ready, stops, rfl⟩ := outcome
  · have never : last = ⊥ := times.2.1.resolve_right fun later =>
      (orderly.now.trans later).not_gt early
    refine fetch.rephase ?_ ?_ (fun _ _ _ => trivial) (fun _ _ _ same => by cases same)
    · rw [done, List.mem_append]
      refine (or_iff_right fun member => ?_).symm
      obtain rfl := Option.some.inj (fetch.finished _ _ _ phase member)
      exact fetch.nonneg.not_gt early
    · rw [clock, never, max_eq_left bot_le]
      rfl
  · -- The time has gone up to that of the last alarm.
    have now_le : s.now ≤ last := times.2.1.resolve_left fun never =>
      absurd (never ▸ start_le) Clock.not_nonneg_bot
    rw [max_eq_right now_le] at clock
    have logged : ((finished.map fun task => (task, last)).reverse ++ s.log).map Prod.fst =
        finished.reverse ++ s.logged := by
      rw [List.map_append, List.map_reverse, List.map_map]
      exact congrArg (fun tasks => tasks.reverse ++ _) (List.map_id finished)
    -- Those that have just finished are in the log now; the set of the finished is the same.
    have done_iff : ∀ s' : State Time, s'.phase = after →
        s'.log = (finished.map fun task => (task, last)).reverse ++ s.log →
        (task ∈ s'.done ↔ task ∈ s.done) ∧ s'.clock = s'.now := by
      rintro s' rfl log
      have logged' : s'.logged = finished.reverse ++ s.logged := by
        rw [State.logged, log, logged]
      have done' : s'.done = s'.logged := by
        obtain stops | stops := stops <;> rw [State.done, stops] <;> rfl
      refine ⟨?_, by obtain stops | stops := stops <;> rw [State.clock, stops]⟩
      rw [done, done', logged', List.mem_append, List.mem_append, List.mem_reverse]
    obtain ⟨same, clock'⟩ := done_iff
      { s with
        phase := after
        now := last
        log := (finished.map fun task => (task, last)).reverse ++ s.log
        wait := wait
        ready := ready } rfl rfl
    refine
      { scheduled := fetch.scheduled
        nonneg := fetch.nonneg
        logged := fun time entry => ?_
        finished := fun _ _ _ current => ?_
        in_time := fun undone => clock' ▸ clock ▸ fetch.in_time (same.not.mp undone)
        active := fun entry member own => ?_
        alarms := fetch.alarms
        pending := fun undone => ?_ }
    · obtain new | old := List.mem_append.mp entry
      · obtain ⟨_, member, both⟩ := List.mem_map.mp (List.mem_reverse.mp new)
        cases both
        exact Option.some.inj (fetch.finished _ _ _ phase member)
      · exact fetch.logged time old
    · obtain rfl | rfl := stops <;> cases current
    · -- No device is visited any more, so what is left waits at a domain.
      obtain numa | ⟨-, -, -, visit⟩ := fetch.active entry member own
      · exact .inl numa
      · exact absurd visit (late _)
    · obtain link | alarm | ⟨waits, numa⟩ := fetch.pending (same.not.mp undone)
      · exact .inl link
      · exact .inr (.inl alarm)
      · exact .inr (.inr ⟨clock' ▸ clock ▸ waits, numa⟩)

theorem step (fetch : Fetching s task start span) (ledger : x.Ledger others stuck s)
    (kind : task.kind = .comm) (orderly : Orderly s) {label : Label}
    (turn : State.TakesTurn task (start + span) s label) (move : x.step s label = some s') :
    Fetching s' task start span := by
  cases label with
  | test => exact fetch.test move
  | pop choice draw => exact fetch.pop ledger move
  | start => exact fetch.begin ledger move
  | visit choice event => exact fetch.visit ledger kind orderly move
  | complete => exact fetch.complete move
  | ring choice => exact fetch.ring ledger kind orderly turn move
  | release => exact fetch.release orderly move

/-- A fetch that waits for its domain when a later alarm rings is late. -/
theorem takesTurn (fetch : Fetching s task start span) (ledger : x.Ledger others stuck s)
    (kind : task.kind = .comm) {label : Label} (move : x.step s label = some s')
    (after : s'.OnTime task (start + span)) : State.TakesTurn task (start + span) s label := by
  rintro choice alarm entry rfl chosen member numa own
  by_contra late
  have ledger' := ledger.ring move
  obtain ⟨earliest, last, finished, _, phase, chosen', -, -, same⟩ := step_ring move
  obtain rfl := Option.some.inj (chosen.symm.trans chosen')
  rw [callBack_eq] at same
  have scheduled' : s'.scheduled = s.scheduled := by rw [same]
  have active' : s'.active = s.active := by rw [same]
  have clock' : s'.clock = max s.now alarm.time := by rw [same]; rfl
  have through : start + span < s'.clock := clock' ▸ (not_le.mp late).trans_le (le_max_right _ _)
  have done := (ledger'.done_iff (scheduled' ▸ fetch.scheduled) kind).mp (after.by_then through)
  exact done.1 entry (active' ▸ member) own

end Fetching

/-! ## What is booked -/

/-- The greatest of some times and zero. -/
theorem foldr_max (entries : List (Device × Event Time)) :
    0 ≤ entries.foldr (fun entry time => max entry.2.time time) 0 ∧
      (∀ entry ∈ entries,
        entry.2.time ≤ entries.foldr (fun entry time => max entry.2.time time) 0) ∧
      (entries.foldr (fun entry time => max entry.2.time time) 0 = 0 ∨
        ∃ entry ∈ entries,
          entry.2.time = entries.foldr (fun entry time => max entry.2.time time) 0) := by
  induction entries with
  | nil => exact ⟨le_rfl, fun _ member => absurd member List.not_mem_nil, .inl rfl⟩
  | cons entry rest ih =>
    obtain ⟨nonneg, bound, among⟩ := ih
    rw [List.foldr_cons]
    refine ⟨nonneg.trans (le_max_right _ _), ?_, ?_⟩
    · exact List.forall_mem_cons.mpr ⟨le_max_left _ _, fun other member =>
        (bound other member).trans (le_max_right _ _)⟩
    · obtain less | more := le_total entry.2.time
        (rest.foldr (fun entry time => max entry.2.time time) 0)
      · rw [max_eq_right less]
        obtain zero | ⟨other, member, same⟩ := among
        · exact .inl zero
        · exact .inr ⟨other, List.mem_cons_of_mem _ member, same⟩
      · exact .inr ⟨entry, List.mem_cons_self, (max_eq_left more).symm⟩

theorem longest_spec (s : State Time) (task : Task) : 0 ≤ s.longest task ∧
    (∀ entry ∈ s.active, entry.1.IsLink → entry.2.task = task →
      entry.2.time ≤ s.longest task) ∧
    (s.longest task = 0 ∨ ∃ entry ∈ s.active, entry.1.IsLink ∧ entry.2.task = task ∧
      entry.2.time = s.longest task) := by
  obtain ⟨nonneg, bound, among⟩ := foldr_max
    (s.active.filter fun entry => entry.1.IsLink ∧ entry.2.task = task)
  refine ⟨nonneg, fun entry member link own => ?_, ?_⟩
  · exact bound entry (List.mem_filter.mpr ⟨member, decide_eq_true ⟨link, own⟩⟩)
  · obtain zero | ⟨entry, member, same⟩ := among
    · exact .inl zero
    · obtain ⟨inside, both⟩ := List.mem_filter.mp member
      exact .inr ⟨entry, inside, (of_decide_eq_true both).1, (of_decide_eq_true both).2, same⟩

/-- A fetch that has been scheduled books links and its own domain. -/
theorem scheduled_comm (kind : task.kind = .comm)
    (scheduled : x.schedule draw task s = .ok s') :
    ∃ own moves, s' = s.booked task (moves ++ [(.numa own, ⟨task, 0⟩)]) s'.numas ∧
      x.BooksLinks task moves := by
  simp only [schedule, kind] at scheduled
  obtain ⟨own, -, scheduled⟩ := Folds.bind_ok.mp scheduled
  obtain ⟨moves, same, links⟩ := scheduleComm_booked kind scheduled
  exact ⟨own, moves, same, links⟩

/-- A fetch that has just been scheduled is on time. -/
theorem fetching_of_pop {others stuck : List Task} (ledger : x.Ledger others stuck s)
    (orderly : Orderly s) (phase : s.phase = .schedule) (ready : s.ready[choice]? = some task)
    (kind : task.kind = .comm)
    (scheduled : x.schedule draw task { s with
      ready := s.ready.eraseIdx choice
      scheduled := task :: s.scheduled } = .ok s') :
    Fetching s' task s'.now (s'.longest task) := by
  obtain ⟨undone, active, alarms⟩ := ledger.fresh (List.mem_of_getElem? ready)
  obtain ⟨own, moves, booked, links⟩ := scheduled_comm kind scheduled
  obtain ⟨nonneg, bound, among⟩ := longest_spec s' task
  have phase' : s'.phase = .schedule := by rw [booked]; exact phase
  have now' : s'.now = s.now := by rw [booked]; rfl
  have active' : s'.active = s.active ++ (moves ++ [(.numa own, ⟨task, 0⟩)]) := by
    rw [booked]
    rfl
  have alarms' : s'.alarms = s.alarms := by rw [booked]; rfl
  have log' : s'.log = s.log := by rw [booked]; rfl
  have clock' : s'.clock = s'.now := by rw [State.clock, phase']
  have logged : task ∉ s.logged := fun member => undone (List.mem_append_right _ member)
  -- The event at its own domain is booked first of all.
  have waits : (.numa own, ⟨task, 0⟩) ∈ s'.active := by
    rw [active']
    simp
  have soon : s'.now ≤ s'.now + s'.longest task := le_add_of_nonneg_right nonneg
  refine
    { scheduled := ?_
      nonneg := (now' ▸ orderly.now).trans soon
      logged := fun time entry => ?_
      finished := fun _ _ _ same => by cases phase'.symm.trans same
      in_time := fun _ => clock'.trans_le soon
      active := fun entry member same => ?_
      alarms := fun alarm member same => absurd same (alarms alarm (alarms' ▸ member))
      pending := fun _ => ?_ }
  · rw [booked]
    exact List.mem_cons_self
  · exact absurd (List.mem_map_of_mem (log' ▸ entry)) logged
  · have inside := member
    rw [active', List.mem_append, List.mem_append, List.mem_singleton] at inside
    obtain old | link | rfl := inside
    · exact absurd same (active entry old)
    · obtain ⟨-, ⟨id, -, device⟩, -⟩ := links entry link
      have link : entry.1.IsLink := device ▸ trivial
      refine .inr ⟨link, bound entry member link same, rfl, ?_⟩
      rw [Ahead, phase']
      trivial
    · exact .inl trivial
  · -- Without a link its time is 0, and it waits at its domain only.
    obtain zero | longest := among
    · refine .inr (.inr ⟨?_, _, waits, trivial, rfl⟩)
      rw [clock', zero]
      exact (add_zero _).le
    · exact .inl longest

/-- In every state the books are kept and the clock goes on, unless the run has stopped. -/
theorem reachable_ledger (unsigned : x.Unsigned)
    (reach : x.system.Reachable Transition.AnyStep s) :
    Orderly s ∧ (s.Stopped ∨ ∃ others stuck, x.Ledger others stuck s) := by
  refine reach.invariant
    (fun s => Orderly s ∧ (s.Stopped ∨ ∃ others stuck, x.Ledger others stuck s)) ?_ ?_
  · rintro _ ⟨entry, first, rfl⟩
    refine ⟨⟨le_rfl, ?_, ?_, trivial⟩, .inr ⟨_, ledger_initial ⟨entry, first, rfl⟩⟩⟩
    · exact fun _ member => absurd member List.not_mem_nil
    · exact fun _ member => absurd member List.not_mem_nil
  · rintro s label s' ⟨orderly, stopped | ⟨others, stuck, ledger⟩⟩ - move
    · exact absurd move (not_step_of_stopped stopped)
    · exact ⟨orderly.step unsigned move, (ledger.step move).imp_right fun after => ⟨others, after⟩⟩

/-- A fetch is on time, and has been so far if the run has stopped. -/
def Followed (x : Execution Time) (task : Task) (start span : Time) (s : State Time) : Prop :=
  s.Stopped ∧ s.OnTime task (start + span) ∨
    Orderly s ∧ Fetching s task start span ∧ ∃ others stuck, x.Ledger others stuck s

namespace Followed

variable {start : Time} {span : Time} {label : Label}

theorem onTime (followed : x.Followed task start span s) : s.OnTime task (start + span) := by
  obtain ⟨-, onTime⟩ | ⟨-, fetch, -⟩ := followed
  · exact onTime
  · exact fetch.onTime

theorem step (followed : x.Followed task start span s) (unsigned : x.Unsigned)
    (kind : task.kind = .comm) (turn : State.TakesTurn task (start + span) s label)
    (move : x.step s label = some s') : x.Followed task start span s' := by
  obtain ⟨stopped, -⟩ | ⟨orderly, fetch, others, stuck, ledger⟩ := followed
  · exact absurd move (not_step_of_stopped stopped)
  · have fetch' := fetch.step ledger kind orderly turn move
    obtain stopped | ⟨stuck, ledger'⟩ := ledger.step move
    · exact .inl ⟨stopped, fetch'.onTime⟩
    · exact .inr ⟨orderly.step unsigned move, fetch', others, stuck, ledger'⟩

theorem takesTurn (followed : x.Followed task start span s) (kind : task.kind = .comm)
    (move : x.step s label = some s') (after : s'.OnTime task (start + span)) :
    State.TakesTurn task (start + span) s label := by
  obtain ⟨stopped, -⟩ | ⟨-, fetch, others, stuck, ledger⟩ := followed
  · exact absurd move (not_step_of_stopped stopped)
  · exact fetch.takesTurn ledger kind move after

/-- A fetch that is popped is on time, whether or not it can be scheduled. -/
theorem of_pop {others stuck : List Task} (ledger : x.Ledger others stuck s)
    (orderly : Orderly s) (unsigned : x.Unsigned) (ready : s.ready[choice]? = some task)
    (kind : task.kind = .comm) (move : x.step s (.pop choice draw) = some s') :
    x.Followed task s'.now (s'.longest task) s' := by
  have orderly' := orderly.pop unsigned move
  obtain ⟨found, phase, popped, outcome⟩ := step_pop move
  obtain rfl := Option.some.inj (ready.symm.trans popped)
  obtain ⟨message, -, rfl⟩ | scheduled := outcome
  · -- a fetch that cannot be scheduled is never returned
    obtain ⟨undone, -⟩ := ledger.fresh (List.mem_of_getElem? popped)
    refine .inl ⟨trivial, fun time entry => ?_, fun late => ?_⟩
    · exact absurd (List.mem_append_right _ (List.mem_map_of_mem entry)) undone
    · exact absurd late (not_lt_of_ge (le_add_of_nonneg_right (longest_spec _ _).1))
  · obtain ⟨stuck, ledger'⟩ := ledger.pop phase popped scheduled
    exact .inr ⟨orderly', fetching_of_pop ledger orderly phase popped kind scheduled, others, stuck,
      ledger'⟩

end Followed

/-- **When a fetch is on time.** A fetch is returned at the time of its scheduling plus its
longest link event just in the runs that pop no later alarm while its own domain lets it wait. -/
theorem onTime_iff_takesTurn (unsigned : x.Unsigned)
    (reach : x.system.Reachable Transition.AnyStep s) (ready : s.ready[choice]? = some task)
    (kind : task.kind = .comm) (move : x.step s (.pop choice draw) = some s') {last : State Time}
    {labels : List Label} (execution : x.system.run s' labels = some last) :
    x.system.Throughout (fun s => s.OnTime task (s'.due task)) s' labels ↔
      x.system.Complies (State.TakesTurn task (s'.due task)) s' labels := by
  obtain ⟨orderly, stopped | ⟨others, stuck, ledger⟩⟩ := reachable_ledger unsigned reach
  · exact absurd move (not_step_of_stopped stopped)
  · exact Transition.System.throughout_iff_complies
      (fun s (followed : x.Followed task s'.now (s'.longest task) s) => followed.onTime)
      (fun s label after followed turn step => followed.step unsigned kind turn step)
      (fun s label after followed step onTime => followed.takesTurn kind step onTime)
      (Followed.of_pop ledger orderly unsigned ready kind move) execution

/-! ## Two fetches for one domain -/

/-- A thunk that writes a page, and two behind it on the other CPU, one of which reads it. -/
def siblings : Execution ExactTime where
  arch := .pair
  prog :=
    { thunks := [(0, 1), (0, 2), (0, 3)]
      edges := [((0, 1), (0, 2)), ((0, 1), (0, 3))]
      data t := ⟨if t.2 = 1 then 0 else 1, (10 : ℕ), if t.2 = 2 then {7} else ∅,
        if t.2 = 1 then {7} else ∅⟩
      distinct := by decide
      single := by decide
      inside := by decide
      acyclic := ⟨Prod.snd, by decide⟩ }
  initPage := .firstTouch
  commit := .noMove

/-- The rest of a round, in which the devices take what is at these places and these alarms
ring. -/
def rest (places rings : List ℕ) : List Label :=
  .start :: places.map (.visit 0) ++ .complete :: rings.map .ring ++ [.release]

/-- Both fetches are ready after three rounds. -/
def fork : Option (State ExactTime) :=
  siblings.system.run (siblings.initial ⟨.comm, (0, 1)⟩) (round 1 ++ round 1 ++ round 1 ++ [.test])

theorem siblings_unsigned : siblings.Unsigned where
  cputime _ := .inr (show (0 : ExactTime) ≤ (10 : ℕ) by decide)
  arch := Architecture.pair_unsigned

theorem reachable_fork {s : State ExactTime} (same : fork = some s) :
    siblings.system.Reachable Transition.AnyStep s := by
  have start : siblings.system.Init (siblings.initial ⟨.comm, (0, 1)⟩) := ⟨_, by decide, rfl⟩
  exact (Transition.System.Reachable.init start).run same

/-- The fetch of a page comes first, and its domain takes it in the round after. -/
theorem onTime_reader : ∃ s s' last labels,
    siblings.system.Reachable Transition.AnyStep s ∧
      siblings.step s (.pop 0 fun _ => 0) = some s' ∧
      siblings.system.run s' labels = some last ∧
      siblings.system.Throughout
        (fun s => s.OnTime ⟨.comm, (0, 2)⟩ (s'.due ⟨.comm, (0, 2)⟩)) s' labels ∧
      (⟨.comm, (0, 2)⟩, 12) ∈ last.log := by
  have ran : fork.any (fun s => decide (s.ready[0]? = some ⟨.comm, (0, 2)⟩) &&
      (siblings.step s (.pop 0 fun _ => 0)).any fun s' =>
        (siblings.system.runIf
          (fun s label => decide (State.TakesTurn ⟨.comm, (0, 2)⟩ (s'.due ⟨.comm, (0, 2)⟩) s label))
          s' (.pop 0 (fun _ => 0) :: rest [0, 0, 0, 0, 1] [0] ++
            [.test, .pop 0 fun _ => 0] ++ rest [0, 0, 1, 0, 0] [0, 1])).any fun last =>
          decide ((⟨.comm, (0, 2)⟩, 12) ∈ last.log)) = true := by decide +kernel
  simp only [Option.any_eq_true, Bool.and_eq_true, decide_eq_true_eq] at ran
  obtain ⟨s, same, ready, s', move, last, execution, logged⟩ := ran
  obtain ⟨turns, follows⟩ := Transition.System.complies_of_runIf
    (fun _ _ => of_decide_eq_true) execution
  exact ⟨s, s', last, _, reachable_fork same, move, follows,
    (onTime_iff_takesTurn siblings_unsigned (reachable_fork same) ready rfl move follows).mpr turns,
    logged⟩

/-- The domain takes it at once, so that the other fetch, which has nothing to wait for, is
late. -/
theorem not_onTime :
    ¬ ∀ (x : Execution ExactTime) (s s' last : State ExactTime) (choice : ℕ) (draw : ℕ → ℕ)
    (task : Task) (labels : List Label), x.Unsigned →
      x.system.Reachable Transition.AnyStep s → s.ready[choice]? = some task →
      task.kind = .comm → x.step s (.pop choice draw) = some s' →
      x.system.run s' labels = some last → last.OnTime task (s'.due task) := by
  intro claim
  have ran : (fork.bind fun s => siblings.step s (.pop 0 fun _ => 0)).any (fun s =>
      decide (s.ready[0]? = some ⟨.comm, (0, 3)⟩) &&
        (siblings.step s (.pop 0 fun _ => 0)).any fun s' =>
          (siblings.system.run s' (rest [0, 0, 0, 0, 0] [0, 0])).any fun last =>
            decide (s'.due ⟨.comm, (0, 3)⟩ < last.clock ∧ ⟨.comm, (0, 3)⟩ ∉ last.done)) = true := by
    decide +kernel
  simp only [Option.any_eq_true, Option.bind_eq_some_iff, Bool.and_eq_true, decide_eq_true_eq]
    at ran
  obtain ⟨s, ⟨before, same, first⟩, ready, s', move, last, execution, late, undone⟩ := ran
  have reach : siblings.system.Reachable Transition.AnyStep s :=
    .step (.pop 0 fun _ => 0) (reachable_fork same) trivial first
  exact undone ((claim siblings s s' last 0 _ _ _ siblings_unsigned reach ready rfl move
    execution).by_then late)

end Execution

end Tthread.Racksim
