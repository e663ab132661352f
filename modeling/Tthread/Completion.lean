/-
# Every task completes once

A task becomes ready when the last task in front of it is done, is scheduled, and is done when
the last event it has reserved rings. Nothing is lost on the way, so that the simulation of a
program with one source and one sink goes through all tasks and returns, as long as commits
are simulated, the machine has what the program asks for and no thunk ends before the clock
starts. What it returns is the time at which the last commit begins, which is the time of the
end only if that commit has nothing to move.
-/

import Mathlib.Data.List.MinMax
import Mathlib.Data.Nat.Find
import Mathlib.Data.Prod.Lex
import Mathlib.Order.OrderIsoNat
import Mathlib.Tactic.Push
import Tthread.Racksim

namespace Tthread.Racksim

/-! ## The task graph -/

/-- The place of a task in its thunk. -/
def Kind.place : Kind → ℕ
  | .comm => 0
  | .thunk => 1
  | .commit => 2

namespace Programm

variable {Time : Type} {prog : Programm Time} {task other : Task}

theorem mem_tasks : task ∈ prog.tasks ↔ task.tid ∈ prog.thunks := by
  obtain ⟨kind, tid⟩ := task
  rw [tasks, List.mem_flatMap]
  constructor
  · rintro ⟨t, member, same⟩
    simp only [List.mem_cons, Task.mk.injEq, List.not_mem_nil, or_false] at same
    obtain ⟨-, rfl⟩ | ⟨-, rfl⟩ | ⟨-, rfl⟩ := same <;> exact member
  · intro member
    refine ⟨tid, member, ?_⟩
    cases kind <;> simp

theorem tasks_nodup : prog.tasks.Nodup := by
  rw [tasks, List.nodup_flatMap]
  refine ⟨fun t _ => by simp, prog.distinct.imp fun {a b} apart => ?_⟩
  intro task first second
  simp only [List.mem_cons, List.not_mem_nil, or_false] at first second
  obtain rfl | rfl | rfl := first <;> simp [apart] at second

theorem mem_predecessors : other ∈ prog.predecessors task ↔
    other ∈ prog.tasks ∧ task ∈ prog.successors other := by
  rw [predecessors, List.mem_filter, decide_eq_true_eq]

theorem predecessors_nodup : (prog.predecessors task).Nodup := tasks_nodup.filter _

theorem mem_outThunks {t : ThunkId} :
    task ∈ prog.outThunks t ↔ task.kind = .comm ∧ (t, task.tid) ∈ prog.edges := by
  obtain ⟨kind, tid⟩ := task
  simp only [outThunks, List.mem_map, List.mem_filter, decide_eq_true_eq, Task.mk.injEq]
  constructor
  · rintro ⟨⟨u, v⟩, ⟨edge, rfl⟩, rfl, rfl⟩
    exact ⟨rfl, edge⟩
  · rintro ⟨rfl, edge⟩
    exact ⟨(t, tid), ⟨edge, rfl⟩, rfl, rfl⟩

theorem outThunks_nodup {t : ThunkId} : (prog.outThunks t).Nodup := by
  refine (prog.single.filter _).map_on ?_
  rintro ⟨u, v⟩ first ⟨u', v'⟩ second same
  obtain rfl := of_decide_eq_true (List.mem_filter.mp first).2
  obtain rfl := of_decide_eq_true (List.mem_filter.mp second).2
  cases same
  rfl

theorem successors_nodup : (prog.successors task).Nodup := by
  rw [successors]
  split
  · exact List.nodup_singleton _
  · refine List.nodup_cons.mpr ⟨fun member => ?_, outThunks_nodup⟩
    cases (mem_outThunks.mp member).1
  · exact outThunks_nodup

/-- An edge leads on within a thunk, or from a thunk to the fetch of one behind it. -/
theorem mem_successors (edge : task ∈ prog.successors other) :
    (task.tid = other.tid ∧ (other.kind = .comm ∧ task.kind = .thunk ∨
        other.kind = .thunk ∧ task.kind = .commit)) ∨
      task.kind = .comm ∧ other.kind ≠ .comm ∧ (other.tid, task.tid) ∈ prog.edges := by
  rw [successors] at edge
  split at edge
  · next kind =>
    obtain rfl := List.mem_singleton.mp edge
    exact .inl ⟨rfl, .inl ⟨kind, rfl⟩⟩
  · next kind =>
    obtain rfl | out := List.mem_cons.mp edge
    · exact .inl ⟨rfl, .inr ⟨kind, rfl⟩⟩
    · obtain ⟨comm, edge⟩ := mem_outThunks.mp out
      exact .inr ⟨comm, by rw [kind]; decide, edge⟩
  · next kind =>
    obtain ⟨comm, edge⟩ := mem_outThunks.mp edge
    exact .inr ⟨comm, by rw [kind]; decide, edge⟩

theorem successors_inside (inside : other ∈ prog.tasks) (edge : task ∈ prog.successors other) :
    task ∈ prog.tasks := by
  rw [mem_tasks] at inside ⊢
  obtain ⟨same, -⟩ | ⟨-, -, edge⟩ := mem_successors edge
  · exact same ▸ inside
  · exact (prog.inside _ edge).2

/-- The tasks can be numbered along the edges. -/
theorem exists_rank (prog : Programm Time) :
    ∃ rank : Task → ℕ, ∀ other task, task ∈ prog.successors other → rank other < rank task := by
  obtain ⟨rank, ranked⟩ := prog.acyclic
  refine ⟨fun task => 3 * rank task.tid + task.kind.place, fun other task edge => ?_⟩
  obtain ⟨same, ⟨first, second⟩ | ⟨first, second⟩⟩ | ⟨comm, -, edge⟩ := mem_successors edge
  · simp only [same, first, second, Kind.place]
    omega
  · simp only [same, first, second, Kind.place]
    omega
  · have below : rank other.tid < rank task.tid := ranked _ edge
    have last : other.kind.place ≤ 2 := by cases other.kind <;> decide
    have first : task.kind.place = 0 := by rw [comm, Kind.place]
    show 3 * rank other.tid + other.kind.place < 3 * rank task.tid + task.kind.place
    omega

/-- The program has one task without a predecessor. -/
def SingleSource (prog : Programm Time) : Prop :=
  ∃! task, task ∈ prog.tasks ∧ prog.predecessors task = []

/-- The program has one task without a successor. -/
def SingleSink (prog : Programm Time) : Prop :=
  ∃! task, task ∈ prog.tasks ∧ prog.successors task = []

/-- The entry is that task. -/
theorem entry_eq (source : prog.SingleSource) :
    ∃ entry, prog.entry = some entry ∧ entry ∈ prog.tasks ∧
      ∀ task ∈ prog.tasks, prog.predecessors task = [] ↔ task = entry := by
  obtain ⟨entry, ⟨inside, first⟩, only⟩ := source
  have found : ∀ task ∈ prog.tasks, prog.predecessors task = [] ↔ task = entry := fun task member =>
    ⟨fun empty => only task ⟨member, empty⟩, fun same => same ▸ first⟩
  have candidates : prog.tasks.filter (fun task => prog.inDegree task = 0) = [entry] := by
    refine List.perm_singleton.mp ((List.perm_ext_iff_of_nodup (tasks_nodup.filter _)
      (List.nodup_singleton _)).mpr fun task => ?_)
    rw [List.mem_filter, List.mem_singleton, decide_eq_true_eq, inDegree, List.length_eq_zero_iff]
    exact ⟨fun ⟨member, empty⟩ => (found task member).mp empty,
      fun same => same ▸ ⟨inside, first⟩⟩
  exact ⟨entry, by rw [Programm.entry, candidates]; rfl, inside, found⟩

/-- The exit is the task without a successor, which is a commit. -/
theorem exit_eq (sink : prog.SingleSink) :
    ∃ exit, prog.exit = some exit ∧ exit ∈ prog.tasks ∧ exit.kind = .commit ∧
      ∀ task ∈ prog.tasks, task ≠ exit → ∃ next, next ∈ prog.successors task := by
  obtain ⟨exit, ⟨inside, last⟩, only⟩ := sink
  have commit : exit.kind = .commit := by
    rw [successors] at last
    split at last
    · cases last
    · cases last
    · next kind => exact kind
  have before : (⟨.thunk, exit.tid⟩ : Task) ∈ prog.predecessors exit := by
    refine mem_predecessors.mpr ⟨mem_tasks.mpr (mem_tasks.mp inside :), ?_⟩
    obtain ⟨kind, tid⟩ := exit
    obtain rfl : kind = .commit := commit
    exact List.mem_cons_self
  have candidates : prog.tasks.filter
      (fun task => prog.inDegree task ≠ 0 ∧ prog.successors task = []) = [exit] := by
    refine List.perm_singleton.mp ((List.perm_ext_iff_of_nodup (tasks_nodup.filter _)
      (List.nodup_singleton _)).mpr fun task => ?_)
    rw [List.mem_filter, List.mem_singleton, decide_eq_true_eq]
    constructor
    · exact fun ⟨member, _, empty⟩ => only task ⟨member, empty⟩
    · rintro rfl
      exact ⟨inside, (List.length_pos_of_mem before).ne', last⟩
  refine ⟨exit, by rw [Programm.exit, candidates]; rfl, inside, commit, fun task member other => ?_⟩
  exact List.exists_mem_of_ne_nil _ fun empty => other (only task ⟨member, empty⟩)

/-- What holds of a task if it holds of all tasks in front of it holds of all. -/
theorem forall_of_predecessors {P : Task → Prop}
    (step : ∀ task ∈ prog.tasks, (∀ other ∈ prog.predecessors task, P other) → P task) :
    ∀ task ∈ prog.tasks, P task := by
  obtain ⟨rank, ranked⟩ := exists_rank prog
  intro task member
  induction below : rank task using Nat.strong_induction_on generalizing task with
  | _ n ih =>
    refine step task member fun other before => ?_
    obtain ⟨inside, edge⟩ := mem_predecessors.mp before
    exact ih _ (below ▸ ranked other task edge) other inside rfl

/-- What holds of a task if it holds of some task behind it holds of all if it holds of the
tasks without a successor. -/
theorem forall_of_successors {P : Task → Prop}
    (step : ∀ task ∈ prog.tasks, ¬ P task → ∃ next ∈ prog.successors task, ¬ P next) :
    ∀ task ∈ prog.tasks, P task := by
  classical
  obtain ⟨rank, ranked⟩ := exists_rank prog
  by_contra some
  push Not at some
  -- of the tasks where it fails, the one with the highest number has a successor
  have bounded : ∃ n, ∃ task ∈ prog.tasks, ¬ P task ∧
      (prog.tasks.map rank).foldr max 0 - rank task = n := by
    obtain ⟨task, member, fails⟩ := some
    exact ⟨_, task, member, fails, rfl⟩
  obtain ⟨task, member, fails, least⟩ := Nat.find_spec bounded
  obtain ⟨next, edge, fails'⟩ := step task member fails
  have inside := successors_inside member edge
  have high : rank next ≤ (prog.tasks.map rank).foldr max 0 :=
    List.le_max_of_le' 0 (List.mem_map_of_mem inside) le_rfl
  have above := ranked task next edge
  exact Nat.find_min bounded (by omega) ⟨next, inside, fails', rfl⟩

end Programm

/-! ## The tasks that wait -/

/-- The tasks that are done and whose successors know. -/
def State.logged (s : State Time) : List Task := s.log.map Prod.fst

/-- The tasks that are done, the ones of the present round included. -/
def State.done (s : State Time) : List Task :=
  (match s.phase with
    | .complete _ _ finished => finished
    | _ => []) ++ s.logged

namespace Execution

variable {Time : Type} {x : Execution Time} {s s' : State Time} {task other : Task}

/-- A task that does not wait is ready or has been scheduled, and each task waits for the
ones in front of it that are not done. -/
structure Tracked (x : Execution Time) (s : State Time) : Prop where
  ready : s.ready.Nodup
  scheduled : s.scheduled.Nodup
  fresh : ∀ task ∈ s.ready, task ∉ s.scheduled
  inside : ∀ task, task ∈ s.ready ∨ task ∈ s.scheduled → task ∈ x.prog.tasks
  waits : ∀ task ∈ x.prog.tasks,
    s.wait task = (x.prog.predecessors task).countP (· ∉ s.logged)
  enabled : ∀ task ∈ x.prog.tasks, (task ∈ s.ready ∨ task ∈ s.scheduled) ↔
    ∀ other ∈ x.prog.predecessors task, other ∈ s.logged

/-- Nothing waits exactly if it is ready or has been scheduled. -/
theorem Tracked.wait_eq_zero (tracked : x.Tracked s) (inside : task ∈ x.prog.tasks) :
    s.wait task = 0 ↔ task ∈ s.ready ∨ task ∈ s.scheduled := by
  rw [tracked.waits task inside, tracked.enabled task inside, List.countP_eq_zero]
  simp only [decide_eq_true_eq, not_not]

/-- Telling some tasks of a finished one counts each of them down, and adds the ones that are
through. -/
theorem foldl_arrive {tasks : List Task} (distinct : tasks.Nodup) :
    tasks.foldl arrive s = { s with
      wait := fun task => if task ∈ tasks then s.wait task - 1 else s.wait task
      ready := s.ready ++ tasks.filter fun task => s.wait task - 1 = 0 } := by
  induction tasks generalizing s with
  | nil => simp
  | cons first rest ih =>
    obtain ⟨absent, distinct⟩ := List.nodup_cons.mp distinct
    have others : ∀ task ∈ rest, (arrive s first).wait task = s.wait task := fun task member =>
      Function.update_of_ne (fun same : task = first => absent (same ▸ member)) _ _
    rw [List.foldl_cons, ih distinct]
    have kept : rest.filter (fun task => (arrive s first).wait task - 1 = 0) =
        rest.filter fun task => s.wait task - 1 = 0 :=
      List.filter_congr fun task member => by rw [others task member]
    rw [kept]
    simp only [arrive, State.mk.injEq, List.filter_cons, true_and, and_true]
    refine ⟨?_, ?_⟩
    · split_ifs with zero zero' <;> simp_all
    · funext task
      by_cases same : task = first
      · simp [same, absent]
      · simp [same]

theorem release_eq : x.release s task = { s with
    log := (task, s.now) :: s.log
    wait := fun next => if next ∈ x.prog.successors task then s.wait next - 1 else s.wait next
    ready := s.ready ++ (x.prog.successors task).filter fun next => s.wait next - 1 = 0 } := by
  rw [release, foldl_arrive Programm.successors_nodup]

/-- One more task that is done is one less to wait for, for the tasks behind it. -/
theorem countP_notMem_cons {tasks logged : List Task} (distinct : tasks.Nodup)
    (new : task ∉ logged) :
    tasks.countP (· ∉ logged) =
      tasks.countP (· ∉ task :: logged) + if task ∈ tasks then 1 else 0 := by
  induction tasks with
  | nil => rfl
  | cons first rest ih =>
    obtain ⟨absent, distinct⟩ := List.nodup_cons.mp distinct
    rw [List.countP_cons, List.countP_cons, ih distinct]
    by_cases same : task = first
    · simp [same ▸ new, same, absent]
    · simp [same, Ne.symm same]
      omega

/-- Releasing a task that was scheduled keeps track of the others. -/
theorem Tracked.release (tracked : x.Tracked s) (scheduled : task ∈ s.scheduled)
    (new : task ∉ s.logged) : x.Tracked (x.release s task) := by
  have known := tracked.inside task (.inr scheduled)
  have edge : ∀ next ∈ x.prog.tasks,
      (next ∈ x.prog.successors task ↔ task ∈ x.prog.predecessors next) := fun next _ =>
    ⟨fun edge => Programm.mem_predecessors.mpr ⟨known, edge⟩,
      fun before => (Programm.mem_predecessors.mp before).2⟩
  -- a task behind this one is neither ready nor scheduled yet
  have later : ∀ next ∈ x.prog.successors task, ¬ (next ∈ s.ready ∨ next ∈ s.scheduled) := by
    intro next behind enabled
    have inside := Programm.successors_inside known behind
    exact new ((tracked.enabled next inside).mp enabled task ((edge next inside).mp behind))
  have counted : ∀ next ∈ x.prog.tasks, s.wait next =
      (x.prog.predecessors next).countP (· ∉ task :: s.logged) +
        if next ∈ x.prog.successors task then 1 else 0 := by
    intro next inside
    rw [tracked.waits next inside, countP_notMem_cons Programm.predecessors_nodup new]
    simp only [edge next inside]
  rw [release_eq]
  refine ⟨?_, tracked.scheduled, ?_, ?_, ?_, ?_⟩
  · refine tracked.ready.append (Programm.successors_nodup.filter _) fun next old behind => ?_
    exact later next (List.mem_filter.mp behind).1 (.inl old)
  · intro next enabled started
    obtain old | behind := List.mem_append.mp enabled
    · exact tracked.fresh next old started
    · exact later next (List.mem_filter.mp behind).1 (.inr started)
  · rintro next (enabled | started)
    · obtain old | behind := List.mem_append.mp enabled
      · exact tracked.inside next (.inl old)
      · exact Programm.successors_inside known (List.mem_filter.mp behind).1
    · exact tracked.inside next (.inr started)
  · intro next inside
    have before := counted next inside
    show (if next ∈ x.prog.successors task then s.wait next - 1 else s.wait next) =
      (x.prog.predecessors next).countP (· ∉ task :: s.logged)
    split_ifs at before ⊢ <;> omega
  · intro next inside
    have before := counted next inside
    show next ∈ s.ready ++ _ ∨ next ∈ s.scheduled ↔
      ∀ other ∈ x.prog.predecessors next, other ∈ task :: s.logged
    by_cases behind : next ∈ x.prog.successors task
    · have through : s.wait next - 1 = 0 ↔
          ∀ other ∈ x.prog.predecessors next, other ∈ task :: s.logged := by
        rw [before, if_pos behind, Nat.add_sub_cancel, List.countP_eq_zero]
        simp only [decide_eq_true_eq, not_not]
      have old := later next behind
      rw [not_or] at old
      rw [List.mem_append, List.mem_filter, decide_eq_true_eq, ← through]
      tauto
    · have same : (∀ other ∈ x.prog.predecessors next, other ∈ task :: s.logged) ↔
          ∀ other ∈ x.prog.predecessors next, other ∈ s.logged := by
        refine forall₂_congr fun other edge' => ?_
        rw [List.mem_cons, or_iff_right fun same : other = task =>
          behind ((edge next inside).mpr (same ▸ edge'))]
      rw [same, ← tracked.enabled next inside, List.mem_append, List.mem_filter]
      tauto

theorem Tracked.foldl_release (tracked : x.Tracked s) {finished : List Task}
    (scheduled : ∀ task ∈ finished, task ∈ s.scheduled) (once : (finished ++ s.logged).Nodup) :
    x.Tracked (finished.foldl x.release s) := by
  induction finished generalizing s with
  | nil => exact tracked
  | cons task rest ih =>
    obtain ⟨first, others⟩ := List.forall_mem_cons.mp scheduled
    rw [List.cons_append, List.nodup_cons, List.mem_append, not_or] at once
    obtain ⟨absent, once⟩ := once
    have released : (x.release s task).logged = task :: s.logged := by
      rw [release_eq]
      rfl
    refine ih (tracked.release first absent.2) ?_ ?_
    · rw [release_eq]
      exact others
    · rw [released, List.nodup_middle, List.nodup_cons, List.mem_append, not_or]
      exact ⟨absent, once⟩

theorem Tracked.frame (tracked : x.Tracked s) (ready : s'.ready = s.ready)
    (scheduled : s'.scheduled = s.scheduled) (wait : s'.wait = s.wait) (log : s'.log = s.log) :
    x.Tracked s' := by
  have logged : s'.logged = s.logged := by rw [State.logged, log, ← State.logged]
  exact ⟨ready ▸ tracked.ready, scheduled ▸ tracked.scheduled,
    ready ▸ scheduled ▸ tracked.fresh, ready ▸ scheduled ▸ tracked.inside,
    wait ▸ logged ▸ tracked.waits, ready ▸ scheduled ▸ logged ▸ tracked.enabled⟩

/-- A list is the element at a place and the others. -/
theorem perm_eraseIdx {α : Type*} {l : List α} {a : α} {i : ℕ} (place : l[i]? = some a) :
    (a :: l.eraseIdx i).Perm l := by
  obtain ⟨inside, rfl⟩ := List.getElem?_eq_some_iff.mp place
  exact List.getElem_cons_eraseIdx_perm inside

/-- Popping a ready task schedules it. -/
theorem Tracked.pop (tracked : x.Tracked s) {choice : ℕ} (ready : s.ready[choice]? = some task)
    {entries : List (Device × Event Time)} {numas : ℕ → Finset ℕ} :
    x.Tracked ({ s with
      ready := s.ready.eraseIdx choice
      scheduled := task :: s.scheduled }.booked task entries numas) := by
  have split := perm_eraseIdx ready
  obtain ⟨absent, others⟩ := List.nodup_cons.mp (split.nodup_iff.mpr tracked.ready)
  have member : ∀ other, (other ∈ s.ready.eraseIdx choice ∨ other ∈ task :: s.scheduled) ↔
      (other ∈ s.ready ∨ other ∈ s.scheduled) := by
    intro other
    rw [← split.mem_iff, List.mem_cons, List.mem_cons]
    tauto
  refine ⟨others, ?_, ?_, ?_, tracked.waits, ?_⟩
  · exact List.nodup_cons.mpr
      ⟨tracked.fresh task (split.mem_iff.mp List.mem_cons_self), tracked.scheduled⟩
  · intro other still started
    obtain rfl | old := List.mem_cons.mp started
    · exact absent still
    · exact tracked.fresh other (split.mem_iff.mp (List.mem_cons_of_mem _ still)) old
  · exact fun other enabled => tracked.inside other ((member other).mp enabled)
  · exact fun other inside => (member other).trans (tracked.enabled other inside)

/-- Once the last task does not wait, all others are done. -/
theorem Tracked.others (tracked : x.Tracked s) (known : ∀ task ∈ s.logged, task ∈ s.scheduled)
    {exit : Task} (behind : ∀ task ∈ x.prog.tasks, task ≠ exit →
      ∃ next, next ∈ x.prog.successors task)
    (enabled : exit ∈ s.ready ∨ exit ∈ s.scheduled) :
    ∀ task ∈ x.prog.tasks, task ≠ exit → task ∈ s.logged := by
  -- a task in front of one that does not wait is done
  have front : ∀ task ∈ x.prog.tasks, ∀ next ∈ x.prog.successors task,
      next ∈ s.ready ∨ next ∈ s.scheduled → task ∈ s.logged := fun task inside next edge through =>
    (tracked.enabled next (tracked.inside next through)).mp through task
      (Programm.mem_predecessors.mpr ⟨inside, edge⟩)
  refine Programm.forall_of_successors fun task inside fails => ?_
  obtain ⟨other, undone⟩ := Classical.not_imp.mp fails
  obtain ⟨next, edge⟩ := behind task inside other
  refine ⟨next, edge, Classical.not_imp.mpr ⟨fun last => ?_, fun logged => ?_⟩⟩
  · exact undone (front task inside next edge (last ▸ enabled))
  · exact undone (front task inside next edge (.inr (known next logged)))

/-! ## The events that are outstanding -/

/-- Each task that has been scheduled and is not done has something booked or ringing, and a
CPU that runs something has an alarm to end it. -/
structure Counted (x : Execution Time) (s : State Time) (done : List Task) : Prop where
  counts : ∀ task, s.counter task =
    s.active.countP (·.2.task = task) + s.alarms.countP (·.event.task = task)
  idle : ∀ task, s.counter task = 0 ↔ (task ∈ s.scheduled → task ∈ done)
  known : ∀ task ∈ done, task ∈ s.scheduled
  once : done.Nodup
  running : ∀ id, s.running id = true → ∃ alarm ∈ s.alarms, alarm.callback = some (.cpu id)
  devices : ∀ entry ∈ s.active, entry.1 ∈ x.arch.devices

variable {done : List Task}

theorem Counted.perm (counted : x.Counted s done) {done' : List Task} (same : done.Perm done') :
    x.Counted s done' where
  counts := counted.counts
  idle task := by rw [counted.idle task, same.mem_iff]
  known task member := counted.known task (same.mem_iff.mpr member)
  once := same.nodup counted.once
  running := counted.running
  devices := counted.devices

theorem Counted.frame (counted : x.Counted s done) (counter : s'.counter = s.counter)
    (active : s'.active = s.active) (alarms : s'.alarms = s.alarms)
    (scheduled : s'.scheduled = s.scheduled) (running : s'.running = s.running) :
    x.Counted s' done :=
  ⟨counter ▸ active ▸ alarms ▸ counted.counts, counter ▸ scheduled ▸ counted.idle,
    scheduled ▸ counted.known, counted.once, alarms ▸ running ▸ counted.running,
    active ▸ counted.devices⟩

/-- Where everything that was scheduled is done nothing is outstanding. -/
theorem Counted.drained (counted : x.Counted s done) (all : ∀ task ∈ s.scheduled, task ∈ done) :
    s.active = [] ∧ s.alarms = [] := by
  have none : ∀ task, s.active.countP (·.2.task = task) + s.alarms.countP (·.event.task = task) =
      0 := fun task => (counted.counts task).symm.trans ((counted.idle task).mpr (all task))
  constructor
  · refine List.eq_nil_iff_forall_not_mem.mpr fun entry member => ?_
    have zero := List.countP_eq_zero.mp (Nat.add_eq_zero_iff.mp (none entry.2.task)).1 entry member
    exact zero (decide_eq_true rfl)
  · refine List.eq_nil_iff_forall_not_mem.mpr fun alarm member => ?_
    have zero := List.countP_eq_zero.mp (Nat.add_eq_zero_iff.mp (none alarm.event.task)).2 alarm
      member
    exact zero (decide_eq_true rfl)

theorem Counted.open_alarm (counted : x.Counted s done) {alarm : Alarm Time}
    (member : alarm ∈ s.alarms) :
    alarm.event.task ∈ s.scheduled ∧ alarm.event.task ∉ done := by
  have positive : s.counter alarm.event.task ≠ 0 := by
    rw [counted.counts, Nat.ne_zero_iff_zero_lt]
    exact Nat.add_pos_right _ (List.countP_pos_iff.mpr ⟨alarm, member, decide_eq_true rfl⟩)
  rw [Ne, counted.idle] at positive
  exact Classical.not_imp.mp positive

/-- A task that is scheduled and not done has something outstanding. -/
theorem Counted.outstanding (counted : x.Counted s done) (scheduled : task ∈ s.scheduled)
    (undone : task ∉ done) : s.active ≠ [] ∨ s.alarms ≠ [] := by
  by_contra none
  rw [not_or, not_not, not_not] at none
  have zero : s.counter task = 0 := by rw [counted.counts, none.1, none.2]; rfl
  exact undone ((counted.idle task).mp zero scheduled)

/-- Taking entries off the devices and setting alarms for them keeps every event. -/
theorem Counted.moved (counted : x.Counted s done) (taken kept : List (Device × Event Time))
    (alarms : List (Alarm Time)) (split : (taken ++ kept).Perm s.active)
    (same : alarms.map (·.event) = taken.map Prod.snd)
    (running : ∀ id, s'.running id = true → s.running id = true ∨
      ∃ alarm ∈ alarms, alarm.callback = some (.cpu id))
    (after : s'.active = kept ∧ s'.alarms = alarms ++ s.alarms ∧ s'.counter = s.counter ∧
      s'.scheduled = s.scheduled) : x.Counted s' done := by
  obtain ⟨active, rings, counter, scheduled⟩ := after
  have events : ∀ task, alarms.countP (·.event.task = task) = taken.countP (·.2.task = task) := by
    intro task
    have mapped := congrArg (List.countP fun event : Event Time => event.task = task) same
    rwa [List.countP_map, List.countP_map] at mapped
  refine ⟨fun task => ?_, ?_, ?_, counted.once, fun id runs => ?_, fun entry member => ?_⟩
  · have before := counted.counts task
    rw [← split.countP_eq, List.countP_append] at before
    rw [counter, active, rings, List.countP_append, events, before]
    omega
  · rw [counter, scheduled]
    exact counted.idle
  · rw [scheduled]
    exact counted.known
  · rw [rings]
    obtain old | ⟨alarm, member, back⟩ := running id runs
    · obtain ⟨alarm, member, back⟩ := counted.running id old
      exact ⟨alarm, List.mem_append_right _ member, back⟩
    · exact ⟨alarm, List.mem_append_left _ member, back⟩
  · exact counted.devices entry
      (split.mem_iff.mp (List.mem_append_right _ (active ▸ member)))

theorem callBack_eq {callback : Option Device} :
    callBack s callback = { s with running := (callBack s callback).running } := by
  obtain _ | (_ | _ | _) := callback <;> rfl

/-- Who runs after a call back ran before, and was not the one that was called. -/
theorem running_of_callBack {callback : Option Device} {id : ℕ}
    (runs : (callBack s callback).running id = true) :
    s.running id = true ∧ callback ≠ some (.cpu id) := by
  obtain _ | (_ | other | _) := callback
  · exact ⟨runs, by simp⟩
  · exact ⟨runs, by simp⟩
  · by_cases same : id = other
    · subst same
      exact absurd ((Function.update_self _ _ _).symm.trans runs) Bool.false_ne_true
    · exact ⟨(Function.update_of_ne same _ _).symm.trans runs, by simp [Ne.symm same]⟩
  · exact ⟨runs, by simp⟩

/-- An alarm that rings is one event less, and its task is done with the last one. -/
theorem Counted.ring (counted : x.Counted s done) {choice : ℕ} {alarm : Alarm Time}
    (chosen : s.alarms[choice]? = some alarm) (phase : Phase Time) :
    x.Counted { callBack s alarm.callback with
        alarms := s.alarms.eraseIdx choice
        counter := Function.update s.counter alarm.event.task (s.counter alarm.event.task - 1)
        phase := phase }
      (if s.counter alarm.event.task - 1 = 0 then alarm.event.task :: done else done) := by
  -- taking an alarm out leaves the others
  have split := perm_eraseIdx chosen
  have member : alarm ∈ s.alarms := split.mem_iff.mp List.mem_cons_self
  obtain ⟨scheduled, undone⟩ := counted.open_alarm member
  have counts : ∀ task, s.counter task = s.active.countP (·.2.task = task) +
      ((s.alarms.eraseIdx choice).countP (·.event.task = task) +
        if alarm.event.task = task then 1 else 0) := by
    intro task
    rw [counted.counts task, ← split.countP_eq, List.countP_cons]
    simp only [decide_eq_true_eq]
  have rest : ∀ other ∈ s.alarms, other.callback ≠ alarm.callback →
      other ∈ s.alarms.eraseIdx choice := fun other inside apart =>
    (List.mem_cons.mp (split.mem_iff.mpr inside)).resolve_left fun same => apart (same ▸ rfl)
  rw [callBack_eq]
  refine ⟨fun task => ?_, fun task => ?_, fun task => ?_, ?_, fun id runs => ?_, counted.devices⟩
  · -- the counter still says how many events the task has left
    show Function.update s.counter _ _ task =
      s.active.countP _ + (s.alarms.eraseIdx choice).countP _
    have before := counts task
    by_cases own : alarm.event.task = task
    · subst own
      rw [if_pos rfl] at before
      rw [Function.update_self, before]
      omega
    · rw [Function.update_of_ne (Ne.symm own), before, if_neg own, Nat.add_zero]
  · -- it is zero just when that was the last one
    show Function.update s.counter _ _ task = 0 ↔ (task ∈ s.scheduled → _)
    by_cases own : task = alarm.event.task
    · subst own
      rw [Function.update_self]
      split_ifs with last
      · exact iff_of_true last fun _ => List.mem_cons_self
      · exact iff_of_false last fun all => undone (all scheduled)
    · rw [Function.update_of_ne own, counted.idle task]
      split_ifs
      · rw [List.mem_cons, or_iff_right own]
      · rfl
  · show _ → task ∈ s.scheduled
    split_ifs
    · rintro (_ | ⟨_, member⟩)
      · exact scheduled
      · exact counted.known task member
    · exact counted.known task
  · split_ifs
    · exact List.nodup_cons.mpr ⟨undone, counted.once⟩
    · exact counted.once
  · -- a CPU that goes on running has an alarm of its own
    obtain ⟨ran, apart⟩ := running_of_callBack runs
    obtain ⟨other, inside, back⟩ := counted.running id ran
    exact ⟨other, rest other inside (back ▸ apart.symm), back⟩

variable [Clock Time]

/-- Booking a task that has not been scheduled. -/
theorem Counted.booked (counted : x.Counted s done) (fresh : task ∉ s.scheduled)
    {entries : List (Device × Event Time)} (books : x.Books task entries) (some : entries ≠ [])
    (ready : List Task) (numas : ℕ → Finset ℕ) :
    x.Counted
      ({ s with ready := ready, scheduled := task :: s.scheduled }.booked task entries numas)
      done := by
  have own : entries.countP (·.2.task = task) = entries.length :=
    List.countP_eq_length.mpr fun entry member => decide_eq_true (books entry member).1
  have others : ∀ other, other ≠ task → entries.countP (·.2.task = other) = 0 :=
    fun other apart => List.countP_eq_zero.mpr fun entry member => by
      rw [(books entry member).1, decide_eq_true_eq]
      exact apart.symm
  have undone : task ∉ done := fun member => fresh (counted.known task member)
  have positive := List.length_pos_of_ne_nil some
  refine ⟨fun other => ?_, fun other => ?_, fun other member =>
    List.mem_cons_of_mem _ (counted.known other member), counted.once, counted.running, ?_⟩
  · show Function.update s.counter task _ other =
      (s.active ++ entries).countP _ + s.alarms.countP _
    have before := counted.counts other
    rw [List.countP_append]
    by_cases same : other = task
    · subst same
      rw [Function.update_self, own, before]
      omega
    · rw [Function.update_of_ne same, others other same, before]
      omega
  · show Function.update s.counter task _ other = 0 ↔ (other ∈ task :: s.scheduled → other ∈ done)
    by_cases same : other = task
    · subst same
      rw [Function.update_self]
      refine iff_of_false (by omega) fun all => undone (all List.mem_cons_self)
    · rw [Function.update_of_ne same, counted.idle other, List.mem_cons, or_iff_right same]
  · exact List.forall_mem_append.mpr
      ⟨counted.devices, fun entry member => (books entry member).2.1⟩

theorem alarm_event {now : Time} {device : Device} {event : Event Time} :
    (x.alarm now device event).event = event := by
  cases device <;> rfl

theorem Counted.visit (counted : x.Counted s done) {device : Device} {event : ℕ}
    (visited : x.visit s device event = some s') : x.Counted s' done := by
  obtain ⟨rfl, -⟩ | ⟨id, rfl, -, rfl⟩ | ⟨id, rfl, taken⟩ | ⟨id, after, rfl, -, taken, rfl⟩ :=
    visit_cases visited
  · exact counted
  · refine counted.moved _ _ _ (List.filter_append_perm (fun entry => entry.1 = .link id) _) ?_
      (fun _ runs => .inl runs) ⟨?_, rfl, rfl, rfl⟩
    · rw [List.map_map]
      exact List.map_congr_left fun entry _ => alarm_event
    · exact List.filter_congr fun entry _ => by simp
  · obtain ⟨entry, chosen, rfl⟩ := take_cases taken
    exact counted.moved [(.numa id, entry)] _ [_] (perm_eraseIdx chosen) rfl
      (fun _ runs => .inl runs) ⟨rfl, rfl, rfl, rfl⟩
  · obtain ⟨entry, chosen, rfl⟩ := take_cases taken
    refine counted.moved [(.cpu id, entry)] _ [_] (perm_eraseIdx chosen) rfl (fun other runs => ?_)
      ⟨rfl, rfl, rfl, rfl⟩
    by_cases same : other = id
    · subst same
      exact .inr ⟨_, List.mem_singleton_self _, rfl⟩
    · exact .inl ((Function.update_of_ne same _ _).symm.trans runs)

/-! ## What has to hold -/

/-- Commits are simulated, the machine has the CPUs of the thunks and the domains of its CPUs, and
no length between domains is negative. -/
structure Fits (x : Execution Time) : Prop where
  noMove : x.commit = .noMove
  cpus : ∀ t ∈ x.prog.thunks, (x.prog.data t).cpu < x.cpus.length
  domains : ∀ d ∈ x.cpus, d < x.arch.domains
  unsigned : x.arch.Unsigned

/-- There is a way to each domain where a task finds pages, and to where the policy puts the ones
that a fetch does not find. -/
structure Reaches (x : Execution Time) (numas : ℕ → Finset ℕ) (task : Task) (own : ℕ) :
    Prop where
  found : ∀ other ∈ (x.finds numas task own).1, x.arch.Way own other.1
  magic : x.initPage = .magic → task.kind = .comm → (x.finds numas task own).2 ≠ ∅ → own ≠ 1 →
    1 < x.arch.domains ∧ x.arch.Way own 1
  random : x.initPage = .random → task.kind = .comm → (x.finds numas task own).2 ≠ ∅ →
    ∀ d < x.arch.domains, own ≠ d → x.arch.Way own d

/-- Every task that is popped reaches its pages, no thunk that starts ends before time zero, no
task is finished at the time of the breakpoint, and the last commit, when it is scheduled, finds
no page in another domain that takes time to move. -/
structure Timely (x : Execution Time) (s : State Time) (label : Label) : Prop where
  way : ∀ choice draw task own, label = .pop choice draw → s.ready[choice]? = some task →
    x.cpus[(x.prog.data task.tid).cpu]? = some own → x.Reaches s.numas task own
  thunk : ∀ choice event todo id entry, label = .visit choice event →
    s.phase = .progress todo → todo[choice]? = some (.cpu id) → s.running id = false →
    s.active[event]? = some (.cpu id, entry) →
    0 ≤ s.time + (x.prog.data entry.task.tid).cputime
  breakpoint : ∀ earliest last finished, label = .release →
    s.phase = .complete earliest (some last) finished → last = breakpoint → finished = []
  exit : ∀ choice draw task own, label = .pop choice draw → s.ready[choice]? = some task →
    x.prog.exit = some task → x.cpus[(x.prog.data task.tid).cpu]? = some own →
    ∀ other ∈ (x.finds s.numas task own).1, ∀ entry ∈ x.moveEntries task own other, entry.2.time = 0

/-- Every task is completed at most once and after the ones in front of it, nothing is raised,
and a run that returns has completed all tasks and returns the time of the last one. -/
structure Sound (x : Execution Time) (s : State Time) : Prop where
  calm : ∀ message, s.phase ≠ .raised message
  once : s.logged.Nodup
  after : ∀ later task time earlier, s.log = later ++ (task, time) :: earlier →
    ∀ other ∈ x.prog.predecessors task, other ∈ earlier.map Prod.fst
  all : ∀ time, s.phase = .returned time →
    (∀ task ∈ x.prog.tasks, task ∈ s.logged) ∧ s.log.head?.map Prod.snd = some time

/-- The run has returned, or it can go on. -/
def Continues (x : Execution Time) (s : State Time) : Prop :=
  (∃ time, s.phase = .returned time) ∨ ∃ label s', x.step s label = some s'

/-! ## What holds in every state -/

/-- Some task is not done. -/
def Live (x : Execution Time) (s : State Time) : Prop := ∃ task ∈ x.prog.tasks, task ∉ s.logged

/-- What holds in a phase. An alarm is set by the end of `progress`. -/
def PhaseOk (x : Execution Time) (s : State Time) : Prop :=
  match s.phase with
  | .test => True
  | .schedule => x.Live s
  | .progress todo => x.Live s ∧ s.ready = [] ∧ s.time = s.now ∧
      ((∀ entry ∈ s.active, entry.1 ∈ todo) ∨ s.alarms ≠ [])
  | .complete earliest none finished =>
      x.Live s ∧ s.ready = [] ∧ finished = [] ∧ Earliest s.alarms earliest
  | .complete _ (some time) _ => x.Live s ∧ s.ready = [] ∧ 0 ≤ time
  | .returned time =>
      (∀ task ∈ x.prog.tasks, task ∈ s.logged) ∧ s.log.head?.map Prod.snd = some time
  | .raised _ | .debugging => False

def IsNuma (entry : Device × Event Time) : Bool := match entry.1 with
  | .numa _ => true
  | _ => false

/-- What is booked takes no time, at most one domain, and no CPU. -/
structure Instant (s : State Time) : Prop where
  zero : ∀ entry ∈ s.active, entry.2.time = 0
  noCpu : ∀ entry ∈ s.active, ∀ id, entry.1 ≠ .cpu id
  numa : s.active.countP IsNuma ≤ 1

/-- What holds in a phase once the last task has been scheduled: all its events ring at once. -/
def ExitOk (s : State Time) (exit : Task) : Prop :=
  match s.phase with
  | .test => exit ∈ s.logged ∧ s.log.head?.map Prod.snd = some s.time
  | .schedule => Instant s ∧ s.alarms = []
  | .progress todo => Instant s ∧ (∀ entry ∈ s.active, entry.1 ∈ todo) ∧
      ∀ alarm ∈ s.alarms, alarm.time = s.time
  | .complete _ last _ => s.active = [] ∧ (∀ alarm ∈ s.alarms, alarm.time = s.time) ∧
      ∀ time, last = some time → time = s.time
  | .returned _ | .raised _ | .debugging => True

structure Inv (x : Execution Time) (s : State Time) : Prop where
  tracked : x.Tracked s
  counted : x.Counted s s.done
  now : 0 ≤ s.now
  times : ∀ entry ∈ s.active, 0 ≤ entry.2.time
  alarms : ∀ alarm ∈ s.alarms, 0 ≤ alarm.time
  after : ∀ later task time earlier, s.log = later ++ (task, time) :: earlier →
    ∀ other ∈ x.prog.predecessors task, other ∈ earlier.map Prod.fst
  phase : x.PhaseOk s
  exit : ∀ exit, x.prog.exit = some exit → exit ∈ s.scheduled → ExitOk s exit

section Inv

variable {done : List Task}

theorem Inv.logged_scheduled (inv : x.Inv s) : ∀ task ∈ s.logged, task ∈ s.scheduled :=
  fun task member => inv.counted.known task (List.mem_append_right _ member)

/-- A task that is ready is not done. -/
theorem Inv.live_of_ready (inv : x.Inv s) {task : Task} (ready : task ∈ s.ready) : x.Live s :=
  ⟨task, inv.tracked.inside task (.inl ready), fun logged =>
    inv.tracked.fresh task ready (inv.logged_scheduled task logged)⟩

/-- All tasks but the last one are done when that is ready or has been scheduled. -/
theorem Inv.others (inv : x.Inv s) (sink : x.prog.SingleSink) {exit : Task}
    (last : x.prog.exit = some exit) (enabled : exit ∈ s.ready ∨ exit ∈ s.scheduled) :
    ∀ task ∈ x.prog.tasks, task ≠ exit → task ∈ s.logged := by
  obtain ⟨found, same, -, -, behind⟩ := Programm.exit_eq sink
  obtain rfl := Option.some.inj (same.symm.trans last)
  exact inv.tracked.others inv.logged_scheduled behind enabled

/-- In a live state the last task is not done if it has been scheduled. -/
theorem Inv.exit_undone (inv : x.Inv s) (sink : x.prog.SingleSink) (live : x.Live s) {exit : Task}
    (last : x.prog.exit = some exit) (scheduled : exit ∈ s.scheduled) : exit ∉ s.logged := by
  obtain ⟨task, inside, undone⟩ := live
  intro logged
  by_cases same : task = exit
  · exact undone (same ▸ logged)
  · exact undone (inv.others sink last (.inr scheduled) task inside same)

/-- The loop goes on, or returns with everything done. -/
theorem Inv.test (inv : x.Inv s) (sink : x.prog.SingleSink) (move : x.step s .test = some s') :
    x.Inv s' := by
  obtain ⟨exit, last, inside, -, -⟩ := Programm.exit_eq sink
  obtain ⟨phase, ⟨more, rfl⟩ | ⟨through, ready, rfl⟩⟩ := step_test move
  · have same : s.done = s.logged := by rw [State.done, phase]; rfl
    have live : x.Live s := by
      obtain waits | ready := more
      · rw [last, Option.map_some, Option.getD_some] at waits
        refine ⟨exit, inside, fun logged => ?_⟩
        have scheduled := inv.logged_scheduled exit logged
        exact waits.ne' ((inv.tracked.wait_eq_zero inside).mpr (.inr scheduled))
      · obtain ⟨task, member⟩ := List.exists_mem_of_ne_nil _ ready
        exact inv.live_of_ready member
    refine ⟨inv.tracked.frame rfl rfl rfl rfl, ?_, inv.now, inv.times, inv.alarms, inv.after, live,
      fun exit last scheduled => ?_⟩
    · exact (same ▸ inv.counted).frame rfl rfl rfl rfl rfl
    · have logged := inv.exit exit last scheduled
      rw [ExitOk, phase] at logged
      exact absurd logged.1 (inv.exit_undone sink live last scheduled)
  · have same : s.done = s.logged := by rw [State.done, phase]; rfl
    rw [last, Option.map_some, Option.getD_some] at through
    have scheduled : exit ∈ s.scheduled := by
      have enabled := (inv.tracked.wait_eq_zero inside).mp through
      rw [ready] at enabled
      exact enabled.resolve_left List.not_mem_nil
    have logged := inv.exit exit last scheduled
    rw [ExitOk, phase] at logged
    refine ⟨inv.tracked.frame rfl rfl rfl rfl, ?_, inv.now, inv.times, inv.alarms, inv.after,
      ⟨fun task member => ?_, logged.2⟩, fun _ _ _ => trivial⟩
    · exact (same ▸ inv.counted).frame rfl rfl rfl rfl rfl
    · by_cases own : task = exit
      · exact own ▸ logged.1
      · exact inv.others sink last (.inr scheduled) task member own

theorem Inv.start (inv : x.Inv s) (move : x.step s .start = some s') : x.Inv s' := by
  obtain ⟨phase, ready, rfl⟩ := step_start move
  have same : s.done = s.logged := by rw [State.done, phase]; rfl
  have live := inv.phase
  rw [PhaseOk, phase] at live
  refine ⟨inv.tracked.frame rfl rfl rfl rfl, ?_, inv.now, inv.times, inv.alarms, inv.after,
    ⟨live, ready, rfl, .inl inv.counted.devices⟩, fun exit last scheduled => ?_⟩
  · exact (same ▸ inv.counted).frame rfl rfl rfl rfl rfl
  · have instant := inv.exit exit last scheduled
    rw [ExitOk, phase] at instant
    refine ⟨⟨instant.1.zero, instant.1.noCpu, instant.1.numa⟩, inv.counted.devices,
      fun alarm member => ?_⟩
    have none : alarm ∈ ([] : List (Alarm Time)) := instant.2 ▸ member
    exact absurd none List.not_mem_nil

omit [Clock Time] in
/-- Some task that is not done waits for nothing. -/
theorem exists_open (live : x.Live s) : ∃ task ∈ x.prog.tasks, task ∉ s.logged ∧
    ∀ other ∈ x.prog.predecessors task, other ∈ s.logged := by
  by_contra none
  obtain ⟨task, inside, undone⟩ := live
  refine undone (Programm.forall_of_predecessors (fun task inside before => ?_) task inside)
  by_contra undone
  exact none ⟨task, inside, undone, before⟩

theorem Inv.complete (inv : x.Inv s) (move : x.step s .complete = some s') : x.Inv s' := by
  obtain ⟨phase, outcome⟩ := step_complete move
  have same : s.done = s.logged := by rw [State.done, phase]; rfl
  have going := inv.phase
  rw [PhaseOk, phase] at going
  obtain ⟨live, ready, -, active⟩ := going
  -- a task that waits for nothing and is not done has something outstanding
  have ringing : s.alarms ≠ [] := by
    obtain active | ringing := active
    · obtain ⟨task, inside, undone, before⟩ := exists_open live
      have enabled := (inv.tracked.enabled task inside).mpr before
      rw [ready] at enabled
      have scheduled := enabled.resolve_left List.not_mem_nil
      refine (inv.counted.outstanding scheduled (same ▸ undone)).resolve_left (not_not.mpr ?_)
      exact List.eq_nil_iff_forall_not_mem.mpr fun entry member =>
        List.not_mem_nil (active entry member)
    · exact ringing
  obtain ⟨none, -⟩ | ⟨earliest, first, rfl⟩ := outcome
  · exact absurd none ringing
  · refine ⟨inv.tracked.frame rfl rfl rfl rfl, ?_, inv.now, inv.times, inv.alarms, inv.after,
      ⟨live, ready, rfl, first⟩, fun exit last scheduled => ?_⟩
    · exact (same ▸ inv.counted).frame rfl rfl rfl rfl rfl
    · have instant := inv.exit exit last scheduled
      rw [ExitOk, phase] at instant
      refine ⟨List.eq_nil_iff_forall_not_mem.mpr fun entry member => ?_, instant.2.2,
        fun _ none => nomatch none⟩
      exact absurd (instant.2.1 entry member) List.not_mem_nil

/-- Every bucket can be moved to a domain if there is a way to it. -/
theorem exists_foldlM_scatter {own : ℕ} {draw : ℕ → ℕ} {pages : Finset ℕ} {domains : List ℕ}
    (ways : ∀ d ∈ domains, own ≠ d → x.arch.Way own d) :
    ∃ after, domains.foldlM (x.scatter draw task own pages) s = .ok after := by
  induction domains generalizing s with
  | nil => exact ⟨s, rfl⟩
  | cons src rest ih =>
    obtain ⟨first, later⟩ := List.forall_mem_cons.mp ways
    obtain ⟨middle, scattered⟩ : ∃ middle, x.scatter draw task own pages s src = .ok middle := by
      simp only [scatter]
      split_ifs with other
      · exact ⟨_, move_ok.mpr ⟨first other, rfl⟩⟩
      · exact ⟨_, rfl⟩
    obtain ⟨after, tail⟩ := ih (s := middle) later
    exact ⟨after, by rw [List.foldlM_cons, Folds.bind_ok]; exact ⟨middle, scattered, tail⟩⟩

/-- The policy finds a place for the pages that a task does not find if there is a way to it. -/
theorem exists_place {own : ℕ} {draw : ℕ → ℕ} {pages : Finset ℕ}
    (magic : x.initPage = .magic → own ≠ 1 → 1 < x.arch.domains ∧ x.arch.Way own 1)
    (random : x.initPage = .random → ∀ d < x.arch.domains, own ≠ d → x.arch.Way own d) :
    ∃ after, x.place draw task own pages s = .ok after := by
  simp only [place]
  split
  · exact ⟨_, rfl⟩
  · next policy =>
    split_ifs with other present
    · exact ⟨_, move_ok.mpr ⟨(magic policy other).2, rfl⟩⟩
    · exact absurd (magic policy other).1 present
    · exact ⟨_, rfl⟩
  · next policy =>
    exact exists_foldlM_scatter fun d member => random policy d (List.mem_range.mp member)

/-- A machine that fits can schedule every task that reaches its pages. -/
theorem Fits.schedule (fits : x.Fits) (inside : task ∈ x.prog.tasks) {draw : ℕ → ℕ}
    (reaches : ∀ own, x.cpus[(x.prog.data task.tid).cpu]? = some own → x.Reaches s.numas task own) :
    ∃ after, x.schedule draw task s = .ok after := by
  have cpu := fits.cpus task.tid (Programm.mem_tasks.mp inside)
  have present := List.getElem?_eq_getElem cpu
  generalize x.cpus[(x.prog.data task.tid).cpu] = own at present
  have reach := reaches own present
  have domain : x.ownDomain task = .ok own :=
    ownDomain_ok.mpr ⟨present, fits.domains own (List.mem_of_getElem? present)⟩
  have others : ∀ d ∈ x.cpus, own ≠ d → d < x.arch.domains := fun d member _ =>
    fits.domains d member
  simp only [Execution.schedule, fits.noMove, if_pos cpu]
  split
  · next _ kind =>
    obtain ⟨placed, place⟩ : ∃ placed, (if (x.finds s.numas task own).2 = ∅ then
          .ok (s.booked task ((x.finds s.numas task own).1.flatMap (x.moveEntries task own))
            s.numas)
        else x.place draw task own (x.finds s.numas task own).2
          (s.booked task ((x.finds s.numas task own).1.flatMap (x.moveEntries task own)) s.numas)) =
            .ok placed := by
      split_ifs with empty
      · exact ⟨_, rfl⟩
      · exact exists_place (fun policy => reach.magic policy kind empty)
          fun policy => reach.random policy kind empty
    exact ⟨_, Folds.bind_ok.mpr ⟨own, domain,
      (scheduleComm_ok kind).mpr ⟨others, reach.found, placed, place, rfl⟩⟩⟩
  · exact ⟨_, rfl⟩
  · next kind _ =>
    exact ⟨_, Folds.bind_ok.mpr ⟨own, domain,
      (scheduleCommit_ok kind).mpr ⟨others, reach.found, rfl⟩⟩⟩
  · next other => cases other

/-- A commit that has nothing to wait for books links and its own domain, for no time. -/
theorem instant_of_commit (fits : x.Fits) {draw : ℕ → ℕ} (commit : task.kind = .commit)
    (quick : ∀ own, x.cpus[(x.prog.data task.tid).cpu]? = some own →
      ∀ other ∈ (x.finds s.numas task own).1, ∀ entry ∈ x.moveEntries task own other,
        entry.2.time = 0)
    (empty : s.active = []) (scheduled : x.schedule draw task s = .ok s') : Instant s' := by
  simp only [schedule, commit, fits.noMove] at scheduled
  obtain ⟨own, domain, scheduled⟩ := Folds.bind_ok.mp scheduled
  have present := (ownDomain_ok.mp domain).1
  obtain ⟨-, -, rfl⟩ := (scheduleCommit_ok commit).mp scheduled
  -- what has to be moved is moved in no time
  have links : ∀ entry ∈ (x.finds s.numas task own).1.flatMap (x.moveEntries task own),
      entry.2.time = 0 ∧ ∃ id, entry.1 = .link id := by
    intro entry member
    obtain ⟨other, found, member⟩ := List.mem_flatMap.mp member
    exact ⟨quick own present other found entry member, moveEntries_links member⟩
  generalize (x.finds s.numas task own).1.flatMap (x.moveEntries task own) = moves at links ⊢
  -- nothing was active before, so that these are all events that are booked
  have active : (s.booked task (moves ++ [(.numa own, ⟨task, 0⟩)]) s.numas).active =
      moves ++ [(.numa own, ⟨task, 0⟩)] := by
    rw [State.booked, empty]
    rfl
  refine ⟨?_, ?_, ?_⟩
  · rw [active]
    exact List.forall_mem_append.mpr
      ⟨fun entry member => (links entry member).1, List.forall_mem_singleton.mpr rfl⟩
  · rw [active]
    refine List.forall_mem_append.mpr
      ⟨fun entry member cpu => ?_, List.forall_mem_singleton.mpr fun cpu => by simp⟩
    obtain ⟨-, id, link⟩ := links entry member
    simp [link]
  · -- only the own domain is visited for it
    have none : ∀ entry ∈ moves, ¬ IsNuma entry = true := by
      intro entry member
      obtain ⟨-, id, link⟩ := links entry member
      simp [IsNuma, link]
    rw [active, List.countP_append, List.countP_eq_zero.mpr none]
    exact (Nat.zero_add _).trans_le (List.countP_le_length.trans_eq rfl)

theorem Inv.pop (inv : x.Inv s) (fits : x.Fits) (sink : x.prog.SingleSink) {choice : ℕ}
    {draw : ℕ → ℕ} (timely : x.Timely s (.pop choice draw))
    (move : x.step s (.pop choice draw) = some s') : x.Inv s' := by
  obtain ⟨task, phase, ready, outcome⟩ := step_pop move
  have member := List.mem_of_getElem? ready
  have inside := inv.tracked.inside task (.inl member)
  have fresh := inv.tracked.fresh task member
  obtain ⟨message, failed, -⟩ | scheduled := outcome
  · -- what fits does not fail
    obtain ⟨after, ok⟩ : ∃ after, x.schedule draw task { s with
        ready := s.ready.eraseIdx choice
        scheduled := task :: s.scheduled } = .ok after := fits.schedule inside fun own present =>
          timely.way choice draw task own rfl ready present
    rw [ok] at failed
    cases failed
  have same : s.done = s.logged := by rw [State.done, phase]; rfl
  have counted : x.Counted s s.logged := same ▸ inv.counted
  have live := inv.phase
  rw [PhaseOk, phase] at live
  obtain ⟨entries, booked, books, some⟩ := schedule_booked scheduled
  have phase' : s'.phase = .schedule := by rw [booked]; exact phase
  have log' : s'.log = s.log := by rw [booked]; rfl
  have logged' : s'.logged = s.logged := by rw [State.logged, log', ← State.logged]
  refine ⟨?_, ?_, ?_, ?_, ?_, ?_, ?_, fun exit last started => ?_⟩
  · rw [booked]
    exact inv.tracked.pop ready
  · have done' : s'.done = s.logged := by rw [State.done, phase', logged']; rfl
    rw [done', booked]
    exact counted.booked fresh books (some (.inl fits.noMove)) _ _
  · rw [booked]
    exact inv.now
  · rw [booked]
    exact List.forall_mem_append.mpr
      ⟨inv.times, fun entry booked => (books entry booked).2.2 fits.unsigned⟩
  · rw [booked]
    exact inv.alarms
  · rw [log']
    exact inv.after
  · rw [PhaseOk, phase', Live, logged']
    exact live
  · have started' : exit ∈ task :: s.scheduled := by rw [booked] at started; exact started
    rw [ExitOk, phase']
    obtain rfl | before := List.mem_cons.mp started'
    · -- the others are done, so that nothing else is outstanding
      have others := inv.others sink last (.inl member)
      obtain ⟨active, alarms⟩ := counted.drained fun other started =>
        others other (inv.tracked.inside other (.inr started)) fun own => fresh (own ▸ started)
      obtain ⟨found, first, -, commit, -⟩ := Programm.exit_eq sink
      obtain rfl := Option.some.inj (first.symm.trans last)
      have quick := fun own present => timely.exit choice draw found own rfl ready last present
      refine ⟨instant_of_commit fits commit ?_ ?_ scheduled, ?_⟩
      · exact quick
      · exact active
      · rw [booked]
        exact alarms
    · -- the last task is scheduled last
      have undone : task ∉ s.logged := fun logged => fresh (inv.logged_scheduled task logged)
      exact absurd (inv.others sink last (.inr before) task inside
        fun own => fresh (own ▸ before)) undone

/-- An element that is not at a place stays when the place is taken out. -/
theorem mem_eraseIdx_of_ne {α : Type*} {l : List α} {a b : α} {i : ℕ} (place : l[i]? = some b)
    (member : a ∈ l) (apart : a ≠ b) : a ∈ l.eraseIdx i :=
  (List.mem_cons.mp ((perm_eraseIdx place).mem_iff.mpr member)).resolve_left apart

/-- What a visit leaves as it was. -/
theorem visit_frame {device : Device} {event : ℕ} (visited : x.visit s device event = some s') :
    s'.phase = s.phase ∧ s'.now = s.now ∧ s'.time = s.time ∧ s'.ready = s.ready ∧
      s'.wait = s.wait ∧ s'.scheduled = s.scheduled ∧ s'.log = s.log := by
  obtain ⟨rfl, -⟩ | ⟨_, -, -, rfl⟩ | ⟨_, -, taken⟩ | ⟨_, after, -, -, taken, rfl⟩ :=
    visit_cases visited
  · exact ⟨rfl, rfl, rfl, rfl, rfl, rfl, rfl⟩
  · exact ⟨rfl, rfl, rfl, rfl, rfl, rfl, rfl⟩
  · obtain ⟨_, -, rfl⟩ := take_cases taken
    exact ⟨rfl, rfl, rfl, rfl, rfl, rfl, rfl⟩
  · obtain ⟨_, -, rfl⟩ := take_cases taken
    exact ⟨rfl, rfl, rfl, rfl, rfl, rfl, rfl⟩

/-- What is on the devices after a visit was there before, and if nothing rings then nothing was
on the device. -/
theorem visit_active (running : ∀ id, s.running id = true → s.alarms ≠ []) {device : Device}
    {event : ℕ} (visited : x.visit s device event = some s') :
    (∀ entry ∈ s'.active, entry ∈ s.active) ∧
      (s'.alarms ≠ [] ∨ ∀ entry ∈ s'.active, entry.1 ≠ device) := by
  obtain ⟨rfl, idle | ⟨id, -, runs⟩⟩ | ⟨id, rfl, ⟨entry, member, same⟩, rfl⟩ | ⟨id, rfl, taken⟩ |
    ⟨id, after, rfl, -, taken, rfl⟩ := visit_cases visited
  · exact ⟨fun _ member => member, .inr idle⟩
  · exact ⟨fun _ member => member, .inl (running id runs)⟩
  · refine ⟨fun entry member => (List.mem_filter.mp member).1, .inr fun entry member => ?_⟩
    exact of_decide_eq_true (List.mem_filter.mp member).2
  · obtain ⟨_, -, rfl⟩ := take_cases taken
    exact ⟨fun entry member => (List.eraseIdx_sublist _ _).subset member,
      .inl (List.cons_ne_nil _ _)⟩
  · obtain ⟨_, -, rfl⟩ := take_cases taken
    exact ⟨fun entry member => (List.eraseIdx_sublist _ _).subset member,
      .inl (List.cons_ne_nil _ _)⟩

/-- What rings after a visit is an old alarm, or one for an event of the device. -/
theorem visit_alarms {device : Device} {event : ℕ} (visited : x.visit s device event = some s') :
    ∀ alarm ∈ s'.alarms, alarm ∈ s.alarms ∨ ∃ entry, (device, entry) ∈ s.active ∧
      alarm = x.alarm s.time device entry ∧
      ∀ id, device = .cpu id → s.running id = false ∧ s.active[event]? = some (device, entry) := by
  intro alarm member
  obtain ⟨rfl, -⟩ | ⟨id, rfl, -, rfl⟩ | ⟨id, rfl, taken⟩ | ⟨id, after, rfl, stands, taken, rfl⟩ :=
    visit_cases visited
  · exact .inl member
  · obtain new | old := List.mem_append.mp member
    · obtain ⟨⟨device, entry⟩, inside, rfl⟩ := List.mem_map.mp new
      obtain ⟨active, same⟩ := List.mem_filter.mp inside
      obtain rfl : device = .link id := of_decide_eq_true same
      exact .inr ⟨entry, active, rfl, fun _ other => nomatch other⟩
    · exact .inl old
  · obtain ⟨entry, chosen, rfl⟩ := take_cases taken
    obtain rfl | old := List.mem_cons.mp member
    · exact .inr ⟨entry, List.mem_of_getElem? chosen, rfl, fun _ other => nomatch other⟩
    · exact .inl old
  · obtain ⟨entry, chosen, rfl⟩ := take_cases taken
    obtain rfl | old := List.mem_cons.mp member
    · refine .inr ⟨entry, List.mem_of_getElem? chosen, rfl, fun other same => ?_⟩
      cases same
      exact ⟨stands, chosen⟩
    · exact .inl old

theorem Instant.sublist (instant : Instant s) (fewer : s'.active.Sublist s.active) :
    Instant s' where
  zero entry member := instant.zero entry (fewer.subset member)
  noCpu entry member := instant.noCpu entry (fewer.subset member)
  numa := fewer.countP_le.trans instant.numa

theorem visit_keeps {device : Device} {event : ℕ} (visited : x.visit s device event = some s') :
    ∀ alarm ∈ s.alarms, alarm ∈ s'.alarms := by
  intro alarm member
  obtain ⟨rfl, -⟩ | ⟨_, -, -, rfl⟩ | ⟨_, -, taken⟩ | ⟨_, after, -, -, taken, rfl⟩ :=
    visit_cases visited
  · exact member
  · exact List.mem_append_right _ member
  · obtain ⟨_, -, rfl⟩ := take_cases taken
    exact List.mem_cons_of_mem _ member
  · obtain ⟨_, -, rfl⟩ := take_cases taken
    exact List.mem_cons_of_mem _ member

/-- Nothing that is instant is left on a device that has been visited. -/
theorem Instant.visit (instant : Instant s) {device : Device} {event : ℕ}
    (visited : x.visit s device event = some s') :
    Instant s' ∧ ∀ entry ∈ s'.active, entry.1 ≠ device := by
  obtain ⟨rfl, idle | ⟨id, rfl, -⟩⟩ | ⟨id, rfl, -, rfl⟩ | ⟨id, rfl, taken⟩ |
    ⟨id, after, rfl, -, taken, rfl⟩ := visit_cases visited
  · exact ⟨instant, idle⟩
  · exact ⟨instant, fun entry member => instant.noCpu entry member id⟩
  · refine ⟨instant.sublist List.filter_sublist, fun entry member => ?_⟩
    exact of_decide_eq_true (List.mem_filter.mp member).2
  · obtain ⟨entry, chosen, rfl⟩ := take_cases taken
    refine ⟨instant.sublist (List.eraseIdx_sublist _ _), fun other member same => ?_⟩
    -- the one entry of a domain is the one that was taken
    have one := instant.numa
    rw [← (perm_eraseIdx chosen).countP_eq, List.countP_cons_of_pos rfl] at one
    have rest : 0 < (s.active.eraseIdx event).countP IsNuma :=
      List.countP_pos_iff.mpr ⟨other, member, by rw [IsNuma, same]⟩
    omega
  · obtain ⟨entry, chosen, rfl⟩ := take_cases taken
    exact absurd rfl (instant.noCpu _ (List.mem_of_getElem? chosen) id)

theorem Inv.visit (inv : x.Inv s) {choice event : ℕ} (timely : x.Timely s (.visit choice event))
    (move : x.step s (.visit choice event) = some s') : x.Inv s' := by
  obtain ⟨todo, device, after, phase, chosen, visited, rfl⟩ := step_visit move
  have same : s.done = s.logged := by rw [State.done, phase]; rfl
  have counted : x.Counted s s.logged := same ▸ inv.counted
  have going := inv.phase
  rw [PhaseOk, phase] at going
  obtain ⟨live, ready, clock, active⟩ := going
  obtain ⟨-, now', time', ready', wait', scheduled', log'⟩ := visit_frame visited
  have logged' : after.logged = s.logged := by rw [State.logged, log', ← State.logged]
  have alarms := visit_alarms visited
  have runs : ∀ id, s.running id = true → s.alarms ≠ [] := fun id running =>
    let ⟨_, member, _⟩ := counted.running id running
    List.ne_nil_of_mem member
  obtain ⟨kept, rings⟩ := visit_active runs visited
  refine ⟨inv.tracked.frame ready' scheduled' wait' log', ?_, ?_, ?_, fun alarm member => ?_, ?_,
    ⟨?_, ready'.trans ready, time'.trans (clock.trans now'.symm), ?_⟩,
    fun exit last scheduled => ?_⟩
  · have done' : State.done { after with phase := .progress (todo.eraseIdx choice) } = s.logged :=
      logged'
    rw [done']
    exact (counted.visit visited).frame rfl rfl rfl rfl rfl
  · exact now' ▸ inv.now
  · exact fun entry member => inv.times entry (kept entry member)
  · -- a new alarm rings no earlier than now, or when its thunk ends
    have start : 0 ≤ s.time := clock ▸ inv.now
    obtain old | ⟨entry, inside, rfl, cpu⟩ := alarms alarm member
    · exact inv.alarms alarm old
    · cases device with
      | link id =>
        exact add_nonneg start (inv.times _ inside)
      | numa id => exact start
      | cpu id =>
        obtain ⟨stands, place⟩ := cpu id rfl
        exact timely.thunk choice event todo id entry rfl phase chosen stands place
  · show ∀ later task time earlier, after.log = later ++ (task, time) :: earlier → _
    rw [log']
    exact inv.after
  · obtain ⟨task, inside, undone⟩ := live
    exact ⟨task, inside, fun logged => undone (logged' ▸ logged)⟩
  · obtain nonempty | gone := rings
    · exact .inr nonempty
    · obtain waiting | ringing := active
      · exact .inl fun entry member =>
          mem_eraseIdx_of_ne chosen (waiting entry (kept entry member)) (gone entry member)
      · obtain ⟨alarm, member⟩ := List.exists_mem_of_ne_nil _ ringing
        exact .inr (List.ne_nil_of_mem (visit_keeps visited alarm member))
  · have instant := inv.exit exit last (scheduled' ▸ scheduled)
    rw [ExitOk, phase] at instant
    obtain ⟨instant, waiting, ringing⟩ := instant
    obtain ⟨instant', gone⟩ := instant.visit visited
    refine ⟨⟨instant'.zero, instant'.noCpu, instant'.numa⟩, fun entry member => ?_,
      fun alarm member => ?_⟩
    · exact mem_eraseIdx_of_ne chosen (waiting entry (kept entry member)) (gone entry member)
    · show alarm.time = after.time
      rw [time']
      obtain old | ⟨entry, inside, rfl, -⟩ := alarms alarm member
      · exact ringing alarm old
      · cases device with
        | link id =>
          have zero := instant.zero _ inside
          show s.time + entry.time = s.time
          rw [show entry.time = 0 from zero, add_zero]
        | numa id => rfl
        | cpu id => exact absurd rfl (instant.noCpu _ inside id)

theorem Inv.ring (inv : x.Inv s) {choice : ℕ} (move : x.step s (.ring choice) = some s') :
    x.Inv s' := by
  obtain ⟨earliest, last, finished, alarm, phase, chosen, first, -, rfl⟩ := step_ring move
  have same : s.done = finished ++ s.logged := by rw [State.done, phase]
  have counted : x.Counted s (finished ++ s.logged) := same ▸ inv.counted
  have going : x.Live s ∧ s.ready = [] := by
    have going := inv.phase
    rw [PhaseOk, phase] at going
    cases last with
    | none => exact ⟨going.1, going.2.1⟩
    | some time => exact ⟨going.1, going.2.1⟩
  have member := List.mem_of_getElem? chosen
  have fewer : ∀ other ∈ s.alarms.eraseIdx choice, other ∈ s.alarms := fun other inside =>
    (List.eraseIdx_sublist _ _).subset inside
  have rung := counted.ring chosen (.complete earliest (some alarm.time)
    (if s.counter alarm.event.task - 1 = 0 then finished ++ [alarm.event.task] else finished))
  rw [callBack_eq] at rung ⊢
  refine ⟨inv.tracked.frame rfl rfl rfl rfl, rung.perm ?_, inv.now, inv.times,
    fun other inside => inv.alarms other (fewer other inside), inv.after,
    ⟨going.1, going.2, inv.alarms alarm member⟩, fun exit final scheduled => ?_⟩
  · show List.Perm _ ((if _ then _ else _) ++ s.logged)
    split_ifs
    · rw [List.append_assoc]
      exact List.perm_middle.symm
    · rfl
  · have instant := inv.exit exit final scheduled
    rw [ExitOk, phase] at instant
    obtain ⟨empty, ringing, -⟩ := instant
    refine ⟨empty, fun other inside => ringing other (fewer other inside), fun time some => ?_⟩
    obtain rfl := Option.some.inj some
    exact ringing alarm member

/-- An entry of two lists is in the first one, with the whole second one behind it, or in the
second one. -/
theorem append_eq_middle {α : Type*} {first second later earlier : List α} {a : α}
    (same : first ++ second = later ++ a :: earlier) :
    (a ∈ first ∧ ∃ middle, earlier = middle ++ second) ∨
      ∃ middle, second = middle ++ a :: earlier := by
  obtain ⟨middle, rfl, tail⟩ | ⟨middle, rfl, tail⟩ := List.append_eq_append_iff.mp same
  · exact .inr ⟨middle, tail⟩
  · cases middle with
    | nil => exact .inr ⟨[], tail.symm⟩
    | cons head middle =>
      obtain ⟨rfl, rfl⟩ := List.cons.inj tail
      exact .inl ⟨List.mem_append_right _ List.mem_cons_self, middle, rfl⟩

theorem Inv.release (inv : x.Inv s) (sink : x.prog.SingleSink) (timely : x.Timely s .release)
    (move : x.step s .release = some s') : x.Inv s' := by
  obtain ⟨earliest, last, finished, phase, ended, outcome⟩ := step_release move
  have same : s.done = finished ++ s.logged := by rw [State.done, phase]
  have counted : x.Counted s (finished ++ s.logged) := same ▸ inv.counted
  have going := inv.phase
  rw [PhaseOk, phase] at going
  obtain ⟨live, ready, start⟩ := going
  obtain ⟨early, -⟩ | ⟨-, now, some, -⟩ | ⟨-, -, rfl⟩ := outcome
  · exact absurd start (not_le_of_gt early)
  · exact absurd (timely.breakpoint _ _ _ rfl phase now) some
  have scheduled : ∀ task ∈ finished, task ∈ s.scheduled := fun task member =>
    counted.known task (List.mem_append_left _ member)
  have clocked : x.Tracked { s with now := last } := inv.tracked.frame rfl rfl rfl rfl
  have tracked : x.Tracked (finished.foldl x.release { s with now := last }) :=
    clocked.foldl_release scheduled counted.once
  obtain ⟨wait, ready', released⟩ : ∃ wait ready, finished.foldl x.release { s with now := last } =
    { s with
      now := last
      log := (finished.map fun task => (task, last)).reverse ++ s.log
      wait := wait
      ready := ready } := foldl_release
  rw [released] at tracked ⊢
  have logged : ((finished.map fun task => (task, last)).reverse ++ s.log).map Prod.fst =
      finished.reverse ++ s.logged := by
    rw [List.map_append, List.map_reverse, List.map_map]
    exact congrArg (List.reverse · ++ _) (List.map_id _)
  refine ⟨tracked.frame rfl rfl rfl rfl, ?_, start, inv.times, inv.alarms, ?_, trivial,
    fun exit final started => ?_⟩
  · have same' :
        ∀ s' : State Time, s'.log = (finished.map fun task => (task, last)).reverse ++ s.log →
        s'.phase = .test → s'.done = finished.reverse ++ s.logged := by
      intro s' log phase
      rw [State.done, phase, State.logged, log]
      exact logged
    rw [same' _ rfl rfl]
    exact (counted.perm ((List.reverse_perm _).symm.append_right _)).frame rfl rfl rfl rfl rfl
  · intro later task time earlier split other before
    obtain ⟨member, middle, rfl⟩ | ⟨middle, rest⟩ := append_eq_middle split
    · -- a task of this round was scheduled after the ones in front of it were done
      obtain ⟨own, round, same⟩ := List.mem_map.mp (List.mem_reverse.mp member)
      cases same
      have enabled := (inv.tracked.enabled task (inv.tracked.inside task
        (.inr (scheduled task round)))).mp (.inr (scheduled task round)) other before
      rw [List.map_append]
      exact List.mem_append_right _ enabled
    · exact inv.after middle task time earlier rest other before
  · have instant := inv.exit exit final started
    rw [ExitOk, phase] at instant
    obtain ⟨empty, -, clock⟩ := instant
    have undone := inv.exit_undone sink live final started
    have only : exit ∈ finished := by
      obtain none | ⟨-, some⟩ := ended
      · by_contra absent
        have notDone : exit ∉ finished ++ s.logged := fun member =>
          (List.mem_append.mp member).elim absent undone
        obtain active | alarms := counted.outstanding started notDone
        · exact active empty
        · exact alarms none
      · obtain ⟨task, member⟩ := List.exists_mem_of_ne_nil _ some
        by_contra absent
        have own : task ≠ exit := fun same => absent (same ▸ member)
        have old := inv.others sink final (.inr started) task
          (inv.tracked.inside task (.inr (scheduled task member))) own
        exact (List.nodup_append.mp counted.once).2.2 task member task old rfl
    refine ⟨?_, ?_⟩
    · show exit ∈ List.map Prod.fst _
      rw [logged]
      exact List.mem_append_left _ (List.mem_reverse.mpr only)
    · -- the log begins with a task of this round
      show ((finished.map fun task => (task, last)).reverse ++ s.log).head?.map Prod.snd =
        some s.time
      rw [← clock last rfl, List.head?_append_of_ne_nil _ (by
        simpa using List.ne_nil_of_mem only), List.head?_reverse, List.getLast?_map, Option.map_map]
      obtain ⟨task, tail⟩ := Option.isSome_iff_exists.mp
        (List.getLast?_isSome.mpr (List.ne_nil_of_mem only))
      rw [tail]
      rfl

theorem Inv.step (inv : x.Inv s) (fits : x.Fits) (sink : x.prog.SingleSink) {label : Label}
    (timely : x.Timely s label) (move : x.step s label = some s') : x.Inv s' := by
  cases label with
  | test => exact inv.test sink move
  | pop choice draw => exact inv.pop fits sink timely move
  | start => exact inv.start move
  | visit choice event => exact inv.visit timely move
  | complete => exact inv.complete move
  | ring choice => exact inv.ring move
  | release => exact inv.release sink timely move

theorem inv_initial (source : x.prog.SingleSource) {start : State Time}
    (init : x.system.Init start) :
    x.Inv start := by
  obtain ⟨entry, found, rfl⟩ := init
  obtain ⟨first, same, inside, only⟩ := Programm.entry_eq source
  obtain rfl := Option.some.inj (same.symm.trans found)
  refine ⟨⟨List.nodup_singleton _, List.nodup_nil, fun _ _ => List.not_mem_nil, ?_, ?_, ?_⟩,
    ⟨fun _ => rfl, fun _ => iff_of_true rfl fun member => absurd member List.not_mem_nil,
      fun _ member => absurd member List.not_mem_nil, List.nodup_nil,
      fun _ runs => absurd runs Bool.false_ne_true,
      fun _ member => absurd member List.not_mem_nil⟩,
    le_rfl, fun _ member => absurd member List.not_mem_nil,
    fun _ member => absurd member List.not_mem_nil, ?_, trivial,
    fun _ _ member => absurd member List.not_mem_nil⟩
  · rintro task (ready | scheduled)
    · exact List.mem_singleton.mp ready ▸ inside
    · exact absurd scheduled List.not_mem_nil
  · intro task _
    refine (List.countP_eq_length.mpr fun other _ => ?_).symm
    exact decide_eq_true List.not_mem_nil
  · intro task member
    show task ∈ [first] ∨ task ∈ [] ↔ ∀ other ∈ x.prog.predecessors task, other ∈ []
    rw [or_iff_left List.not_mem_nil, List.mem_singleton, ← only task member,
      List.eq_nil_iff_forall_not_mem]
    exact forall₂_congr fun other _ => iff_of_false (fun h => h) List.not_mem_nil
  · intro later task time earlier split
    cases later <;> cases split

theorem Inv.sound (inv : x.Inv s) : x.Sound s where
  calm message raised := by
    have never := inv.phase
    rw [PhaseOk, raised] at never
    exact never
  once := inv.counted.once.sublist (List.sublist_append_right _ _)
  after := inv.after
  all time returned := by
    have all := inv.phase
    rw [PhaseOk, returned] at all
    exact all

/-! ## The run goes on -/

theorem exists_earliest {alarms : List (Alarm Time)} (some : alarms ≠ []) :
    ∃ alarm ∈ alarms, ∀ other ∈ alarms, alarm.time ≤ other.time := by
  obtain ⟨alarm, first⟩ : ∃ alarm, alarms.argmin Alarm.time = .some alarm :=
    Option.ne_none_iff_exists'.mp fun none => some (List.argmin_eq_none.mp none)
  exact ⟨alarm, List.argmin_mem first, fun other member => List.le_of_mem_argmin member first⟩

/-- Each device can be visited. -/
theorem exists_visit (s : State Time) (device : Device) :
    ∃ event after, x.visit s device event = some after := by
  by_cases idle : ∀ entry ∈ s.active, entry.1 ≠ device
  · exact ⟨0, s, by simp only [visit, if_pos idle]⟩
  · have busy := idle
    simp only [not_forall, not_not] at busy
    obtain ⟨⟨owner, entry⟩, member, rfl⟩ := busy
    obtain ⟨event, place⟩ := List.mem_iff_getElem?.mp member
    refine ⟨event, ?_⟩
    simp only [visit, if_neg idle]
    split
    · exact ⟨_, rfl⟩
    · simp only [take, place, if_pos]
      exact ⟨_, rfl⟩
    · split_ifs
      · exact ⟨_, rfl⟩
      · simp only [take, place, if_pos]
        exact ⟨_, rfl⟩

/-- An alarm that is as early as any can ring if the loop goes on. -/
theorem ring_enabled {earliest : Time} {last : Option Time} {finished : List Task}
    {alarm : Alarm Time}
    (phase : s.phase = .complete earliest last finished) (member : alarm ∈ s.alarms)
    (least : ∀ other ∈ s.alarms, alarm.time ≤ other.time)
    (more : alarm.time = earliest ∨ finished = []) :
    ∃ label s', x.step s label = some s' := by
  obtain ⟨choice, place⟩ := List.mem_iff_getElem?.mp member
  refine ⟨.ring choice, ?_⟩
  simp only [step, phase, place]
  rw [if_pos ⟨⟨⟨alarm, member, rfl⟩, least⟩, more⟩]
  exact ⟨_, rfl⟩

/-- No state but the last one is stuck. -/
theorem Inv.continues (inv : x.Inv s) : x.Continues s := by
  have going := inv.phase
  rw [PhaseOk] at going
  cases phase : s.phase with
  | test =>
    refine .inr ⟨.test, ?_⟩
    simp only [Execution.step, phase]
    split_ifs <;> exact ⟨_, rfl⟩
  -- a task that is ready is popped, and the devices are visited when none is left
  | schedule =>
    right
    by_cases ready : s.ready = []
    · exact ⟨.start, by simp only [Execution.step, phase, ready]; exact ⟨_, rfl⟩⟩
    · obtain ⟨task, rest, ready⟩ := List.exists_cons_of_ne_nil ready
      refine ⟨.pop 0 fun _ => 0, ?_⟩
      simp only [Execution.step, phase, ready, List.getElem?_cons_zero]
      split <;> exact ⟨_, rfl⟩
  | progress todo =>
    right
    cases todo with
    | nil =>
      refine ⟨.complete, ?_⟩
      simp only [Execution.step, phase]
      split <;> exact ⟨_, rfl⟩
    | cons device rest =>
      obtain ⟨event, after, visited⟩ := exists_visit (x := x) s device
      refine ⟨.visit 0 event, ?_⟩
      simp only [Execution.step, phase, List.getElem?_cons_zero, visited]
      exact ⟨_, rfl⟩
  -- the loop of the alarms ends with a release, and begins with an alarm that is there
  | complete earliest last finished =>
    right
    rw [phase] at going
    cases last with
    | none =>
      obtain ⟨-, -, -, ⟨alarm, member, rfl⟩, least⟩ := going
      exact ring_enabled phase member least (.inl rfl)
    | some time =>
      by_cases more : s.alarms ≠ [] ∧ (Earliest s.alarms earliest ∨ finished = [])
      · obtain ⟨some, ⟨⟨alarm, member, rfl⟩, least⟩ | empty⟩ := more
        · exact ring_enabled phase member least (.inl rfl)
        · obtain ⟨alarm, member, least⟩ := exists_earliest some
          exact ring_enabled phase member least (.inr empty)
      · refine ⟨.release, ?_⟩
        simp only [Execution.step, phase, if_neg more]
        split_ifs <;> exact ⟨_, rfl⟩
  | returned time => exact .inl ⟨time, phase⟩
  | raised message =>
    rw [phase] at going
    exact going.elim
  | debugging =>
    rw [phase] at going
    exact going.elim

/-! ## The run ends -/

/-- How far the round is from its end. The loop of `complete` begins with an alarm. -/
def roundsLeft (x : Execution Time) : Phase Time → ℕ
  | .complete _ (some _) _ => x.arch.devices.length + 5
  | .test => x.arch.devices.length + 4
  | .schedule => x.arch.devices.length + 3
  | .progress todo => todo.length + 2
  | .complete _ none _ => 1
  | .returned _ | .raised _ | .debugging => 0

/-- What is left: tasks to schedule, then events to ring, then the phases of the round. -/
def measure (x : Execution Time) (s : State Time) : ℕ ×ₗ ℕ ×ₗ ℕ :=
  toLex (x.prog.tasks.length - s.scheduled.length,
    toLex (2 * s.active.length + s.alarms.length, x.roundsLeft s.phase))

omit [Clock Time] in
theorem measure_lt_of_scheduled (fewer : s'.scheduled = s.scheduled)
    (outstanding : 2 * s'.active.length + s'.alarms.length <
        2 * s.active.length + s.alarms.length ∨
      2 * s'.active.length + s'.alarms.length ≤ 2 * s.active.length + s.alarms.length ∧
        x.roundsLeft s'.phase < x.roundsLeft s.phase) :
    x.measure s' < x.measure s := by
  refine Prod.Lex.toLex_lt_toLex.mpr (.inr ⟨by rw [fewer], Prod.Lex.toLex_lt_toLex.mpr ?_⟩)
  show _ < _ ∨ _ = _ ∧ _ < _
  obtain lt | ⟨le, rounds⟩ := outstanding
  · exact .inl lt
  · exact le.lt_or_eq.imp_right fun same => ⟨same, rounds⟩

/-- A visit moves events to the alarms, one by one. -/
theorem visit_length {device : Device} {event : ℕ} (visited : x.visit s device event = some s') :
    2 * s'.active.length + s'.alarms.length ≤ 2 * s.active.length + s.alarms.length := by
  have one : ∀ entry : Device × Event Time, s.active[event]? = some entry →
      (s.active.eraseIdx event).length + 1 = s.active.length := fun entry place => by
    obtain ⟨inside, -⟩ := List.getElem?_eq_some_iff.mp place
    exact List.length_eraseIdx_add_one inside
  obtain ⟨rfl, -⟩ | ⟨id, rfl, -, rfl⟩ | ⟨id, rfl, taken⟩ | ⟨id, after, rfl, -, taken, rfl⟩ :=
    visit_cases visited
  · exact le_rfl
  · have split :=
      (List.filter_append_perm (fun entry => entry.1 = Device.link id) s.active).length_eq
    have kept : (s.active.filter fun entry => entry.1 ≠ Device.link id) =
        s.active.filter fun entry => !decide (entry.1 = Device.link id) :=
      List.filter_congr fun entry _ => by simp
    simp only [takeAll, List.length_append, List.length_map, kept] at split ⊢
    omega
  · obtain ⟨entry, place, rfl⟩ := take_cases taken
    have := one _ place
    simp only [List.length_cons]
    omega
  · obtain ⟨entry, place, rfl⟩ := take_cases taken
    have := one _ place
    simp only [List.length_cons]
    omega

/-- Every step leaves less to do. -/
theorem Inv.measure_lt {label : Label} (inv' : x.Inv s')
    (move : x.step s label = some s') : x.measure s' < x.measure s := by
  -- most steps go on to a phase with less to do; a pop, a visit and a ring use something up
  cases label with
  | test =>
    obtain ⟨phase, ⟨-, rfl⟩ | ⟨-, -, rfl⟩⟩ := step_test move
    · refine measure_lt_of_scheduled rfl (.inr ⟨le_rfl, ?_⟩)
      rw [phase]
      exact Nat.lt_succ_self _
    · refine measure_lt_of_scheduled rfl (.inr ⟨le_rfl, ?_⟩)
      rw [phase]
      exact Nat.succ_pos _
  | pop choice draw =>
    obtain ⟨task, phase, ready, ⟨message, -, rfl⟩ | scheduled⟩ := step_pop move
    · exact (inv'.sound.calm message rfl).elim
    · obtain ⟨entries, booked, -⟩ := schedule_booked scheduled
      -- one task less has not been scheduled
      have tasks : s'.scheduled = task :: s.scheduled := by rw [booked]; rfl
      have bound : s'.scheduled.length ≤ x.prog.tasks.length :=
        (inv'.tracked.scheduled.subperm fun task member =>
          inv'.tracked.inside task (.inr member)).length_le
      refine Prod.Lex.toLex_lt_toLex.mpr (.inl ?_)
      show x.prog.tasks.length - s'.scheduled.length < x.prog.tasks.length - s.scheduled.length
      rw [tasks, List.length_cons] at bound ⊢
      omega
  | start =>
    obtain ⟨phase, -, rfl⟩ := step_start move
    refine measure_lt_of_scheduled rfl (.inr ⟨le_rfl, ?_⟩)
    rw [phase]
    exact Nat.lt_succ_self _
  | visit choice event =>
    obtain ⟨todo, device, after, phase, chosen, visited, rfl⟩ := step_visit move
    obtain ⟨-, -, -, -, -, tasks, -⟩ := visit_frame visited
    -- a device less has to be visited, and what it takes becomes alarms
    obtain ⟨inside, -⟩ := List.getElem?_eq_some_iff.mp chosen
    have fewer := visit_length visited
    refine measure_lt_of_scheduled tasks (.inr ⟨fewer, ?_⟩)
    rw [phase]
    show (todo.eraseIdx choice).length + 2 < todo.length + 2
    have := List.length_eraseIdx_add_one inside
    omega
  | complete =>
    obtain ⟨phase, ⟨-, rfl⟩ | ⟨earliest, -, rfl⟩⟩ := step_complete move
    · refine measure_lt_of_scheduled rfl (.inr ⟨le_rfl, ?_⟩)
      rw [phase]
      exact Nat.succ_pos _
    · refine measure_lt_of_scheduled rfl (.inr ⟨le_rfl, ?_⟩)
      rw [phase]
      exact Nat.lt_succ_self _
  | ring choice =>
    obtain ⟨earliest, last, finished, alarm, phase, place, -, -, rfl⟩ := step_ring move
    -- one alarm less rings
    obtain ⟨inside, -⟩ := List.getElem?_eq_some_iff.mp place
    have := List.length_eraseIdx_add_one inside
    rw [callBack_eq]
    refine measure_lt_of_scheduled rfl (.inl ?_)
    show 2 * s.active.length + (s.alarms.eraseIdx choice).length < _
    omega
  | release =>
    obtain ⟨earliest, last, finished, phase, -, outcome⟩ := step_release move
    obtain ⟨-, rfl⟩ | ⟨-, -, -, rfl⟩ | ⟨-, -, rfl⟩ := outcome
    · refine measure_lt_of_scheduled rfl (.inr ⟨le_rfl, ?_⟩)
      rw [phase]
      exact Nat.succ_pos _
    · refine measure_lt_of_scheduled rfl (.inr ⟨le_rfl, ?_⟩)
      rw [phase]
      exact Nat.succ_pos _
    · obtain ⟨wait, ready, released⟩ : ∃ wait ready,
          finished.foldl x.release { s with now := last } = { s with
            now := last
            log := (finished.map fun task => (task, last)).reverse ++ s.log
            wait := wait
            ready := ready } := foldl_release
      rw [released]
      refine measure_lt_of_scheduled rfl (.inr ⟨le_rfl, ?_⟩)
      rw [phase]
      exact Nat.lt_succ_self _

end Inv

section Runs

variable {start : State Time}

theorem inv_of_reachable (fits : x.Fits) (source : x.prog.SingleSource)
    (sink : x.prog.SingleSink) (reach : x.system.Reachable x.Timely s) : x.Inv s :=
  reach.invariant x.Inv (fun _ init => inv_initial source init)
    fun _ _ _ inv timely move => inv.step fits sink timely move

/-- **Every task completes once.** In every run whose thunks end after time zero, and whose last
commit has nothing to wait for, each task is completed once and after the ones in front of it,
nothing is raised, and the run goes on until it returns the time of the last task; and no such
run goes on forever. -/
theorem sound_of_timely (fits : x.Fits) (source : x.prog.SingleSource)
    (sink : x.prog.SingleSink) :
    (∀ s, x.system.Reachable x.Timely s → x.Sound s ∧ x.Continues s) ∧
      ¬ ∃ run : ℕ → State Time, x.system.Init (run 0) ∧ ∀ n, ∃ label,
        x.Timely (run n) label ∧ x.step (run n) label = some (run (n + 1)) := by
  refine ⟨fun s reach => ?_, ?_⟩
  · have inv := inv_of_reachable fits source sink reach
    exact ⟨inv.sound, inv.continues⟩
  · rintro ⟨run, init, steps⟩
    have invs : ∀ n, x.Inv (run n) := by
      intro n
      induction n with
      | zero => exact inv_initial source init
      | succ n ih =>
        obtain ⟨label, timely, move⟩ := steps n
        exact ih.step fits sink timely move
    -- what is left to do would get less forever
    refine not_strictAnti_of_wellFoundedLT (fun n => x.measure (run n))
      (strictAnti_nat_of_succ_lt fun n => ?_)
    obtain ⟨label, -, move⟩ := steps n
    exact (invs (n + 1)).measure_lt move

end Runs

/-! ## A commit that has nothing to move, and one that has -/

/-- Two thunks on the CPUs given, under first touch. -/
def chainExecution (cpu : ℕ → ℕ) : Execution ExactTime where
  arch := .pair
  prog := .chain cpu
  initPage := .firstTouch
  commit := .noMove

/-- A round that schedules one task, and rings some alarms. -/
def round (rings : ℕ) : List Label :=
  [.test, .pop 0 fun _ => 0, .start] ++ List.replicate 5 (.visit 0 0) ++ [.complete] ++
    List.replicate rings (.ring 0) ++ [.release]

theorem chain_singleSource (cpu : ℕ → ℕ) : (Programm.chain cpu).SingleSource := by
  -- the graph does not depend on the CPUs
  change (Programm.chain fun _ => 0).SingleSource
  have only : ∀ task ∈ (Programm.chain fun _ => 0).tasks,
      (Programm.chain fun _ => 0).predecessors task = [] → task = ⟨.comm, (0, 1)⟩ := by decide
  exact ⟨⟨.comm, (0, 1)⟩, ⟨by decide, by decide⟩, fun task ⟨member, first⟩ =>
    only task member first⟩

theorem chain_singleSink (cpu : ℕ → ℕ) : (Programm.chain cpu).SingleSink := by
  change (Programm.chain fun _ => 0).SingleSink
  have only : ∀ task ∈ (Programm.chain fun _ => 0).tasks,
      (Programm.chain fun _ => 0).successors task = [] → task = ⟨.commit, (0, 2)⟩ := by decide
  exact ⟨⟨.commit, (0, 2)⟩, ⟨by decide, by decide⟩, fun task ⟨member, last⟩ =>
    only task member last⟩

/-- Both thunks on one CPU, so that no page is ever moved. -/
theorem sound_chain :
    (∀ s, (chainExecution fun _ => 0).system.Reachable (chainExecution fun _ => 0).Timely s →
        (chainExecution fun _ => 0).Sound s ∧ (chainExecution fun _ => 0).Continues s) ∧
      ¬ ∃ run : ℕ → State ExactTime, (chainExecution fun _ => 0).system.Init (run 0) ∧ ∀ n, ∃ label,
        (chainExecution fun _ => 0).Timely (run n) label ∧
          (chainExecution fun _ => 0).step (run n) label = some (run (n + 1)) :=
  sound_of_timely ⟨rfl, by decide, by decide, Architecture.pair_unsigned⟩ (chain_singleSource _)
    (chain_singleSink _)

/-- On two CPUs the last commit moves a page, and the time that is returned is the one at which
it begins. -/
theorem not_sound :
    ¬ ∀ x : Execution ExactTime, (∀ t ∈ x.prog.thunks, (x.prog.data t).cpu < x.cpus.length) →
      x.prog.SingleSource → x.prog.SingleSink →
        ∀ s, x.system.Reachable Transition.AnyStep s → x.Sound s := by
  intro claim
  have start : (chainExecution fun n => n - 1).system.Reachable Transition.AnyStep
      ((chainExecution fun n => n - 1).initial ⟨.comm, (0, 1)⟩) := .init ⟨_, by decide, rfl⟩
  obtain ⟨s, execution, both⟩ := (Option.any_eq_true _ _).mp
    (show ((chainExecution fun n => n - 1).system.run
      ((chainExecution fun n => n - 1).initial ⟨.comm, (0, 1)⟩)
      (round 1 ++ round 1 ++ round 1 ++ round 2 ++ round 1 ++ round 2 ++ [.test])).any
        (fun s => decide (s.phase = .returned 22 ∧ s.log.head?.map Prod.snd = some 24)) = true by
      decide +kernel)
  obtain ⟨returned, last⟩ := of_decide_eq_true both
  have sound := claim (chainExecution fun n => n - 1) (by decide) (chain_singleSource _)
    (chain_singleSink _) s (start.run execution)
  have same := last.symm.trans (sound.all 22 returned).2
  exact absurd same (by decide +kernel)

end Execution

end Tthread.Racksim
