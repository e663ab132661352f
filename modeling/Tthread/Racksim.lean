/-
# The rack simulator

A program is a graph of thunks, each split into three tasks: fetch its pages, compute, and
commit. The simulator keeps a set of ready tasks; scheduling one reserves events on the
devices of the machine, an active device turns its events into alarms, and the earliest
alarms complete events until some task has none left. Sets are popped in whatever order they
have, so a label of the system names what is popped, and every random choice. The times are
the numbers of a clock, which may round its sums as floats do; none of them is a NaN.
-/

import Mathlib.Data.Finset.Card
import Mathlib.Data.Finset.SDiff
import Mathlib.Tactic.Tauto
import Tthread.Library.Clock
import Tthread.Library.Folds
import Tthread.Library.Transition

namespace Tthread.Racksim

/-! ## The program -/

abbrev ThunkId := ℕ × ℕ

/-- `ThunkData`. The CPU time is `⊥`, for `float("-inf")`, until the end of the thunk is read. -/
structure ThunkData (Time : Type) where
  cpu : ℕ
  cputime : Time
  rs : Finset ℕ
  ws : Finset ℕ

inductive Kind
  | comm
  | thunk
  | commit
  deriving DecidableEq

/-- A `CommTask`, a `ThunkTask` or a `CommitTask`. -/
structure Task where
  kind : Kind
  tid : ThunkId
  deriving DecidableEq

/-- The thunks and the edges between them that `TaskDAG` is built from. There are no cycles. -/
structure Programm (Time : Type) where
  thunks : List ThunkId
  edges : List (ThunkId × ThunkId)
  data : ThunkId → ThunkData Time
  distinct : thunks.Nodup
  single : edges.Nodup
  inside : ∀ e ∈ edges, e.1 ∈ thunks ∧ e.2 ∈ thunks
  acyclic : ∃ rank : ThunkId → ℕ, ∀ e ∈ edges, rank e.1 < rank e.2

namespace Programm

variable {Time : Type} (prog : Programm Time)

/-- The nodes of the task graph. -/
def tasks : List Task :=
  prog.thunks.flatMap fun t => [⟨.comm, t⟩, ⟨.thunk, t⟩, ⟨.commit, t⟩]

/-- The fetches of the thunks behind one. -/
def outThunks (t : ThunkId) : List Task :=
  (prog.edges.filter fun e => e.1 = t).map fun e => ⟨.comm, e.2⟩

/-- `TaskDAG.successors` -/
def successors (task : Task) : List Task :=
  match task.kind with
  | .comm => [⟨.thunk, task.tid⟩]
  | .thunk => ⟨.commit, task.tid⟩ :: prog.outThunks task.tid
  | .commit => prog.outThunks task.tid

/-- The tasks with an edge to one. -/
def predecessors (task : Task) : List Task := prog.tasks.filter fun u => task ∈ prog.successors u

/-- The `wait` that `start` gives a task. -/
def inDegree (task : Task) : ℕ := (prog.predecessors task).length

/-- The `entry` that `start` finds: the last node without an edge to it. -/
def entry : Option Task := (prog.tasks.filter fun task => prog.inDegree task = 0).getLast?

/-- The `exit` that `start` finds: the last other node without an edge from it. -/
def exit : Option Task :=
  (prog.tasks.filter fun task => prog.inDegree task ≠ 0 ∧ prog.successors task = []).getLast?

end Programm

/-! ## The machine -/

/-- The pairs of neighbours on a path. -/
def hops (path : List ℕ) : List (ℕ × ℕ) := path.zip path.tail

/-- `LinkDevice.id` -/
def linkId (hop : ℕ × ℕ) : ℕ × ℕ := (min hop.1 hop.2, max hop.1 hop.2)

/-- `Architecture` with the tables of a machine, and the answers of the graph library. A CPU can
be put into a domain that does not exist, the graph library raises an exception where it finds no
path, and the path between two domains need not run along edges of `numa_g`. -/
structure Architecture (Time : Type) where
  cpu2numa : List ℕ
  domains : ℕ
  /-- the edges of `numa_g` -/
  links : List (ℕ × ℕ)
  /-- the length of the shortest path in `numa_G` -/
  gap : ℕ → ℕ → Option Time
  /-- the length of the shortest path in `numa_L` -/
  delay : ℕ → ℕ → Option Time
  /-- the shortest path in `numa_L` -/
  path : ℕ → ℕ → Option (List ℕ)

inductive Device
  | link (id : ℕ × ℕ)
  | cpu (id : ℕ)
  | numa (id : ℕ)
  deriving DecidableEq

/-- The devices that `MachineNumaNet` sets up. -/
def Architecture.devices {Time : Type} (arch : Architecture Time) : List Device :=
  arch.links.map .link ++ ((List.range arch.cpu2numa.length).map .cpu ++
    (List.range arch.domains).map .numa)

/-- `Event`, or `CommEvent`. -/
structure Event (Time : Type) where
  task : Task
  time : Time
  deriving DecidableEq

/-- `Alarm`, with the device that is called back. -/
structure Alarm (Time : Type) where
  time : Time
  event : Event Time
  callback : Option Device
  deriving DecidableEq

inductive InitPage
  | firstTouch
  | magic
  | random
  deriving DecidableEq

inductive Commit
  | noMove
  | moveHere
  deriving DecidableEq

/-- `Execution`: the machine, the program and the policies. -/
structure Execution (Time : Type) where
  arch : Architecture Time
  prog : Programm Time
  initPage : InitPage
  commit : Commit

/-! ## The state -/

/-- Where `run` is. -/
inductive Phase (Time : Type)
  | test
  | schedule
  /-- the devices that `progress` has yet to visit -/
  | progress (todo : List Device)
  /-- the loop of `complete`, with its last alarm and the tasks it has finished -/
  | complete (earliest : Time) (last : Option Time) (finished : List Task)
  | returned (time : Time)
  /-- An exception has left the run. What the call that it comes from has changed is not kept. -/
  | raised (message : String)
  /-- `ipdb.set_trace()` waits for input -/
  | debugging
  deriving DecidableEq

structure State (Time : Type) where
  phase : Phase Time
  now : Time
  time : Time
  ready : List Task
  wait : Task → ℕ
  counter : Task → ℕ
  /-- the pages of the domains -/
  numas : ℕ → Finset ℕ
  /-- what is reserved on the devices -/
  active : List (Device × Event Time)
  /-- the CPUs that are running something -/
  running : ℕ → Bool
  alarms : List (Alarm Time)
  /-- the tasks that have been scheduled, latest first -/
  scheduled : List Task
  /-- the tasks that have been completed with the time, latest first -/
  log : List (Task × Time)

section State

variable {Time : Type}

/-- `Event.reserve` -/
def State.reserve (s : State Time) (event : Event Time) (device : Device) : State Time :=
  { s with
    counter := Function.update s.counter event.task (s.counter event.task + 1)
    active := s.active ++ [(device, event)] }

/-- An exception has left the run, or it waits in the debugger. -/
def State.Stopped (s : State Time) : Prop :=
  match s.phase with
  | .raised _ | .debugging => True
  | _ => False

def State.addPages (s : State Time) (domain : ℕ) (pages : Finset ℕ) : State Time :=
  { s with numas := Function.update s.numas domain (s.numas domain ∪ pages) }

end State

namespace Execution

variable {Time : Type} [Clock Time] (x : Execution Time)

def cpus : List ℕ := x.arch.cpu2numa

/-- Reserve the links of a path, one after the other. -/
def reservePath (event : Event Time) (path : List ℕ) (s : State Time) :
    Except String (State Time) :=
  (hops path).foldlM (fun s hop =>
    if x.arch.links.contains (linkId hop) then .ok (s.reserve event (.link (linkId hop)))
    else .error "KeyError") s

/-- Move some pages between the domain of a task and another: `page_time`, `shortest_path` and
the reservations of the hops. -/
def move (task : Task) (own : ℕ) (s : State Time) (other : ℕ × Finset ℕ) :
    Except String (State Time) :=
  match x.arch.gap own other.1, x.arch.delay own other.1, x.arch.path own other.1 with
  | some gap, some delay, some path =>
      x.reservePath ⟨task, Clock.times gap other.2.card + delay⟩ path s
  | _, _, _ => .error "NetworkXNoPath"

/-- The loop over the domains of the CPUs: move what is found of some pages, and say what is
left of them. -/
def moveFound (task : Task) (own : ℕ) :
    List ℕ → Finset ℕ → State Time → Except String (Finset ℕ × State Time)
  | [], pages, s => .ok (pages, s)
  | domain :: rest, pages, s =>
      -- the pages of its own domain have been taken out before
      if own = domain then moveFound task own rest pages s
      else if x.arch.domains ≤ domain then .error "KeyError"
      else if s.numas domain ∩ pages = ∅ then moveFound task own rest pages s
      else
        x.move task own s (domain, s.numas domain ∩ pages) >>=
          moveFound task own rest (pages \ (s.numas domain ∩ pages))

/-- The body of the loop of `RandomTouch` over the buckets. -/
def scatter (draw : ℕ → ℕ) (task : Task) (own : ℕ) (pages : Finset ℕ) (s : State Time)
    (src : ℕ) : Except String (State Time) :=
  let bucket := pages.filter fun page => draw page % x.arch.domains = src
  if own ≠ src then x.move task own (s.addPages src bucket) (src, bucket)
  else .ok (s.addPages own pages)

/-- `FirstTouch`, `MagicTouch` and `RandomTouch`, where a draw chooses among the buckets by its
rest. -/
def place (draw : ℕ → ℕ) (task : Task) (own : ℕ) (pages : Finset ℕ) (s : State Time) :
    Except String (State Time) :=
  match x.initPage with
  | .firstTouch => .ok (s.addPages own pages)
  | .magic =>
      if own ≠ 1 then
        if 1 < x.arch.domains then x.move task own (s.addPages 1 pages) (1, pages)
        else .error "KeyError"
      else .ok (s.addPages own pages)
  | .random => (List.range x.arch.domains).foldlM (x.scatter draw task own pages) s

/-- `schedule` for a fetch of a CPU of the domain given. -/
def scheduleComm (draw : ℕ → ℕ) (task : Task) (own : ℕ) (s : State Time) :
    Except String (State Time) :=
  let data := x.prog.data task.tid
  x.moveFound task own x.cpus ((data.rs ∪ data.ws) \ s.numas own) s >>= fun (left, s) =>
    (if left = ∅ then .ok s else x.place draw task own left s).map fun s =>
      s.reserve ⟨task, 0⟩ (.numa own)

/-- `NoMoveCommit` for a CPU of the domain given. -/
def scheduleCommit (task : Task) (own : ℕ) (s : State Time) : Except String (State Time) :=
  (x.moveFound task own x.cpus ((x.prog.data task.tid).ws \ s.numas own) s).map fun (_, s) =>
    s.reserve ⟨task, 0⟩ (.numa own)

/-- `self.arch.cpu2numa[task.thunk.cpu]`, and whether there is such a domain. -/
def ownDomain (task : Task) : Except String ℕ :=
  match x.cpus[(x.prog.data task.tid).cpu]? with
  | none => .error "IndexError"
  | some own => if own < x.arch.domains then .ok own else .error "KeyError"

/-- `MachineNumaNet.schedule` -/
def schedule (draw : ℕ → ℕ) (task : Task) (s : State Time) : Except String (State Time) :=
  let cpu := (x.prog.data task.tid).cpu
  match task.kind, x.commit with
  | .comm, _ => x.ownDomain task >>= fun own => x.scheduleComm draw task own s
  | .thunk, _ =>
      if cpu < x.cpus.length then .ok (s.reserve ⟨task, 0⟩ (.cpu cpu)) else .error "KeyError"
  | .commit, .noMove => x.ownDomain task >>= fun own => x.scheduleCommit task own s
  -- nothing is reserved, so nothing ends
  | .commit, .moveHere => .ok s

/-- The alarm of an event of a device. -/
def alarm (now : Time) : Device → Event Time → Alarm Time
  | .link _, event => ⟨now + event.time, event, none⟩
  | .cpu id, event => ⟨now + (x.prog.data event.task.tid).cputime, event, some (.cpu id)⟩
  | .numa id, event => ⟨now, event, some (.numa id)⟩

/-- A device takes one of its events. -/
def take (s : State Time) (device : Device) (choice : ℕ) : Option (State Time) :=
  match s.active[choice]? with
  | none => none
  | some (owner, event) =>
      if owner = device then
        some { s with
          active := s.active.eraseIdx choice
          alarms := x.alarm s.time device event :: s.alarms }
      else none

/-- A link takes all its events. -/
def takeAll (s : State Time) (device : Device) : State Time :=
  { s with
    active := s.active.filter fun entry => entry.1 ≠ device
    alarms := ((s.active.filter fun entry => entry.1 = device).map fun entry =>
      x.alarm s.time device entry.2) ++ s.alarms }

/-- `is_active` and `progress` of a device; the choice is the event that it pops. -/
def visit (s : State Time) (device : Device) (choice : ℕ) : Option (State Time) :=
  if ∀ entry ∈ s.active, entry.1 ≠ device then some s
  else
    match device with
    | .link _ => some (x.takeAll s device)
    | .numa _ => x.take s device choice
    | .cpu id =>
        -- a CPU runs one thunk at a time
        if s.running id then some s
        else (x.take s device choice).map fun s =>
          { s with running := Function.update s.running id true }

/-- `callback.complete` -/
def callBack (s : State Time) : Option Device → State Time
  | some (.cpu id) => { s with running := Function.update s.running id false }
  | _ => s

/-- `succ.wait -= 1` for a task that some finished task precedes. -/
def arrive (s : State Time) (task : Task) : State Time :=
  { s with
    wait := Function.update s.wait task (s.wait task - 1)
    ready := if s.wait task - 1 = 0 then s.ready ++ [task] else s.ready }

/-- The body of the loop over the finished tasks. -/
def release (s : State Time) (task : Task) : State Time :=
  (x.prog.successors task).foldl arrive { s with log := (task, s.now) :: s.log }

end Execution

/-- What happens next. -/
inductive Label
  | test
  | pop (choice : ℕ) (draw : ℕ → ℕ)
  | start
  | visit (choice event : ℕ)
  | complete
  | ring (choice : ℕ)
  | release

section Times

variable {Time : Type} [Clock Time]

/-- `alarms[0].time` for a heap with this alarm at its top. -/
def Earliest (alarms : List (Alarm Time)) (time : Time) : Prop :=
  (∃ alarm ∈ alarms, alarm.time = time) ∧ ∀ alarm ∈ alarms, time ≤ alarm.time

instance (alarms : List (Alarm Time)) (time : Time) : Decidable (Earliest alarms time) :=
  inferInstanceAs (Decidable (_ ∧ _))

/-- The time at which a breakpoint of `run` is set. -/
def breakpoint : Time := (1078651 : ℕ)

end Times

namespace Execution

variable {Time : Type} [Clock Time] (x : Execution Time)

/-- `run`, one step of one of its loops after the other. -/
def step (s : State Time) : Label → Option (State Time)
  | .test =>
      match s.phase with
      | .test =>
          if 0 < (x.prog.exit.map s.wait).getD 0 ∨ s.ready ≠ [] then
            some { s with phase := .schedule }
          -- the time is the one at which the last round began
          else some { s with phase := .returned s.time }
      | _ => none
  | .pop choice draw =>
      match s.phase, s.ready[choice]? with
      | .schedule, some task =>
          let popped := { s with
            ready := s.ready.eraseIdx choice
            scheduled := task :: s.scheduled }
          match x.schedule draw task popped with
          | .error message => some { s with phase := .raised message }
          | .ok s' => some s'
      | _, _ => none
  | .start =>
      match s.phase, s.ready with
      | .schedule, [] => some { s with phase := .progress x.arch.devices, time := s.now }
      | _, _ => none
  | .visit choice event =>
      match s.phase with
      | .progress todo =>
          match todo[choice]? with
          | none => none
          | some device =>
              (x.visit s device event).map fun s =>
                { s with phase := .progress (todo.eraseIdx choice) }
      | _ => none
  | .complete =>
      match s.phase with
      | .progress [] =>
          match s.alarms with
          -- `self.alarms[0]`
          | [] => some { s with phase := .raised "IndexError" }
          | first :: rest =>
              let earliest := rest.foldl (fun time alarm => min time alarm.time) first.time
              some { s with phase := .complete earliest none [] }
      | _ => none
  | .ring choice =>
      match s.phase, s.alarms[choice]? with
      | .complete earliest _ finished, some alarm =>
          -- later alarms ring too as long as no task is finished
          if Earliest s.alarms alarm.time ∧ (alarm.time = earliest ∨ finished = []) then
            let s := callBack s alarm.callback
            let task := alarm.event.task
            let counter := s.counter task - 1
            some { s with
              alarms := s.alarms.eraseIdx choice
              counter := Function.update s.counter task counter
              phase := .complete earliest (some alarm.time)
                (if counter = 0 then finished ++ [task] else finished) }
          else none
      | _, _ => none
  | .release =>
      match s.phase with
      | .complete earliest (some last) finished =>
          -- the loop goes on while the earliest alarm is as early as the first one was
          if s.alarms ≠ [] ∧ (Earliest s.alarms earliest ∨ finished = []) then none
          else if last < 0 then some { s with phase := .raised "Wrong time" }
          -- the first task that is finished at the time of the breakpoint stops the loop
          else if last = breakpoint ∧ finished ≠ [] then
            some { s with
              phase := .debugging
              now := last
              log := (finished.map fun task => (task, last)).reverse ++ s.log }
          else some { finished.foldl x.release { s with now := last } with phase := .test }
      | _ => none

/-- The state in front of the loop of `run`. -/
def initial (entry : Task) : State Time where
  phase := .test
  now := 0
  time := 0
  ready := [entry]
  wait := x.prog.inDegree
  counter := fun _ => 0
  numas := fun _ => ∅
  active := []
  running := fun _ => false
  alarms := []
  scheduled := []
  log := []

def system : Transition.System (State Time) Label where
  Init s := ∃ entry, x.prog.entry = some entry ∧ s = x.initial entry
  step := x.step

/-! ## What a step does -/

variable {x} {s s' : State Time} {draw : ℕ → ℕ} {choice event : ℕ}

/-- Nothing happens after an exception, or in the debugger. -/
theorem not_step_of_stopped {label : Label} (stopped : s.Stopped) : x.step s label ≠ some s' := by
  rw [State.Stopped] at stopped
  split at stopped
  · next message raised => cases label <;> simp [step, raised]
  · next debugging => cases label <;> simp [step, debugging]
  · exact stopped.elim

theorem step_test (move : x.step s .test = some s') :
    s.phase = .test ∧
      ((0 < (x.prog.exit.map s.wait).getD 0 ∨ s.ready ≠ []) ∧
          s' = { s with phase := .schedule } ∨
        (x.prog.exit.map s.wait).getD 0 = 0 ∧ s.ready = [] ∧
          s' = { s with phase := .returned s.time }) := by
  simp only [step] at move
  split at move
  · next phase =>
    split at move
    · next more => exact ⟨phase, .inl ⟨more, (Option.some.inj move).symm⟩⟩
    · next done =>
      obtain ⟨waits, ready⟩ := not_or.mp done
      exact ⟨phase, .inr ⟨by omega, not_not.mp ready, (Option.some.inj move).symm⟩⟩
  · cases move

theorem step_pop (move : x.step s (.pop choice draw) = some s') :
    ∃ task, s.phase = .schedule ∧ s.ready[choice]? = some task ∧
      ((∃ message, x.schedule draw task { s with
            ready := s.ready.eraseIdx choice
            scheduled := task :: s.scheduled } = .error message ∧
          s' = { s with phase := .raised message }) ∨
        x.schedule draw task { s with
          ready := s.ready.eraseIdx choice
          scheduled := task :: s.scheduled } = .ok s') := by
  simp only [step] at move
  split at move
  · next task phase popped =>
    split at move
    · next message failed =>
      obtain rfl := Option.some.inj move
      exact ⟨task, phase, popped, .inl ⟨message, failed, rfl⟩⟩
    · next scheduled =>
      obtain rfl := Option.some.inj move
      exact ⟨task, phase, popped, .inr scheduled⟩
  · cases move

theorem step_start (move : x.step s .start = some s') :
    s.phase = .schedule ∧ s.ready = [] ∧
      s' = { s with phase := .progress x.arch.devices, time := s.now } := by
  simp only [step] at move
  split at move
  · next phase empty => exact ⟨phase, empty, (Option.some.inj move).symm⟩
  · cases move

theorem step_visit (move : x.step s (.visit choice event) = some s') :
    ∃ todo device after, s.phase = .progress todo ∧ todo[choice]? = some device ∧
      x.visit s device event = some after ∧
      s' = { after with phase := .progress (todo.eraseIdx choice) } := by
  simp only [step] at move
  split at move
  · next todo phase =>
    split at move
    · cases move
    · next device chosen =>
      obtain ⟨after, visited, rfl⟩ := Option.map_eq_some_iff.mp move
      exact ⟨todo, device, after, phase, chosen, visited, rfl⟩
  · cases move

theorem foldl_min (first : Time) (rest : List (Alarm Time)) :
    (∀ alarm ∈ rest, rest.foldl (fun time alarm => min time alarm.time) first ≤ alarm.time) ∧
      rest.foldl (fun time alarm => min time alarm.time) first ≤ first ∧
      (rest.foldl (fun time alarm => min time alarm.time) first = first ∨
        ∃ alarm ∈ rest, alarm.time =
          rest.foldl (fun time alarm => min time alarm.time) first) := by
  induction rest generalizing first with
  | nil => exact ⟨fun _ member => absurd member List.not_mem_nil, le_rfl, .inl rfl⟩
  | cons alarm rest ih =>
    obtain ⟨below, bound, among⟩ := ih (min first alarm.time)
    rw [List.foldl_cons]
    refine ⟨List.forall_mem_cons.mpr ⟨bound.trans (min_le_right _ _), below⟩,
      bound.trans (min_le_left _ _), ?_⟩
    obtain same | ⟨other, member, same⟩ := among
    · obtain first_le | le_first := le_total first alarm.time
      · exact .inl (same.trans (min_eq_left first_le))
      · exact .inr ⟨alarm, List.mem_cons_self, (same.trans (min_eq_right le_first)).symm⟩
    · exact .inr ⟨other, List.mem_cons_of_mem _ member, same⟩

theorem step_complete (move : x.step s .complete = some s') :
    s.phase = .progress [] ∧
      (s.alarms = [] ∧ s' = { s with phase := .raised "IndexError" } ∨
        ∃ earliest, Earliest s.alarms earliest ∧
          s' = { s with phase := .complete earliest none [] }) := by
  simp only [step] at move
  split at move
  · next phase =>
    split at move
    · next none => exact ⟨phase, .inl ⟨none, (Option.some.inj move).symm⟩⟩
    · next first rest some =>
      obtain ⟨below, bound, among⟩ := foldl_min first.time rest
      refine ⟨phase, .inr ⟨_, ?_, (Option.some.inj move).symm⟩⟩
      rw [some]
      refine ⟨?_, List.forall_mem_cons.mpr ⟨bound, below⟩⟩
      obtain same | ⟨alarm, member, same⟩ := among
      · exact ⟨first, List.mem_cons_self, same.symm⟩
      · exact ⟨alarm, List.mem_cons_of_mem _ member, same⟩
  · cases move

theorem step_ring (move : x.step s (.ring choice) = some s') :
    ∃ earliest last finished alarm, s.phase = .complete earliest last finished ∧
      s.alarms[choice]? = some alarm ∧ Earliest s.alarms alarm.time ∧
      (alarm.time = earliest ∨ finished = []) ∧
      s' = { callBack s alarm.callback with
        alarms := s.alarms.eraseIdx choice
        counter := Function.update s.counter alarm.event.task (s.counter alarm.event.task - 1)
        phase := .complete earliest (some alarm.time)
          (if s.counter alarm.event.task - 1 = 0 then finished ++ [alarm.event.task]
            else finished) } := by
  simp only [step] at move
  split at move
  · next earliest last finished alarm phase chosen =>
    obtain ⟨⟨first, goes⟩, rfl⟩ := Transition.guarded move
    refine ⟨earliest, last, finished, alarm, phase, chosen, first, goes, ?_⟩
    -- calling a CPU back changes neither the alarms nor the counters
    obtain _ | (_ | _ | _) := alarm.callback <;> rfl
  · cases move

theorem step_release (move : x.step s .release = some s') :
    ∃ earliest last finished, s.phase = .complete earliest (some last) finished ∧
      (s.alarms = [] ∨ ¬ Earliest s.alarms earliest ∧ finished ≠ []) ∧
      (last < 0 ∧ s' = { s with phase := .raised "Wrong time" } ∨
        0 ≤ last ∧ last = breakpoint ∧ finished ≠ [] ∧ s' = { s with
          phase := .debugging
          now := last
          log := (finished.map fun task => (task, last)).reverse ++ s.log } ∨
        0 ≤ last ∧ (last = breakpoint → finished = []) ∧
          s' = { finished.foldl x.release { s with now := last } with phase := .test }) := by
  simp only [step] at move
  split at move
  · next earliest last finished phase =>
    split at move
    · cases move
    · next ended =>
      refine ⟨earliest, last, finished, phase, ?_, ?_⟩
      · tauto
      · split_ifs at move with early stopped
        · exact .inl ⟨early, (Option.some.inj move).symm⟩
        · exact .inr (.inl ⟨not_lt.mp early, stopped.1, stopped.2, (Option.some.inj move).symm⟩)
        · exact .inr (.inr ⟨not_lt.mp early, fun now => not_not.mp (not_and.mp stopped now),
            (Option.some.inj move).symm⟩)
  · cases move

/-- Visiting a device leaves it alone, or takes one of its events, or all events of a link. -/
theorem visit_cases {device : Device} (visited : x.visit s device event = some s') :
    s' = s ∧ ((∀ entry ∈ s.active, entry.1 ≠ device) ∨
        ∃ id, device = .cpu id ∧ s.running id = true) ∨
      (∃ id, device = .link id ∧ (∃ entry ∈ s.active, entry.1 = device) ∧
        s' = x.takeAll s device) ∨
      (∃ id, device = .numa id ∧ x.take s device event = some s') ∨
      ∃ id after, device = .cpu id ∧ s.running id = false ∧
        x.take s device event = some after ∧
        s' = { after with running := Function.update after.running id true } := by
  simp only [visit] at visited
  split at visited
  · next idle => exact .inl ⟨(Option.some.inj visited).symm, .inl idle⟩
  · next busy =>
    split at visited
    · next id =>
      simp only [not_forall, not_not] at busy
      obtain ⟨entry, member, same⟩ := busy
      exact .inr (.inl ⟨id, rfl, ⟨entry, member, same⟩, (Option.some.inj visited).symm⟩)
    · next id => exact .inr (.inr (.inl ⟨id, rfl, visited⟩))
    · next id =>
      split at visited
      · next runs => exact .inl ⟨(Option.some.inj visited).symm, .inr ⟨id, rfl, runs⟩⟩
      · next stands =>
        obtain ⟨after, taken, rfl⟩ := Option.map_eq_some_iff.mp visited
        exact .inr (.inr (.inr ⟨id, after, rfl, Bool.eq_false_of_not_eq_true stands, taken, rfl⟩))

omit [Clock Time] in
/-- Telling some tasks of a finished one writes the tasks that wait, and nothing else. -/
theorem foldl_arrive_frame {tasks : List Task} :
    ∃ wait ready, tasks.foldl arrive s = { s with
      wait := wait
      ready := ready } := by
  induction tasks generalizing s with
  | nil => exact ⟨s.wait, s.ready, rfl⟩
  | cons task rest ih =>
    obtain ⟨wait, ready, same⟩ := ih (s := arrive s task)
    exact ⟨wait, ready, same⟩

omit [Clock Time] in
/-- The loop over the finished tasks writes the log and the tasks that wait, and nothing else. -/
theorem foldl_release {finished : List Task} :
    ∃ wait ready, finished.foldl x.release s = { s with
      log := (finished.map fun task => (task, s.now)).reverse ++ s.log
      wait := wait
      ready := ready } := by
  induction finished generalizing s with
  | nil => exact ⟨s.wait, s.ready, rfl⟩
  | cons task rest ih =>
    obtain ⟨wait, ready, same⟩ := ih (s := x.release s task)
    obtain ⟨_, _, told⟩ := @foldl_arrive_frame Time { s with log := (task, s.now) :: s.log }
      (x.prog.successors task)
    refine ⟨wait, ready, ?_⟩
    rw [List.foldl_cons, same, release, told]
    simp

theorem take_cases {device : Device} (taken : x.take s device event = some s') :
    ∃ entry, s.active[event]? = some (device, entry) ∧
      s' = { s with
        active := s.active.eraseIdx event
        alarms := x.alarm s.time device entry :: s.alarms } := by
  simp only [take] at taken
  split at taken
  · cases taken
  · next owner entry chosen =>
    obtain ⟨rfl, rfl⟩ := Transition.guarded taken
    exact ⟨entry, chosen, rfl⟩

end Execution

/-! ## What scheduling does -/

/-- What the loop over the domains of the CPUs finds of some pages, and what it leaves. -/
def search (numas : ℕ → Finset ℕ) (own : ℕ) : List ℕ → Finset ℕ → List (ℕ × Finset ℕ) × Finset ℕ
  | [], pages => ([], pages)
  | domain :: rest, pages =>
      if own = domain then search numas own rest pages
      else if numas domain ∩ pages = ∅ then search numas own rest pages
      else
        let found := search numas own rest (pages \ (numas domain ∩ pages))
        ((domain, numas domain ∩ pages) :: found.1, found.2)

/-- The graph library finds its way from a domain to another, and that along links. -/
structure Architecture.Way {Time : Type} (arch : Architecture Time) (i j : ℕ) : Prop where
  gap : (arch.gap i j).isSome
  delay : (arch.delay i j).isSome
  path : ∃ path, arch.path i j = some path ∧ ∀ hop ∈ hops path, linkId hop ∈ arch.links

section Booked

variable {Time : Type} {s : State Time} {task : Task} {entries others : List (Device × Event Time)}
  {numas numas' : ℕ → Finset ℕ}

/-- The state after some reservations for a task, with these pages. -/
def State.booked (s : State Time) (task : Task) (entries : List (Device × Event Time))
    (numas : ℕ → Finset ℕ) : State Time :=
  { s with
    counter := Function.update s.counter task (s.counter task + entries.length)
    active := s.active ++ entries
    numas := numas }

theorem State.booked_nil : s.booked task [] s.numas = s := by
  simp [State.booked]

theorem State.booked_booked :
    (s.booked task entries numas).booked task others numas' =
      s.booked task (entries ++ others) numas' := by
  simp [State.booked, Nat.add_assoc]

theorem State.reserve_eq {event : Event Time} {device : Device} :
    s.reserve event device = s.booked event.task [(device, event)] s.numas := rfl

theorem State.addPages_eq (task : Task) (domain : ℕ) (pages : Finset ℕ) :
    s.addPages domain pages =
      s.booked task [] (Function.update s.numas domain (s.numas domain ∪ pages)) := by
  simp [State.addPages, State.booked]

/-- What a path is booked with. -/
def pathEntries (event : Event Time) (path : List ℕ) : List (Device × Event Time) :=
  (hops path).map fun hop => (.link (linkId hop), event)

end Booked

/-- No length between domains is negative: the shortest paths are those of Dijkstra's algorithm,
which is for such lengths and raises an exception where it meets another one. -/
structure Architecture.Unsigned {Time : Type} [Clock Time] (arch : Architecture Time) : Prop where
  gap : ∀ i j gap, arch.gap i j = some gap → 0 ≤ gap
  delay : ∀ i j delay, arch.delay i j = some delay → 0 ≤ delay

namespace Execution

variable {Time : Type} [Clock Time] {x : Execution Time} {s s' : State Time} {task : Task}
  {own : ℕ} {draw : ℕ → ℕ} {pages : Finset ℕ}

/-- The entries are for the task, on devices of the machine, and take no negative time where
the machine has no negative length. -/
def Books (x : Execution Time) (task : Task) (entries : List (Device × Event Time)) : Prop :=
  ∀ entry ∈ entries, entry.2.task = task ∧ entry.1 ∈ x.arch.devices ∧
    (x.arch.Unsigned → 0 ≤ entry.2.time)

/-- The same for links of the machine. -/
def BooksLinks (x : Execution Time) (task : Task) (entries : List (Device × Event Time)) : Prop :=
  ∀ entry ∈ entries, entry.2.task = task ∧ (∃ id ∈ x.arch.links, entry.1 = .link id) ∧
    (x.arch.Unsigned → 0 ≤ entry.2.time)

variable {entries others : List (Device × Event Time)}

theorem Books.append (first : x.Books task entries) (second : x.Books task others) :
    x.Books task (entries ++ others) :=
  List.forall_mem_append.mpr ⟨first, second⟩

theorem BooksLinks.append (first : x.BooksLinks task entries) (second : x.BooksLinks task others) :
    x.BooksLinks task (entries ++ others) :=
  List.forall_mem_append.mpr ⟨first, second⟩

theorem BooksLinks.books (links : x.BooksLinks task entries) : x.Books task entries := by
  intro entry member
  obtain ⟨own, ⟨id, link, device⟩, late⟩ := links entry member
  refine ⟨own, ?_, late⟩
  rw [device]
  exact List.mem_append_left _ (List.mem_map_of_mem link)

theorem books_nil : x.Books task [] := fun _ member => absurd member List.not_mem_nil

theorem booksLinks_nil : x.BooksLinks task [] := fun _ member => absurd member List.not_mem_nil

omit [Clock Time] in
/-- A path is reserved if it runs along links. -/
theorem reservePath_ok {event : Event Time} {path : List ℕ} :
    x.reservePath event path s = .ok s' ↔ (∀ hop ∈ hops path, linkId hop ∈ x.arch.links) ∧
      s' = s.booked event.task (pathEntries event path) s.numas := by
  rw [reservePath, pathEntries]
  induction hops path generalizing s with
  | nil =>
    rw [List.foldlM_nil, List.map_nil, State.booked_nil]
    exact ⟨fun same => ⟨fun _ member => absurd member List.not_mem_nil, (Except.ok.inj same).symm⟩,
      fun ⟨_, same⟩ => congrArg Except.ok same.symm⟩
  | cons hop rest ih =>
    rw [List.foldlM_cons, Folds.bind_ok, List.forall_mem_cons, List.map_cons]
    by_cases linked : linkId hop ∈ x.arch.links
    · rw [if_pos (List.contains_iff_mem.mpr linked)]
      simp only [linked, Except.ok.injEq, exists_eq_left', ih, true_and]
      rw [State.reserve_eq, State.booked_booked]
      rfl
    · rw [if_neg fun known => linked (List.contains_iff_mem.mp known)]
      simp only [linked, reduceCtorEq, false_and, exists_false]

/-- What a move is booked with. -/
def moveEntries (x : Execution Time) (task : Task) (own : ℕ) (other : ℕ × Finset ℕ) :
    List (Device × Event Time) :=
  match x.arch.gap own other.1, x.arch.delay own other.1, x.arch.path own other.1 with
  | some gap, some delay, some path =>
      pathEntries ⟨task, Clock.times gap other.2.card + delay⟩ path
  | _, _, _ => []

/-- Pages are moved where there is a way. -/
theorem move_ok {other : ℕ × Finset ℕ} : x.move task own s other = .ok s' ↔
    x.arch.Way own other.1 ∧ s' = s.booked task (x.moveEntries task own other) s.numas := by
  rw [move, moveEntries]
  split
  · next gap delay path gap_eq delay_eq path_eq =>
    rw [reservePath_ok]
    refine and_congr_left fun _ => ⟨fun linked => ⟨?_, ?_, path, path_eq, linked⟩, fun way => ?_⟩
    · rw [gap_eq]
      rfl
    · rw [delay_eq]
      rfl
    · obtain ⟨found, same, linked⟩ := way.path
      obtain rfl := Option.some.inj (path_eq.symm.trans same)
      exact linked
  · next none =>
    refine iff_of_false (fun same => by cases same) fun ⟨way, _⟩ => ?_
    obtain ⟨gap, gap_eq⟩ := Option.isSome_iff_exists.mp way.gap
    obtain ⟨delay, delay_eq⟩ := Option.isSome_iff_exists.mp way.delay
    obtain ⟨path, path_eq, -⟩ := way.path
    exact none gap delay path gap_eq delay_eq path_eq

/-- The loop over the CPUs comes to its end if their domains exist and there is a way to what is
found. -/
theorem moveFound_ok {domains : List ℕ} {left : Finset ℕ} :
    x.moveFound task own domains pages s = .ok (left, s') ↔
      (∀ d ∈ domains, own ≠ d → d < x.arch.domains) ∧
        (∀ other ∈ (search s.numas own domains pages).1, x.arch.Way own other.1) ∧
        left = (search s.numas own domains pages).2 ∧
        s' = s.booked task ((search s.numas own domains pages).1.flatMap
          (x.moveEntries task own)) s.numas := by
  induction domains generalizing pages s with
  | nil =>
    simp only [moveFound, search, Except.ok.injEq, Prod.mk.injEq, List.flatMap_nil,
      State.booked_nil, List.not_mem_nil, false_implies, implies_true, true_and, eq_comm]
  | cons domain rest ih =>
    rw [moveFound, search, List.forall_mem_cons]
    by_cases same : own = domain
    · rw [if_pos same, if_pos same, ih]
      simp [same]
    rw [if_neg same, if_neg same]
    by_cases missing : x.arch.domains ≤ domain
    · rw [if_pos missing]
      exact iff_of_false (fun failed => by cases failed) fun ⟨⟨inside, _⟩, _⟩ =>
        missing.not_gt (inside same)
    rw [if_neg missing]
    by_cases none : s.numas domain ∩ pages = ∅
    · rw [if_pos none, if_pos none, ih]
      simp [not_le.mp missing]
    · rw [if_neg none, if_neg none, Folds.bind_ok]
      simp only [move_ok, and_assoc, List.forall_mem_cons, List.flatMap_cons]
      constructor
      · rintro ⟨_, way, rfl, tail⟩
        obtain ⟨exists_, ways, rfl, rfl⟩ := ih.mp tail
        exact ⟨fun _ => not_le.mp missing, exists_, way, ways, rfl, State.booked_booked⟩
      · rintro ⟨-, exists_, way, ways, rfl, rfl⟩
        exact ⟨_, way, rfl, ih.mpr ⟨exists_, ways, rfl, State.booked_booked.symm⟩⟩

theorem moveEntries_cases {other : ℕ × Finset ℕ} {entry : Device × Event Time}
    (member : entry ∈ x.moveEntries task own other) : ∃ gap delay path hop,
      x.arch.gap own other.1 = some gap ∧ x.arch.delay own other.1 = some delay ∧
      x.arch.path own other.1 = some path ∧ hop ∈ hops path ∧
      entry = (.link (linkId hop), ⟨task, Clock.times gap other.2.card + delay⟩) := by
  rw [moveEntries] at member
  split at member
  · next gap delay path gap_eq delay_eq path_eq =>
    obtain ⟨hop, onPath, rfl⟩ := List.mem_map.mp member
    exact ⟨gap, delay, path, hop, gap_eq, delay_eq, path_eq, onPath, rfl⟩
  · exact absurd member List.not_mem_nil

theorem moveEntries_links {other : ℕ × Finset ℕ} {entry : Device × Event Time}
    (member : entry ∈ x.moveEntries task own other) : ∃ id, entry.1 = .link id := by
  obtain ⟨_, _, _, hop, -, -, -, -, rfl⟩ := moveEntries_cases member
  exact ⟨linkId hop, rfl⟩

theorem moveEntries_own {other : ℕ × Finset ℕ} {entry : Device × Event Time}
    (member : entry ∈ x.moveEntries task own other) :
    entry.2.task = task ∧ (x.arch.Unsigned → 0 ≤ entry.2.time) := by
  obtain ⟨gap, delay, _, _, gap_eq, delay_eq, -, -, rfl⟩ := moveEntries_cases member
  exact ⟨rfl, fun unsigned => add_nonneg (Clock.times_nonneg _ (unsigned.gap _ _ _ gap_eq))
    (unsigned.delay _ _ _ delay_eq)⟩

theorem booksLinks_moveEntries {other : ℕ × Finset ℕ} (way : x.arch.Way own other.1) :
    x.BooksLinks task (x.moveEntries task own other) := by
  intro entry member
  obtain ⟨own, late⟩ := moveEntries_own member
  refine ⟨own, ?_, late⟩
  obtain ⟨_, _, path, hop, -, -, path_eq, onPath, rfl⟩ := moveEntries_cases member
  obtain ⟨found, same, linked⟩ := way.path
  obtain rfl := Option.some.inj (path_eq.symm.trans same)
  exact ⟨linkId hop, linked hop onPath, rfl⟩

theorem booksLinks_moves {found : List (ℕ × Finset ℕ)}
    (ways : ∀ other ∈ found, x.arch.Way own other.1) :
    x.BooksLinks task (found.flatMap (x.moveEntries task own)) := by
  intro entry member
  obtain ⟨other, among, inside⟩ := List.mem_flatMap.mp member
  exact booksLinks_moveEntries (ways other among) entry inside

theorem books_numa (inside : own < x.arch.domains) : x.Books task [(.numa own, ⟨task, 0⟩)] := by
  intro entry member
  obtain rfl := List.mem_singleton.mp member
  refine ⟨rfl, List.mem_append_right _ (List.mem_append_right _ ?_), fun _ => le_rfl⟩
  exact List.mem_map_of_mem (List.mem_range.mpr inside)

/-- A move of pages that have just been put somewhere. -/
theorem move_addPages_booked {domain : ℕ} {other : ℕ × Finset ℕ}
    (moved : x.move task own (s.addPages domain pages) other = .ok s') :
    ∃ entries, s' = s.booked task entries s'.numas ∧ x.BooksLinks task entries := by
  obtain ⟨way, rfl⟩ := move_ok.mp moved
  rw [State.addPages_eq task, State.booked_booked]
  exact ⟨_, rfl, booksLinks_nil.append (booksLinks_moveEntries way)⟩

theorem scatter_booked {src : ℕ} (scattered : x.scatter draw task own pages s src = .ok s') :
    ∃ entries, s' = s.booked task entries s'.numas ∧ x.BooksLinks task entries := by
  simp only [scatter] at scattered
  split_ifs at scattered
  · exact move_addPages_booked scattered
  · obtain rfl := Except.ok.inj scattered
    exact ⟨[], State.addPages_eq task own pages, booksLinks_nil⟩

theorem foldlM_scatter_booked {domains : List ℕ}
    (scattered : domains.foldlM (x.scatter draw task own pages) s = .ok s') :
    ∃ entries, s' = s.booked task entries s'.numas ∧ x.BooksLinks task entries := by
  induction domains generalizing s with
  | nil =>
    obtain rfl := Except.ok.inj scattered
    exact ⟨[], State.booked_nil.symm, booksLinks_nil⟩
  | cons src rest ih =>
    rw [List.foldlM_cons, Folds.bind_ok] at scattered
    obtain ⟨middle, first, tail⟩ := scattered
    obtain ⟨entries, same, booked⟩ := scatter_booked first
    obtain ⟨later, rest, bookedLater⟩ := ih tail
    refine ⟨entries ++ later, ?_, booked.append bookedLater⟩
    calc s' = middle.booked task later s'.numas := rest
      _ = (s.booked task entries middle.numas).booked task later s'.numas :=
        congrArg (State.booked · _ _ _) same
      _ = _ := State.booked_booked

/-- Placing pages books links and adds pages. -/
theorem place_booked (placed : x.place draw task own pages s = .ok s') :
    ∃ entries, s' = s.booked task entries s'.numas ∧ x.BooksLinks task entries := by
  simp only [place] at placed
  split at placed
  · obtain rfl := Except.ok.inj placed
    exact ⟨[], State.addPages_eq task own pages, booksLinks_nil⟩
  · split_ifs at placed
    · exact move_addPages_booked placed
    · obtain rfl := Except.ok.inj placed
      exact ⟨[], State.addPages_eq task own pages, booksLinks_nil⟩
  · exact foldlM_scatter_booked placed

/-- The pages of a thunk. -/
def needs (x : Execution Time) (task : Task) : Finset ℕ :=
  (x.prog.data task.tid).rs ∪ (x.prog.data task.tid).ws

/-- The pages that a task looks for. -/
def asks (x : Execution Time) (task : Task) : Finset ℕ :=
  match task.kind with
  | .comm => x.needs task
  | .thunk => ∅
  | .commit => (x.prog.data task.tid).ws

/-- The pages that a task finds in other domains than its own, and the ones that it does not
find. -/
def finds (x : Execution Time) (numas : ℕ → Finset ℕ) (task : Task) (own : ℕ) :
    List (ℕ × Finset ℕ) × Finset ℕ :=
  search numas own x.cpus (x.asks task \ numas own)

/-- A fetch is scheduled if the loop over the CPUs comes to its end and what is left is placed. -/
theorem scheduleComm_ok (comm : task.kind = .comm) : x.scheduleComm draw task own s = .ok s' ↔
    (∀ d ∈ x.cpus, own ≠ d → d < x.arch.domains) ∧
      (∀ other ∈ (x.finds s.numas task own).1, x.arch.Way own other.1) ∧
      ∃ placed, (if (x.finds s.numas task own).2 = ∅ then
          .ok (s.booked task ((x.finds s.numas task own).1.flatMap (x.moveEntries task own))
            s.numas)
        else x.place draw task own (x.finds s.numas task own).2
          (s.booked task ((x.finds s.numas task own).1.flatMap (x.moveEntries task own)) s.numas)) =
            .ok placed ∧
      s' = placed.reserve ⟨task, 0⟩ (.numa own) := by
  simp only [scheduleComm, Folds.bind_ok, Folds.map_ok, Prod.exists, moveFound_ok, finds, asks,
    comm, needs]
  constructor
  · rintro ⟨_, _, ⟨domains, ways, rfl, rfl⟩, placed, place, rfl⟩
    exact ⟨domains, ways, placed, place, rfl⟩
  · rintro ⟨domains, ways, placed, place, rfl⟩
    exact ⟨_, _, ⟨domains, ways, rfl, rfl⟩, placed, place, rfl⟩

/-- A fetch books links, and its own domain last. -/
theorem scheduleComm_booked (comm : task.kind = .comm)
    (scheduled : x.scheduleComm draw task own s = .ok s') :
    ∃ moves, s' = s.booked task (moves ++ [(.numa own, ⟨task, 0⟩)]) s'.numas ∧
      x.BooksLinks task moves := by
  obtain ⟨-, ways, placed, place, rfl⟩ := (scheduleComm_ok comm).mp scheduled
  split_ifs at place
  · obtain rfl := Except.ok.inj place
    rw [State.reserve_eq, State.booked_booked]
    exact ⟨_, rfl, booksLinks_moves ways⟩
  · obtain ⟨entries, same, booked⟩ := place_booked place
    rw [same, State.reserve_eq, State.booked_booked, State.booked_booked, ← List.append_assoc]
    exact ⟨_, rfl, (booksLinks_moves ways).append booked⟩

/-- A commit books links for what it finds elsewhere, and its own domain last. -/
theorem scheduleCommit_ok (commit : task.kind = .commit) : x.scheduleCommit task own s = .ok s' ↔
    (∀ d ∈ x.cpus, own ≠ d → d < x.arch.domains) ∧
      (∀ other ∈ (x.finds s.numas task own).1, x.arch.Way own other.1) ∧
      s' = s.booked task ((x.finds s.numas task own).1.flatMap (x.moveEntries task own) ++
        [(.numa own, ⟨task, 0⟩)]) s.numas := by
  simp only [scheduleCommit, Folds.map_ok, Prod.exists, moveFound_ok, finds, asks, commit]
  constructor
  · rintro ⟨left, found, ⟨domains, ways, -, rfl⟩, rfl⟩
    refine ⟨domains, ways, ?_⟩
    rw [State.reserve_eq, State.booked_booked]
    rfl
  · rintro ⟨domains, ways, rfl⟩
    refine ⟨_, _, ⟨domains, ways, rfl, rfl⟩, ?_⟩
    rw [State.reserve_eq, State.booked_booked]
    rfl

omit [Clock Time] in
theorem ownDomain_ok : x.ownDomain task = .ok own ↔
    x.cpus[(x.prog.data task.tid).cpu]? = some own ∧ own < x.arch.domains := by
  rw [ownDomain]
  split
  · next none =>
    rw [none]
    exact iff_of_false (fun failed => by cases failed) fun ⟨same, _⟩ => by cases same
  · next found present =>
    rw [present, Option.some.injEq]
    split_ifs with inside
    · rw [Except.ok.injEq]
      exact ⟨fun same => ⟨same, same ▸ inside⟩, And.left⟩
    · exact iff_of_false (fun failed => by cases failed) fun ⟨same, there⟩ => inside (same ▸ there)

/-- Scheduling a task books it on devices, and changes nothing else but the pages. Only a
commit that is not simulated books nothing. -/
theorem schedule_booked (scheduled : x.schedule draw task s = .ok s') :
    ∃ entries, s' = s.booked task entries s'.numas ∧ x.Books task entries ∧
      (x.commit = .noMove ∨ task.kind ≠ .commit → entries ≠ []) := by
  simp only [schedule] at scheduled
  split at scheduled
  · next _ kind =>
    obtain ⟨own, present, scheduled⟩ := Folds.bind_ok.mp scheduled
    obtain ⟨moves, same, booked⟩ := scheduleComm_booked kind scheduled
    exact ⟨_, same, booked.books.append (books_numa (ownDomain_ok.mp present).2), by simp⟩
  · split_ifs at scheduled with present
    obtain rfl := Except.ok.inj scheduled
    refine ⟨_, State.reserve_eq, fun entry member => ?_, fun _ => List.cons_ne_nil _ _⟩
    obtain rfl := List.mem_singleton.mp member
    refine ⟨rfl, List.mem_append_right _ (List.mem_append_left _ ?_), fun _ => le_rfl⟩
    exact List.mem_map_of_mem (List.mem_range.mpr present)
  · next kind _ =>
    obtain ⟨own, present, scheduled⟩ := Folds.bind_ok.mp scheduled
    obtain ⟨-, ways, rfl⟩ := (scheduleCommit_ok kind).mp scheduled
    exact ⟨_, rfl, (booksLinks_moves ways).books.append (books_numa (ownDomain_ok.mp present).2),
      by simp⟩
  · next kind policy =>
    obtain rfl := Except.ok.inj scheduled
    refine ⟨[], State.booked_nil.symm, books_nil, ?_⟩
    rintro (other | other)
    · rw [policy] at other
      cases other
    · exact absurd kind other

end Execution

/-! ## A small machine and a small program -/

/-- The clock of the small programs, whose times need no rounding. -/
abbrev ExactTime := WithBot ℚ

/-- Two domains with a CPU each, and a link between them. -/
def Architecture.pair : Architecture ExactTime where
  cpu2numa := [0, 1]
  domains := 2
  links := [(0, 1)]
  gap _ _ := some 1
  delay _ _ := some 1
  path i j := some (if i = j then [i] else [0, 1])

theorem Architecture.pair_unsigned : Architecture.pair.Unsigned where
  gap _ _ _ same := Option.some.inj same ▸ by decide
  delay _ _ _ same := Option.some.inj same ▸ by decide

/-- Two thunks, one after the other, that write the same page. -/
def Programm.chain (cpu : ℕ → ℕ) : Programm ExactTime where
  thunks := [(0, 1), (0, 2)]
  edges := [((0, 1), (0, 2))]
  data t := ⟨cpu t.2, 10, ∅, {7}⟩
  distinct := by decide
  single := by decide
  inside := by decide
  acyclic := ⟨Prod.snd, by decide⟩

end Tthread.Racksim
