/-
# Thunks

What one thread writes to the log: an event for each access that faults, an event where a thunk
begins, one where it ends, and one when the thread itself is gone. `atomicBegin` logs the end of
the last thunk and the beginning of the next, and then refreshes the memory, so a thunk is what
lies between two refreshes. The wait for a barrier refreshes the memory on its own and logs
nothing.

A call of the runtime is a list of actions; accesses come between them, because the runtime
reads the objects of the program through the protected pages. What other threads do shows only
in the outcome of a call. Commits do not show in the log and are left out.
-/

import Tthread.Determ
import Tthread.Library.Transition

namespace Tthread.Thunks

open Transition

/-- An entry of the log of a thread, and the refreshes between them. -/
inductive Entry
  | access (page : ℕ) (isWrite : Bool)
  | thunk (id : ℕ)
  | ended
  | finish
  /-- ghost: `xmemory::begin` -/
  | refresh
  deriving DecidableEq

/-- What a call does to the log. -/
inductive Action
  | setCopyOnWrite (copyOnWrite : Bool)
  | atomicBegin
  /-- `_memory.begin` in `determ::barrier_wait` -/
  | begin
  /-- the end of `threadDeregister` -/
  | deregister
  | finalize
  deriving DecidableEq

/-- A call and its outcome. -/
inductive Call
  | spawn
  /-- the argument is not null; then the thread is the only one alive -/
  | join (valid single : Bool)
  | cancel
  /-- `fast`: the thread owns the mutex or works alone, and gets it. Otherwise so many tries
  with the token fail. -/
  | mutexLock (fast : Bool) (failures : ℕ)
  | mutexUnlock
  | barrierWait
  | sigWait (successful : Bool)
  | condWait
  | condBroadcast
  | condSignal
  /-- the function of a child returns -/
  | functionReturns
  | pthreadExit
  /-- the destructor of the library, in the main thread -/
  | finalize
  deriving DecidableEq

structure Thread where
  child : Bool
  isCopyOnWrite : Bool
  fenceEnabled : Bool
  childrenThreadsCount : ℕ
  lockCount : ℕ
  tokenHolding : Bool
  thunkId : ℕ
  /-- the rest of the call the thread is in -/
  pending : List Action
  gone : Bool
  log : List Entry

inductive Label
  | call (call : Call)
  /-- the next action of the call -/
  | exec
  /-- a fault on a page -/
  | access (page : ℕ) (isWrite : Bool)
  deriving DecidableEq

namespace Thread

def add (t : Thread) (entries : List Entry) : Thread := { t with log := t.log ++ entries }

def atomicBegin (t : Thread) : Thread :=
  if t.isCopyOnWrite then
    let t := if 0 < t.thunkId then t.add [.ended] else t
    let t := { t with thunkId := t.thunkId + 1 }
    (t.add [.thunk t.thunkId]).add [.refresh]
  else t

def perform (t : Thread) : Action → Thread
  | .setCopyOnWrite copyOnWrite => { t with isCopyOnWrite := copyOnWrite }
  | .atomicBegin => t.atomicBegin
  | .begin => t.add [.refresh]
  | .deregister => { t.add [.ended, .finish] with gone := true }
  | .finalize => { t.add [.ended] with gone := true }

def startFence (t : Thread) : Thread :=
  if t.fenceEnabled then t else { t with fenceEnabled := true, childrenThreadsCount := 0 }

/-- There is nobody to synchronise with. -/
def Alone (t : Thread) : Prop := t.fenceEnabled = false ∧ t.childrenThreadsCount = 0

instance (t : Thread) : Decidable t.Alone := inferInstanceAs (Decidable (_ ∧ _))

end Thread

/-- The tries for a mutex, from the label `getLockAgain` on. -/
def getLockAgain (tokenHolding : Bool) : ℕ → List Action
  | 0 => if tokenHolding then [] else [.atomicBegin]
  | failures + 1 =>
      (if tokenHolding then [] else [.atomicBegin]) ++ .atomicBegin :: getLockAgain false failures

/-- The variables after a call, and its actions. -/
def call (t : Thread) : Call → Thread × List Action
  | .spawn =>
      let start := if t.isCopyOnWrite then [] else [.setCopyOnWrite true, .atomicBegin]
      let children := if t.fenceEnabled then 0 else t.childrenThreadsCount
      ({ t with fenceEnabled := false, childrenThreadsCount := children + 1 },
        start ++ [.atomicBegin])
  | .join valid single =>
      if valid then
        if single then
          -- `closeFence`
          ({ t with fenceEnabled := false, childrenThreadsCount := 0 },
            [.atomicBegin, .setCopyOnWrite false])
        else (t.startFence, [.atomicBegin])
      else (t, [])
  | .cancel => (t, [.atomicBegin])
  | .mutexLock fast failures =>
      if t.Alone then (t, [])
      else
        let t := { t.startFence with lockCount := Determ.increased t.lockCount 1 }
        if fast then (t, [])
        else ({ t with tokenHolding := true }, getLockAgain t.tokenHolding failures)
  | .mutexUnlock =>
      if t.fenceEnabled then
        let t := { t with lockCount := Determ.decreased t.lockCount }
        if t.lockCount = 0 ∧ t.tokenHolding then
          ({ t with tokenHolding := false }, [.atomicBegin])
        else (t, [])
      else (t, [])
  | .barrierWait => if t.Alone then (t, []) else (t.startFence, [.begin])
  | .sigWait successful => (t, if successful then [.atomicBegin] else [])
  | .condWait => (t, [.atomicBegin])
  | .condBroadcast | .condSignal => (t, if t.fenceEnabled then [.atomicBegin] else [])
  | .functionReturns | .pthreadExit => (t, [.deregister])
  | .finalize => (t, [.finalize])

/-- Only children have a function that returns, and only the main thread runs destructors. Before
its first thunk a thread has created none that it could join. -/
def MayCall (t : Thread) : Call → Prop
  | .join valid _ => valid = true → 0 < t.thunkId
  | .functionReturns => t.child = true
  | .finalize => t.child = false
  | _ => True

instance (t : Thread) (c : Call) : Decidable (MayCall t c) := by
  unfold MayCall
  split <;> infer_instance

def step (t : Thread) : Label → Option Thread
  | .call c =>
      if t.pending = [] ∧ t.gone = false ∧ MayCall t c then
        some { (call t c).1 with pending := (call t c).2 }
      else none
  | .exec =>
      match t.pending with
      | [] => none
      | action :: rest => some { t.perform action with pending := rest }
  | .access page isWrite => if t.gone = false then some (t.add [.access page isWrite]) else none

/-- The main thread after the constructor of the runtime. -/
def main : Thread where
  child := false
  isCopyOnWrite := false
  fenceEnabled := false
  childrenThreadsCount := 0
  lockCount := 0
  tokenHolding := false
  thunkId := 0
  pending := []
  gone := false
  log := []

/-- A child behind `childRegister`, in front of `run_thread`. It has its parent's count. -/
def newChild (childrenThreadsCount : ℕ) : Thread where
  child := true
  isCopyOnWrite := true
  fenceEnabled := true
  childrenThreadsCount
  lockCount := 0
  tokenHolding := false
  thunkId := 0
  pending := [.atomicBegin]
  gone := false
  log := []

def system : System Thread Label where
  Init t := t = main ∨ ∃ count, t = newChild count
  step := step

/-! ## What a log should be -/

/-- Accesses in a row. -/
def accesses (list : List (ℕ × Bool)) : List Entry := list.map fun a => .access a.1 a.2

/-- Thunks in a row, numbered from `id` on. -/
def thunks (id : ℕ) : List (List (ℕ × Bool)) → List Entry
  | [] => []
  | list :: rest => .thunk id :: accesses list ++ .ended :: thunks (id + 1) rest

/-- The events are the accesses of thunk 0, thunks numbered from 1 on, and a finish for a
child. -/
def IsTrace (child : Bool) (events : List Entry) : Prop :=
  ∃ (first : List (ℕ × Bool)) (rest : List (List (ℕ × Bool))),
    events = accesses first ++ thunks 1 rest ++ if child then [.finish] else []

/-- Between two refreshes there are accesses and then exactly one new thunk, with no access
between it and the second refresh. Where ends are logged is left to `IsTrace`. -/
def OneThunkBetween (log : List Entry) : Prop := ∀ before between after,
  log = before ++ .refresh :: (between ++ .refresh :: after) → .refresh ∉ between →
    ∃ list id, between.filter (· ≠ .ended) = accesses list ++ [.thunk id]

/-- Every transaction is one thunk. -/
def OneThunkEach (t : Thread) : Prop :=
  IsTrace t.child (t.log.filter (· ≠ .refresh)) ∧ OneThunkBetween t.log

/-- The condition on a step: a wait for a barrier returns at once, and the main thread does not
call `pthread_exit`. -/
def Plain (t : Thread) : Label → Prop
  | .call .barrierWait => t.Alone
  | .call .pthreadExit => t.child = true
  | _ => True

instance (t : Thread) (label : Label) : Decidable (Plain t label) := by
  unfold Plain
  split <;> infer_instance

/-! ## What a step changes -/

section

variable {t t' : Thread} {label : Label}

theorem call_fields (t : Thread) (c : Call) :
    (call t c).1.child = t.child ∧ (call t c).1.isCopyOnWrite = t.isCopyOnWrite ∧
      (call t c).1.thunkId = t.thunkId ∧ (call t c).1.gone = t.gone ∧
      (call t c).1.log = t.log := by
  cases c <;> simp only [call]
  all_goals repeat' split
  all_goals simp only [Thread.startFence, and_self]
  all_goals split <;> simp only [and_self]

theorem mem_getLockAgain {tokenHolding : Bool} {failures : ℕ} {action : Action}
    (member : action ∈ getLockAgain tokenHolding failures) : action = .atomicBegin := by
  induction failures generalizing tokenHolding with
  | zero => cases tokenHolding <;> simp_all [getLockAgain]
  | succ failures ih =>
    rcases List.mem_append.mp member with first | second
    · cases tokenHolding <;> simp_all
    · rcases List.mem_cons.mp second with rfl | later
      · rfl
      · exact ih later

/-- A step, as the action it takes. -/
inductive Moves (t : Thread) : Label → Thread → Prop
  | call (c : Call) (idle : t.pending = []) (alive : t.gone = false) (may : MayCall t c) :
      Moves t (.call c) { (call t c).1 with pending := (call t c).2 }
  | exec {action : Action} {rest : List Action} (due : t.pending = action :: rest) :
      Moves t .exec { t.perform action with pending := rest }
  | access (page : ℕ) (isWrite : Bool) (alive : t.gone = false) :
      Moves t (.access page isWrite) (t.add [.access page isWrite])

theorem moves (move : step t label = some t') : Moves t label t' := by
  cases label with
  | call c =>
    obtain ⟨⟨idle, alive, may⟩, rfl⟩ := guarded move
    exact .call c idle alive may
  | exec =>
    simp only [step] at move
    split at move
    · cases move
    · next due =>
      obtain rfl := Option.some.inj move
      exact .exec due
  | access page isWrite =>
    obtain ⟨alive, rfl⟩ := guarded move
    exact .access page isWrite alive

theorem atomicBegin_off (off : t.isCopyOnWrite = false) : t.atomicBegin = t := by
  simp [Thread.atomicBegin, off]

/-- The first thunk. -/
theorem atomicBegin_first (on : t.isCopyOnWrite = true) (first : t.thunkId = 0) :
    t.atomicBegin = { t with thunkId := 1, log := t.log ++ [.thunk 1, .refresh] } := by
  simp [Thread.atomicBegin, Thread.add, on, first]

theorem atomicBegin_next (on : t.isCopyOnWrite = true) (later : 0 < t.thunkId) :
    t.atomicBegin = { t with
      thunkId := t.thunkId + 1, log := t.log ++ [.ended, .thunk (t.thunkId + 1), .refresh] } := by
  simp [Thread.atomicBegin, Thread.add, on, later]

/-- The log only grows, the thread stays what it is, and thunks are numbered upwards. -/
theorem perform_grows (t : Thread) (action : Action) :
    (∃ more, (t.perform action).log = t.log ++ more) ∧
      (t.perform action).child = t.child ∧ t.thunkId ≤ (t.perform action).thunkId := by
  cases action with
  | setCopyOnWrite on => exact ⟨⟨[], (List.append_nil _).symm⟩, rfl, le_rfl⟩
  | atomicBegin =>
    simp only [Thread.perform]
    cases copies : t.isCopyOnWrite with
    | false =>
      rw [atomicBegin_off copies]
      exact ⟨⟨[], (List.append_nil _).symm⟩, rfl, le_rfl⟩
    | true =>
      by_cases first : t.thunkId = 0
      · rw [atomicBegin_first copies first]
        exact ⟨⟨_, rfl⟩, rfl, first.trans_le (Nat.zero_le 1)⟩
      · rw [atomicBegin_next copies (Nat.pos_of_ne_zero first)]
        exact ⟨⟨_, rfl⟩, rfl, Nat.le_succ _⟩
  | begin | deregister | finalize => exact ⟨⟨_, rfl⟩, rfl, le_rfl⟩

theorem step_grows (move : step t label = some t') :
    (∃ more, t'.log = t.log ++ more) ∧ t'.child = t.child ∧ t.thunkId ≤ t'.thunkId := by
  cases moves move with
  | call c =>
    obtain ⟨child, -, thunkId, -, log⟩ := call_fields t c
    exact ⟨⟨[], by simpa using log⟩, child, thunkId.ge⟩
  | exec => exact perform_grows t _
  | access page isWrite => exact ⟨⟨_, rfl⟩, rfl, le_rfl⟩

/-! ## The first `spawn` -/

/-- The main thread before it creates a thread. -/
structure Unstarted (t : Thread) : Prop where
  isMain : t.child = false
  off : t.isCopyOnWrite = false
  alone : t.Alone
  none : t.thunkId = 0
  due : ∀ action ∈ t.pending, action = .atomicBegin ∨ action = .deregister ∨ action = .finalize
  silent : .thunk 1 ∉ t.log
  left : t.gone = true → .ended ∈ t.log

/-- The first thunk is about to begin. -/
def Starts (t : Thread) : Prop :=
  (t.isCopyOnWrite = true ∧ ∃ rest, t.pending = .atomicBegin :: rest) ∨
    ∃ rest, t.pending = .setCopyOnWrite true :: .atomicBegin :: rest

def Started (t : Thread) : Prop := 0 < t.thunkId ∨ t.gone = false ∧ Starts t

theorem Started.step (started : Started t) (move : step t label = some t') : Started t' := by
  rcases started with positive | ⟨alive, starts⟩
  · exact .inl (positive.trans_le (step_grows move).2.2)
  cases moves move with
  | call c idle =>
    rcases starts with ⟨-, rest, due⟩ | ⟨rest, due⟩
    · exact absurd (due.symm.trans idle) nofun
    · exact absurd (due.symm.trans idle) nofun
  | access page isWrite => exact .inr ⟨alive, starts⟩
  | exec due =>
    rcases starts with ⟨on, rest, due'⟩ | ⟨rest, due'⟩
    · obtain ⟨rfl, rfl⟩ := List.cons.inj (due.symm.trans due')
      left
      by_cases first : t.thunkId = 0
      · simp only [Thread.perform, atomicBegin_first on first]
        exact Nat.one_pos
      · simp only [Thread.perform, atomicBegin_next on (Nat.pos_of_ne_zero first)]
        exact Nat.succ_pos _
    · obtain ⟨rfl, rfl⟩ := List.cons.inj (due.symm.trans due')
      exact .inr ⟨alive, .inl ⟨rfl, rest, rfl⟩⟩

theorem Unstarted.spawn (unstarted : Unstarted t) (move : Thunks.step t (.call .spawn) = some t') :
    Started t' := by
  obtain ⟨⟨-, alive, -⟩, rfl⟩ := guarded move
  refine .inr ⟨alive, .inr ⟨[.atomicBegin], ?_⟩⟩
  simp [call, unstarted.off]

theorem Unstarted.call {c : Call} (unstarted : Unstarted t) (may : MayCall t c)
    (other : c ≠ .spawn) :
    Unstarted { (Thunks.call t c).1 with pending := (Thunks.call t c).2 } := by
  obtain ⟨isMain, off, alone, none, -, silent, left⟩ := unstarted
  have noFence : ¬t.fenceEnabled = true := by simp [alone.1]
  cases c with
  | spawn => exact absurd rfl other
  | join valid single =>
    cases valid with
    | true => exact absurd (may rfl) (by simp [none])
    | false => exact ⟨isMain, off, alone, none, by simp [Thunks.call], silent, left⟩
  | functionReturns => exact absurd (isMain.symm.trans may) nofun
  | mutexLock | barrierWait =>
    simp only [Thunks.call, if_pos alone]
    exact ⟨isMain, off, alone, none, by simp, silent, left⟩
  | mutexUnlock | condBroadcast | condSignal =>
    simp only [Thunks.call, if_neg noFence]
    exact ⟨isMain, off, alone, none, by simp, silent, left⟩
  | sigWait successful =>
    exact ⟨isMain, off, alone, none, by cases successful <;> simp [Thunks.call], silent, left⟩
  | cancel | condWait | pthreadExit | finalize =>
    exact ⟨isMain, off, alone, none, by simp [Thunks.call], silent, left⟩

theorem Unstarted.step (unstarted : Unstarted t) (other : label ≠ .call .spawn)
    (move : Thunks.step t label = some t') : Unstarted t' := by
  cases moves move with
  | call c _ _ may => exact unstarted.call may fun same => other (congrArg _ same)
  | access page isWrite alive =>
    obtain ⟨isMain, off, alone, none, due, silent, left⟩ := unstarted
    exact ⟨isMain, off, alone, none, due, by simp [Thread.add, silent],
      fun gone => absurd (gone.symm.trans alive) nofun⟩
  | exec next =>
    obtain ⟨isMain, off, alone, none, due, silent, left⟩ := unstarted
    rw [next] at due
    have rest := fun action member => due action (List.mem_cons_of_mem _ member)
    rcases due _ List.mem_cons_self with rfl | rfl | rfl
    · simp only [Thread.perform, atomicBegin_off off]
      exact ⟨isMain, off, alone, none, rest, silent, left⟩
    · exact ⟨isMain, off, alone, none, rest, by simp [Thread.perform, Thread.add, silent],
        fun _ => by simp [Thread.perform, Thread.add]⟩
    · exact ⟨isMain, off, alone, none, rest, by simp [Thread.perform, Thread.add, silent],
        fun _ => by simp [Thread.perform, Thread.add]⟩

theorem Started.run {labels : List Label} (started : Started t)
    (execution : system.run t labels = some t') : Started t' :=
  have any : system.Complies AnyStep t labels := System.complies_of_forall (fun _ _ _ => trivial) t
  any.invariant Started (fun _ _ _ started _ move => started.step move) started execution

/-- Whether the main thread has a first thunk is whether it has called `spawn`. -/
theorem Unstarted.run {labels : List Label} (unstarted : Unstarted t)
    (execution : system.run t labels = some t') :
    if .call .spawn ∈ labels then Started t' else Unstarted t' := by
  induction labels generalizing t with
  | nil =>
    obtain rfl := Option.some.inj execution
    exact unstarted
  | cons label rest ih =>
    obtain ⟨middle, move, tail⟩ := Option.bind_eq_some_iff.mp execution
    by_cases spawns : label = .call .spawn
    · subst spawns
      rw [if_pos List.mem_cons_self]
      exact (unstarted.spawn move).run tail
    · have later := ih (unstarted.step spawns move) tail
      simpa [Ne.symm spawns] using later

theorem unstarted_main : Unstarted main := by
  exact ⟨rfl, rfl, ⟨rfl, rfl⟩, rfl, by simp [main], by simp [main], by simp [main]⟩

theorem started_newChild (count : ℕ) : Started (newChild count) :=
  .inr ⟨rfl, .inl ⟨rfl, [], rfl⟩⟩

/-! ## Two refreshes in a row -/

/-- Behind the last refresh there are accesses only. -/
def Refreshed (t : Thread) : Prop :=
  t.gone = false → 0 < t.thunkId → ∃ before list, t.log = before ++ .refresh :: accesses list

theorem accesses_snoc (list : List (ℕ × Bool)) (page : ℕ) (isWrite : Bool) :
    accesses list ++ [.access page isWrite] = accesses (list ++ [(page, isWrite)]) := by
  simp [accesses]

theorem mem_accesses {entry : Entry} {list : List (ℕ × Bool)} (member : entry ∈ accesses list) :
    ∃ page isWrite, entry = .access page isWrite := by
  obtain ⟨a, -, rfl⟩ := List.mem_map.mp member
  exact ⟨a.1, a.2, rfl⟩

theorem not_mem_accesses (list : List (ℕ × Bool)) : .refresh ∉ accesses list := fun member => by
  obtain ⟨_, _, same⟩ := mem_accesses member
  cases same

theorem Refreshed.step (refreshed : Refreshed t) (move : Thunks.step t label = some t') :
    Refreshed t' := by
  cases moves move with
  | call c =>
    obtain ⟨-, -, thunkId, gone, log⟩ := call_fields t c
    simpa [Refreshed, thunkId, gone, log] using refreshed
  | access page isWrite =>
    intro alive positive
    obtain ⟨before, list, log⟩ := refreshed alive positive
    refine ⟨before, list ++ [(page, isWrite)], ?_⟩
    rw [← accesses_snoc, ← List.cons_append, ← List.append_assoc, ← log]
    rfl
  | @exec action rest =>
    cases action with
    | setCopyOnWrite on => exact refreshed
    | begin => exact fun _ _ => ⟨t.log, [], rfl⟩
    | deregister | finalize => exact nofun
    | atomicBegin =>
      simp only [Thread.perform]
      cases copies : t.isCopyOnWrite with
      | false =>
        rw [atomicBegin_off copies]
        exact refreshed
      | true =>
        intro _ _
        by_cases first : t.thunkId = 0
        · rw [atomicBegin_first copies first]
          exact ⟨t.log ++ [.thunk 1], [], by simp [accesses]⟩
        · rw [atomicBegin_next copies (Nat.pos_of_ne_zero first)]
          exact ⟨t.log ++ [.ended, .thunk (t.thunkId + 1)], [], by simp [accesses]⟩

/-- The log cannot become right any more. -/
inductive Spoilt (t : Thread) : Prop
  | refreshes (alive : t.gone = false) (due : t.pending = [.begin]) (before : List Entry)
      (list : List (ℕ × Bool)) (log : t.log = before ++ .refresh :: accesses list)
  | refreshed (before : List Entry) (list : List (ℕ × Bool)) (after : List Entry)
      (log : t.log = before ++ .refresh :: (accesses list ++ .refresh :: after))
  | exits (isMain : t.child = false) (alive : t.gone = false) (due : t.pending = [.deregister])
  | exited (isMain : t.child = false) (logged : .finish ∈ t.log)

theorem Spoilt.step (spoilt : Spoilt t) (move : Thunks.step t label = some t') : Spoilt t' := by
  obtain ⟨⟨more, grows⟩, child, -⟩ := step_grows move
  cases spoilt with
  | refreshed before list after log =>
    refine .refreshed before list (after ++ more) ?_
    rw [grows, log]
    simp
  | exited isMain logged =>
    exact .exited (child.trans isMain) (grows ▸ List.mem_append_left _ logged)
  | refreshes alive due before list log =>
    cases moves move with
    | call c idle => exact absurd (due.symm.trans idle) nofun
    | access page isWrite =>
      refine .refreshes alive due before (list ++ [(page, isWrite)]) ?_
      rw [← accesses_snoc, ← List.cons_append, ← List.append_assoc, ← log]
      rfl
    | exec next =>
      obtain ⟨rfl, rfl⟩ := List.cons.inj (next.symm.trans due)
      refine .refreshed before list [] ?_
      simp [Thread.perform, Thread.add, log]
  | exits isMain alive due =>
    cases moves move with
    | call c idle => exact absurd (due.symm.trans idle) nofun
    | access page isWrite => exact .exits isMain alive due
    | exec next =>
      obtain ⟨rfl, rfl⟩ := List.cons.inj (next.symm.trans due)
      exact .exited isMain (by simp [Thread.perform, Thread.add])

theorem Spoilt.run {labels : List Label} (spoilt : Spoilt t)
    (execution : system.run t labels = some t') : Spoilt t' :=
  have any : system.Complies AnyStep t labels := System.complies_of_forall (fun _ _ _ => trivial) t
  any.invariant Spoilt (fun _ _ _ spoilt _ move => spoilt.step move) spoilt execution

/-- A step that does not meet the condition spoils the log. -/
theorem spoilt_of_not_plain (first : Unstarted t ∨ Started t) (refreshed : Refreshed t)
    (move : step t label = some t') (not : ¬Plain t label) : Spoilt t' := by
  cases moves move with
  | exec | access => exact absurd trivial not
  | call c idle alive =>
    cases c with
    | pthreadExit => exact .exits (Bool.eq_false_iff.mpr not) alive rfl
    | barrierWait =>
      have busy : ¬t.Alone := not
      have positive : 0 < t.thunkId := by
        rcases first with unstarted | positive | ⟨-, ⟨-, rest, due⟩ | ⟨rest, due⟩⟩
        · exact absurd unstarted.alone busy
        · exact positive
        · exact absurd (due.symm.trans idle) nofun
        · exact absurd (due.symm.trans idle) nofun
      obtain ⟨before, list, log⟩ := refreshed alive positive
      obtain ⟨-, -, -, gone, log'⟩ := call_fields t .barrierWait
      refine .refreshes (gone.trans alive) ?_ before list (log'.trans log)
      simp [call, if_neg busy]
    | _ => exact absurd trivial not

theorem mem_thunks {id : ℕ} {rest : List (List (ℕ × Bool))} {entry : Entry}
    (member : entry ∈ thunks id rest) : (∃ page isWrite, entry = .access page isWrite) ∨
      (∃ id, entry = .thunk id) ∨ entry = .ended := by
  induction rest generalizing id with
  | nil => cases member
  | cons list rest ih =>
    rcases List.mem_append.mp member with first | second
    · rcases List.mem_cons.mp first with rfl | access
      · exact .inr (.inl ⟨id, rfl⟩)
      · exact .inl (mem_accesses access)
    · rcases List.mem_cons.mp second with rfl | later
      · exact .inr (.inr rfl)
      · exact ih later

theorem OneThunkEach.not_spoilt (each : OneThunkEach t) (ended : t.gone = true) : ¬Spoilt t := by
  obtain ⟨⟨first, rest, events⟩, between⟩ := each
  intro spoilt
  cases spoilt with
  | refreshes alive | exits _ alive => exact absurd (alive.symm.trans ended) nofun
  | refreshed before list after log =>
    obtain ⟨list', id, same⟩ :=
      between before (accesses list) after log (not_mem_accesses list)
    have member : Entry.thunk id ∈ (accesses list).filter (· ≠ .ended) := by
      rw [same]
      simp
    obtain ⟨_, _, same⟩ := mem_accesses (List.mem_of_mem_filter member)
    cases same
  | exited isMain logged =>
    have member : Entry.finish ∈ t.log.filter (· ≠ .refresh) := by simp [logged]
    rw [events, isMain] at member
    rcases List.mem_append.mp member with member | member
    · rcases List.mem_append.mp member with access | thunk
      · obtain ⟨_, _, same⟩ := mem_accesses access
        cases same
      · rcases mem_thunks thunk with ⟨_, _, same⟩ | ⟨_, same⟩ | same <;> cases same
    · cases member

/-! ## The log of a plain run -/

/-- Thunks in a row with their refreshes. -/
def transactions (id : ℕ) : List (List (ℕ × Bool)) → List Entry
  | [] => []
  | list :: rest => .thunk id :: .refresh :: accesses list ++ .ended :: transactions (id + 1) rest

/-- What a call is made of in a plain run. -/
inductive Due (child : Bool) : List Action → Prop
  | deregister (isChild : child = true) : Due child [.deregister]
  | finalize (isMain : child = false) : Due child [.finalize]
  | switches {actions : List Action}
      (all : ∀ action ∈ actions, action = .atomicBegin ∨ ∃ on, action = .setCopyOnWrite on) :
      Due child actions

/-- The log as it grows: the accesses of thunk 0, the thunks that have ended, and the one the
thread is in. -/
inductive Records (t : Thread) : Prop
  | zeroth (alive : t.gone = false) (none : t.thunkId = 0) (first : List (ℕ × Bool))
      (log : t.log = accesses first)
  | within (alive : t.gone = false) (first : List (ℕ × Bool)) (rest : List (List (ℕ × Bool)))
      (last : List (ℕ × Bool)) (count : rest.length + 1 = t.thunkId)
      (log : t.log = accesses first ++ transactions 1 rest ++
        .thunk t.thunkId :: .refresh :: accesses last)
  | closed (gone : t.gone = true) (done : t.pending = []) (shape : 0 < t.thunkId →
      ∃ first rest, t.log =
        accesses first ++ transactions 1 rest ++ if t.child then [.finish] else [])

structure Orderly (t : Thread) : Prop where
  due : Due t.child t.pending
  records : Records t
  between : OneThunkBetween t.log

theorem transactions_snoc (id : ℕ) (rest : List (List (ℕ × Bool))) (last : List (ℕ × Bool)) :
    transactions id (rest ++ [last]) =
      transactions id rest ++ .thunk (id + rest.length) :: .refresh :: accesses last ++
        [.ended] := by
  induction rest generalizing id with
  | nil => simp [transactions]
  | cons list rest ih => simp [transactions, ih, Nat.add_assoc, Nat.add_comm 1]

theorem filter_accesses (list : List (ℕ × Bool)) :
    (accesses list).filter (· ≠ .refresh) = accesses list := by
  refine List.filter_eq_self.mpr fun entry member => ?_
  obtain ⟨_, _, rfl⟩ := mem_accesses member
  rfl

/-- Without the refreshes these are the thunks. -/
theorem filter_transactions (id : ℕ) (rest : List (List (ℕ × Bool))) :
    (transactions id rest).filter (· ≠ .refresh) = thunks id rest := by
  induction rest generalizing id with
  | nil => rfl
  | cons list rest ih =>
    have here := filter_accesses list
    simp_all [transactions, thunks]

/-- A cut at a refresh with no other one behind it is not in front of another such cut. -/
theorem eq_of_cut {between behind behind' : List Entry}
    (same : .refresh :: behind = between ++ .refresh :: behind') (last : .refresh ∉ behind) :
    behind = behind' := by
  cases between with
  | nil => exact (List.cons.inj same).2
  | cons entry between =>
    obtain ⟨-, rfl⟩ := List.cons.inj same
    exact absurd (List.mem_append_right _ List.mem_cons_self) last

/-- Two cuts at the last refresh leave the same behind them. -/
theorem split_last {first second behind behind' : List Entry}
    (same : first ++ .refresh :: behind = second ++ .refresh :: behind')
    (last : .refresh ∉ behind) (last' : .refresh ∉ behind') : behind = behind' := by
  rcases List.append_eq_append_iff.mp same with ⟨between, -, same⟩ | ⟨between, -, same⟩
  · exact eq_of_cut same last
  · exact (eq_of_cut same last').symm

/-- An entry other than a refresh changes nothing. -/
theorem OneThunkBetween.snoc {log : List Entry} {entry : Entry} (between : OneThunkBetween log)
    (other : entry ≠ .refresh) : OneThunkBetween (log ++ [entry]) := by
  intro before inside after same apart
  rcases List.eq_nil_or_concat after with rfl | ⟨after, last, rfl⟩
  · have ends : log ++ [entry] = (before ++ .refresh :: inside) ++ [.refresh] := by simp [same]
    exact absurd (List.cons.inj (List.append_inj' ends rfl).2).1 other
  · have ends : log ++ [entry] =
        (before ++ .refresh :: (inside ++ .refresh :: after)) ++ [last] := by simp [same]
    exact between before inside after (List.append_inj' ends rfl).1 apart

/-- A refresh needs a thunk since the one before. -/
theorem OneThunkBetween.refresh {log : List Entry} (between : OneThunkBetween log)
    (thunk : ∀ before inside, log = before ++ .refresh :: inside → .refresh ∉ inside →
      ∃ list id, inside.filter (· ≠ .ended) = accesses list ++ [.thunk id]) :
    OneThunkBetween (log ++ [.refresh]) := by
  intro before inside after same apart
  rcases List.eq_nil_or_concat after with rfl | ⟨after, last, rfl⟩
  · have ends : log ++ [.refresh] = (before ++ .refresh :: inside) ++ [.refresh] := by
      simp [same]
    exact thunk before inside (List.append_inj' ends rfl).1 apart
  · have ends : log ++ [.refresh] =
        (before ++ .refresh :: (inside ++ .refresh :: after)) ++ [last] := by simp [same]
    exact between before inside after (List.append_inj' ends rfl).1 apart

theorem call_due {c : Call} (may : MayCall t c) (plain : Plain t (.call c)) :
    Due t.child (call t c).2 := by
  cases c with
  | functionReturns => exact .deregister may
  | pthreadExit => exact .deregister plain
  | finalize => exact .finalize may
  | barrierWait =>
    have alone : t.Alone := plain
    exact .switches (by simp [call, if_pos alone])
  | mutexLock fast failures =>
    refine .switches fun action member => ?_
    simp only [call] at member
    split at member
    · cases member
    · split at member
      · cases member
      · exact .inl (mem_getLockAgain member)
  | spawn | join | mutexUnlock =>
    refine .switches fun action member => ?_
    simp only [call] at member
    repeat' split at member
    all_goals simp_all
    all_goals tauto
  | sigWait successful => exact .switches (by cases successful <;> simp [call])
  | condBroadcast | condSignal =>
    exact .switches (by cases on : t.fenceEnabled <;> simp [call, on])
  | cancel | condWait => exact .switches (by simp [call])

theorem Due.rest {child : Bool} {action : Action} {rest : List Action}
    (due : Due child (action :: rest)) : Due child rest := by
  cases due with
  | deregister | finalize => exact .switches (by simp)
  | switches all => exact .switches fun action member => all action (List.mem_cons_of_mem _ member)

theorem filter_ended (list : List (ℕ × Bool)) :
    (accesses list).filter (· ≠ .ended) = accesses list := by
  refine List.filter_eq_self.mpr fun entry member => ?_
  obtain ⟨_, _, rfl⟩ := mem_accesses member
  rfl

/-- `atomicBegin` in a plain run. -/
theorem Orderly.atomicBegin {rest : List Action} (orderly : Orderly t)
    (on : t.isCopyOnWrite = true) (due : t.pending = .atomicBegin :: rest) :
    Records { t.atomicBegin with pending := rest } ∧ OneThunkBetween t.atomicBegin.log := by
  obtain ⟨-, records, between⟩ := orderly
  cases records with
  | closed gone done => exact absurd (done.symm.trans due) nofun
  | zeroth alive none first log =>
    rw [atomicBegin_first on none]
    refine ⟨.within alive first [] [] rfl (by simp [log, transactions, accesses]), ?_⟩
    have snoc : t.log ++ [.thunk 1, .refresh] = t.log ++ [.thunk 1] ++ [.refresh] := by simp
    simp only [snoc]
    have begins : OneThunkBetween (t.log ++ [.thunk 1]) := between.snoc nofun
    refine begins.refresh fun before inside same _ => ?_
    have member : .refresh ∈ t.log ++ [.thunk 1] := by simp [same]
    simp [log, not_mem_accesses] at member
  | within alive first ended last count log =>
    have positive : 0 < t.thunkId := count ▸ Nat.succ_pos _
    rw [atomicBegin_next on positive]
    refine ⟨.within alive first (ended ++ [last]) [] (by simp [count]) ?_, ?_⟩
    · simp only [log, transactions_snoc, ← count, Nat.add_comm 1]
      simp [accesses]
    have snoc : t.log ++ [.ended, .thunk (t.thunkId + 1), .refresh] =
        t.log ++ [.ended] ++ [.thunk (t.thunkId + 1)] ++ [.refresh] := by simp
    simp only [snoc]
    have ends : OneThunkBetween (t.log ++ [.ended]) := between.snoc nofun
    have begins : OneThunkBetween (t.log ++ [.ended] ++ [.thunk (t.thunkId + 1)]) :=
      ends.snoc nofun
    refine begins.refresh fun before inside same apart => ?_
    have cut : (accesses first ++ transactions 1 ended ++ [.thunk t.thunkId]) ++
        .refresh :: (accesses last ++ [.ended, .thunk (t.thunkId + 1)]) =
          before ++ .refresh :: inside := by
      rw [← same, log]
      simp
    rw [← split_last cut (by simp [not_mem_accesses]) apart]
    refine ⟨last, t.thunkId + 1, ?_⟩
    rw [List.filter_append, filter_ended]
    rfl

/-- The last action of a thread in a plain run: an end, and what comes behind it. -/
theorem Records.ends {t' : Thread} {behind : List Entry} (records : Records t)
    (alive : t.gone = false) (gone : t'.gone = true) (done : t'.pending = [])
    (count : t'.thunkId = t.thunkId) (log : t'.log = t.log ++ .ended :: behind)
    (finish : behind = if t'.child then [.finish] else []) : Records t' := by
  refine .closed gone done fun positive => ?_
  cases records with
  | zeroth _ none => exact absurd (count.symm.trans_gt (none ▸ positive)) (lt_irrefl _)
  | closed gone' => exact absurd (alive.symm.trans gone') nofun
  | within _ first ended last number log' =>
    refine ⟨first, ended ++ [last], ?_⟩
    rw [log, log', transactions_snoc, ← finish, ← number, Nat.add_comm 1]
    simp

theorem Orderly.step (orderly : Orderly t) (plain : Plain t label)
    (move : Thunks.step t label = some t') : Orderly t' := by
  cases moves move with
  | call c idle alive may =>
    obtain ⟨child, -, thunkId, gone, log⟩ := call_fields t c
    refine ⟨?_, ?_, log ▸ orderly.between⟩
    · -- The actions that are due now are those of the call.
      have due := call_due may plain
      rwa [← child] at due
    · cases orderly.records with
      | zeroth _ none first log' =>
        exact .zeroth (gone.trans alive) (thunkId.trans none) first (log.trans log')
      | within _ first ended last number log' =>
        exact .within (gone.trans alive) first ended last (number.trans thunkId.symm)
          (by simpa only [log, thunkId] using log')
      | closed gone' => exact absurd (alive.symm.trans gone') nofun
  -- The access is booked at the thunk that runs, or at none before the first one.
  | access page isWrite alive =>
    refine ⟨orderly.due, ?_, orderly.between.snoc nofun⟩
    cases orderly.records with
    | zeroth _ none first log =>
      refine .zeroth alive none (first ++ [(page, isWrite)]) ?_
      rw [← accesses_snoc, ← log]
      rfl
    | within _ first ended last number log =>
      refine .within alive first ended (last ++ [(page, isWrite)]) number ?_
      simp [Thread.add, log, ← accesses_snoc]
    | closed gone => exact absurd (alive.symm.trans gone) nofun
  | @exec action rest due =>
    have later : Due t.child rest := (due ▸ orderly.due).rest
    -- There is something left to do, so the thread is not gone.
    have alive : t.gone = false := by
      cases orderly.records with
      | zeroth alive => exact alive
      | within alive => exact alive
      | closed _ done => exact absurd (done.symm.trans due) nofun
    cases action with
    | setCopyOnWrite on =>
      refine ⟨later, ?_, orderly.between⟩
      cases orderly.records with
      | zeroth alive none first log => exact .zeroth alive none first log
      | within alive first ended last number log =>
        exact .within alive first ended last number log
      | closed _ done => exact absurd (done.symm.trans due) nofun
    | begin =>
      have calls := orderly.due
      rw [due] at calls
      cases calls with
      -- A run in the plain sense has no `begin` among what is due.
      | switches all => exact absurd (all _ List.mem_cons_self) (by simp)
    | deregister =>
      have calls := orderly.due
      rw [due] at calls
      -- The end and the finish of the thread start no thunk.
      have between : OneThunkBetween (t.log ++ [.ended]) := orderly.between.snoc nofun
      have between' : OneThunkBetween (t.log ++ [.ended] ++ [.finish]) := between.snoc nofun
      rw [List.append_assoc] at between'
      cases calls with
      | switches all => exact absurd (all _ List.mem_cons_self) (by simp)
      | deregister isChild =>
        exact ⟨later, orderly.records.ends alive rfl rfl rfl rfl
          (by simp [Thread.perform, Thread.add, isChild]), between'⟩
    | finalize =>
      have calls := orderly.due
      rw [due] at calls
      cases calls with
      | switches all => exact absurd (all _ List.mem_cons_self) (by simp)
      | finalize isMain =>
        exact ⟨later, orderly.records.ends alive rfl rfl rfl rfl
          (by simp [Thread.perform, Thread.add, isMain]), orderly.between.snoc nofun⟩
    | atomicBegin =>
      have child := (perform_grows t .atomicBegin).2.1
      cases copies : t.isCopyOnWrite with
      | true =>
        obtain ⟨records, between⟩ := orderly.atomicBegin copies due
        exact ⟨child ▸ later, records, between⟩
      -- With copy on write off, `atomicBegin` starts no thunk.
      | false =>
        simp only [Thread.perform, atomicBegin_off copies]
        refine ⟨later, ?_, orderly.between⟩
        cases orderly.records with
        | zeroth alive none first log => exact .zeroth alive none first log
        | within alive first ended last number log =>
        exact .within alive first ended last number log
        | closed _ done => exact absurd (done.symm.trans due) nofun

theorem orderly_init (start : system.Init t) : Orderly t := by
  have between : OneThunkBetween [] := fun before between after same => by simp at same
  rcases start with rfl | ⟨count, rfl⟩
  · exact ⟨.switches (by simp [main]), .zeroth rfl rfl [] rfl, between⟩
  · exact ⟨.switches (by simp [newChild]), .zeroth rfl rfl [] rfl, between⟩

/-- What a thread has logged at its end, if it has had a thunk. -/
theorem Orderly.oneThunkEach (orderly : Orderly t) (gone : t.gone = true)
    (positive : 0 < t.thunkId) : OneThunkEach t := by
  refine ⟨?_, orderly.between⟩
  cases orderly.records with
  | zeroth alive => exact absurd (alive.symm.trans gone) nofun
  | within alive => exact absurd (alive.symm.trans gone) nofun
  | closed _ _ shape =>
    obtain ⟨first, rest, log⟩ := shape positive
    refine ⟨first, rest, ?_⟩
    rw [log, List.filter_append, List.filter_append, filter_accesses, filter_transactions]
    cases t.child <;> rfl

theorem Unstarted.not_oneThunkEach (unstarted : Unstarted t) (gone : t.gone = true) :
    ¬OneThunkEach t := by
  rintro ⟨⟨first, rest, events⟩, -⟩
  have ended : Entry.ended ∈ t.log.filter (· ≠ .refresh) := by simp [unstarted.left gone]
  have silent : Entry.thunk 1 ∉ t.log.filter (· ≠ .refresh) := by simp [unstarted.silent]
  rw [events, unstarted.isMain] at ended silent
  cases rest with
  | nil =>
    simp only [thunks, List.append_nil] at ended
    rcases List.mem_append.mp ended with member | member
    · obtain ⟨_, _, same⟩ := mem_accesses member
      cases same
    · cases member
  | cons list rest => exact silent (by simp [thunks])

theorem complies_of_not_spoilt {labels : List Label} (first : Unstarted t ∨ Started t)
    (refreshed : Refreshed t) (execution : system.run t labels = some t') (not : ¬Spoilt t') :
    system.Complies Plain t labels := by
  induction labels generalizing t with
  | nil => trivial
  | cons label rest ih =>
    obtain ⟨middle, move, tail⟩ := Option.bind_eq_some_iff.mp execution
    have plain : Plain t label := by
      by_contra other
      exact not ((spoilt_of_not_plain first refreshed move other).run tail)
    refine ⟨plain, fun next stepped => ?_⟩
    obtain rfl := Option.some.inj (move.symm.trans stepped)
    refine ih ?_ (refreshed.step move) tail
    rcases first with unstarted | started
    · by_cases spawns : label = .call .spawn
      · subst spawns
        exact .inr (unstarted.spawn move)
      · exact .inl (unstarted.step spawns move)
    · exact .inr (started.step move)

/-- **Every transaction is one thunk.** The log of a thread at its end consists of thunks, with one
between any two refreshes, just when it has waited for no barrier while there were others, and,
in the main thread, when that has created a thread and has not called `pthread_exit`. -/
theorem oneThunkEach_iff {t₀ : Thread} {labels : List Label} (start : system.Init t₀)
    (execution : system.run t₀ labels = some t) (gone : t.gone = true) :
    OneThunkEach t ↔
      system.Complies Plain t₀ labels ∧ (t₀.child = false → .call .spawn ∈ labels) := by
  have first : Unstarted t₀ ∨ Started t₀ := by
    rcases start with rfl | ⟨count, rfl⟩
    · exact .inl unstarted_main
    · exact .inr (started_newChild count)
  have refreshed : Refreshed t₀ := by
    rcases start with rfl | ⟨count, rfl⟩ <;> exact fun _ => nofun
  have positive : Started t → 0 < t.thunkId := by
    rintro (positive | ⟨alive, -⟩)
    · exact positive
    · exact absurd (alive.symm.trans gone) nofun
  constructor
  · intro each
    refine ⟨complies_of_not_spoilt first refreshed execution (each.not_spoilt gone), ?_⟩
    intro isMain
    by_contra never
    rcases start with rfl | ⟨count, rfl⟩
    · have unstarted := unstarted_main.run execution
      rw [if_neg never] at unstarted
      exact unstarted.not_oneThunkEach gone each
    · cases isMain
  · rintro ⟨plain, spawns⟩
    have orderly : Orderly t := System.Complies.invariant Orderly
      (fun _ _ _ orderly plain move => orderly.step plain move) (orderly_init start) plain execution
    refine orderly.oneThunkEach gone (positive ?_)
    rcases start with rfl | ⟨count, rfl⟩
    · have started := unstarted_main.run execution
      rwa [if_pos (spawns rfl)] at started
    · exact (started_newChild count).run execution

end

/-- A thread is created and joined, with a write to page 3 in between. -/
def joins : List Label :=
  [.call .spawn, .exec, .exec, .exec, .access 3 true, .call (.join true true), .exec, .exec,
    .call .finalize, .exec]

theorem oneThunkEach_joins : ∃ t, system.run main joins = some t ∧ OneThunkEach t := by
  have execution : system.runIf (fun t label => decide (Plain t label)) main joins = some _ := rfl
  obtain ⟨plain, execution⟩ :=
    System.complies_of_runIf (fun _ _ passes => of_decide_eq_true passes) execution
  exact ⟨_, execution,
    (oneThunkEach_iff (.inl rfl) execution rfl).mpr ⟨plain, fun _ => List.mem_cons_self⟩⟩

/-- The main thread waits for a barrier with its child, and the accesses behind it belong to no
new thunk. -/
theorem not_oneThunkEach_barrier :
    ∃ labels t, system.run main labels = some t ∧ t.gone = true ∧ ¬OneThunkEach t := by
  refine ⟨[.call .spawn, .exec, .exec, .exec, .access 3 true, .call .barrierWait, .exec,
    .access 3 false, .call (.join true true), .exec, .exec, .call .finalize, .exec],
    _, rfl, rfl, fun each => ?_⟩
  exact each.not_spoilt rfl (.refreshed [.thunk 1, .refresh, .ended, .thunk 2] [(3, true)]
    [.access 3 false, .ended, .thunk 3, .refresh, .ended] rfl)

end Tthread.Thunks
