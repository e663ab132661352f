/-
# Threads and their runtime calls

The calls of `xrun` that take part in scheduling. A call is cut into steps, each one a
section of `determ` under its mutex or one access without it, so that the steps of
different threads interleave freely. `registerThread` takes no mutex and is one step.
Commits and refreshes do not matter to the schedule and are left out. A cancelled process
is killed between two of its steps.

A wait on a condition with a loop around it may wake up at any time. The two waits without
a loop, of a parent for its child and of a child for its parent, wake up when they are
signalled, and by `spuriousReturn` without that.
-/

import Mathlib.Data.Finset.Insert
import Tthread.Determ
import Tthread.Library.Transition

namespace Tthread.Xrun

open Transition

inductive Call
  | spawn
  | join (guest : ℕ)
  | mutexLock (mutex : ℕ)
  | mutexUnlock (mutex : ℕ)
  | condWait (cond mutex : ℕ)
  | condSignal (cond : ℕ)
  | condBroadcast (cond : ℕ)
  | barrierWait (bar : ℕ)
  | sigWait
  | cancel (target : ℕ)
  | exit
  deriving DecidableEq

/-- What a call does once its thread has the token. -/
inductive Work
  | spawn
  | join (guest : ℕ)
  | lock (mutex : ℕ)
  | signal (cond : ℕ)
  | broadcast (cond : ℕ)
  | barrier (bar : ℕ)
  | sigWait
  | cancel (target : ℕ)
  | exit
  deriving DecidableEq

/-- What follows `waitFence`: `getToken`, a new try for a mutex, the end of `join`, or
nothing. -/
inductive After
  | getToken (work : Work)
  | relock (mutex : ℕ)
  | joined
  | done
  deriving DecidableEq

inductive Pc
  | absent
  /-- a child before and in `waitParentNotify` -/
  | registered
  | waitParentNotify
  /-- in the program -/
  | user
  /-- a parent before and in the wait for its child -/
  | waitChildRegistered
  | parentSleeping
  /-- `startFence` and `notifyWaitingChildren` in `mutex_lock` or `barrier_wait` -/
  | startFence (work : Work)
  | notify (work : Work)
  | lockIsowner (mutex : ℕ)
  | lockSingle (mutex : ℕ)
  | lockFast (mutex : ℕ)
  | fence (pos : Determ.FencePos) (after : After)
  | getToken (work : Work)
  | work (work : Work)
  | putToken (after : After)
  /-- `join` that has started the fence, that waits, and that waits for the token -/
  | joinEnter (guest : ℕ)
  | joinWait (guest : ℕ)
  | joinToken
  | closeFence
  | condWaiting (cond mutex : ℕ)
  | condToken (mutex : ℕ)
  | condAcquire (mutex : ℕ)
  /-- before and in the wait on the real barrier -/
  | barrierEnter (bar round : ℕ)
  | barrierBlocked (bar round released : ℕ)
  | sigWaiting
  | exited
  deriving DecidableEq

structure Thread where
  pc : Pc
  fenceEnabled : Bool
  childrenThreadsCount : ℕ
  lockCount : ℕ
  tokenHolding : Bool
  /-- its process was killed -/
  killed : Bool
  /-- ghost: mutexes between the return of a lock and the next unlock or wait -/
  holding : Finset ℕ
  /-- ghost: counted by a `startFence` -/
  announced : Bool

structure State where
  determ : Determ
  thread : ℕ → Thread
  /-- `global_data->thread_index`: the next index -/
  threadIndex : ℕ
  /-- the parents of cloned children that have not registered -/
  forks : List ℕ

inductive Label
  | call (me : ℕ) (call : Call)
  /-- the next step of the call the thread is in -/
  | exec (me : ℕ)
  | childRegister (parent : ℕ)
  | cloneFails (me : ℕ)
  | spuriousReturn (me : ℕ)
  | sigwaitReturns (me : ℕ)
  | sigwaitFails (me : ℕ)

namespace Thread

def goto (t : Thread) (pc : Pc) : Thread := { t with pc }

/-- `waitToken` and what comes after it. -/
def waitToken (t : Thread) (work : Work) : Thread := t.goto (.fence .enter (.getToken work))

/-- `mutex_lock` returns. -/
def acquired (t : Thread) (mutex : ℕ) : Thread :=
  { t with pc := .user, holding := insert mutex t.holding }

def getLockAgain (t : Thread) (mutex : ℕ) : Thread :=
  if t.tokenHolding then t.goto (.work (.lock mutex)) else t.waitToken (.lock mutex)

/-- `mutex_lock` with the fence enabled. -/
def startLock (t : Thread) (mutex : ℕ) : Thread :=
  { t with lockCount := Determ.increased t.lockCount 1, pc := .lockIsowner mutex }

/-- On from `startFence` and `notifyWaitingChildren`. -/
def notified (t : Thread) : Work → Thread
  | .lock mutex => t.startLock mutex
  | work => t.waitToken work

/-- On from `waitFence`. -/
def passed (t : Thread) : After → Thread
  | .getToken work => t.goto (.getToken work)
  | .relock mutex => { t with tokenHolding := false }.getLockAgain mutex
  | .joined => t.goto .closeFence
  | .done => t.goto .user

/-- On from `getToken`. -/
def gotToken (t : Thread) : Work → Thread
  | .lock mutex => { t with tokenHolding := true }.goto (.work (.lock mutex))
  | work => t.goto (.work work)

/-- The token is put unless the thread holds it for a mutex. -/
def signalled (t : Thread) : Thread :=
  if t.tokenHolding then t.goto .user else t.goto (.putToken .done)

end Thread

/-- The call of `me`, up to the first step that other threads can see. `none` stands for a
crash. -/
def call (d : Determ) (t : Thread) (me : ℕ) : Call → Option (Determ × Thread)
  | .spawn => some (d, if t.fenceEnabled then t.waitToken .spawn else t.goto (.work .spawn))
  | .join guest =>
      some (d, if t.fenceEnabled then t.waitToken (.join guest) else t.goto (.work (.join guest)))
  | .mutexLock mutex =>
      some (d,
        if t.fenceEnabled then t.startLock mutex
        else if t.childrenThreadsCount = 0 then t.acquired mutex
        else t.goto (.startFence (.lock mutex)))
  | .mutexUnlock mutex =>
      let t := { t with holding := t.holding.erase mutex }
      if t.fenceEnabled then
        let t := { t with lockCount := Determ.decreased t.lockCount }
        (d.lockRelease mutex).map fun d =>
          (d,
            if t.lockCount = 0 ∧ t.tokenHolding then
              { t with tokenHolding := false }.goto (.putToken .done)
            else t)
      else some (d, t)
  | .condWait cond mutex =>
      -- without a test of the fence; the mutex is released in the same section
      let t := { t with holding := t.holding.erase mutex }
      ((d.condWait me cond).lockRelease mutex).map fun d => (d, t.goto (.condWaiting cond mutex))
  | .condSignal cond =>
      some (d,
        if t.fenceEnabled then
          if t.tokenHolding then t.goto (.work (.signal cond)) else t.waitToken (.signal cond)
        else t)
  | .condBroadcast cond =>
      some (d,
        if t.fenceEnabled then
          if t.tokenHolding then t.goto (.work (.broadcast cond))
          else t.waitToken (.broadcast cond)
        else t)
  | .barrierWait bar =>
      some (d,
        if t.fenceEnabled then t.waitToken (.barrier bar)
        else if t.childrenThreadsCount = 0 then t
        else t.goto (.startFence (.barrier bar)))
  | .sigWait => some (d, t.waitToken .sigWait)
  | .cancel target =>
      some (d,
        if t.tokenHolding then t.goto (.work (.cancel target)) else t.waitToken (.cancel target))
  | .exit => some (d, t.waitToken .exit)

/-- The section of a call that needs the token. -/
def perform (d : Determ) (t : Thread) (me : ℕ) : Work → Determ × Thread
  | .spawn =>
      -- `fork`: a batch of children is counted from the first one on
      let children := if t.fenceEnabled then 0 else t.childrenThreadsCount
      (d, { t with
        fenceEnabled := false
        childrenThreadsCount := children + 1
        pc := .waitChildRegistered })
  | .join guest =>
      if t.fenceEnabled then
        let (d, blocked) := d.join guest me
        (d, t.goto (if blocked then .joinWait guest else .putToken .joined))
      else
        (d.startFence t.childrenThreadsCount,
          { t with childrenThreadsCount := 0, fenceEnabled := true, pc := .joinEnter guest })
  | .lock mutex =>
      let (d, result) := d.lockAcquire mutex me
      (d, if result then t.acquired mutex else t.goto (.putToken (.relock mutex)))
  | .signal cond => (d.condSignal cond, t.signalled)
  | .broadcast cond => (d.condBroadcast cond, t.signalled)
  | .barrier bar => (d.barrierWait bar me, t.goto (.barrierEnter bar (d.barriers bar).rounds))
  | .sigWait => (d.sigWait me, t.goto .sigWaiting)
  | .cancel target =>
      -- a thread that cancels itself does not come back from `kill`
      if target = me then (d, { t with killed := true }) else (d.cancel target, t.signalled)
  | .exit => (d.deregisterThread me, t.goto .exited)

/-- The section follows a null pointer. -/
def crashes (d : Determ) : Work → Bool
  | .signal cond | .broadcast cond => d.lostWaiters cond
  | _ => false

/-- The next step of the call that `me` is in, or `none` while it has to wait. -/
def exec (d : Determ) (t : Thread) (me : ℕ) : Option (Determ × Thread) :=
  match t.pc with
  | .absent | .waitParentNotify | .user | .sigWaiting | .exited => none
  | .registered => some ({ d with childregistered := true }, t.goto .waitParentNotify)
  | .waitChildRegistered =>
      if d.childregistered then some ({ d with childregistered := false }, t.goto .user)
      else some (d, t.goto .parentSleeping)
  | .parentSleeping =>
      if d.childregistered then some ({ d with childregistered := false }, t.goto .user) else none
  | .startFence work =>
      some (d.startFence t.childrenThreadsCount,
        { t with childrenThreadsCount := 0, fenceEnabled := true, pc := .notify work })
  | .notify work => some (d, t.notified work)
  | .lockIsowner mutex =>
      let (d, owner) := d.lockIsowner mutex me
      some (d, t.goto (if owner then .lockFast mutex else .lockSingle mutex))
  | .lockSingle mutex =>
      some (d, if d.isSingleWorkingThread then t.goto (.lockFast mutex) else t.getLockAgain mutex)
  | .lockFast mutex =>
      let (d, result) := d.lockAcquire mutex me
      some (d, if result then t.acquired mutex else t.getLockAgain mutex)
  | .fence pos after =>
      (d.waitFence me pos).map fun
        | (d, some pos) => (d, t.goto (.fence pos after))
        | (d, none) => (d, t.passed after)
  | .getToken work => if d.tokenpos = some me then some (d, t.gotToken work) else none
  | .work work => if crashes d work then none else some (perform d t me work)
  | .putToken after => some (d.putToken, t.goto (.fence .enter after))
  | .joinEnter guest =>
      let (d, blocked) := d.join guest me
      some (d, t.goto (if blocked then .joinWait guest else .putToken .joined))
  | .joinWait guest =>
      let (d, blocked) := d.joinWoken guest me
      some (d, t.goto (if blocked then .joinWait guest else .joinToken))
  | .joinToken => if d.tokenpos = some me then some (d, t.goto (.putToken .joined)) else none
  | .closeFence =>
      some (d,
        if d.isSingleAliveThread then
          { t with fenceEnabled := false, childrenThreadsCount := 0, pc := .user }
        else t.goto .user)
  | .condWaiting _ mutex =>
      if d.status me = .ready then some (d, t.goto (.condToken mutex))
      else (d.lockRelease mutex).map fun d => (d, t)
  | .condToken mutex =>
      if d.tokenpos = some me then some (d, t.goto (.condAcquire mutex)) else none
  | .condAcquire mutex => some ((d.lockAcquire mutex me).1, t.acquired mutex)
  | .barrierEnter bar round =>
      let released := (d.barriers bar).released
      let d := d.realBarrierWait bar
      some (d, t.goto (if released < (d.barriers bar).released then .user
        else .barrierBlocked bar round released))
  | .barrierBlocked bar _ released =>
      if released < (d.barriers bar).released then some (d, t.goto .user) else none

/-! ## All threads together -/

/-- The broadcast of `_cond_children`. -/
def wakeChild (t : Thread) : Thread :=
  if t.pc = .waitParentNotify then t.goto .user else t

/-- The thread at this position starts the fence. -/
def Pc.StartsFence : Pc → Bool → Bool
  | .startFence _, _ => true
  | .work (.join _), fenceEnabled => !fenceEnabled
  | _, _ => false

/-- The thread at this position wakes the children that wait for their parents. -/
def Pc.Notifies : Pc → Bool
  | .notify _ | .joinEnter _ => true
  | _ => false

/-- The children that `parent` has registered are counted. -/
def announce (d : Determ) (parent other : ℕ) (t : Thread) : Thread :=
  if (d.entries other).tidParent = parent ∧ t.pc ≠ .absent then { t with announced := true } else t

/-- The thread at this position cancels `target`. -/
def Pc.Cancels (pc : Pc) (target : ℕ) : Prop := pc = .work (.cancel target)

instance (pc : Pc) (target : ℕ) : Decidable (pc.Cancels target) :=
  inferInstanceAs (Decidable (_ = _))

/-- The process of the thread is killed, and its entry is given up if it is found. -/
def kill (d : Determ) (target : ℕ) (t : Thread) : Thread :=
  { t with killed := true, pc := if d.status target = .condWaiting then .exited else t.pc }

/-- What the next step of `me` does to the records of other threads. -/
def State.others (s : State) (me : ℕ) : State :=
  let t := s.thread me
  if t.pc.Notifies then { s with thread := fun other => wakeChild (s.thread other) }
  else if t.pc.StartsFence t.fenceEnabled then
    { s with thread := fun other => announce s.determ me other (s.thread other) }
  else
    { s with thread := fun other =>
        if t.pc.Cancels other then kill s.determ other (s.thread other) else s.thread other }

theorem others_thread (s : State) (me other : ℕ) : (s.others me).thread other =
    if (s.thread me).pc.Notifies then wakeChild (s.thread other)
    else if (s.thread me).pc.StartsFence (s.thread me).fenceEnabled then
      announce s.determ me other (s.thread other)
    else if (s.thread me).pc.Cancels other then kill s.determ other (s.thread other)
    else s.thread other := by
  simp only [State.others]
  split
  · rfl
  · split <;> rfl

theorem others_threadIndex (s : State) (me : ℕ) :
    (s.others me).threadIndex = s.threadIndex := by
  simp only [State.others]
  split
  · rfl
  · split <;> rfl

def childRecord (parent : Thread) : Thread where
  pc := .registered
  fenceEnabled := true
  childrenThreadsCount := parent.childrenThreadsCount
  lockCount := 0
  tokenHolding := false
  killed := false
  holding := ∅
  announced := false

/-- The most threads that `_entries` has room for. -/
def maxThreads : ℕ := 2048

/-- A thread joins one that was created, and the first thread does not exit and is not
cancelled. -/
def Call.Allowed (s : State) (me : ℕ) : Call → Prop
  | .join guest => guest < s.threadIndex
  | .cancel target => target ≠ 0 ∧ target < s.threadIndex
  | .exit => me ≠ 0
  | _ => True

instance (s : State) (me : ℕ) : DecidablePred (Call.Allowed s me) := fun call => by
  cases call <;> unfold Call.Allowed <;> infer_instance

def State.update (s : State) (me : ℕ) (result : Determ × Thread) : State :=
  { s with determ := result.1, thread := Function.update s.thread me result.2 }

/-- The thread whose step it is. A child registers by itself. -/
def Label.thread : Label → Option ℕ
  | .call me _ | .exec me | .cloneFails me | .spuriousReturn me | .sigwaitReturns me
  | .sigwaitFails me => some me
  | .childRegister _ => none

/-- The step of a thread that is not killed. -/
def move (s : State) : Label → Option State
  | .call me c =>
      if (s.thread me).pc = .user ∧ c.Allowed s me then
        (call s.determ (s.thread me) me c).map (s.update me)
      else none
  | .exec me =>
      (exec s.determ (s.thread me) me).map fun result =>
        { (s.others me).update me result with
          forks := if (s.thread me).pc = .work .spawn then me :: s.forks else s.forks }
  | .childRegister parent =>
      if parent ∈ s.forks then
        some {
          determ := s.determ.registerThread s.threadIndex parent
          thread := Function.update s.thread s.threadIndex (childRecord (s.thread parent))
          threadIndex := s.threadIndex + 1
          forks := s.forks.erase parent }
      else none
  | .cloneFails me =>
      if (s.thread me).pc = .work .spawn then
        let (d, t) := perform s.determ (s.thread me) me .spawn
        some (s.update me (d, t.goto .user))
      else none
  | .spuriousReturn me =>
      match (s.thread me).pc with
      | .waitParentNotify => some (s.update me (s.determ, (s.thread me).goto .user))
      | .parentSleeping =>
          let d := { s.determ with childregistered := false }
          some (s.update me (d, (s.thread me).goto .user))
      | _ => none
  | .sigwaitReturns me =>
      if (s.thread me).pc = .sigWaiting then
        some (s.update me (s.determ.sigWaitWoken me, (s.thread me).goto .user))
      else none
  | .sigwaitFails me =>
      if (s.thread me).pc = .sigWaiting then
        some (s.update me (s.determ, (s.thread me).goto .user))
      else none

def step (s : State) (label : Label) : Option State :=
  if label.thread.any fun me => (s.thread me).killed then none else move s label

theorem move_of_step {s s' : State} {label : Label} (stepped : step s label = some s') :
    move s label = some s' := (Option.ite_none_left_eq_some.mp stepped).2

/-- A killed thread takes no step. -/
theorem alive_of_step {s s' : State} {label : Label} (stepped : step s label = some s') {me : ℕ}
    (mine : label.thread = some me) : (s.thread me).killed = false := by
  have alive := (Option.ite_none_left_eq_some.mp stepped).1
  rw [mine] at alive
  exact Bool.eq_false_iff.mpr alive

def absentThread : Thread := ⟨.absent, false, 0, 0, false, false, ∅, false⟩

/-- The first thread, in the program; barriers are initialised with their counts. -/
def start (cores : ℕ) (counts : ℕ → ℕ) : State where
  determ := (Determ.initial cores counts).registerMaster 0
  thread := Function.update (fun _ => absentThread) 0
    { absentThread with pc := .user, announced := true }
  threadIndex := 1
  forks := []

def system : System State Label where
  Init s := ∃ cores counts, 0 < cores ∧ s = start cores counts
  step := step

end Tthread.Xrun
