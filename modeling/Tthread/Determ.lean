/-
# Token, fence and wait queues

The shared state of `determ` and its operations, one definition for each section under the
mutex and for each access without it. A thread is known by its index, which stands for its
process id and for its entry as well: indices and process ids are not used twice.

`getSyncEntry` is a lookup in a table of entries here, one for each object, and an object without an
entry has the one that its first use makes. In the program it loads a word from the caller's own
copy of a page: `SyncWords` has the words of each process and puts what the caller finds into the
tables.
-/

import Tthread.EntryList

namespace Tthread

open EntryList DoublyLinked

inductive Status
  | condWaiting
  | barrWaiting
  | ready
  | exit
  | joining
  deriving DecidableEq

structure ThreadEntry where
  status : Status
  tidParent : ℕ
  joineeThreadIndex : ℕ

structure LockEntry where
  totalUsers : ℕ
  lastThread : ℕ
  isAcquired : Bool
  lockBudget : ℕ

structure CondEntry where
  waiters : ℕ
  head : Option ℕ
  /-- ghost: how many of the waiters were cancelled -/
  cancelled : ℕ

structure BarrierEntry where
  maxthreads : ℕ
  threads : ℕ
  head : Option ℕ
  /-- ghost: how often the last thread has entered -/
  rounds : ℕ
  /-- `real_barr`: the threads that wait in it, and how often it has let them go -/
  arrived : ℕ
  released : ℕ

structure Determ where
  links : Links ℕ
  activelist : Option ℕ
  entries : ℕ → ThreadEntry
  /-- `cond` of the entries, which is only read while its thread waits, and `wait` -/
  cond : ℕ → ℕ
  wait : ℕ → Bool
  tokenpos : Option ℕ
  maxthreads : ℕ
  currthreads : ℕ
  alivethreads : ℕ
  isArrivalPhase : Bool
  coresNumb : ℕ
  childregistered : Bool
  locks : ℕ → Option LockEntry
  conds : ℕ → CondEntry
  barriers : ℕ → BarrierEntry

def lockOwnerBudget : ℕ := 10

/-- `lock_init` -/
def LockEntry.init : LockEntry := ⟨0, 0, false, 0⟩

/-- `lock_acquire` on an entry. An owner without budget gives the mutex up again. -/
def LockEntry.acquire (entry : LockEntry) (pid : ℕ) (single : Bool) : LockEntry × Bool :=
  if entry.isAcquired then (entry, false)
  else if entry.totalUsers = 0 then (⟨1, pid, true, lockOwnerBudget⟩, true)
  else if entry.totalUsers = 1 then
    if entry.lastThread ≠ pid then
      ({ entry with isAcquired := true, totalUsers := entry.totalUsers + 1 }, true)
    -- an owner whose budget is used up lets the others have the mutex, if there are any
    else if entry.lockBudget - 1 = 0 then
      if single then ({ entry with isAcquired := true, lockBudget := lockOwnerBudget }, true)
      else ({ entry with lockBudget := lockOwnerBudget }, false)
    else ({ entry with isAcquired := true, lockBudget := entry.lockBudget - 1 }, true)
  else ({ entry with isAcquired := true }, true)

namespace Determ

/-- `size_t` arithmetic. -/
@[irreducible] def increased (n k : ℕ) : ℕ := (n + k) % 2 ^ 64

@[irreducible] def decreased (n : ℕ) : ℕ := if n = 0 then 2 ^ 64 - 1 else n - 1

theorem increased_of_lt {n k : ℕ} (fits : n + k < 2 ^ 64) : increased n k = n + k := by
  unfold increased
  exact Nat.mod_eq_of_lt fits

theorem decreased_of_pos {n : ℕ} (positive : 0 < n) : decreased n = n - 1 := by
  unfold decreased
  exact if_neg positive.ne'

def setStatus (d : Determ) (thread : ℕ) (status : Status) : Determ :=
  { d with entries := Function.update d.entries thread { d.entries thread with status } }

def status (d : Determ) (thread : ℕ) : Status := (d.entries thread).status

/-! ## The fence -/

def startFence (d : Determ) (threads : ℕ) : Determ :=
  { d with
    maxthreads := increased d.maxthreads threads
    alivethreads := increased d.alivethreads threads
    isArrivalPhase := true }

def incrFence (d : Determ) (num : ℕ) : Determ :=
  { d with maxthreads := increased d.maxthreads num }

def decrFence (d : Determ) : Determ :=
  let d := { d with maxthreads := decreased d.maxthreads }
  -- it may have been the last one that those in the fence waited for
  if d.maxthreads ≤ d.currthreads ∧ d.isArrivalPhase ∧ d.maxthreads ≠ 0 then
    { d with isArrivalPhase := false }
  else d

def isSingleWorkingThread (d : Determ) : Bool := d.maxthreads = 1

def isSingleAliveThread (d : Determ) : Bool := d.maxthreads = 1 ∧ d.alivethreads = 1

/-- Where a thread is in `waitFence`. -/
inductive FencePos
  /-- about to take the mutex -/
  | enter
  /-- spinning until the arrival phase, and about to take the mutex after that -/
  | spin
  | arrive
  /-- waiting on the condition for the arrival phase -/
  | sleep
  /-- arrived: spinning until the phase ends, and about to take the mutex after that -/
  | insideSpin
  | leave
  /-- arrived: waiting on the condition for the phase to end -/
  | insideSleep
  deriving DecidableEq

/-- The end of `waitFence`. Whether the bitmap is cleaned up does not matter here. -/
def leaveFence (d : Determ) : Determ :=
  let d := { d with currthreads := decreased d.currthreads }
  if d.currthreads = 0 then { d with isArrivalPhase := true } else d

def setWait (d : Determ) (threadindex : ℕ) (wait : Bool) : Determ :=
  { d with wait := Function.update d.wait threadindex wait }

/-- Count the caller in. The last one ends the phase and leaves at once. -/
def arriveFence (d : Determ) (threadindex : ℕ) : Determ × Option FencePos :=
  let d := { d with currthreads := increased d.currthreads 1 }
  if d.maxthreads ≤ d.currthreads then (leaveFence { d with isArrivalPhase := false }, none)
  else (d.setWait threadindex true,
    some (if d.maxthreads ≤ d.coresNumb then .insideSpin else .insideSleep))

/-- The next access of `waitFence`: the new position, or `none` when it returns. A thread
that waits on the condition and finds the phase unchanged stays where it is. Only the
spinning variant resets `wait`. -/
def waitFence (d : Determ) (threadindex : ℕ) : FencePos → Option (Determ × Option FencePos)
  | .enter =>
      if d.isArrivalPhase then some (arriveFence d threadindex)
      else some (d, some (if d.maxthreads ≤ d.coresNumb then .spin else .sleep))
  | .spin => if d.isArrivalPhase then some (d, some .arrive) else none
  | .arrive => some (arriveFence d threadindex)
  | .sleep => if d.isArrivalPhase then some (arriveFence d threadindex) else none
  | .insideSpin =>
      if d.isArrivalPhase then none else some (d.setWait threadindex false, some .leave)
  | .leave => some (leaveFence d, none)
  | .insideSleep => if d.isArrivalPhase then none else some (leaveFence d, none)

/-- Only the counters, the phase and the `wait` flags of the fence change. -/
structure FenceOnly (d d' : Determ) : Prop where
  eq : d' = { d with
    wait := d'.wait
    maxthreads := d'.maxthreads
    currthreads := d'.currthreads
    alivethreads := d'.alivethreads
    isArrivalPhase := d'.isArrivalPhase }

theorem FenceOnly.refl (d : Determ) : FenceOnly d d := ⟨rfl⟩

theorem FenceOnly.trans {d d' d'' : Determ} (first : FenceOnly d d') (second : FenceOnly d' d'') :
    FenceOnly d d'' := by
  constructor
  rw [second.eq, first.eq]

theorem startFence_only (d : Determ) (threads : ℕ) : FenceOnly d (d.startFence threads) := ⟨rfl⟩

theorem incrFence_only (d : Determ) (num : ℕ) : FenceOnly d (d.incrFence num) := ⟨rfl⟩

theorem decrFence_only (d : Determ) : FenceOnly d d.decrFence := by
  simp only [decrFence]
  split <;> exact ⟨rfl⟩

theorem leaveFence_only (d : Determ) : FenceOnly d d.leaveFence := by
  simp only [leaveFence]
  split <;> exact ⟨rfl⟩

theorem setWait_only (d : Determ) (threadindex : ℕ) (wait : Bool) :
    FenceOnly d (d.setWait threadindex wait) := ⟨rfl⟩

theorem arriveFence_only (d : Determ) (threadindex : ℕ) :
    FenceOnly d (d.arriveFence threadindex).1 := by
  simp only [arriveFence]
  split
  · exact FenceOnly.trans ⟨rfl⟩ (leaveFence_only _)
  · exact ⟨rfl⟩

theorem waitFence_only {d : Determ} {threadindex : ℕ} {pos : FencePos}
    {result : Determ × Option FencePos} (waits : d.waitFence threadindex pos = some result) :
    FenceOnly d result.1 := by
  have same := FenceOnly.refl d
  have reset := setWait_only d threadindex false
  have arrived := arriveFence_only d threadindex
  have left := leaveFence_only d
  cases pos <;> simp only [waitFence, Option.ite_none_left_eq_some,
    Option.ite_none_right_eq_some, Option.some.injEq] at waits
  case enter =>
    split at waits
    · rwa [← Option.some.inj waits]
    · rwa [← Option.some.inj waits]
  case spin | insideSpin =>
    rwa [← waits.2]
  case arrive | leave =>
    rwa [← waits]
  case sleep | insideSleep =>
    rwa [← waits.2]

/-! ## The token -/

/-- The token goes to the next entry, also when the caller does not own it. -/
def putToken (d : Determ) : Determ := { d with tokenpos := d.tokenpos.map d.links.next }

/-- An entry of a new thread, at the end of the active list. -/
def registerThread (d : Determ) (threadindex parentindex : ℕ) : Determ :=
  let (links, activelist) := insertTail d.links threadindex d.activelist
  { d with
    links, activelist
    tokenpos := if d.tokenpos = none then some threadindex else d.tokenpos
    entries := Function.update d.entries threadindex ⟨.ready, parentindex, 0⟩
    wait := Function.update d.wait threadindex false }

/-- The constructor, on memory that is zero. -/
def initial (cores : ℕ) (counts : ℕ → ℕ) : Determ where
  links := ⟨fun _ => 0, fun _ => 0⟩
  activelist := none
  entries _ := ⟨.condWaiting, 0, 0⟩
  cond _ := 0
  wait _ := false
  tokenpos := none
  maxthreads := 0
  currthreads := 0
  alivethreads := 0
  isArrivalPhase := false
  coresNumb := cores
  childregistered := false
  locks _ := none
  conds _ := ⟨0, none, 0⟩
  barriers bar := ⟨counts bar, 0, none, 0, 0, 0⟩

def registerMaster (d : Determ) (threadindex : ℕ) : Determ :=
  { d.registerThread threadindex 0 with
    maxthreads := 1
    alivethreads := 1
    isArrivalPhase := true }

/-- Take the entry out of the active list. -/
def deactivate (d : Determ) (threadindex : ℕ) : Determ :=
  let (links, activelist) := removeEntry d.links threadindex d.activelist
  { d with links, activelist }

/-- Put the entry behind the token. -/
def insertBehindToken (d : Determ) (threadindex : ℕ) : Determ :=
  match d.tokenpos with
  | some header => { d with links := insertHead d.links threadindex header }
  | none => d

/-! ## Joining and exiting -/

/-- The loop of `join` up to its wait: the token is passed on unless nobody is active. -/
def joinBlock (d : Determ) (myindex : ℕ) : Determ :=
  let d := decrFence d
  if d.tokenpos = some myindex ∧ d.activelist ≠ none then putToken d else d

/-- The first section of `join`, and whether the caller waits for the joinee. -/
def join (d : Determ) (guestindex myindex : ℕ) : Determ × Bool :=
  if d.status guestindex ≠ .exit then
    -- the joinee is still alive
    let d := d.deactivate myindex
    let joining : ThreadEntry :=
      { d.entries myindex with status := .joining, joineeThreadIndex := guestindex }
    (joinBlock { d with entries := Function.update d.entries myindex joining } myindex, true)
  else (d.setStatus myindex .ready, false)

/-- The section after the wait, and whether the caller goes on waiting. -/
def joinWoken (d : Determ) (guestindex myindex : ℕ) : Determ × Bool :=
  let d := incrFence d 1
  if d.status guestindex ≠ .exit then (joinBlock d myindex, true)
  else (d.setStatus myindex .ready, false)

def deregisterThread (d : Determ) (threadindex : ℕ) : Determ :=
  let parent := (d.entries threadindex).tidParent
  let d :=
    -- the parent that joins this thread is the next to get the token
    if d.status parent = .joining ∧ (d.entries parent).joineeThreadIndex = threadindex then
      d.insertBehindToken parent
    else d
  let d :=
    -- the thread runs with the token, so it is not counted among those in the fence
    if 0 < d.alivethreads then decrFence { d with alivethreads := d.alivethreads - 1 } else d
  let nextentry := d.links.next threadindex
  { (d.deactivate threadindex).setStatus threadindex .exit with tokenpos := some nextentry }

/-! ## Mutexes -/

/-- `lock_isowner` on the entry the caller finds: a second thread that asks counts as a user. -/
def lockIsowner (d : Determ) (mutex pid : ℕ) : Determ × Bool :=
  match d.locks mutex with
  | none => (d, false)
  | some entry =>
      if entry.totalUsers = 1 then
        if entry.lastThread ≠ pid then
          let entry := { entry with totalUsers := entry.totalUsers + 1 }
          ({ d with locks := Function.update d.locks mutex (some entry) }, false)
        else (d, true)
      else (d, false)

/-- `lock_acquire` on the entry that the caller finds, or on a new one. -/
def lockAcquire (d : Determ) (mutex pid : ℕ) : Determ × Bool :=
  let (entry, result) :=
    ((d.locks mutex).getD .init).acquire pid d.isSingleWorkingThread
  ({ d with locks := Function.update d.locks mutex (some entry) }, result)

/-- `none` where there is no entry to release. -/
def lockRelease (d : Determ) (mutex : ℕ) : Option Determ :=
  (d.locks mutex).map fun entry =>
    { d with locks := Function.update d.locks mutex (some { entry with isAcquired := false }) }

def lockIsacquired (d : Determ) (mutex : ℕ) : Bool :=
  (d.locks mutex).any LockEntry.isAcquired

/-! ## Condition variables, signals and barriers -/

def setCond (d : Determ) (cond : ℕ) (entry : CondEntry) : Determ :=
  { d with conds := Function.update d.conds cond entry }

/-- The section of `cond_wait` up to its loop. -/
def condWait (d : Determ) (threadindex cond : ℕ) : Determ :=
  let next := d.links.next threadindex
  let d := d.deactivate threadindex
  let condentry := d.conds cond
  -- waiters are signalled first come, first served
  let (links, head) := insertTail d.links threadindex condentry.head
  let d := { d with links }.setCond cond
    { condentry with waiters := condentry.waiters + 1, head }
  let d := { d with cond := Function.update d.cond threadindex cond }
  { decrFence (d.setStatus threadindex .condWaiting) with tokenpos := some next }

/-- The first waiter comes behind the token. -/
def condSignal (d : Determ) (cond : ℕ) : Determ :=
  let condentry := d.conds cond
  match condentry.head with
  | some entry =>
      if condentry.waiters = 0 then d
      else
        let (links, head) := removeEntry d.links entry condentry.head
        let d := { d with links }.insertBehindToken entry
        incrFence ((d.setStatus entry .ready).setCond cond
          { condentry with waiters := condentry.waiters - 1, head }) 1
  | none => d

/-- The loop of `cond_broadcast`: so many entries from this one on are ready. -/
def wakeWaiters (d : Determ) (entry : ℕ) : ℕ → Determ
  | 0 => d
  | waiters + 1 => wakeWaiters (d.setStatus entry .ready) (d.links.next entry) waiters

/-- All waiters come behind the token. -/
def condBroadcast (d : Determ) (cond : ℕ) : Determ :=
  let condentry := d.conds cond
  match condentry.head, d.tokenpos with
  | some entry, some token =>
      if condentry.waiters = 0 then d
      else
        let d := wakeWaiters d entry condentry.waiters
        let d := { d with links := moveWholeList d.links token condentry.head }
        (incrFence d condentry.waiters).setCond cond ⟨0, none, 0⟩
  | _, _ => d

/-- `cond_signal` and `cond_broadcast` follow a null pointer: there is nobody in the queue
for the waiters they count. -/
def lostWaiters (d : Determ) (cond : ℕ) : Bool :=
  (d.conds cond).head = none ∧ (d.conds cond).waiters ≠ 0

/-- The section of `sig_wait` before `sigwait`. -/
def sigWait (d : Determ) (threadindex : ℕ) : Determ :=
  let next := d.links.next threadindex
  { decrFence (d.deactivate threadindex) with tokenpos := some next }

/-- The section after it. -/
def sigWaitWoken (d : Determ) (threadindex : ℕ) : Determ :=
  match d.tokenpos with
  | none => incrFence { d with tokenpos := some threadindex } 1
  | some _ => incrFence (d.insertBehindToken threadindex) 1

def setBarrier (d : Determ) (bar : ℕ) (entry : BarrierEntry) : Determ :=
  { d with barriers := Function.update d.barriers bar entry }

/-- The section of `barrier_wait`. -/
def barrierWait (d : Determ) (bar threadindex : ℕ) : Determ :=
  let barentry := d.barriers bar
  if barentry.threads + 1 = barentry.maxthreads then
    -- the last thread puts the others behind the token
    match d.tokenpos with
    | some token =>
        let d := { d with links := moveWholeList d.links token barentry.head }
        let d := incrFence d (barentry.maxthreads - 1)
        let completed := { barentry with threads := 0, head := none, rounds := barentry.rounds + 1 }
        { d.setBarrier bar completed with tokenpos := some (d.links.next threadindex) }
    | none => d
  else
    let nextentry := d.links.next threadindex
    let d := d.deactivate threadindex
    let (links, head) := insertTail d.links threadindex barentry.head
    let d := { d with links }.setBarrier bar { barentry with threads := barentry.threads + 1, head }
    { decrFence (d.setStatus threadindex .barrWaiting) with tokenpos := some nextentry }

/-! ## Cancelling -/

/-- `cancel`: only a thread that waits for a condition is found. -/
def cancel (d : Determ) (threadindex : ℕ) : Determ :=
  match d.status threadindex with
  | .condWaiting =>
      let condentry := d.conds (d.cond threadindex)
      -- `waiters` is not counted down
      let (links, head) := removeEntry d.links threadindex condentry.head
      let d := { d with links, alivethreads := decreased d.alivethreads }.setCond
        (d.cond threadindex) { condentry with head, cancelled := condentry.cancelled + 1 }
      let d :=
        -- it has arrived in the fence, and spins or sleeps there
        if d.wait threadindex then
          { d with currthreads := decreased d.currthreads, maxthreads := decreased d.maxthreads }
        else d
      let d := if d.maxthreads = 1 then { d with isArrivalPhase := true } else d
      d.setStatus threadindex .exit
  | _ => d

/-! ## The real barrier -/

/-- `pthread_barrier_wait` on `real_barr`: the last one lets all of them go. -/
def realBarrierWait (d : Determ) (bar : ℕ) : Determ :=
  let barentry := d.barriers bar
  if barentry.arrived + 1 = barentry.maxthreads then
    d.setBarrier bar { barentry with arrived := 0, released := barentry.released + 1 }
  else d.setBarrier bar { barentry with arrived := barentry.arrived + 1 }

end Determ

end Tthread
