/-
# Transactions

Every runtime call of `xrun` that takes part in scheduling ends the caller's
transaction with `checkandcommit` and begins a new one with `updateAll`. In between the
library does its work, and some calls store to the program's memory there: the first use
of a condition variable or mutex registers it, `pthread_join` and `sigwait` store a
result. A forked child starts with its parent's list of committed entries.

The order in which threads are scheduled does not matter here, so any thread may take its
next step at any time. Only the iterations of `checkandcommit` hold each other off, as the
token sees to it; all other steps may come between the accesses of an iteration.
-/

import Mathlib.Data.Finset.Card
import Tthread.CommitAccesses

namespace Tthread.Transactions

open PageSystem

/-- The calls, with the addresses the library may store to. -/
inductive Call
  | spawn
  | join (result : Option PageId)
  | mutexLock
  | mutexUnlock
  | condWait (cond mutex : SyncObject)
  | condSignal (cond : SyncObject)
  | condBroadcast (cond : SyncObject)
  | barrierWait
  | sigWait (sig : PageId)
  | exit

/-- Objects that are registered if the call finds no entry. -/
def Call.registers : Call → List SyncObject
  | .condWait cond mutex => [cond, mutex]
  | .condSignal cond | .condBroadcast cond => [cond]
  | _ => []

/-- Pages of results that are stored for the caller. -/
def Call.results : Call → List PageId
  | .join result => result.toList
  | .sigWait sig => [sig]
  | _ => []

/-- Where a thread is: in its program, in `checkandcommit` at some position of the list, or
in a call between its commit and its begin. A child is born into the call of its parent. -/
inductive Phase
  | absent
  | born
  | user
  | committing (call : Call) (position : ℕ)
  | calling (call : Call)
  | exited

structure State where
  memory : Memory
  phase : ℕ → Phase
  live : Finset ℕ
  /-- the process in an iteration of `checkandcommit`, with the access it makes next -/
  visit : Option (ℕ × VisitPos)
  /-- ghost: entries that were cleared without having been committed -/
  lost : List Xpageinfo

inductive Label
  | readFault (me : ℕ) (p : PageId)
  | writeFault (me : ℕ) (p : PageId)
  | takeUnowned (me : ℕ) (p : PageId)
  | store (me : ℕ) (p : PageId) (offset : Fin pageSize) (value : UInt8)
  | setSyncEntry (me : ℕ) (o : SyncObject) (entry : UInt64)
  | clearSyncEntry (me : ℕ) (o : SyncObject)
  | setOwnedPage (me : ℕ) (p : PageId)
  | commitOwnedPage (me : ℕ) (p : PageId) (setShared : Bool)
  | cleanup
  | call (me : ℕ) (call : Call)
  | commitPage (me : ℕ)
  | begin (me : ℕ)
  /-- `sigwait` returns an error, and `sig_wait` returns without a begin -/
  | sigwaitFails (me : ℕ)
  | fork (me child : ℕ)
  | exit (me : ℕ)
  /-- the only live thread has turned copy-on-write off, has stored to the shared mapping
  directly, and turns it on again -/
  | setCopyOnWrite (me : ℕ) (content : PageId → Page) (allocated : ℕ)

/-- Program or library code may run. -/
def Phase.Running : Phase → Prop
  | .user | .calling _ => True
  | _ => False

/-- The program stores anywhere, the library to the results of the call. -/
def Phase.MayStore (p : PageId) : Phase → Prop
  | .user => True
  | .calling call => p ∈ call.results
  | _ => False

def Phase.MayRegister (o : SyncObject) : Phase → Prop
  | .user => True
  | .calling call => o ∈ call.registers
  | _ => False

/-- A store to the page may be next. -/
def Phase.MayTouch (p : PageId) : Phase → Prop
  | .user => True
  | .calling call => p ∈ call.results ∨ p ∈ call.registers.map SyncObject.page
  | _ => False

instance : DecidablePred Phase.Running := fun phase => by
  cases phase <;> unfold Phase.Running <;> infer_instance

instance (p : PageId) : DecidablePred (Phase.MayStore p) := fun phase => by
  cases phase <;> unfold Phase.MayStore <;> infer_instance

instance (o : SyncObject) : DecidablePred (Phase.MayRegister o) := fun phase => by
  cases phase <;> unfold Phase.MayRegister <;> infer_instance

instance (p : PageId) : DecidablePred (Phase.MayTouch p) := fun phase => by
  cases phase <;> unfold Phase.MayTouch <;> infer_instance

def State.setPhase (s : State) (me : ℕ) (phase : Phase) : State :=
  { s with phase := Function.update s.phase me phase }

/-- `begin`: the list is cleared. -/
def State.update (s : State) (me : ℕ) : State :=
  { s with
    memory := s.memory.updateAll me
    lost := ((s.memory.process me).dirtiedPagesList.filter fun entry : Xpageinfo =>
      !entry.committed) ++ s.lost
  }.setPhase me .user

/-- The entry after an access. Here it counts as committed when the page has lost its user. -/
def entryAfter (m : Memory) (me : ℕ) (entry : Xpageinfo) (pos : VisitPos) : Xpageinfo :=
  { (m.commitAccess me entry pos).2.1 with committed := entry.committed || pos.releases }

/-- The next access of an iteration. -/
def State.access (s : State) (me position : ℕ) (entry : Xpageinfo) (pos : VisitPos) : State :=
  { s with
    memory := (s.memory.commitAccess me entry pos).1.modify me fun q =>
      { q with
        dirtiedPagesList :=
          q.dirtiedPagesList.set position (entryAfter s.memory me entry pos) }
    visit := some (me, (s.memory.commitAccess me entry pos).2.2) }

/-- An iteration makes an access or ends. -/
def State.visitStep (s : State) (me : ℕ) (call : Call) (position : ℕ) (entry : Xpageinfo) :
    VisitPos → State
  | .done => { s with visit := none }.setPhase me (.committing call (position + 1))
  | pos => s.access me position entry pos

/-- What a thread in `checkandcommit` does next: it begins or goes on with an iteration, or has
passed all entries. -/
def State.commit (s : State) (me : ℕ) (call : Call) (position : ℕ) : Option State :=
  match s.visit, (s.memory.process me).dirtiedPagesList[position]? with
  | none, some _ => some { s with visit := some (me, .users) }
  | none, none => some (s.setPhase me (.calling call))
  | some (who, pos), some entry =>
      if who = me then some (s.visitStep me call position entry pos) else none
  | some _, none => none

def step (s : State) : Label → Option State
  | .readFault me p =>
      if (s.phase me).Running ∧ (s.memory.process me).protection p = .none ∧
          MayHandle s.memory me p then
        some { s with memory := s.memory.handleRead me p }
      else none
  | .writeFault me p =>
      if (s.phase me).MayTouch p ∧ (s.memory.process me).protection p ≠ .readWrite ∧
          MayHandle s.memory me p then
        some { s with memory := s.memory.handleWrite me p }
      else none
  | .takeUnowned me p =>
      if (s.phase me).Running ∧ (s.memory.process me).pageInfo p = .unused then
        some { s with memory := s.memory.setSharedPage me p }
      else none
  | .store me p offset value =>
      if (s.phase me).MayStore p ∧ (s.memory.process me).protection p = .readWrite then
        some { s with memory := s.memory.store me p offset value }
      else none
  | .setSyncEntry me o entry =>
      if (s.phase me).MayRegister o ∧ (s.memory.process me).protection o.page = .readWrite then
        some { s with memory := PageSystem.setSyncEntry s.memory me o entry }
      else none
  | .clearSyncEntry me o =>
      if (s.phase me).MayRegister o ∧ (s.memory.process me).protection o.page = .readWrite then
        some { s with memory := PageSystem.clearSyncEntry s.memory me o }
      else none
  | .setOwnedPage me p =>
      if (s.phase me).Running ∧ p.region = .heap then
        some { s with memory := s.memory.setOwnedPage me p }
      else none
  | .commitOwnedPage me p setShared =>
      -- the handler runs in a process that has owned the page
      if (s.memory.process me).pageInfo p ≠ .unused then
        some { s with memory := s.memory.commitOwnedPage me p setShared }
      else none
  | .cleanup =>
      some { s with memory := { s.memory with bitmap := s.memory.bitmap.cleanup } }
  | .call me call =>
      match s.phase me with
      | .user => some (s.setPhase me (.committing call 0))
      | _ => none
  | .commitPage me =>
      match s.phase me with
      | .committing call position => s.commit me call position
      | _ => none
  | .begin me =>
      match s.phase me with
      | .born => some (s.update me)
      | .calling .exit => none
      | .calling _ => some (s.update me)
      | _ => none
  | .sigwaitFails me =>
      match s.phase me with
      | .calling (.sigWait _) => some (s.setPhase me .user)
      | _ => none
  | .fork me child =>
      match s.phase me, s.phase child with
      | .calling .spawn, .absent =>
          some ({ s with
            memory := s.memory.modify child fun _ => s.memory.process me
            live := insert child s.live }.setPhase child .born)
      | _, _ => none
  | .exit me =>
      match s.phase me with
      | .calling .exit => some ({ s with live := s.live.erase me }.setPhase me .exited)
      | _ => none
  | .setCopyOnWrite me content allocated =>
      match s.phase me with
      | .user =>
          if s.live = {me} ∧ (s.memory.process me).dirtiedPagesList = [] then
            some { s with
              memory :=
                { s.memory with
                  persistent := content
                  pageOwner := (initial content allocated).memory.pageOwner
                }.modify me fun _ => initialProcess allocated }
          else none
      | _ => none

/-- The first thread, with copy-on-write just turned on. -/
def start (content : PageId → Page) (allocated : ℕ) : State where
  memory := (initial content allocated).memory
  phase := Function.update (fun _ => .absent) 0 .user
  live := {0}
  visit := none
  lost := []

def system : Transition.System State Label where
  Init s := ∃ content allocated, s = start content allocated
  step := step

end Tthread.Transactions
