/-
# The handoff of owned pages

A thread owns the heap pages it gets from `xheap::malloc` until it shares them. Whoever
touches a page of somebody else waits in its fault handler: it asks the owner by a signal,
and the owner's signal handler commits the page and shares it. The processes interleave at
their accesses to the shared arrays, and a signal handler runs on top of what the process
does otherwise.

The data and the local steps are those of `xpersist`; here `setSharedPage` and
`commitOwnedPage` are cut at every access that another process or a signal can follow. Every
process starts with the tables that `setCopyOnWrite` leaves. A child that is cloned later, with
the tables of its parent, is no part of these runs.
-/

import Tthread.Library.Transition
import Tthread.PageSystem

namespace Tthread.Handoff

/-! ## Positions -/

/-- The next access in `setSharedPage`. -/
inductive SharePos
  | check
  | exchange
  | record
  deriving DecidableEq

/-- The next access in `commitOwnedPage`. -/
inductive CommitPos
  | test
  | copy
  | protect
  | share (pos : SharePos)
  | release
  | version
  deriving DecidableEq

structure CommitCall where
  page : PageId
  setShared : Bool
  pos : CommitPos
  deriving DecidableEq

/-- The next access in `notifyOwnerToCommit`, with its local variables. -/
inductive NotifyPos
  | enter
  /-- at `notify_owner` -/
  | signal (owner : Owner)
  | queue (owner : Owner)
  /-- in `setSharedPage`, for a page never owned or after the signal failed -/
  | share (owner : Owner) (failed : Bool) (pos : SharePos)
  | spin (owner : Owner) (i : ℕ)
  | done
  deriving DecidableEq

/-- What the process does when no signal is handled. -/
inductive Task
  | user
  /-- `finalcommit`, with the pages still to be visited -/
  | finalcommit (release : Bool) (pages : List PageId)
  /-- `finalcommit` in a call of `commitOwnedPage` -/
  | commit (call : CommitCall) (pages : List PageId)
  /-- the fault handler in `notifyOwnerToCommit` -/
  | notify (isWrite : Bool) (p : PageId) (pos : NotifyPos)
  deriving DecidableEq

structure Control where
  exited : Bool
  /-- `_ownedblockinfo`: first page and end of each block -/
  ownedblockinfo : List (ℕ × ℕ)
  /-- the value of the pending SIGUSR1: a standard signal is pending once -/
  pending : Option ℕ
  task : Task
  /-- the call of the SIGUSR1 handler -/
  handler : Option CommitCall

structure State where
  memory : Memory
  /-- `_position` of the heap, in pages -/
  position : ℕ
  control : ℕ → Control
  /-- ghost: who has allocated the page -/
  allocator : PageId → Option ℕ
  /-- ghost: the owner has given the page up -/
  given : PageId → Bool
  /-- ghost: the page with the stores its owner has made while it had the page -/
  content : PageId → Page

inductive Label
  /-- `xheap::malloc` -/
  | malloc (me pages : ℕ)
  | store (me : ℕ) (p : PageId) (offset : Fin pageSize) (value : UInt8)
  | fault (me : ℕ) (p : PageId) (isWrite : Bool)
  | finalcommit (me : ℕ) (release : Bool)
  /-- the next access of a process outside its program -/
  | exec (me : ℕ)
  /-- SIGUSR1 arrives -/
  | deliver (me : ℕ)
  | exit (me : ℕ)

/-! ## The functions, access by access -/

/-- The page with a number, as the signal carries it. -/
def heapPage (pageNo : ℕ) : PageId := ⟨.heap, pageNo⟩

/-- The exchange of 8 bytes in an array of `int`. -/
def exchange (m : Memory) (p : PageId) : Memory :=
  { m with pageOwner := Function.update (Function.update m.pageOwner p.next .unowned) p .shared }

def setSharedPage (m : Memory) (me : ℕ) (p : PageId) : SharePos → Memory × Option SharePos
  | .check => (m, if m.pageOwner p ≠ .shared then some .exchange else none)
  | .exchange => (exchange m p, some .record)
  | .record => (m.modify me fun q => q.setPageInfo p .read, none)

/-- Where `commitOwnedPage` goes on after the copy. -/
def afterCopy (setShared : Bool) : CommitPos := if setShared then .share .check else .version

def commitOwnedPage (m : Memory) (me : ℕ) (call : CommitCall) : Memory × Option CommitPos :=
  let p := call.page
  match call.pos with
  | .test =>
      match (m.process me).pageInfo p with
      | .none | .read => (m, some (afterCopy call.setShared))
      -- the owner may have written the page
      | .readWrite | .unused => (m, some .copy)
  | .copy => (m.setPersistent p (m.view me p), some .protect)
  | .protect => (m.modify me fun q => q.mprotect p .none, some (afterCopy call.setShared))
  | .share pos =>
      let result := setSharedPage m me p pos
      (result.1, some (result.2.elim .release .share))
  | .release => (m.modify me fun q => q.dropCopy p, some .version)
  | .version => (m.incrementVersion p, none)

/-- `100000` rounds of the loop, then the signal is sent again. -/
def spinLimit : ℕ := 100000

/-- The memory, the process that gets a signal, and the next position. -/
def notifyOwnerToCommit (m : Memory) (me : ℕ) (p : PageId) :
    NotifyPos → Memory × Option ℕ × NotifyPos
  | .enter =>
      if m.pageOwner p = .shared then (m, none, .done) else (m, none, .signal (m.pageOwner p))
  -- a page that nobody owns is shared by whoever touches it
  | .signal owner =>
      if m.pageOwner p = .unowned then (m, none, .share owner false .check)
      else (m, none, .queue owner)
  | .queue owner =>
      match owner with
      | .process pid => (m, some pid, .spin owner 0)
      -- no process has such a number
      | .unowned | .shared => (m, none, .share owner true .check)
  | .share owner failed pos =>
      let result := setSharedPage m me p pos
      (result.1, none,
        result.2.elim (if failed then .done else .spin owner 0) (.share owner failed))
  | .spin owner i =>
      if m.pageOwner p = .shared then (m, none, .done)
      -- the owner has not answered: ask again
      else if i + 1 = spinLimit then (m, none, .signal owner)
      else (m, none, .spin owner (i + 1))
  | .done => (m, none, .done)

/-- The fault handler after `notifyOwnerToCommit`. -/
def afterNotify (m : Memory) (me : ℕ) (p : PageId) (isWrite : Bool) : Memory :=
  if isWrite then
    let m := m.mprotectReadWrite me p
    if m.pageOwner p = .process me then m else m.recordUser me p
  else m.handleRead me p

/-- `handleAccess`, for a page that needs no notification. -/
def handleAccess (m : Memory) (me : ℕ) (p : PageId) (isWrite : Bool) : Memory :=
  if isWrite then m.handleWrite me p else m.handleRead me p

def setOwnedPages (m : Memory) (me : ℕ) (pages : List ℕ) : Memory :=
  pages.foldl (fun m pageNo => m.setOwnedPage me (heapPage pageNo)) m

/-- The pages `finalcommit` visits. -/
def ownedPages (blocks : List (ℕ × ℕ)) : List PageId :=
  blocks.flatMap fun block => (List.range' block.1 (block.2 - block.1)).map heapPage

/-! ## The functions, uninterrupted -/

/-- Some accesses of `commitOwnedPage` in a row: the memory and where the call is then. -/
def runCommit (me : ℕ) : ℕ → Memory → CommitCall → Memory × Option CommitCall
  | 0, m, call => (m, some call)
  | n + 1, m, call =>
      match commitOwnedPage m me call with
      | (m, some pos) => runCommit me n m { call with pos := pos }
      | (m, none) => (m, none)

theorem runCommit_share (m : Memory) (me : ℕ) (p : PageId) (setShared : Bool) :
    ∃ n, ∀ k, runCommit me (k + n) m ⟨p, setShared, .share .check⟩ =
      runCommit me k (m.setSharedPage me p) ⟨p, setShared, .release⟩ := by
  by_cases shared : m.pageOwner p = .shared
  · refine ⟨1, fun k => ?_⟩
    simp [runCommit, commitOwnedPage, setSharedPage, Memory.setSharedPage, shared]
  · refine ⟨3, fun k => ?_⟩
    simp [runCommit, commitOwnedPage, setSharedPage, Memory.setSharedPage, shared, exchange]

theorem runCommit_afterCopy (m : Memory) (me : ℕ) (p : PageId) (setShared : Bool) :
    ∃ n, runCommit me n m ⟨p, setShared, afterCopy setShared⟩ =
      ((if setShared then (m.setSharedPage me p).modify me fun q => q.dropCopy p
        else m).incrementVersion p, none) := by
  cases setShared with
  | false => exact ⟨1, rfl⟩
  | true =>
    obtain ⟨n, share⟩ := runCommit_share m me p true
    exact ⟨2 + n, share 2⟩

/-- With nothing in between, the accesses are the function. -/
theorem runCommit_eq (m : Memory) (me : ℕ) (p : PageId) (setShared : Bool) :
    ∃ n, runCommit me n m ⟨p, setShared, .test⟩ = (m.commitOwnedPage me p setShared, none) := by
  cases info : (m.process me).pageInfo p with
  | none | read =>
    obtain ⟨n, rest⟩ := runCommit_afterCopy m me p setShared
    refine ⟨n + 1, ?_⟩
    simpa only [runCommit, commitOwnedPage, info, Memory.commitOwnedPage] using rest
  | readWrite | unused =>
    obtain ⟨n, rest⟩ := runCommit_afterCopy
      ((m.setPersistent p (m.view me p)).modify me fun q => q.mprotect p .none) me p setShared
    refine ⟨n + 3, ?_⟩
    simpa only [runCommit, commitOwnedPage, info, Memory.commitOwnedPage] using rest

/-! ## The system -/

namespace State

def setControl (s : State) (me : ℕ) (c : Control) : State :=
  { s with control := Function.update s.control me c }

/-- The process runs its program. -/
def InProgram (s : State) (me : ℕ) : Prop :=
  (s.control me).exited = false ∧ (s.control me).task = .user ∧ (s.control me).handler = none

instance (s : State) : DecidablePred s.InProgram := fun _ =>
  inferInstanceAs (Decidable (_ ∧ _ ∧ _))

/-- A signal can be handled: the fault handler and the signal handler block it. -/
def Interruptible (s : State) (me : ℕ) : Prop :=
  (s.control me).exited = false ∧ (s.control me).handler = none ∧
    ∀ isWrite p pos, (s.control me).task ≠ .notify isWrite p pos

instance (s : State) : DecidablePred s.Interruptible := fun me =>
  match eq : (s.control me).task with
  | .notify isWrite p pos => isFalse fun interruptible => interruptible.2.2 _ _ _ eq
  | .user | .finalcommit _ _ | .commit _ _ =>
      decidable_of_iff ((s.control me).exited = false ∧ (s.control me).handler = none)
        (by simp [Interruptible, eq])

/-- A page of the block just allocated. -/
def Fresh (s : State) (pages : ℕ) (p : PageId) : Prop :=
  p.region = .heap ∧ s.position ≤ p.pageNo ∧ p.pageNo < s.position + pages

instance (s : State) (pages : ℕ) : DecidablePred (s.Fresh pages) := fun _ =>
  inferInstanceAs (Decidable (_ ∧ _ ∧ _))

/-- `xheap::malloc`, from the bump pointer on. -/
def malloc (s : State) (me pages : ℕ) : State :=
  let c := s.control me
  { s with
    memory := setOwnedPages s.memory me (List.range' s.position pages)
    position := s.position + pages
    allocator := fun p => if s.Fresh pages p then some me else s.allocator p
  }.setControl me
    { c with ownedblockinfo := c.ownedblockinfo ++ [(s.position, s.position + pages)] }

/-- Ghost: the store is one of the owner's. -/
def OwnStore (s : State) (me : ℕ) (p : PageId) : Prop :=
  s.allocator p = some me ∧ s.given p = false

instance (s : State) (me : ℕ) : DecidablePred (s.OwnStore me) := fun _ =>
  inferInstanceAs (Decidable (_ ∧ _))

def store (s : State) (me : ℕ) (p : PageId) (offset : Fin pageSize) (value : UInt8) : State :=
  { s with
    memory := s.memory.store me p offset value
    content :=
      if s.OwnStore me p then
        Function.update s.content p (Function.update (s.content p) offset value)
      else s.content }

/-- The access is forbidden. -/
def Denied (s : State) (me : ℕ) (p : PageId) (isWrite : Bool) : Prop :=
  (s.memory.process me).protection p = .none ∨
    isWrite = true ∧ (s.memory.process me).protection p = .read

instance (s : State) (me : ℕ) (p : PageId) (isWrite : Bool) : Decidable (s.Denied me p isWrite) :=
  inferInstanceAs (Decidable (_ ∨ _ ∧ _))

/-- `handleRead` and `handleWrite` up to the notification. -/
def fault (s : State) (me : ℕ) (p : PageId) (isWrite : Bool) : State :=
  if (s.memory.process me).pageInfo p = .unused then
    s.setControl me { s.control me with task := .notify isWrite p .enter }
  else { s with memory := handleAccess s.memory me p isWrite }

/-- An access of `commitOwnedPage`; the exchange gives the page up. -/
def commitAccess (s : State) (me : ℕ) (call : CommitCall) : State :=
  { s with
    memory := (commitOwnedPage s.memory me call).1
    given :=
      if call.pos = .share .exchange then Function.update s.given call.page true else s.given }

/-- The next position of the call, if it has not returned. -/
def nextCall (s : State) (me : ℕ) (call : CommitCall) : Option CommitCall :=
  (commitOwnedPage s.memory me call).2.map fun pos => { call with pos := pos }

/-- The copy reads a page that must not be read. -/
def Faults (s : State) (me : ℕ) (call : CommitCall) : Prop :=
  call.pos = .copy ∧ (s.memory.process me).protection call.page = .none

instance (s : State) (me : ℕ) : DecidablePred (s.Faults me) := fun _ =>
  inferInstanceAs (Decidable (_ ∧ _))

/-- An access of the SIGUSR1 handler. SIGSEGV is blocked in it: a fault kills the process. -/
def handlerAccess (s : State) (me : ℕ) (call : CommitCall) : State :=
  if s.Faults me call then s.setControl me { s.control me with exited := true }
  else (s.commitAccess me call).setControl me
    { s.control me with handler := s.nextCall me call }

/-- `sigqueue`: the signal is dropped if one is pending. An exited process still gets it. -/
def sigqueue (s : State) (p : PageId) : Option ℕ → State
  | some pid =>
      s.setControl pid
        { s.control pid with pending := (s.control pid).pending.or (some p.pageNo) }
  | none => s

/-- An access of the fault handler. -/
def notifyAccess (s : State) (me : ℕ) (isWrite : Bool) (p : PageId) (pos : NotifyPos) : State :=
  if pos = .done then
    { s with memory := afterNotify s.memory me p isWrite
    }.setControl me { s.control me with task := .user }
  else
    let result := notifyOwnerToCommit s.memory me p pos
    { s with memory := result.1
    }.setControl me { s.control me with task := .notify isWrite p result.2.2 }
      |>.sigqueue p result.2.1

/-- The next access of the task. -/
def taskAccess (s : State) (me : ℕ) : Task → Option State
  | .user => none
  | .finalcommit _ [] => some (s.setControl me { s.control me with task := .user })
  | .finalcommit release (p :: pages) =>
      let task :=
        if s.memory.pageOwner p = .process me then .commit ⟨p, release, .test⟩ pages
        else .finalcommit release pages
      some (s.setControl me { s.control me with task := task })
  | .commit call pages =>
      if s.Faults me call then
        some { s with memory := s.memory.handleRead me call.page }
      else
        let task :=
          (s.nextCall me call).elim (.finalcommit call.setShared pages) (.commit · pages)
        some ((s.commitAccess me call).setControl me { s.control me with task := task })
  | .notify isWrite p pos => some (s.notifyAccess me isWrite p pos)

/-- A signal handler runs before what it has interrupted. -/
def exec (s : State) (me : ℕ) : Option State :=
  if (s.control me).exited then none
  else
    match (s.control me).handler with
    | some call => some (s.handlerAccess me call)
    | none => s.taskAccess me (s.control me).task

def deliver (s : State) (me pageNo : ℕ) : State :=
  s.setControl me
    { s.control me with pending := none, handler := some ⟨heapPage pageNo, true, .test⟩ }

/-- A program touches pages that it has got, from `malloc` or from another thread. -/
def step (s : State) : Label → Option State
  | .malloc me pages => if s.InProgram me then some (s.malloc me pages) else none
  | .store me p offset value =>
      if s.InProgram me ∧ (s.memory.process me).protection p = .readWrite then
        some (s.store me p offset value)
      else none
  | .fault me p isWrite =>
      if s.InProgram me ∧ (p.region = .heap ∧ p.pageNo < s.position) ∧ s.Denied me p isWrite then
        some (s.fault me p isWrite)
      else none
  | .finalcommit me release =>
      if s.InProgram me then
        some (s.setControl me
          { s.control me with
            task := .finalcommit release (ownedPages (s.control me).ownedblockinfo) })
      else none
  | .exec me => s.exec me
  | .deliver me =>
      (s.control me).pending.bind fun pageNo =>
        if s.Interruptible me then some (s.deliver me pageNo) else none
  | .exit me =>
      if s.InProgram me then some (s.setControl me { s.control me with exited := true }) else none

end State

/-- Nothing of the heap beyond the first `allocated` pages has been owned. -/
def initial (content : PageId → Page) (allocated : ℕ) : State where
  memory := (PageSystem.initial content allocated).memory
  position := allocated
  control _ := ⟨false, [], none, .user, none⟩
  allocator _ := none
  given _ := false
  content := content

def system : Transition.System State Label where
  Init s := ∃ content allocated, s = initial content allocated
  step := State.step

/-- A signal waits until its process lets it in. -/
theorem sigqueue_task {s : State} {p : PageId} {q : ℕ} {target : Option ℕ} :
    ((s.sigqueue p target).control q).task = (s.control q).task := by
  cases target with
  | none => rfl
  | some pid =>
    by_cases same : q = pid
    · subst same
      simp only [State.sigqueue, State.setControl, Function.update_self]
    · simp only [State.sigqueue, State.setControl, Function.update_of_ne same]

/-! ## What is handed over -/

/-- When the fault handler returns for a page of somebody else, the shared page holds what
its owner has stored. -/
def Delivered (s : State) : Prop :=
  ∀ me isWrite p pos owner s', (s.control me).task = .notify isWrite p pos →
    s.allocator p = some owner → owner ≠ me → s.step (.exec me) = some s' →
    (s'.control me).task = .user → s'.memory.persistent p = s'.content p

/-- Nobody spins for a process that has exited. -/
def OwnersLive (s : State) : Prop :=
  ∀ me isWrite p asked i owner, (s.control me).task = .notify isWrite p (.spin asked i) →
    s.memory.pageOwner p = .process owner → (s.control owner).exited = false

structure HandsOver (s : State) : Prop where
  delivered : Delivered s
  ownersLive : OwnersLive s

/-- The page on which the next access of the process is the exchange. -/
def State.exchanging (s : State) (me : ℕ) : Option PageId :=
  match (s.control me).handler, (s.control me).task with
  | some call, _ | none, .commit call _ =>
      if call.pos = .share .exchange then some call.page else none
  | none, .notify _ p (.share _ _ .exchange) => some p
  | none, _ => none

/-- The next access kills the process. -/
def State.Dies (s : State) (me : ℕ) : Prop := ∃ call ∈ (s.control me).handler, s.Faults me call

def State.OwnsNothing (s : State) (me : ℕ) : Prop :=
  ∀ pageNo < s.position, s.memory.pageOwner (heapPage pageNo) ≠ .process me

/-- The condition on a step: a page is shared only while nobody owns the page behind it, and
a process ends only when it owns nothing. -/
def KeepsHandoff (s : State) : Label → Prop
  | .exec me =>
      (∀ p ∈ s.exchanging me, ∀ owner, s.memory.pageOwner p.next ≠ .process owner) ∧
        (s.Dies me → s.OwnsNothing me)
  | .exit me => s.OwnsNothing me
  | _ => True

end Tthread.Handoff
