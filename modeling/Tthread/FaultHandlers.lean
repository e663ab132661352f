/-
# Page faults

A fault handler opens the page for the access that has faulted, and the access is made again. What
the handler does depends on what is noted in `_pageInfo`, which the functions that forbid access
again leave alone: a page that has been read, committed and refreshed faults as if it had been
opened already. Here runs are kept with a history of what each process has done to each page, and
with the access that it is about to make again.

Without copy-on-write there is one process, which shares the pages that it touches and commits
nothing. With it the processes are those of `Handoff`, each with a history of its own from the
start: the history that a clone takes over from its parent is left out.
-/

import Tthread.OwnerEntries

namespace Tthread.FaultHandlers

open Transition PageSystem Handoff Sharing

/-! ## What a step does to the access of a process -/

/-- What a process has done to a page. -/
inductive Event
  | readFault
  | share
  | writeAsOwner
  deriving DecidableEq

/-- What a step does to `_pageInfo` and the protection of a process. -/
inductive Effect
  | read (p : PageId)
  | write (p : PageId) (mine : Bool)
  /-- a write without copy-on-write, to a page that was unused -/
  | claim (p : PageId)
  | share (p : PageId)
  | protect (p : PageId)
  /-- a new block, as in `setOwnedPage` -/
  | own (first last : ℕ)
  /-- `updatePage`, for each of the pages -/
  | reset (pages : List PageId)

def InBlock (first last : ℕ) (p : PageId) : Prop :=
  p.region = .heap ∧ first ≤ p.pageNo ∧ p.pageNo < last

instance (first last : ℕ) : DecidablePred (InBlock first last) := fun _ =>
  inferInstanceAs (Decidable (_ ∧ _ ∧ _))

namespace Effect

def pageInfo (info : PageId → PageAccess) : Effect → PageId → PageAccess
  | .read p | .claim p | .share p => Function.update info p .read
  | .write p mine => if mine then Function.update info p .readWrite else info
  | .own first last => fun p => if InBlock first last p then .none else info p
  | .protect _ | .reset _ => info

def protection (before : PageId → Protection) : Effect → PageId → Protection
  | .read p => Function.update before p .read
  | .write p _ | .claim p => Function.update before p .readWrite
  | .protect p => Function.update before p .none
  | .own first last => fun p => if InBlock first last p then .none else before p
  | .reset pages => fun p => if p ∈ pages then p.region.protection else before p
  | .share _ => before

/-- The history, latest event first; it begins again when the process gets the page. -/
def history (before : PageId → List Event) : Effect → PageId → List Event
  | .read p => Function.update before p (.readFault :: before p)
  | .claim p | .share p => Function.update before p (.share :: before p)
  | .write p mine => if mine then Function.update before p (.writeAsOwner :: before p) else before
  | .own first last => fun p => if InBlock first last p then [] else before p
  | .protect _ | .reset _ => before

end Effect

/-! ## The system -/

structure State extends toSharing : Sharing.State where
  /-- the only process, while copy-on-write is off -/
  alone : Option ℕ
  /-- ghost: the access that has faulted and is to be made again -/
  retrying : ℕ → Option (PageId × Bool)
  /-- ghost: what each process has done to each page -/
  history : ℕ → PageId → List Event

abbrev Label := Sharing.Label

/-- The handler without copy-on-write: the page is shared if it was unused. -/
def handleDirect (m : Memory) (me : ℕ) (p : PageId) (isWrite : Bool) : Memory :=
  let m := if (m.process me).pageInfo p = .unused then m.setSharedPage me p else m
  if isWrite then m.openPage me p else m.handleRead me p

/-- A store to the shared mapping. -/
def storeDirect (m : Memory) (p : PageId) (offset : Fin pageSize) (value : UInt8) : Memory :=
  m.setPersistent p (Function.update (m.persistent p) offset value)

/-- Nobody owns the page, so that no handler waits. -/
def isUnowned : Owner → Bool
  | .process _ => false
  | .unowned | .shared => true

/-- The steps of the only process without copy-on-write. Blocks are not owned, and there is
nothing to commit or refresh. -/
def directStep (s : Sharing.State) (me : ℕ) : Label → Option Sharing.State
  | .handoff (.malloc other pages) =>
      if other = me ∧ s.InProgram me then
        some { s with toState := { s.toState with position := s.position + pages } }
      else none
  | .handoff (.store other p offset value) =>
      if other = me ∧ s.InProgram me ∧ (s.memory.process me).protection p = .readWrite then
        some (s.setMemory (storeDirect s.memory p offset value))
      else none
  | .handoff (.fault other p isWrite) =>
      if other = me ∧ s.InProgram me ∧ (p.region = .heap ∧ p.pageNo < s.position) ∧
          s.Denied me p isWrite ∧ isUnowned (s.memory.pageOwner p) then
        some (s.setMemory (handleDirect s.memory me p isWrite))
      else none
  | .globalsFault other p isWrite =>
      if other = me ∧ s.InProgram me ∧ p.region = .globals ∧ s.Denied me p isWrite ∧
          isUnowned (s.memory.pageOwner p) then
        some (s.setMemory (handleDirect s.memory me p isWrite))
      else none
  | _ => none

/-- The effect of the fault handler. A page that the process has written as its owner is
committed, and closed again. -/
def handled (m : Memory) (me : ℕ) (p : PageId) (isWrite : Bool) : Effect :=
  if isWrite then
    if (m.process me).pageInfo p = .readWrite then .protect p
    else .write p (m.pageOwner p = .process me)
  else .read p

/-- The effect of the rest of the handler, after `notifyOwnerToCommit`. -/
def notified (m : Memory) (me : ℕ) (p : PageId) (isWrite : Bool) : Effect :=
  if isWrite then .write p (m.pageOwner p = .process me) else .read p

def handledDirect (m : Memory) (me : ℕ) (p : PageId) (isWrite : Bool) : Effect :=
  if isWrite = true ∧ (m.process me).pageInfo p = .unused ∧ m.pageOwner p ≠ .shared then .claim p
  else handled m me p isWrite

/-- The effect of an access of `commitOwnedPage`. -/
def called (call : CommitCall) : Option Effect :=
  match call.pos with
  | .protect => some (.protect call.page)
  | .share .record => some (.share call.page)
  | _ => none

namespace State

/-- The effect of the next access of a process outside its program. -/
def execEffect (s : State) (me : ℕ) : Option Effect :=
  match (s.control me).handler, (s.control me).task with
  | some call, _ => if s.Faults me call then none else called call
  | none, .commit call _ => if s.Faults me call then some (.read call.page) else called call
  | none, .notify _ p (.share _ _ .record) => some (.share p)
  | none, .notify isWrite p .done => some (notified s.memory me p isWrite)
  | none, _ => none

/-- The process whose access changes, and how. -/
def effect (s : State) : Label → Option (ℕ × Effect)
  | .handoff (.malloc me pages) =>
      if s.alone = none then some (me, .own s.position (s.position + pages)) else none
  | .handoff (.fault me p isWrite) =>
      if s.alone ≠ none then some (me, handledDirect s.memory me p isWrite)
      else if (s.memory.process me).pageInfo p = .unused then none
      else some (me, handled s.memory me p isWrite)
  | .globalsFault me p isWrite =>
      if s.alone ≠ none then some (me, handledDirect s.memory me p isWrite)
      else some (me, handled s.memory me p isWrite)
  | .handoff (.exec me) => (s.execEffect me).map fun effect => (me, effect)
  | .commitPage => s.current.bind fun (me, _, entry) =>
      if TakesDiffs s.memory me entry ∧ s.memory.pageOwner entry.pageNo ≠ .shared then
        some (me, .share entry.pageNo)
      else none
  | .updateAll me => some (me, .reset (dirtyPages (s.memory.process me)))
  | _ => none

/-- The access that faults in the step, with its process. A fault in the copy of `finalcommit` is
one as well. -/
def faulting (s : State) : Label → Option (ℕ × PageId × Bool)
  | .handoff (.fault me p isWrite) | .globalsFault me p isWrite => some (me, p, isWrite)
  | .handoff (.exec me) =>
      match (s.control me).handler, (s.control me).task with
      | none, .commit call _ => if s.Faults me call then some (me, call.page, false) else none
      | _, _ => none
  | _ => none

/-- The access to be made again by a process that takes the next access outside its program. -/
def execRetries (s : State) (me : ℕ) : Option (PageId × Bool) :=
  match (s.control me).handler, (s.control me).task with
  | some _, _ => s.retrying me
  | none, .commit call _ => if s.Faults me call then some (call.page, false) else none
  | none, .notify isWrite p .done => some (p, isWrite)
  | none, _ => none

/-- The process whose code goes on, and the access that it has to make again then. -/
def retries (s : State) : Label → Option (ℕ × Option (PageId × Bool))
  | .handoff (.fault me p isWrite) =>
      some (me, if s.alone = none ∧ (s.memory.process me).pageInfo p = .unused then none
        else some (p, isWrite))
  | .globalsFault me p isWrite => some (me, some (p, isWrite))
  | .handoff (.exec me) => some (me, s.execRetries me)
  | .handoff (.malloc me _) | .handoff (.store me _ _ _) | .handoff (.finalcommit me _)
  | .handoff (.exit me) | .checkandcommit me | .updateAll me => some (me, none)
  | .handoff (.deliver _) | .commitPage | .cleanup => none

/-- The state after a step, with its ghosts. -/
def trace (s : State) (label : Label) (t : Sharing.State) : State where
  toSharing := t
  alone := s.alone
  retrying :=
    (s.retries label).elim s.retrying fun (me, retry) => Function.update s.retrying me retry
  history :=
    (s.effect label).elim s.history fun (me, effect) =>
      Function.update s.history me (effect.history (s.history me))

end State

/-- A step of what the ghosts are about. -/
def below (s : State) (label : Label) : Option Sharing.State :=
  match s.alone with
  | none => Sharing.step s.toSharing label
  | some me => directStep s.toSharing me label

def step (s : State) (label : Label) : Option State := (below s label).map (s.trace label)

/-- After `setCopyOnWrite`, which sets the tables in the same way for both modes. -/
def initial (content : PageId → Page) (allocated : ℕ) (alone : Option ℕ) : State where
  toSharing := Sharing.initial content allocated
  alone := alone
  retrying _ := none
  history _ _ := []

def system : Transition.System State Label where
  Init s := ∃ content allocated alone, s = initial content allocated alone
  step := step

/-! ## Faults that are resolved -/

/-- The switch of the handler has a case for the access. -/
def Valid (access : PageAccess) (isWrite : Bool) : Prop :=
  access ≠ .readWrite ∧ (isWrite = false → access ≠ .read)

/-- The handler of a fault does not reach the default branch of its switch; the access that faults
is not one that has faulted before, unless now it writes what it has read; and an access to be made
again can be made. -/
structure Resolves (s : State) (label : Label) : Prop where
  valid : ∀ me p isWrite, s.faulting label = some (me, p, isWrite) →
    Valid ((s.memory.process me).pageInfo p) isWrite
  once : ∀ me p isWrite before, s.faulting label = some (me, p, isWrite) →
    s.retrying me = some (p, before) → before = false ∧ isWrite = true
  opened : ∀ s', step s label = some s' → ∀ me p isWrite,
    s'.retrying me = some (p, isWrite) → ¬s'.Denied me p isWrite

/-- The condition on a fault: before a read fault the process has neither read nor shared the
page, nor written it as its owner; the last of these before a write fault is no write. -/
def Permitted (history : List Event) (isWrite : Bool) : Prop :=
  if isWrite then history.head? ≠ some .writeAsOwner else history = []

instance (history : List Event) (isWrite : Bool) : Decidable (Permitted history isWrite) :=
  inferInstanceAs (Decidable (ite _ _ _))

/-- The page that the handler of SIGUSR1 forbids to touch. -/
def State.revokes (s : State) : Label → Option (ℕ × PageId)
  | .handoff (.exec me) => (s.control me).handler.bind fun call =>
      if call.pos = .protect then some (me, call.page) else none
  | _ => none

/-- The condition on a step. -/
structure Orderly (s : State) (label : Label) : Prop where
  faults : ∀ fault ∈ s.faulting label, Permitted (s.history fault.1 fault.2.1) fault.2.2
  signals : ∀ target ∈ s.revokes label, ∀ isWrite,
    s.retrying target.1 ≠ some (target.2, isWrite)

/-! ## Steps have their effects -/

variable {s s' : State} {t : Sharing.State} {m m' m'' : Memory} {me : ℕ} {p : PageId}
  {label : Label} {q q' q'' : Process} {effect : Option (ℕ × Effect)} {e : Effect}

/-- `_pageInfo` and the protection stay. -/
def SameAccess (q q' : Process) : Prop := q'.pageInfo = q.pageInfo ∧ q'.protection = q.protection

theorem SameAccess.refl (q : Process) : SameAccess q q := ⟨rfl, rfl⟩

theorem SameAccess.trans (first : SameAccess q q') (second : SameAccess q' q'') :
    SameAccess q q'' :=
  ⟨second.1.trans first.1, second.2.trans first.2⟩

def Effect.Takes (e : Effect) (q q' : Process) : Prop :=
  q'.pageInfo = e.pageInfo q.pageInfo ∧ q'.protection = e.protection q.protection

/-- One process takes the effect, and the others stay as they are. -/
def Changes (m m' : Memory) : Option (ℕ × Effect) → Prop
  | none => ∀ other, SameAccess (m.process other) (m'.process other)
  | some (me, e) => e.Takes (m.process me) (m'.process me) ∧
      ∀ other ≠ me, SameAccess (m.process other) (m'.process other)

theorem Changes.before (same : Changes m m' none) (changes : Changes m' m'' effect) :
    Changes m m'' effect := by
  match effect with
  | none => exact fun other => (same other).trans (changes other)
  | some (me, e) =>
    obtain ⟨takes, others⟩ := changes
    refine ⟨?_, fun other different => (same other).trans (others other different)⟩
    have start := same me
    exact ⟨by rw [takes.1, start.1], by rw [takes.2, start.2]⟩

theorem Changes.after (changes : Changes m m' effect) (same : Changes m' m'' none) :
    Changes m m'' effect := by
  match effect with
  | none => exact fun other => (changes other).trans (same other)
  | some (me, e) =>
    obtain ⟨takes, others⟩ := changes
    refine ⟨?_, fun other different => (others other different).trans (same other)⟩
    exact ⟨(same me).1.trans takes.1, (same me).2.trans takes.2⟩

/-- Two effects of one process that make up a third one. -/
theorem Changes.andThen {e' e'' : Effect} (first : Changes m m' (some (me, e)))
    (second : Changes m' m'' (some (me, e')))
    (both : e'.pageInfo (e.pageInfo (m.process me).pageInfo) =
        e''.pageInfo (m.process me).pageInfo ∧
      e'.protection (e.protection (m.process me).protection) =
        e''.protection (m.process me).protection) : Changes m m'' (some (me, e'')) := by
  refine ⟨⟨?_, ?_⟩, fun other different =>
    (first.2 other different).trans (second.2 other different)⟩
  · rw [second.1.1, first.1.1, both.1]
  · rw [second.1.2, first.1.2, both.2]

theorem changes_refl (m : Memory) : Changes m m none := fun _ => .refl _

theorem changes_modify {change : Process → Process}
    (takes : e.Takes (m.process me) (change (m.process me))) :
    Changes m (m.modify me change) (some (me, e)) := by
  refine ⟨?_, fun other different => ?_⟩
  · rw [Memory.modify_process_self]
    exact takes
  · rw [Memory.modify_process_of_ne different]
    exact .refl _

theorem changes_modify_same {change : Process → Process}
    (same : ∀ q, SameAccess q (change q)) : Changes m (m.modify me change) none := by
  intro other
  by_cases here : other = me
  · subst here
    rw [Memory.modify_process_self]
    exact same _
  · rw [Memory.modify_process_of_ne here]
    exact .refl _

theorem changes_handleRead : Changes m (m.handleRead me p) (some (me, .read p)) :=
  changes_modify ⟨rfl, rfl⟩

theorem changes_mprotectReadWrite : Changes m (m.mprotectReadWrite me p)
    (some (me, .write p (m.pageOwner p = .process me))) := by
  refine changes_modify ?_
  by_cases mine : m.pageOwner p = .process me
  · simp only [mine, if_true, decide_true]
    exact ⟨rfl, rfl⟩
  · simp only [mine, if_false, decide_false]
    exact ⟨rfl, rfl⟩

theorem changes_recordUser : Changes m (m.recordUser me p) none :=
  Changes.before (fun _ => .refl _) (changes_modify_same fun _ => ⟨rfl, rfl⟩)

/-- A page that the process has written as its owner ends up closed. -/
theorem changes_reopen (written : (m.process me).pageInfo p = .readWrite) :
    Changes m ((m.mprotectReadWrite me p).commitOwnedPage me p false) (some (me, .protect p)) := by
  obtain ⟨⟨info, protection⟩, others⟩ :
      Changes m (m.mprotectReadWrite me p) (some (me, .write p _)) := changes_mprotectReadWrite
  have marked : ((m.mprotectReadWrite me p).process me).pageInfo = (m.process me).pageInfo := by
    rw [info]
    show (if _ then Function.update (m.process me).pageInfo p .readWrite else _) = _
    split
    · exact Function.update_eq_self_iff.mpr written.symm
    · rfl
  have commits : Changes (m.mprotectReadWrite me p)
      ((m.mprotectReadWrite me p).commitOwnedPage me p false) (some (me, .protect p)) := by
    simp only [Memory.commitOwnedPage, marked, written, Bool.false_eq_true, if_false]
    let copied := (m.mprotectReadWrite me p).setPersistent p ((m.mprotectReadWrite me p).view me p)
    have closed : Changes (m.mprotectReadWrite me p) (copied.modify me fun q => q.mprotect p .none)
        (some (me, .protect p)) :=
      Changes.before (fun _ => .refl _) (changes_modify ⟨rfl, rfl⟩)
    exact closed.after fun _ => .refl _
  obtain ⟨⟨info', protection'⟩, others'⟩ := commits
  refine ⟨⟨info'.trans marked, ?_⟩, fun other different =>
    (others other different).trans (others' other different)⟩
  rw [protection', protection]
  exact Function.update_idem ..

theorem changes_openPage : Changes m (m.openPage me p) (some (me, handled m me p true)) := by
  unfold Memory.openPage handled
  cases info : (m.process me).pageInfo p with
  | readWrite => exact changes_reopen info
  | none | read | unused => exact changes_mprotectReadWrite

theorem changes_handleAccess (isWrite : Bool) : Changes m (Handoff.handleAccess m me p isWrite)
    (some (me, handled m me p isWrite)) := by
  cases isWrite with
  | false => exact changes_handleRead
  | true =>
    show Changes m (m.handleWrite me p) _
    simp only [Memory.handleWrite]
    split
    · exact changes_openPage
    · exact changes_openPage.after changes_recordUser

theorem changes_afterNotify (isWrite : Bool) : Changes m (afterNotify m me p isWrite)
    (some (me, notified m me p isWrite)) := by
  cases isWrite with
  | false => exact changes_handleRead
  | true =>
    simp only [afterNotify, if_true]
    split
    · exact changes_mprotectReadWrite
    · exact changes_mprotectReadWrite.after changes_recordUser

theorem changes_setSharedPage : Changes m (m.setSharedPage me p)
    (if m.pageOwner p ≠ .shared then some (me, .share p) else none) := by
  unfold Memory.setSharedPage
  split
  · let shared : Memory := { m with
      pageOwner := Function.update (Function.update m.pageOwner p.next .unowned) p .shared }
    show Changes m (shared.modify me fun q => q.setPageInfo p .read) _
    exact Changes.before (fun _ => .refl _) (changes_modify ⟨rfl, rfl⟩)
  · exact changes_refl m

/-- An access of `setSharedPage`. -/
theorem changes_share (pos : SharePos) : Changes m (Handoff.setSharedPage m me p pos).1
    (if pos = .record then some (me, .share p) else none) := by
  cases pos with
  | check | exchange => exact fun _ => .refl _
  | record =>
    show Changes m (m.modify me fun q => q.setPageInfo p .read) _
    exact changes_modify ⟨rfl, rfl⟩

theorem changes_commitOwnedPage (call : CommitCall) :
    Changes m (Handoff.commitOwnedPage m me call).1 ((called call).map fun e => (me, e)) := by
  obtain ⟨page, setShared, pos⟩ := call
  cases pos with
  | test =>
    simp only [Handoff.commitOwnedPage]
    cases (m.process me).pageInfo page <;> exact changes_refl m
  | copy | version => exact fun _ => .refl _
  | protect =>
    show Changes m (m.modify me fun q => q.mprotect page .none) _
    exact changes_modify ⟨rfl, rfl⟩
  | release =>
    show Changes m (m.modify me fun q => q.dropCopy page) none
    exact changes_modify_same fun _ => ⟨rfl, rfl⟩
  | share pos =>
    have shares : Changes m (Handoff.setSharedPage m me page pos).1 _ := changes_share pos
    cases pos with
    | check | exchange | record => exact shares

theorem changes_notifyOwnerToCommit (pos : NotifyPos) (waits : pos ≠ .done) :
    Changes m (Handoff.notifyOwnerToCommit m me p pos).1
      (match pos with
      | .share _ _ .record => some (me, .share p)
      | _ => none) := by
  cases pos with
  | enter | signal owner =>
    simp only [Handoff.notifyOwnerToCommit]
    split <;> exact changes_refl m
  | queue owner => cases owner <;> exact changes_refl m
  | share owner failed pos =>
    have shares : Changes m (Handoff.setSharedPage m me p pos).1 _ := changes_share pos
    cases pos with
    | check | exchange | record => exact shares
  | spin owner i =>
    simp only [Handoff.notifyOwnerToCommit]
    split
    · exact changes_refl m
    · split <;> exact changes_refl m
  | done => exact absurd rfl waits

theorem changes_exec {t : Handoff.State} (moved : s.toState.exec me = some t) :
    Changes s.memory t.memory ((s.execEffect me).map fun e => (me, e)) := by
  rw [Handoff.State.exec] at moved
  split at moved
  · cases moved
  · unfold State.execEffect
    cases handler : (s.control me).handler with
    | some call =>
      rw [handler] at moved
      obtain rfl := Option.some.inj moved
      -- The owner that faults inside its signal handler leaves; the memory stays.
      by_cases faults : s.Faults me call
      · rw [Handoff.State.handlerAccess, if_pos faults]
        simp only [if_pos faults]
        exact changes_refl s.memory
      · rw [Handoff.State.handlerAccess, if_neg faults]
        simp only [if_neg faults]
        exact changes_commitOwnedPage call
    | none =>
      rw [handler] at moved
      cases task : (s.control me).task with
      | user =>
        rw [task] at moved
        cases moved
      | finalcommit release pages =>
        rw [task] at moved
        cases pages <;> (obtain rfl := Option.some.inj moved; exact changes_refl s.memory)
      | commit call pages =>
        rw [task] at moved
        simp only [Handoff.State.taskAccess] at moved
        -- Outside the handler the fault is answered: the page is read in, and the access taken
        -- again.
        by_cases faults : s.Faults me call
        · rw [if_pos faults] at moved
          obtain rfl := Option.some.inj moved
          simp only [if_pos faults]
          exact changes_handleRead
        · rw [if_neg faults] at moved
          obtain rfl := Option.some.inj moved
          simp only [if_neg faults]
          exact changes_commitOwnedPage call
      | notify isWrite p pos =>
        rw [task] at moved
        obtain rfl := Option.some.inj moved
        -- The fault of the caller itself is handled once the owner has answered.
        by_cases returns : pos = .done
        · subst returns
          exact changes_afterNotify isWrite
        · rw [Handoff.State.notifyAccess, if_neg returns, sigqueue_memory]
          have waits : Changes s.memory
            (Handoff.notifyOwnerToCommit s.memory me p pos).1 _ :=
            changes_notifyOwnerToCommit pos returns
          cases pos with
          | done => exact absurd rfl returns
          | share owner failed share => cases share <;> exact waits
          | _ => exact waits

theorem changes_setOwnedPages (s : Handoff.State) (pages : ℕ) :
    Changes s.memory (setOwnedPages s.memory me (List.range' s.position pages))
      (some (me, .own s.position (s.position + pages))) := by
  have fresh : ∀ p, s.Fresh pages p ↔ InBlock s.position (s.position + pages) p := fun p => .rfl
  refine ⟨⟨?_, ?_⟩, fun other different => ⟨?_, ?_⟩⟩
  · funext p
    simp only [setOwnedPages_pageInfo, numbered_block, fresh, true_and]
    rfl
  · funext p
    simp only [setOwnedPages_protection, numbered_block, fresh, true_and]
    rfl
  · funext p
    simp only [setOwnedPages_pageInfo, different, false_and, if_false]
  · funext p
    simp only [setOwnedPages_protection, different, false_and, if_false]

theorem updatePage_access (q : Process) (entry : Xpageinfo) :
    (q.updatePage entry).pageInfo = q.pageInfo ∧ (q.updatePage entry).protection =
      Function.update q.protection entry.pageNo entry.pageNo.region.protection := by
  simp only [Process.updatePage]
  split <;> exact ⟨rfl, rfl⟩

theorem foldl_updatePage_access (entries : List Xpageinfo) (q : Process) :
    (entries.foldl Process.updatePage q).pageInfo = q.pageInfo ∧
      ∀ p, (entries.foldl Process.updatePage q).protection p =
        if p ∈ entries.map Xpageinfo.pageNo then p.region.protection else q.protection p := by
  induction entries generalizing q with
  | nil => exact ⟨rfl, fun p => (if_neg List.not_mem_nil).symm⟩
  | cons entry entries ih =>
    obtain ⟨info, protection⟩ := ih (q.updatePage entry)
    obtain ⟨info', protection'⟩ := updatePage_access q entry
    refine ⟨info.trans info', fun p => (protection p).trans ?_⟩
    simp only [protection', List.map_cons, List.mem_cons]
    by_cases here : p = entry.pageNo
    · subst here
      simp only [Function.update_self, ite_self, true_or, if_true]
    · simp only [Function.update_of_ne here, here, false_or]

theorem changes_updateAll : Changes m (m.updateAll me)
    (some (me, .reset (dirtyPages (m.process me)))) := by
  obtain ⟨info, protection⟩ :=
    foldl_updatePage_access (m.process me).dirtiedPagesList (m.process me)
  exact changes_modify ⟨info, funext protection⟩

theorem changes_withTwin : Changes m (m.withTwin p) none := by
  unfold Memory.withTwin
  split <;> exact fun _ => .refl _

theorem changes_commitPage (entry : Xpageinfo) : Changes m (m.commitPage me entry).1
    (if TakesDiffs m me entry ∧ m.pageOwner entry.pageNo ≠ .shared then
      some (me, .share entry.pageNo)
    else none) := by
  have owners := withTwin_pageOwner (m := m) (p := entry.pageNo)
  have twin : Changes m (m.withTwin entry.pageNo) none := changes_withTwin
  refine twin.before ?_
  simp only [Memory.commitPage, withTwin_users, owners]
  by_cases carries : (m.pageUsers entry.pageNo).users ≠ 1 ∨ m.pageOwner entry.pageNo ≠ .process me
  · rw [if_pos carries]
    show Changes _ (((m.withTwin entry.pageNo).copyOut me entry).finishCommit entry.pageNo) _
    have out : Changes (m.withTwin entry.pageNo) ((m.withTwin entry.pageNo).copyOut me entry)
        (if TakesDiffs m me entry ∧ m.pageOwner entry.pageNo ≠ .shared then
          some (me, .share entry.pageNo)
        else none) := by
      simp only [Memory.copyOut, withTwin_versions]
      by_cases same : entry.version = m.versions entry.pageNo
      · rw [if_pos same, if_neg fun both => both.1.2 same]
        exact fun _ => .refl _
      · rw [if_neg same]
        have takes : TakesDiffs m me entry := ⟨carries, same⟩
        have shares : Changes (m.withTwin entry.pageNo)
            ((m.withTwin entry.pageNo).setSharedPage me entry.pageNo) _ := changes_setSharedPage
        rw [owners] at shares
        simp only [takes, true_and]
        exact shares.after fun _ => .refl _
    exact out.after fun _ => .refl _
  · rw [if_neg carries, if_neg fun both => carries both.1.1]
    exact changes_refl _

theorem changes_handleDirect (isWrite : Bool) : Changes m (handleDirect m me p isWrite)
    (some (me, handledDirect m me p isWrite)) := by
  by_cases claims : (m.process me).pageInfo p = .unused ∧ m.pageOwner p ≠ .shared
  · obtain ⟨unused, other⟩ := claims
    have shares : Changes m (m.setSharedPage me p) _ := changes_setSharedPage
    have owner : (m.setSharedPage me p).pageOwner p = .shared := by
      rw [setSharedPage_pageOwner, if_pos other, exchange_self]
    rw [if_pos other] at shares
    simp only [handleDirect, handledDirect, unused, other, ne_eq, not_false_eq_true,
      and_true]
    cases isWrite with
    | false =>
      have reads : Changes (m.setSharedPage me p) ((m.setSharedPage me p).handleRead me p) _ :=
        changes_handleRead
      refine shares.andThen reads ⟨?_, ?_⟩
      · exact Function.update_idem ..
      · rfl
    | true =>
      have opens : Changes (m.setSharedPage me p) ((m.setSharedPage me p).openPage me p) _ :=
        changes_openPage
      have read : ((m.setSharedPage me p).process me).pageInfo p = .read := by
        rw [shares.1.1]
        exact Function.update_self ..
      simp only [handled, read, owner, if_true, reduceCtorEq, if_false, decide_false] at opens
      exact shares.andThen opens ⟨rfl, rfl⟩
  · have unchanged :
        (if (m.process me).pageInfo p = .unused then m.setSharedPage me p else m) = m := by
      split
      · next unused => exact if_neg fun other => claims ⟨unused, other⟩
      · rfl
    have effect : handledDirect m me p isWrite = handled m me p isWrite :=
      if_neg fun both => claims both.2
    rw [handleDirect, unchanged, effect]
    cases isWrite with
    | false => exact changes_handleRead
    | true => exact changes_openPage

theorem changes_store {offset : Fin pageSize} {value : UInt8} :
    Changes m (m.store me p offset value) none := by
  let stored := Function.update (m.view me p) offset value
  show Changes m (m.modify me fun q => q.setCopy p stored fun other => other = offset) none
  exact changes_modify_same fun _ => ⟨rfl, rfl⟩

theorem changes_setEntry {position : ℕ} {entry : Xpageinfo} :
    Changes m (m.modify me fun q =>
      { q with dirtiedPagesList := q.dirtiedPagesList.set position entry }) none :=
  changes_modify_same fun _ => ⟨rfl, rfl⟩

/-- **What a step does to accesses.** -/
theorem below_changes (stepped : below s label = some t) :
    Changes s.memory t.memory (s.effect label) := by
  unfold below at stepped
  -- A process alone handles its faults directly; else it has only `malloc` and stores.
  cases alone : s.alone with
  | some me =>
    rw [alone] at stepped
    have direct : s.alone ≠ none := by
      rw [alone]
      exact Option.some_ne_none me
    cases label with
    | handoff label =>
      cases label with
      | malloc other pages =>
        obtain ⟨-, rfl⟩ := guarded stepped
        simp only [State.effect, if_neg direct]
        exact changes_refl s.memory
      | store other p offset value =>
        obtain ⟨-, rfl⟩ := guarded stepped
        exact fun _ => .refl _
      | fault other p isWrite =>
        obtain ⟨⟨rfl, -⟩, rfl⟩ := guarded stepped
        simp only [State.effect, if_pos direct]
        exact changes_handleDirect isWrite
      | _ => cases stepped
    | globalsFault other p isWrite =>
      obtain ⟨⟨rfl, -⟩, rfl⟩ := guarded stepped
      simp only [State.effect, if_pos direct]
      exact changes_handleDirect isWrite
    | _ => cases stepped
  | none =>
    rw [alone] at stepped
    have shared : ¬s.alone ≠ none := not_not.mpr alone
    cases label with
    | handoff label =>
      obtain ⟨-, stepped⟩ := Option.ite_none_right_eq_some.mp stepped
      obtain ⟨t, moved, rfl⟩ := Option.map_eq_some_iff.mp stepped
      cases label with
      | malloc me pages =>
        obtain ⟨-, rfl⟩ := guarded moved
        simp only [State.effect, if_pos alone]
        exact changes_setOwnedPages s.toState pages
      | store me p offset value =>
        obtain ⟨-, rfl⟩ := guarded moved
        exact changes_store
      | fault me p isWrite =>
        obtain ⟨-, rfl⟩ := guarded moved
        simp only [State.effect, if_neg shared]
        show Changes _ (s.toState.fault me p isWrite).memory _
        unfold Handoff.State.fault
        split
        · exact changes_refl s.memory
        · exact changes_handleAccess isWrite
      | exec me => exact changes_exec moved
      | finalcommit me release | exit me =>
        obtain ⟨-, rfl⟩ := guarded moved
        exact changes_refl s.memory
      | deliver me =>
        obtain ⟨pageNo, -, moved⟩ := Option.bind_eq_some_iff.mp moved
        obtain ⟨-, rfl⟩ := guarded moved
        exact changes_refl s.memory
    | globalsFault me p isWrite =>
      obtain ⟨-, rfl⟩ := guarded stepped
      simp only [State.effect, if_neg shared]
      exact changes_handleAccess isWrite
    | checkandcommit me =>
      obtain ⟨-, rfl⟩ := guarded stepped
      exact changes_refl s.memory
    | commitPage =>
      rcases commitPage_cases stepped with ⟨ended, rfl⟩ | ⟨me, position, entry, here, -, rfl⟩
      · simp only [State.effect, ended, Option.bind_none]
        exact changes_refl s.memory
      · simp only [State.effect, here, Option.bind_some]
        exact (changes_commitPage entry).after changes_setEntry
    | updateAll me =>
      obtain ⟨-, rfl⟩ := guarded stepped
      exact changes_updateAll
    | cleanup =>
      obtain rfl := Option.some.inj stepped
      exact changes_refl s.memory

/-! ## The invariant -/

/-- What the history says of `_pageInfo`. -/
def Tracks (p : PageId) (history : List Event) (access : PageAccess) : Prop :=
  match history.head? with
  | none =>
      match p.region with
      | .globals => access = .read
      | .heap => access = .none ∨ access = .unused
  | some .readFault | some .share => access = .read
  | some .writeAsOwner => access = .readWrite

structure FaultInv (s : State) : Prop where
  known : KnowAllocated s.toState
  tracks : ∀ me p, Tracks p (s.history me p) ((s.memory.process me).pageInfo p)
  globals : ∀ me p, p.region = .globals → (s.memory.process me).protection p ≠ .none
  retry : ∀ me p isWrite, s.retrying me = some (p, isWrite) → ¬s.Denied me p isWrite

/-- The history is kept up. -/
theorem tracks_effect {history : PageId → List Event} {info : PageId → PageAccess}
    (tracks : ∀ p, Tracks p (history p) (info p)) (e : Effect) (p : PageId) :
    Tracks p (e.history history p) (e.pageInfo info p) := by
  have updated : ∀ (r : PageId) (event : Event) (access : PageAccess),
      Tracks r (event :: history r) access →
      Tracks p (Function.update history r (event :: history r) p)
        (Function.update info r access p) := by
    intro r event access here
    by_cases same : p = r
    · subst same
      rw [Function.update_self, Function.update_self]
      exact here
    · rw [Function.update_of_ne same, Function.update_of_ne same]
      exact tracks p
  cases e with
  | read r | claim r | share r => exact updated r _ _ rfl
  | write r mine =>
    cases mine with
    | false => exact tracks p
    | true => exact updated r _ _ rfl
  | own first last =>
    simp only [Effect.history, Effect.pageInfo]
    by_cases inside : InBlock first last p
    · rw [if_pos inside, if_pos inside]
      unfold Tracks
      simp only [List.head?_nil, inside.1, true_or]
    · rw [if_neg inside, if_neg inside]
      exact tracks p
  | protect r | reset pages => exact tracks p

/-- Only `commitOwnedPage` closes a page of the globals. -/
theorem globals_effect {protection : PageId → Protection} {e : Effect}
    (globals : p.region = .globals → protection p ≠ .none)
    (closes : ∀ r, e = .protect r → r.region = .heap) (region : p.region = .globals) :
    e.protection protection p ≠ .none := by
  have updated : ∀ (r : PageId) (after : Protection), after ≠ .none →
      Function.update protection r after p ≠ .none := by
    intro r after opens
    by_cases same : p = r
    · subst same
      rwa [Function.update_self]
    · rw [Function.update_of_ne same]
      exact globals region
  cases e with
  | read r | write r mine | claim r => exact updated r _ nofun
  | share r => exact globals region
  | protect r =>
    have heap := closes r rfl
    have different : p ≠ r := by
      rintro rfl
      cases region.symm.trans heap
    simp only [Effect.protection, Function.update_of_ne different]
    exact globals region
  | own first last =>
    have outside : ¬InBlock first last p := fun inside => by cases region.symm.trans inside.1
    simp only [Effect.protection, if_neg outside]
    exact globals region
  | reset pages =>
    simp only [Effect.protection]
    split
    · rw [region]
      nofun
    · exact globals region

/-- The switch has a case for an access that is permitted. -/
theorem valid_iff {history : List Event} {access : PageAccess} {isWrite : Bool}
    (tracks : Tracks p history access) (heap : isWrite = false → p.region = .heap) :
    Valid access isWrite ↔ Permitted history isWrite := by
  cases history with
  | nil =>
    have fits : access ≠ .readWrite ∧ (isWrite = false → access ≠ .read) := by
      unfold Tracks at tracks
      cases region : p.region with
      | globals =>
        simp only [List.head?_nil, region] at tracks
        refine ⟨by rw [tracks]; nofun, fun reads => ?_⟩
        cases region.symm.trans (heap reads)
      | heap =>
        simp only [List.head?_nil, region] at tracks
        rcases tracks with rfl | rfl <;> exact ⟨nofun, fun _ => nofun⟩
    refine iff_of_true fits ?_
    cases isWrite with
    | false => rfl
    | true => nofun
  | cons event history =>
    cases event with
    | readFault | share =>
      obtain rfl : access = .read := tracks
      cases isWrite with
      | false => exact iff_of_false (fun valid => valid.2 rfl rfl) nofun
      | true => exact iff_of_true ⟨nofun, nofun⟩ nofun
    | writeAsOwner =>
      obtain rfl : access = .readWrite := tracks
      refine iff_of_false (fun valid => valid.1 rfl) ?_
      cases isWrite with
      | false => nofun
      | true => exact fun other => other rfl

/-! ## Steps -/

theorem below_known (known : KnowAllocated s.toState) (stepped : below s label = some t) :
    KnowAllocated t.toState := by
  unfold below at stepped
  cases alone : s.alone with
  | some me =>
    rw [alone] at stepped
    cases label with
    | handoff label =>
      cases label with
      | malloc other pages =>
        obtain ⟨-, rfl⟩ := guarded stepped
        exact fun q p names => (known q p names).mono (Nat.le_add_right _ _)
      | store other p offset value | fault other p isWrite =>
        obtain ⟨-, rfl⟩ := guarded stepped
        exact known
      | _ => cases stepped
    | globalsFault other p isWrite =>
      obtain ⟨-, rfl⟩ := guarded stepped
      exact known
    | _ => cases stepped
  | none =>
    rw [alone] at stepped
    cases label with
    | handoff label =>
      obtain ⟨-, stepped⟩ := Option.ite_none_right_eq_some.mp stepped
      obtain ⟨t, moved, rfl⟩ := Option.map_eq_some_iff.mp stepped
      exact (known.step moved).1
    | globalsFault me p isWrite | checkandcommit me | updateAll me =>
      obtain ⟨-, rfl⟩ := guarded stepped
      exact known
    | commitPage =>
      rcases commitPage_cases stepped with ⟨-, rfl⟩ | ⟨me, position, entry, -, -, rfl⟩
      · exact known
      · exact known
    | cleanup =>
      obtain rfl := Option.some.inj stepped
      exact known

/-- The effect leaves the page open for the access. -/
def Effect.Opens (e : Effect) (p : PageId) (isWrite : Bool) : Prop :=
  ∀ before, e.protection before p = if isWrite then .readWrite else .read

theorem opens_notified {isWrite : Bool} : (notified m me p isWrite).Opens p isWrite := by
  intro before
  cases isWrite <;> exact Function.update_self ..

theorem opens_handled {isWrite : Bool} (valid : (m.process me).pageInfo p ≠ .readWrite) :
    (handled m me p isWrite).Opens p isWrite := by
  intro before
  cases isWrite with
  | false => exact Function.update_self ..
  | true =>
    rw [handled, if_pos rfl, if_neg valid]
    exact Function.update_self ..

theorem opens_handledDirect {isWrite : Bool} (valid : (m.process me).pageInfo p ≠ .readWrite) :
    (handledDirect m me p isWrite).Opens p isWrite := by
  unfold handledDirect
  split
  · next claims =>
    intro before
    rw [claims.1]
    exact Function.update_self ..
  · exact opens_handled valid

theorem Effect.Opens.not_denied {t : Handoff.State} {isWrite : Bool} {before : PageId → Protection}
    (opens : e.Opens p isWrite) (after : (t.memory.process me).protection = e.protection before) :
    ¬t.Denied me p isWrite := by
  unfold Handoff.State.Denied
  rw [after, opens before]
  cases isWrite with
  | false => nofun
  | true => nofun

/-- The process of an effect is the one whose code goes on, apart from commits, which only share
pages. -/
theorem retries_of_effect (taken : s.effect label = some (me, e)) :
    (∃ retry, s.retries label = some (me, retry)) ∨ ∃ p, e = .share p := by
  cases label with
  | handoff label =>
    left
    cases label with
    | malloc other pages =>
      simp only [State.effect, Option.ite_none_right_eq_some, Option.some.injEq,
        Prod.mk.injEq] at taken
      exact ⟨_, by rw [← taken.2.1]; rfl⟩
    | fault other p isWrite =>
      simp only [State.effect] at taken
      split at taken
      · cases taken
        exact ⟨_, rfl⟩
      · obtain ⟨-, taken⟩ := Option.ite_none_left_eq_some.mp taken
        cases taken
        exact ⟨_, rfl⟩
    | exec other =>
      obtain ⟨e', -, same⟩ := Option.map_eq_some_iff.mp taken
      cases same
      exact ⟨_, rfl⟩
    | _ => cases taken
  | globalsFault other p isWrite =>
    left
    simp only [State.effect] at taken
    split at taken <;> (cases taken; exact ⟨_, rfl⟩)
  | commitPage =>
    right
    obtain ⟨⟨other, position, entry⟩, -, taken⟩ := Option.bind_eq_some_iff.mp taken
    obtain ⟨-, same⟩ := Option.ite_none_right_eq_some.mp taken
    cases same
    exact ⟨_, rfl⟩
  | updateAll other =>
    left
    cases taken
    exact ⟨_, rfl⟩
  | _ => cases taken

/-- A page that may fault is not marked as written by its owner. -/
theorem Tracks.ne_readWrite {history : List Event} {access : PageAccess} {isWrite : Bool}
    (tracks : Tracks p history access) (permitted : Permitted history isWrite) :
    access ≠ .readWrite := by
  have heap : true = false → p.region = .heap := nofun
  cases isWrite with
  | true => exact ((valid_iff tracks heap).mpr permitted).1
  | false =>
    obtain rfl : history = [] := permitted
    have writes : Permitted [] true := nofun
    exact ((valid_iff tracks heap).mpr writes).1

theorem FaultInv.ne_readWrite (inv : FaultInv s) (orderly : Orderly s label) {isWrite : Bool}
    (faults : s.faulting label = some (me, p, isWrite)) :
    (s.memory.process me).pageInfo p ≠ .readWrite :=
  (inv.tracks me p).ne_readWrite (orderly.faults _ faults)

theorem handled_ne_protect {isWrite : Bool} (valid : (m.process me).pageInfo p ≠ .readWrite)
    (r : PageId) : handled m me p isWrite ≠ .protect r := by
  unfold handled
  rw [if_neg valid]
  split <;> nofun

theorem handledDirect_ne_protect {isWrite : Bool} (valid : (m.process me).pageInfo p ≠ .readWrite)
    (r : PageId) : handledDirect m me p isWrite ≠ .protect r := by
  unfold handledDirect
  split
  · nofun
  · exact handled_ne_protect valid r

theorem called_eq_protect {call : CommitCall} (closes : called call = some (.protect p)) :
    call.pos = .protect ∧ p = call.page := by
  unfold called at closes
  split at closes
  · next at_ =>
    cases closes
    exact ⟨at_, rfl⟩
  · cases closes
  · cases closes

/-- Pages of the heap are closed only. -/
theorem FaultInv.protects (inv : FaultInv s) (orderly : Orderly s label)
    (taken : s.effect label = some (me, .protect p)) : p.region = .heap := by
  cases label with
  | handoff label =>
    cases label with
    | malloc other pages =>
      -- A block is opened, not closed.
      obtain ⟨-, same⟩ := Option.ite_none_right_eq_some.mp taken
      cases same
    -- The handlers of faults give access; they take none away.
    | fault other r isWrite =>
      have valid : (s.memory.process other).pageInfo r ≠ .readWrite :=
        inv.ne_readWrite orderly rfl
      simp only [State.effect] at taken
      split at taken
      · exact absurd (Prod.mk.inj (Option.some.inj taken)).2 (handledDirect_ne_protect valid p)
      · obtain ⟨-, taken⟩ := Option.ite_none_left_eq_some.mp taken
        exact absurd (Prod.mk.inj (Option.some.inj taken)).2 (handled_ne_protect valid p)
    | exec other =>
      obtain ⟨e, taken, same⟩ := Option.map_eq_some_iff.mp taken
      obtain ⟨rfl, rfl⟩ := Prod.mk.inj same
      unfold State.execEffect at taken
      cases handler : (s.control other).handler with
      -- What closes a page is a call of `commitOwnedPage`, and that is on a page of the heap.
      | some call =>
        simp only [handler] at taken
        obtain ⟨-, taken⟩ := Option.ite_none_left_eq_some.mp taken
        obtain ⟨-, rfl⟩ := called_eq_protect taken
        exact (inv.known other _ (.inr (.inr (.inr ⟨call, handler, rfl⟩)))).1
      | none =>
        cases task : (s.control other).task with
        | user | finalcommit release pages =>
          simp [handler, task] at taken
        | commit call pages =>
          simp only [handler, task] at taken
          split at taken
          · cases taken
          · obtain ⟨-, rfl⟩ := called_eq_protect taken
            refine (inv.known other _ (.inr (.inr (.inl ?_)))).1
            rw [task]
            exact List.mem_cons_self
        | notify isWrite r pos =>
          simp only [handler, task] at taken
          cases pos with
          | share owner failed share => cases share <;> cases taken
          | done => cases isWrite <;> cases taken
          | _ => cases taken
    | _ => cases taken
  | globalsFault other r isWrite =>
    have valid : (s.memory.process other).pageInfo r ≠ .readWrite := inv.ne_readWrite orderly rfl
    simp only [State.effect] at taken
    split at taken
    · exact absurd (Prod.mk.inj (Option.some.inj taken)).2 (handledDirect_ne_protect valid p)
    · exact absurd (Prod.mk.inj (Option.some.inj taken)).2 (handled_ne_protect valid p)
  | commitPage =>
    obtain ⟨⟨other, position, entry⟩, -, shares⟩ := Option.bind_eq_some_iff.mp taken
    obtain ⟨-, same⟩ := Option.ite_none_right_eq_some.mp shares
    cases same
  | _ => cases taken

/-- The access is made possible by the step, or it was before and stays so. -/
theorem FaultInv.reopens (inv : FaultInv s) (orderly : Orderly s label) {isWrite : Bool}
    (again : s.retries label = some (me, some (p, isWrite))) :
    (∃ e, s.effect label = some (me, e) ∧ e.Opens p isWrite) ∨
      s.retrying me = some (p, isWrite) ∧
        ∀ e, s.effect label = some (me, e) → ∀ before, e.protection before p = before p := by
  cases label with
  | handoff label =>
    cases label with
    | fault other r access =>
      -- A fault on `p` is followed by the access that faulted, and its handler has opened `p`.
      left
      have valid : (s.memory.process other).pageInfo r ≠ .readWrite :=
        inv.ne_readWrite orderly rfl
      obtain ⟨rfl, next⟩ := Prod.mk.inj (Option.some.inj again)
      obtain ⟨opens, same⟩ := Option.ite_none_left_eq_some.mp next
      cases same
      by_cases alone : s.alone = none
      · refine ⟨handled s.memory other p isWrite, ?_, opens_handled valid⟩
        simp only [State.effect, alone, ne_eq, not_true_eq_false, if_false]
        exact if_neg fun unused => opens ⟨alone, unused⟩
      · exact ⟨handledDirect s.memory other p isWrite, if_pos alone, opens_handledDirect valid⟩
    | exec other =>
      obtain ⟨rfl, next⟩ := Prod.mk.inj (Option.some.inj again)
      unfold State.execRetries at next
      simp only [State.effect, State.execEffect]
      cases handler : (s.control other).handler with
      -- A signal interrupts the access: it must not close the page that the access needs.
      | some call =>
        simp only [handler] at next ⊢
        refine .inr ⟨next, fun e taken before => ?_⟩
        obtain ⟨e', taken, same⟩ := Option.map_eq_some_iff.mp taken
        cases same
        obtain ⟨-, taken⟩ := Option.ite_none_left_eq_some.mp taken
        unfold called at taken
        split at taken
        · next at_ =>
          cases taken
          have revokes : s.revokes (.handoff (.exec other)) = some (other, call.page) := by
            simp only [State.revokes, handler, Option.bind_some, at_, if_true]
          have different : p ≠ call.page := by
            rintro rfl
            exact orderly.signals _ revokes isWrite next
          exact Function.update_of_ne different _ _
        · cases taken
          rfl
        · cases taken
      | none =>
        left
        cases task : (s.control other).task with
        | user | finalcommit release pages => simp [handler, task] at next
        -- The copy of `commitOwnedPage` has faulted on its page, and the page is readable now.
        | commit call pages =>
          simp only [handler, task] at next ⊢
          obtain ⟨faults, same⟩ := Option.ite_none_right_eq_some.mp next
          cases same
          simp only [if_pos faults]
          exact ⟨_, rfl, fun before => Function.update_self ..⟩
        | notify access r pos =>
          simp only [handler, task] at next ⊢
          cases pos with
          | done =>
            cases next
            exact ⟨_, rfl, opens_notified⟩
          | _ => cases next
    | malloc | store | finalcommit | exit =>
      cases again
    | deliver => cases again
  | globalsFault other r access =>
    left
    have valid : (s.memory.process other).pageInfo r ≠ .readWrite := inv.ne_readWrite orderly rfl
    cases again
    by_cases alone : s.alone = none
    · refine ⟨handled s.memory me p isWrite, ?_, opens_handled valid⟩
      simp only [State.effect, alone, ne_eq, not_true_eq_false, if_false]
    · exact ⟨handledDirect s.memory me p isWrite, if_pos alone, opens_handledDirect valid⟩
  | _ => cases again

/-- An access that is possible stays so if the step does not touch its page. -/
theorem FaultInv.stays (inv : FaultInv s) {isWrite : Bool}
    (before : s.retrying me = some (p, isWrite))
    (changes : Changes s.memory t.memory (s.effect label))
    (apart : ∀ e, s.effect label = some (me, e) → ∀ before, e.protection before p = before p) :
    ¬t.Denied me p isWrite := by
  have same : (t.memory.process me).protection p = (s.memory.process me).protection p := by
    match taken : s.effect label with
    | none =>
      rw [taken] at changes
      exact congrFun (changes me).2 p
    | some (other, e) =>
      rw [taken] at changes
      by_cases mine : me = other
      · subst mine
        rw [changes.1.2]
        exact apart e taken _
      · exact congrFun (changes.2 me mine).2 p
  unfold Handoff.State.Denied
  rw [same]
  exact inv.retry me p isWrite before

/-- **Step lemma.** -/
theorem FaultInv.step (inv : FaultInv s) (orderly : Orderly s label)
    (stepped : FaultHandlers.step s label = some s') : FaultInv s' := by
  obtain ⟨t, moved, rfl⟩ := Option.map_eq_some_iff.mp stepped
  have changes := below_changes moved
  refine ⟨below_known inv.known moved, fun me p => ?_, fun me p globals => ?_,
    fun me p isWrite again => ?_⟩
  · show Tracks p (Option.elim (s.effect label) s.history _ me p) ((t.memory.process me).pageInfo p)
    match taken : s.effect label with
    | none =>
      rw [taken] at changes
      rw [(changes me).1]
      exact inv.tracks me p
    | some (other, e) =>
      rw [taken] at changes
      show Tracks p (Function.update s.history other (e.history (s.history other)) me p) _
      by_cases mine : me = other
      · subst mine
        rw [changes.1.1, Function.update_self]
        exact tracks_effect (inv.tracks me) e p
      · rw [(changes.2 me mine).1, Function.update_of_ne mine]
        exact inv.tracks me p
  · show (t.memory.process me).protection p ≠ .none
    match taken : s.effect label with
    | none =>
      rw [taken] at changes
      rw [(changes me).2]
      exact inv.globals me p globals
    | some (other, e) =>
      rw [taken] at changes
      by_cases mine : me = other
      · subst mine
        rw [changes.1.2]
        refine globals_effect (inv.globals me p) (fun r closes => ?_) globals
        exact inv.protects orderly (closes ▸ taken)
      · rw [(changes.2 me mine).2]
        exact inv.globals me p globals
  · show ¬t.Denied me p isWrite
    have again : Option.elim (s.retries label) s.retrying
      (fun at_ => Function.update s.retrying at_.1 at_.2) me = some (p, isWrite) := again
    -- a process whose code does not go on is not affected
    have others : (∀ retry, s.retries label ≠ some (me, retry)) →
        s.retrying me = some (p, isWrite) → ¬t.Denied me p isWrite := by
      intro elsewhere before
      refine inv.stays before changes fun e taken before => ?_
      rcases retries_of_effect taken with ⟨retry, mine⟩ | ⟨r, rfl⟩
      · exact absurd mine (elsewhere retry)
      · rfl
    match goes : s.retries label with
    | none =>
      rw [goes] at again
      exact others (fun retry mine => by cases goes.symm.trans mine) again
    | some (other, retry) =>
      rw [goes] at again
      by_cases mine : me = other
      · subst mine
        obtain rfl : retry = some (p, isWrite) := by
          simpa only [Option.elim_some, Function.update_self] using again
        rcases inv.reopens orderly goes with ⟨e, taken, opens⟩ | ⟨before, apart⟩
        · rw [taken] at changes
          exact opens.not_denied changes.1.2
        · exact inv.stays before changes apart
      · refine others (fun retry here => ?_) ?_
        · cases goes.symm.trans here
          exact mine rfl
        · simpa only [Option.elim_some, Function.update_of_ne mine] using again

theorem initial_faultInv (content : PageId → Page) (allocated : ℕ) (alone : Option ℕ) :
    FaultInv (initial content allocated alone) where
  known := (initial_unclaimed content allocated).known
  tracks me p := by
    show Tracks p [] ((PageSystem.initialProcess allocated).pageInfo p)
    obtain ⟨region, pageNo⟩ := p
    cases region with
    | globals => rfl
    | heap =>
      show (if pageNo < allocated then PageAccess.none else .unused) = .none ∨
        (if pageNo < allocated then PageAccess.none else .unused) = .unused
      split
      · exact .inl rfl
      · exact .inr rfl
  globals me p globals := by
    show p.region.protection ≠ .none
    rw [globals]
    nofun
  retry _ _ _ none := by cases none

/-! ## When faults are resolved -/

/-- A fault comes from an access that is forbidden. -/
theorem denied_of_fault (moved : below s label = some t) {isWrite : Bool}
    (faults : s.faulting label = some (me, p, isWrite)) : s.Denied me p isWrite := by
  unfold below at moved
  cases label with
  | handoff label =>
    cases label with
    | fault other r access =>
      cases faults
      -- Alone or not, the guard of the step says that the access is denied.
      cases alone : s.alone with
      | some me =>
        rw [alone] at moved
        obtain ⟨⟨rfl, -, -, denied, -⟩, -⟩ := guarded moved
        exact denied
      | none =>
        rw [alone] at moved
        obtain ⟨-, moved⟩ := Option.ite_none_right_eq_some.mp moved
        obtain ⟨u, enabled, -⟩ := Option.map_eq_some_iff.mp moved
        exact (guarded enabled).1.2.2
    | exec other =>
      unfold State.faulting at faults
      cases handler : (s.control other).handler with
      | some call => simp [handler] at faults
      | none =>
        cases task : (s.control other).task with
        | commit call pages =>
          simp only [handler, task] at faults
          obtain ⟨copies, same⟩ := Option.ite_none_right_eq_some.mp faults
          cases same
          exact .inl copies.2
        | _ => simp [handler, task] at faults
    | _ => cases faults
  | globalsFault other r access =>
    cases faults
    cases alone : s.alone with
    | some me =>
      rw [alone] at moved
      obtain ⟨⟨rfl, -, -, denied, -⟩, -⟩ := guarded moved
      exact denied
    | none =>
      rw [alone] at moved
      exact (guarded moved).1.2.2
  | _ => cases faults

/-- The handler of SIGUSR1 closes a page under an access that is to be made again. -/
theorem effect_of_revokes (revokes : s.revokes label = some (me, p)) :
    s.effect label = some (me, .protect p) ∧ s.retries label = some (me, s.retrying me) := by
  unfold State.revokes at revokes
  split at revokes
  · obtain ⟨call, handler, revokes⟩ := Option.bind_eq_some_iff.mp revokes
    obtain ⟨at_, same⟩ := Option.ite_none_right_eq_some.mp revokes
    cases same
    have reads : ¬s.Faults me call := fun faults => by cases at_.symm.trans faults.1
    have closes : called call = some (.protect call.page) := by
      simp only [called, at_]
    refine ⟨?_, ?_⟩
    · simp only [State.effect, State.execEffect, handler, if_neg reads, closes]
      rfl
    · simp only [State.retries, State.execRetries, handler]
  · cases revokes

/-- **One step.** -/
theorem FaultInv.resolves_iff (inv : FaultInv s) (stepped : FaultHandlers.step s label = some s') :
    Resolves s label ↔ Orderly s label := by
  obtain ⟨t, moved, rfl⟩ := Option.map_eq_some_iff.mp stepped
  -- Pages of the globals can be read by all, so a read fault is on a page of the heap.
  have heap : ∀ me p isWrite, s.faulting label = some (me, p, isWrite) → isWrite = false →
      p.region = .heap := by
    rintro me p isWrite faults rfl
    have denied := denied_of_fault moved faults
    cases region : p.region with
    | heap => rfl
    | globals =>
      refine absurd denied fun forbidden => ?_
      rcases forbidden with none | ⟨write, -⟩
      · exact inv.globals me p region none
      · cases write
  constructor
  · intro resolves
    constructor
    · rintro ⟨me, p, isWrite⟩ faults
      exact (valid_iff (inv.tracks me p) (heap me p isWrite faults)).mp
        (resolves.valid me p isWrite faults)
    · -- A page that is closed while somebody is about to use it: the access is denied again.
      rintro ⟨me, p⟩ revokes isWrite again
      obtain ⟨closes, still⟩ := effect_of_revokes revokes
      have changes := below_changes moved
      rw [closes] at changes
      refine resolves.opened _ stepped me p isWrite ?_ (.inl ?_)
      · show Option.elim (s.retries label) s.retrying
          (fun at_ => Function.update s.retrying at_.1 at_.2) me = some (p, isWrite)
        rw [still]
        exact (Function.update_self ..).trans again
      · show (t.memory.process me).protection p = .none
        rw [changes.1.2]
        exact Function.update_self ..
  · intro orderly
    refine ⟨fun me p isWrite faults => ?_, fun me p isWrite before faults again => ?_,
      fun s' stepped => ?_⟩
    · exact (valid_iff (inv.tracks me p) (heap me p isWrite faults)).mpr (orderly.faults _ faults)
    · -- The access was possible, so it cannot fault again; only a read may come back as a write.
      have denied : s.Denied me p isWrite := denied_of_fault moved faults
      have possible : ¬s.Denied me p before := inv.retry me p before again
      cases before with
      | true =>
        refine absurd ?_ possible
        rcases denied with none | ⟨-, read⟩
        · exact .inl none
        · exact .inr ⟨rfl, read⟩
      | false =>
        refine ⟨rfl, ?_⟩
        cases isWrite with
        | true => rfl
        | false => exact absurd denied possible
    · exact (inv.step orderly stepped).retry

/-- **Faults are resolved.** In a run, with copy-on-write or without, every fault handler has a
case for its access and leaves the page open until the access is made again, just when all faults
are permitted by the histories, and no handler of SIGUSR1 closes a page under such an access. -/
theorem resolves_iff_orderly (content : PageId → Page) (allocated : ℕ) (alone : Option ℕ)
    {labels : List Label}
    (execution : system.run (initial content allocated alone) labels = some s) :
    system.Complies Resolves (initial content allocated alone) labels ↔
      system.Complies Orderly (initial content allocated alone) labels :=
  System.complies_congr_of_run (fun _ _ _ inv stepped => inv.resolves_iff stepped)
    (fun _ _ _ inv orderly stepped => inv.step orderly stepped)
    (initial_faultInv content allocated alone) execution

/-- A test for the condition. -/
def orderly (s : State) (label : Label) : Bool :=
  (s.faulting label).all (fun fault => Permitted (s.history fault.1 fault.2.1) fault.2.2) &&
    (s.revokes label).all fun target => ((s.retrying target.1).map Prod.fst) ≠ some target.2

theorem orderly_sound (passes : orderly s label = true) : Orderly s label := by
  simp only [orderly, Bool.and_eq_true, Option.all_eq_true, decide_eq_true_eq] at passes
  obtain ⟨faults, signals⟩ := passes
  refine ⟨faults, fun target revokes isWrite again => signals target revokes ?_⟩
  rw [again]
  rfl

/-- Process 2 reads a page that its owner, process 1, has written, and writes to it. -/
theorem resolves_handoff : ∃ labels s, system.run (initial (fun _ _ => 0) 0 none) labels = some s ∧
    s.retrying 2 = some (heapPage 0, true) ∧
      system.Complies Resolves (initial (fun _ _ => 0) 0 none) labels := by
  let labels : List Label := [.handoff (.malloc 1 1), .handoff (.fault 1 (heapPage 0) true),
    .handoff (.store 1 (heapPage 0) 0 7), .handoff (.fault 2 (heapPage 0) false),
    .handoff (.exec 2), .handoff (.exec 2), .handoff (.exec 2), .handoff (.deliver 1),
    .handoff (.exec 1), .handoff (.exec 1), .handoff (.exec 1), .handoff (.exec 1),
    .handoff (.exec 1), .handoff (.exec 1), .handoff (.exec 1), .handoff (.exec 1),
    .handoff (.exec 2), .handoff (.exec 2), .handoff (.fault 2 (heapPage 0) true)]
  have run : (system.runIf orderly (initial (fun _ _ => 0) 0 none) labels).any fun s =>
      s.retrying 2 = some (heapPage 0, true) := by decide +kernel
  obtain ⟨s, execution, facts⟩ := (Option.any_eq_true _ _).mp run
  obtain ⟨complies, execution⟩ := System.complies_of_runIf (fun _ _ => orderly_sound) execution
  exact ⟨_, s, execution, of_decide_eq_true facts,
    (resolves_iff_orderly (fun _ _ => 0) 0 none execution).mpr complies⟩

/-- A page that has been read, written, committed and refreshed is read again. -/
theorem not_resolves_refreshed : ¬ ∀ content allocated alone labels s,
    system.run (initial content allocated alone) labels = some s →
      system.Complies Resolves (initial content allocated alone) labels := by
  intro resolves
  let labels : List Label := [.handoff (.fault 1 (heapPage 0) false),
    .handoff (.fault 1 (heapPage 0) true), .checkandcommit 1, .commitPage, .commitPage,
    .updateAll 1]
  have run : (system.run (initial (fun _ _ => 0) 1 none) labels).any fun s =>
      (s.memory.process 1).pageInfo (heapPage 0) = .read ∧
        (system.step s (.handoff (.fault 1 (heapPage 0) false))).isSome := by decide +kernel
  obtain ⟨s, execution, facts⟩ := (Option.any_eq_true _ _).mp run
  obtain ⟨read, enabled⟩ := of_decide_eq_true facts
  obtain ⟨s', stepped⟩ := Option.isSome_iff_exists.mp enabled
  have whole : system.run (initial (fun _ _ => 0) 1 none)
      (labels ++ [.handoff (.fault 1 (heapPage 0) false)]) = some s' := by
    rw [System.run_append, execution]
    exact (congrArg (Option.bind · some) stepped).trans rfl
  have complies := (resolves _ _ _ _ _ whole).rest execution
  exact (complies.1.valid 1 (heapPage 0) false rfl).2 rfl read

end Tthread.FaultHandlers
