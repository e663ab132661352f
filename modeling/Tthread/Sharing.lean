/-
# Commits among handoffs

The system of `Handoff`, with its processes and their tables at the start, and with the
transactions of the processes: commits visit the dirty pages one by one, a refresh drops the
private copies, and the storage of twins is cleaned up. Pages of the globals fault as well. The
handler of SIGUSR1 runs on top of a commit as it does on top of the program, and then the commit
waits.
-/

import Tthread.Handoff

namespace Tthread.Sharing

open Handoff PageSystem

structure State extends Handoff.State where
  /-- the process in `checkandcommit` and the position of its iterator -/
  committing : Option (ℕ × ℕ)

inductive Label
  | handoff (label : Handoff.Label)
  | globalsFault (me : ℕ) (p : PageId) (isWrite : Bool)
  | checkandcommit (me : ℕ)
  | commitPage
  | updateAll (me : ℕ)
  /-- `xbitmap::cleanup`, by the last thread to leave a fence or complete a barrier -/
  | cleanup

/-- The process whose program takes this step. -/
def program : Handoff.Label → Option ℕ
  | .malloc me _ | .store me _ _ _ | .fault me _ _ | .finalcommit me _ | .exit me => some me
  | .exec _ | .deliver _ => none

/-- The process is not inside `checkandcommit`. -/
def State.Outside (s : State) (me : ℕ) : Prop := s.committing.map Prod.fst ≠ some me

instance (s : State) (me : ℕ) : Decidable (s.Outside me) := inferInstanceAs (Decidable (_ ≠ _))

/-- The program of the process can take a step. -/
def State.Ready (s : State) (me : ℕ) : Prop := s.InProgram me ∧ s.Outside me

instance (s : State) (me : ℕ) : Decidable (s.Ready me) := inferInstanceAs (Decidable (_ ∧ _))

/-- The entry that the iterator is at. -/
def State.current (s : State) : Option (ℕ × ℕ × Xpageinfo) :=
  s.committing.bind fun (me, position) =>
    (s.memory.process me).dirtiedPagesList[position]?.map fun entry => (me, position, entry)

/-- One iteration of the loop of `checkandcommit`, uninterrupted; `SlowCommits` cuts it into
its accesses to shared data. -/
def State.commitStep (s : State) (me position : ℕ) (entry : Xpageinfo) : State :=
  let result := s.memory.commitPage me entry
  { s with
    memory := result.1.modify me fun q =>
      { q with dirtiedPagesList := q.dirtiedPagesList.set position result.2 }
    committing := some (me, position + 1) }

def State.setMemory (s : State) (m : Memory) : State := { s with memory := m }

def step (s : State) : Label → Option State
  | .handoff label =>
      if ∀ me ∈ program label, s.Outside me then
        (s.toState.step label).map fun t => { s with toState := t }
      else none
  | .globalsFault me p isWrite =>
      if s.Ready me ∧ p.region = .globals ∧ s.Denied me p isWrite then
        some (s.setMemory (handleAccess s.memory me p isWrite))
      else none
  | .checkandcommit me =>
      if s.InProgram me ∧ s.committing = none then some { s with committing := some (me, 0) }
      else none
  | .commitPage =>
      match s.committing with
      | some (me, position) =>
          if s.InProgram me then
            match (s.memory.process me).dirtiedPagesList[position]? with
            | some entry => some (s.commitStep me position entry)
            | none => some { s with committing := none }
          else none
      | none => none
  | .updateAll me => if s.Ready me then some (s.setMemory (s.memory.updateAll me)) else none
  | .cleanup => some (s.setMemory { s.memory with bitmap := s.memory.bitmap.cleanup })

/-- A step of a commit ends it, or visits the page of the entry that the iterator is at. -/
theorem commitPage_cases {s s' : State} (stepped : step s .commitPage = some s') :
    s.current = none ∧ s' = { s with committing := none } ∨
      ∃ me position entry, s.current = some (me, position, entry) ∧
        (s.memory.process me).dirtiedPagesList[position]? = some entry ∧
        s' = s.commitStep me position entry := by
  simp only [step] at stepped
  cases committing : s.committing with
  | none =>
    rw [committing] at stepped
    cases stepped
  | some pair =>
    obtain ⟨me, position⟩ := pair
    rw [committing] at stepped
    obtain ⟨-, stepped⟩ := Option.ite_none_right_eq_some.mp stepped
    simp only [State.current, committing, Option.bind_some]
    cases found : (s.memory.process me).dirtiedPagesList[position]? with
    | none =>
      rw [found] at stepped
      exact .inl ⟨rfl, (Option.some.inj stepped).symm⟩
    | some entry =>
      rw [found] at stepped
      exact .inr ⟨me, position, entry, rfl, found, (Option.some.inj stepped).symm⟩

def initial (content : PageId → Page) (allocated : ℕ) : State where
  toState := Handoff.initial content allocated
  committing := none

def system : Transition.System State Label where
  Init s := ∃ content allocated, s = initial content allocated
  step := step

/-- `checkandcommit` carries the differences to the twin over. -/
def TakesDiffs (m : Memory) (me : ℕ) (entry : Xpageinfo) : Prop :=
  ((m.pageUsers entry.pageNo).users ≠ 1 ∨ m.pageOwner entry.pageNo ≠ .process me) ∧
    entry.version ≠ m.versions entry.pageNo

instance (m : Memory) (me : ℕ) (entry : Xpageinfo) : Decidable (TakesDiffs m me entry) :=
  inferInstanceAs (Decidable (_ ∧ _))

/-! ## What steps do to entries, users, versions and twins -/

variable {m m' m'' : Memory} {me : ℕ} {p : PageId} {t t' : Handoff.State}

/-- The lists, users, versions and twins stay. -/
structure SameBooks (m m' : Memory) : Prop where
  lists : ∀ q, (m'.process q).dirtiedPagesList = (m.process q).dirtiedPagesList
  users : m'.pageUsers = m.pageUsers
  versions : m'.versions = m.versions
  bitmap : m'.bitmap = m.bitmap

theorem SameBooks.refl (m : Memory) : SameBooks m m := ⟨fun _ => rfl, rfl, rfl, rfl⟩

theorem SameBooks.trans (first : SameBooks m m') (second : SameBooks m' m'') : SameBooks m m'' where
  lists q := (second.lists q).trans (first.lists q)
  users := second.users.trans first.users
  versions := second.versions.trans first.versions
  bitmap := second.bitmap.trans first.bitmap

theorem sameBooks_modify {change : Process → Process}
    (same : ∀ q, (change q).dirtiedPagesList = q.dirtiedPagesList) :
    SameBooks m (m.modify me change) :=
  ⟨fun _ => Memory.modify_dirtiedPagesList same, rfl, rfl, rfl⟩

theorem SameBooks.incrementVersion (same : SameBooks m m') :
    SameBooks (m.incrementVersion p) (m'.incrementVersion p) := by
  refine ⟨same.lists, same.users, ?_, same.bitmap⟩
  simp only [Memory.incrementVersion, same.versions]

theorem SameBooks.recordUser (same : SameBooks m m') (content : m'.persistent = m.persistent) :
    SameBooks (m.recordUser me p) (m'.recordUser me p) := by
  have entry : m'.newEntry p = m.newEntry p := by
    simp only [Memory.newEntry, same.versions, content]
  refine ⟨fun q => ?_, ?_, same.versions, same.bitmap⟩
  · by_cases here : q = me
    · subst here
      simp only [Memory.recordUser, Memory.modify, Function.update_self, same.lists, entry]
    · simp only [Memory.recordUser, Memory.modify, Function.update_of_ne here, same.lists]
  · simp only [Memory.recordUser, Memory.modify, same.users]

theorem sameBooks_mprotectReadWrite : SameBooks m (m.mprotectReadWrite me p) := by
  refine sameBooks_modify fun q => ?_
  dsimp only
  split <;> rfl

theorem sameBooks_setOwnedPages (pages : List ℕ) : SameBooks m (setOwnedPages m me pages) := by
  induction pages generalizing m with
  | nil => exact .refl m
  | cons pageNo pages ih =>
    have first : SameBooks m (m.setOwnedPage me (heapPage pageNo)) :=
      ⟨fun _ => Memory.setOwnedPage_dirtiedPagesList, rfl, rfl, rfl⟩
    exact first.trans ih

theorem sameBooks_setSharedPage (pos : SharePos) :
    SameBooks m (Handoff.setSharedPage m me p pos).1 := by
  cases pos with
  | check | exchange => exact ⟨fun _ => rfl, rfl, rfl, rfl⟩
  | record =>
    show SameBooks m (m.modify me fun q => q.setPageInfo p .read)
    exact sameBooks_modify fun _ => rfl

/-- Only the last access of `commitOwnedPage` counts the version up. -/
theorem commitOwnedPage_books (call : CommitCall) :
    SameBooks (if call.pos = .version then m.incrementVersion call.page else m)
      (Handoff.commitOwnedPage m me call).1 := by
  obtain ⟨page, setShared, pos⟩ := call
  cases pos with
  | test =>
    simp only [Handoff.commitOwnedPage]
    cases (m.process me).pageInfo page <;> exact .refl m
  | copy => exact ⟨fun _ => rfl, rfl, rfl, rfl⟩
  | protect =>
    show SameBooks m (m.modify me fun q => q.mprotect page .none)
    exact sameBooks_modify fun _ => rfl
  | release =>
    show SameBooks m (m.modify me fun q => q.dropCopy page)
    exact sameBooks_modify fun _ => rfl
  | share pos => exact sameBooks_setSharedPage pos
  | version => exact .refl _

theorem notifyOwnerToCommit_books (pos : NotifyPos) :
    SameBooks m (Handoff.notifyOwnerToCommit m me p pos).1 := by
  cases pos with
  | enter | signal owner =>
    simp only [Handoff.notifyOwnerToCommit]
    split <;> exact .refl m
  | queue owner => cases owner <;> exact .refl m
  | share owner failed pos => exact sameBooks_setSharedPage pos
  | spin owner i =>
    simp only [Handoff.notifyOwnerToCommit]
    split
    · exact .refl m
    · split <;> exact .refl m
  | done => exact .refl m

/-- The page for which the step of `handleWrite` makes an entry. -/
def Records (m : Memory) (me : ℕ) (p : PageId) (isWrite : Bool) : Prop :=
  isWrite = true ∧ m.pageOwner p ≠ .process me

instance (m : Memory) (me : ℕ) (p : PageId) (isWrite : Bool) :
    Decidable (Records m me p isWrite) := inferInstanceAs (Decidable (_ ∧ _))

def recorded (m : Memory) (me : ℕ) (p : PageId) (isWrite : Bool) : Memory :=
  if Records m me p isWrite then m.recordUser me p else m

theorem afterNotify_books {isWrite : Bool} :
    SameBooks (recorded m me p isWrite) (afterNotify m me p isWrite) := by
  cases isWrite with
  | false =>
    show SameBooks m (m.modify me fun q => q.mprotectRead p)
    exact sameBooks_modify fun _ => rfl
  | true =>
    have opened : SameBooks m (m.mprotectReadWrite me p) := sameBooks_mprotectReadWrite
    simp only [afterNotify, recorded, Records, true_and, if_true]
    have owner : (m.mprotectReadWrite me p).pageOwner = m.pageOwner := rfl
    rw [owner]
    by_cases mine : m.pageOwner p = .process me
    · rw [if_pos mine, if_neg (fun other => other mine)]
      exact opened
    · rw [if_neg mine, if_pos mine]
      exact opened.recordUser rfl

/-- The handler for a page that the process has written as its owner counts the version up. -/
def Bumps (m : Memory) (me : ℕ) (p : PageId) (isWrite : Bool) : Prop :=
  isWrite = true ∧ (m.process me).pageInfo p = .readWrite

instance (m : Memory) (me : ℕ) (p : PageId) (isWrite : Bool) : Decidable (Bumps m me p isWrite) :=
  inferInstanceAs (Decidable (_ ∧ _))

theorem openPage_books : SameBooks
    (if (m.process me).pageInfo p = .readWrite then m.incrementVersion p else m)
    (m.openPage me p) := by
  have opened : SameBooks m (m.mprotectReadWrite me p) := sameBooks_mprotectReadWrite
  have commits : ∀ m : Memory, SameBooks (m.incrementVersion p) (m.commitOwnedPage me p false) := by
    intro m
    refine ⟨fun q => Memory.commitOwnedPage_dirtiedPagesList, Memory.commitOwnedPage_pageUsers, ?_,
      Memory.commitOwnedPage_bitmap⟩
    simp only [Memory.commitOwnedPage, Bool.false_eq_true, if_false]
    cases (m.process me).pageInfo p <;> rfl
  unfold Memory.openPage
  cases (m.process me).pageInfo p with
  | readWrite => exact opened.incrementVersion.trans (commits _)
  | _ => exact opened

/-- The handler, with what it does to the version in front of what it does to the entries. -/
theorem handleAccess_books {isWrite : Bool} : ∃ m₁,
    SameBooks (if Bumps m me p isWrite then m.incrementVersion p else m) m₁ ∧
      m₁.pageOwner = m.pageOwner ∧
      SameBooks (recorded m₁ me p isWrite) (handleAccess m me p isWrite) := by
  cases isWrite with
  | false =>
    refine ⟨m, .refl m, rfl, ?_⟩
    show SameBooks m (m.modify me fun q => q.mprotectRead p)
    exact sameBooks_modify fun _ => rfl
  | true =>
    refine ⟨m.openPage me p, ?_, Memory.openPage_pageOwner, ?_⟩
    · simp only [Bumps, true_and]
      exact openPage_books
    · simp only [recorded, Records, true_and]
      show SameBooks _ (m.handleWrite me p)
      simp only [Memory.handleWrite]
      by_cases mine : (m.openPage me p).pageOwner p = .process me
      · rw [if_pos mine, if_neg (fun other => other mine)]
        exact .refl _
      · rw [if_neg mine, if_pos mine]
        exact .refl _

/-- The bookkeeping after the next access of a process outside its program. -/
def booksAfter (t : Handoff.State) (me : ℕ) : Memory :=
  match (t.control me).handler, (t.control me).task with
  | some call, _ | none, .commit call _ =>
      if call.pos = .version then t.memory.incrementVersion call.page else t.memory
  | none, .notify isWrite p .done => recorded t.memory me p isWrite
  | none, _ => t.memory

theorem sigqueue_memory {target : Option ℕ} : (t.sigqueue p target).memory = t.memory := by
  cases target <;> rfl

theorem exec_books (moved : t.exec me = some t') : SameBooks (booksAfter t me) t'.memory := by
  -- A call that faults is at its copy, so it counts no version up.
  have copies : ∀ call : CommitCall, t.Faults me call → SameBooks
      (if call.pos = .version then t.memory.incrementVersion call.page else t.memory) t.memory := by
    rintro call ⟨at_, -⟩
    rw [if_neg (by rw [at_]; nofun)]
    exact .refl _
  rw [State.exec] at moved
  split at moved
  · cases moved
  · unfold booksAfter
    cases handler : (t.control me).handler with
    | some call =>
      rw [handler] at moved
      obtain rfl := Option.some.inj moved
      by_cases faults : t.Faults me call
      · rw [State.handlerAccess, if_pos faults]
        exact copies call faults
      · rw [State.handlerAccess, if_neg faults]
        exact commitOwnedPage_books call
    | none =>
      rw [handler] at moved
      cases task : (t.control me).task with
      | user =>
        rw [task] at moved
        cases moved
      | finalcommit release pages =>
        rw [task] at moved
        cases pages <;> (obtain rfl := Option.some.inj moved; exact .refl _)
      | commit call pages =>
        rw [task] at moved
        simp only [State.taskAccess] at moved
        split at moved
        · next faults =>
          obtain rfl := Option.some.inj moved
          have read : SameBooks t.memory (t.memory.handleRead me call.page) := by
            show SameBooks t.memory (t.memory.modify me fun q => q.mprotectRead call.page)
            exact sameBooks_modify fun _ => rfl
          exact (copies call faults).trans read
        · obtain rfl := Option.some.inj moved
          exact commitOwnedPage_books call
      | notify isWrite p pos =>
        rw [task] at moved
        obtain rfl := Option.some.inj moved
        by_cases returns : pos = .done
        · subst returns
          exact afterNotify_books
        · -- While it waits for the owner it makes no entry; `done` is the case above.
          rw [State.notifyAccess, if_neg returns, sigqueue_memory]
          have books : SameBooks t.memory (Handoff.notifyOwnerToCommit t.memory me p pos).1 :=
            notifyOwnerToCommit_books pos
          cases pos with
          | done => exact absurd rfl returns
          | _ => exact books

end Tthread.Sharing
