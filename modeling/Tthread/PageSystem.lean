/-
# Processes on shared pages

The processes of a program fault on pages, store to their copies, register
synchronisation objects, commit and refresh. A commit holds off the other commits
but nothing else: it visits one page a step, so that faults and stores of other
processes come between its pages. `CommitAccesses` cuts an iteration into its accesses
to shared data, so that they come inside one as well.
-/

import Tthread.Library.Transition
import Tthread.Xpersist

namespace Tthread

/-! ## Synchronisation objects -/

/-- A mutex, condition variable or barrier: its first word, in a page. -/
structure SyncObject where
  page : PageId
  slot : Fin (pageSize / 8)
  deriving DecidableEq

/-- Byte `k` of a word of a page. -/
def wordByte (slot : Fin (pageSize / 8)) (k : Fin 8) : Fin pageSize :=
  ⟨8 * slot + k, by
    have word : (slot : ℕ) < 512 := slot.isLt
    show 8 * (slot : ℕ) + k < 4096
    omega⟩

def readWord (page : Page) (slot : Fin (pageSize / 8)) : UInt64 :=
  .ofNat (Bytes.word 8 fun k => page (wordByte slot k))

def writeWord (page : Page) (slot : Fin (pageSize / 8)) (value : UInt64) : Page := fun offset =>
  if (offset : ℕ) / 8 = slot then Bytes.byteOf value.toNat (offset % 8) else page offset

theorem writeWord_wordByte (page : Page) (slot : Fin (pageSize / 8)) (value : UInt64) (k : Fin 8) :
    writeWord page slot value (wordByte slot k) = Bytes.byteOf value.toNat k := by
  have word : (8 * (slot : ℕ) + k) / 8 = slot := by omega
  have byte : (8 * (slot : ℕ) + k) % 8 = k := by omega
  simp only [writeWord, wordByte, word, byte, if_true]

theorem writeWord_of_ne (page : Page) {slot other : Fin (pageSize / 8)} (value : UInt64)
    (k : Fin 8) (different : other ≠ slot) :
    writeWord page slot value (wordByte other k) = page (wordByte other k) := by
  have word : (8 * (other : ℕ) + k) / 8 ≠ slot := by
    have : (other : ℕ) ≠ slot := fun same => different (Fin.ext same)
    omega
  simp only [writeWord, wordByte, word, if_false]

theorem readWord_eq {page : Page} {slot : Fin (pageSize / 8)} {value : UInt64}
    (bytes : ∀ k : Fin 8, page (wordByte slot k) = Bytes.byteOf value.toNat k) :
    readWord page slot = value := by
  have laidOut : (fun k => page (wordByte slot k)) = fun k : Fin 8 => Bytes.byteOf value.toNat k :=
    funext bytes
  have fits : value.toNat % 256 ^ 8 = value.toNat := Nat.mod_eq_of_lt value.toNat_lt
  rw [readWord, laidOut, Bytes.word_byteOf, fits, UInt64.ofNat_toNat]

namespace PageSystem

structure State where
  memory : Memory
  /-- the process in `checkandcommit` and the position of its iterator -/
  committing : Option (ℕ × ℕ)
  /-- ghost: the entries of the objects between `setSyncEntry` and `clearSyncEntry` -/
  registered : SyncObject → Option UInt64
  /-- ghost: the shared page when its latest twin was made -/
  twinContent : PageId → Page

inductive Label
  | readFault (me : ℕ) (p : PageId)
  | writeFault (me : ℕ) (p : PageId)
  /-- `notifyOwnerToCommit` for a page that was never owned or whose owner is gone -/
  | takeUnowned (me : ℕ) (p : PageId)
  | store (me : ℕ) (p : PageId) (offset : Fin pageSize) (value : UInt8)
  | setSyncEntry (me : ℕ) (o : SyncObject) (entry : UInt64)
  | clearSyncEntry (me : ℕ) (o : SyncObject)
  | setOwnedPage (me : ℕ) (p : PageId)
  /-- the SIGUSR1 handler, or `finalcommit` -/
  | commitOwnedPage (me : ℕ) (p : PageId) (setShared : Bool)
  | checkandcommit (me : ℕ)
  | commitPage
  | updateAll (me : ℕ)
  /-- `xbitmap::cleanup`, by the last thread to leave a fence or complete a barrier -/
  | cleanup

/-- The process is not inside `checkandcommit`. -/
def State.Outside (s : State) (me : ℕ) : Prop := ∀ position, s.committing ≠ some (me, position)

instance (s : State) (me : ℕ) : Decidable (s.Outside me) :=
  decidable_of_iff (s.committing.map Prod.fst ≠ some me) (by
    unfold State.Outside
    cases s.committing with
    | none => simp
    | some pair => aesop)

/-- A fault on a page that the process has never seen shared waits for its owner. -/
def MayHandle (m : Memory) (me : ℕ) (p : PageId) : Prop :=
  (m.process me).pageInfo p = .unused → m.pageOwner p = .shared

instance (m : Memory) (me : ℕ) (p : PageId) : Decidable (MayHandle m me p) :=
  inferInstanceAs (Decidable (_ → _))

/-- The store of the pointer through the private mapping. -/
def setWord (m : Memory) (me : ℕ) (o : SyncObject) (value : UInt64) : Memory :=
  m.modify me fun q =>
    q.setCopy o.page (writeWord (m.view me o.page) o.slot value) fun offset =>
      (offset : ℕ) / 8 = o.slot

/-- The same store and the one of `mem_write`. -/
def setSyncEntry (m : Memory) (me : ℕ) (o : SyncObject) (entry : UInt64) : Memory :=
  (setWord m me o entry).setPersistent o.page (writeWord (m.persistent o.page) o.slot entry)

/-- Here the second store goes to the address the first one has just cleared, which is
in neither region. -/
def clearSyncEntry (m : Memory) (me : ℕ) (o : SyncObject) : Memory := setWord m me o 0

theorem setWord_dirtiedPagesList {m : Memory} {me other : ℕ} {o : SyncObject} {value : UInt64} :
    ((setWord m me o value).process other).dirtiedPagesList =
      (m.process other).dirtiedPagesList :=
  Memory.modify_dirtiedPagesList fun _ => rfl

/-- One iteration of the loop of `checkandcommit`, uninterrupted. -/
def commitStep (s : State) (me position : ℕ) (entry : Xpageinfo) : State :=
  let p := entry.pageNo
  let result := s.memory.commitPage me entry
  { s with
    memory := result.1.modify me fun q =>
      { q with dirtiedPagesList := q.dirtiedPagesList.set position result.2 }
    committing := some (me, position + 1)
    twinContent :=
      if s.memory.NeedsTwin p then Function.update s.twinContent p (s.memory.persistent p)
      else s.twinContent }

theorem commitStep_memory (s : State) (me position : ℕ) (entry : Xpageinfo) :
    (commitStep s me position entry).memory =
      (s.memory.commitPage me entry).1.modify me fun q =>
        { q with
          dirtiedPagesList := q.dirtiedPagesList.set position (s.memory.commitPage me entry).2 } :=
  rfl

/-- A user more does not reach the index. -/
theorem increment_eq {info : Shareinfo} (room : info.users < 2 ^ 16 - 1)
    (small : info.bitmapIndex < 2 ^ 16) :
    info.increment = ⟨info.users + 1, info.bitmapIndex⟩ := by
  have word : (info.users + 2 ^ 16 * info.bitmapIndex + 1) % 2 ^ 32 =
      info.users + 2 ^ 16 * info.bitmapIndex + 1 := by omega
  simp only [Shareinfo.increment, word, Shareinfo.mk.injEq]
  omega

/-! ## What a commit leaves alone -/

section

variable {m : Memory} {me : ℕ} {p : PageId} {entry : Xpageinfo}

theorem createTwinPage_users (q : PageId) :
    ((m.createTwinPage p).pageUsers q).users = (m.pageUsers q).users := by
  show (Function.update m.pageUsers p _ q).users = _
  by_cases same : q = p
  · subst same
    rw [Function.update_self]
  · rw [Function.update_of_ne same]

theorem withTwin_users (q : PageId) :
    ((m.withTwin p).pageUsers q).users = (m.pageUsers q).users := by
  unfold Memory.withTwin
  split
  · exact createTwinPage_users q
  · rfl

theorem withTwin_persistent : (m.withTwin p).persistent = m.persistent := by
  unfold Memory.withTwin
  split <;> rfl

theorem withTwin_versions : (m.withTwin p).versions = m.versions := by
  unfold Memory.withTwin
  split <;> rfl

theorem withTwin_process : (m.withTwin p).process = m.process := by
  unfold Memory.withTwin
  split <;> rfl

/-- The page that goes out. -/
theorem copyOut_persistent_self :
    (m.copyOut me entry).persistent entry.pageNo =
      if entry.version = m.versions entry.pageNo then m.view me entry.pageNo
      else PageDiffs.writePageDiffs (m.view me entry.pageNo)
        (m.bitmap.page (m.pageUsers entry.pageNo).bitmapIndex) (m.persistent entry.pageNo) := by
  simp only [Memory.copyOut]
  split
  · simp [Memory.setPersistent]
  · simp [Memory.setPersistent]

theorem copyOut_persistent_of_ne (different : p ≠ entry.pageNo) :
    (m.copyOut me entry).persistent p = m.persistent p := by
  simp only [Memory.copyOut]
  split <;> simp [Memory.setPersistent, different]

end

/-! ## Steps -/

def step (s : State) : Label → Option State
  | .readFault me p =>
      if s.Outside me ∧ (s.memory.process me).protection p = .none ∧ MayHandle s.memory me p then
        some { s with memory := s.memory.handleRead me p }
      else none
  | .writeFault me p =>
      if s.Outside me ∧ (s.memory.process me).protection p ≠ .readWrite ∧
          MayHandle s.memory me p then
        some { s with memory := s.memory.handleWrite me p }
      else none
  | .takeUnowned me p =>
      if s.Outside me ∧ (s.memory.process me).pageInfo p = .unused then
        some { s with memory := s.memory.setSharedPage me p }
      else none
  | .store me p offset value =>
      if s.Outside me ∧ (s.memory.process me).protection p = .readWrite then
        some { s with memory := s.memory.store me p offset value }
      else none
  | .setSyncEntry me o entry =>
      if s.Outside me ∧ (s.memory.process me).protection o.page = .readWrite then
        some { s with
          memory := setSyncEntry s.memory me o entry
          registered := Function.update s.registered o (some entry) }
      else none
  | .clearSyncEntry me o =>
      if s.Outside me ∧ (s.memory.process me).protection o.page = .readWrite then
        some { s with
          memory := clearSyncEntry s.memory me o
          registered := Function.update s.registered o none }
      else none
  | .setOwnedPage me p =>
      if s.Outside me ∧ p.region = .heap then
        some { s with memory := s.memory.setOwnedPage me p }
      else none
  | .commitOwnedPage me p setShared =>
      some { s with memory := s.memory.commitOwnedPage me p setShared }
  | .checkandcommit me =>
      if s.committing = none then some { s with committing := some (me, 0) } else none
  | .commitPage =>
      match s.committing with
      | some (me, position) =>
          match (s.memory.process me).dirtiedPagesList[position]? with
          | some entry => some (commitStep s me position entry)
          | none => some { s with committing := none }
      | none => none
  | .updateAll me =>
      if s.Outside me then some { s with memory := s.memory.updateAll me } else none
  | .cleanup =>
      some { s with memory := { s.memory with bitmap := s.memory.bitmap.cleanup } }

/-- A step of a commit visits the page of an entry, or ends the commit. -/
theorem commitPage_cases {s s' : State} (move : step s .commitPage = some s') :
    ∃ me position, s.committing = some (me, position) ∧
      ((s.memory.process me).dirtiedPagesList[position]? = none ∧
          s' = { s with committing := none } ∨
        ∃ entry, (s.memory.process me).dirtiedPagesList[position]? = some entry ∧
          s' = commitStep s me position entry) := by
  simp only [step] at move
  split at move
  · next me position at_ =>
    refine ⟨me, position, at_, ?_⟩
    split at move
    · next entry found => exact .inr ⟨entry, found, (Option.some.inj move).symm⟩
    · next found => exact .inl ⟨found, (Option.some.inj move).symm⟩
  · cases move

/-- After `setCopyOnWrite(true)`: the globals and the first `allocated` pages of the heap
are shared, the rest of the heap can be owned. -/
def initialProcess (allocated : ℕ) : Process where
  dirtiedPagesList := []
  transient _ := none
  pageInfo p :=
    match p.region with
    | .globals => .read
    | .heap => if p.pageNo < allocated then .none else .unused
  protection p := p.region.protection
  written _ _ := false

def initial (content : PageId → Page) (allocated : ℕ) : State where
  memory :=
    { persistent := content
      versions := fun _ => 0
      pageUsers := fun _ => ⟨0, 0⟩
      pageOwner := fun p =>
        if p.region = .heap ∧ allocated ≤ p.pageNo then .unowned else .shared
      bitmap := .initialized
      process := fun _ => initialProcess allocated }
  committing := none
  registered _ := none
  twinContent := content

def system : Transition.System State Label where
  Init s := ∃ content allocated, s = initial content allocated
  step := step

/-- A page of the globals, for runs on fixed inputs. -/
def globalsPage (pageNo : ℕ) : PageId := ⟨.globals, pageNo⟩

end PageSystem

end Tthread
