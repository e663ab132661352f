/-
# Pages shared by copies

`xpersist` gives every process a private copy of each page it writes. A write
fault enters the page in the list of dirty pages together with the version it had;
`checkandcommit` carries the copies over to the shared mapping, and `updateAll`
drops them. Both regions, the heap and the globals, use one `xbitmap` for twins.

The functions here are those of `xpersist`, for a process `me`. Fields marked as
ghost are read by no function.
-/

import Mathlib.Data.List.Sort
import Mathlib.Logic.Function.Basic
import Tthread.Xbitmap

namespace Tthread

/-- The two instances of `xpersist`. -/
inductive Region
  | heap
  | globals
  deriving DecidableEq

/-- A page: the region and the number within it. -/
structure PageId where
  region : Region
  pageNo : ℕ
  deriving DecidableEq

/-- The page behind a page. -/
def PageId.next (p : PageId) : PageId := { p with pageNo := p.pageNo + 1 }

/-- The order in which `xmemory::commit` visits pages: the heap first. -/
def PageId.Before (p q : PageId) : Prop :=
  match p.region, q.region with
  | .heap, .globals => True
  | .globals, .heap => False
  | _, _ => p.pageNo < q.pageNo

instance : DecidableRel PageId.Before := fun p q => by
  unfold PageId.Before
  split <;> infer_instance

/-- `page_access_info` -/
inductive PageAccess
  | none
  | read
  | readWrite
  | unused
  deriving DecidableEq

/-- What `mprotect` last set. -/
inductive Protection
  | none
  | read
  | readWrite
  deriving DecidableEq

/-- What `updatePage` resets a page to: `PROT_NONE` for the heap, `PROT_READ` for the globals. -/
def Region.protection : Region → Protection
  | .heap => .none
  | .globals => .read

/-- An entry of `_pageOwner`: 0, a process or `SHARED_PAGE`. -/
inductive Owner
  | unowned
  | process (pid : ℕ)
  | shared
  deriving DecidableEq

/-- Two unsigned shorts, next to each other. -/
structure Shareinfo where
  users : ℕ
  bitmapIndex : ℕ

/-- `xatomic::increment` of both at once: `incl` acts on 32 bits. -/
def Shareinfo.increment (info : Shareinfo) : Shareinfo :=
  let word := (info.users + 2 ^ 16 * info.bitmapIndex + 1) % 2 ^ 32
  ⟨word % 2 ^ 16, word / 2 ^ 16⟩

/-- One user less; the last one also gives the twin back. -/
def Shareinfo.release (info : Shareinfo) : Shareinfo where
  users := (info.users + (2 ^ 16 - 1)) % 2 ^ 16
  bitmapIndex := if info.users = 1 then 0 else info.bitmapIndex

/-- An entry of the list of dirty pages. -/
structure Xpageinfo where
  pageNo : PageId
  /-- an `unsigned int` -/
  version : ℕ
  release : Bool
  /-- ghost: `checkandcommit` has carried the page over since the entry was made -/
  committed : Bool
  /-- ghost: the shared page when the entry was made -/
  snapshot : Page

/-- The private part of a process. -/
structure Process where
  /-- the heap's multimap, then the one of the globals -/
  dirtiedPagesList : List Xpageinfo
  /-- private copies; a page without one shows the shared mapping -/
  transient : PageId → Option Page
  pageInfo : PageId → PageAccess
  protection : PageId → Protection
  /-- ghost: bytes stored since the last write fault on the page -/
  written : PageId → Fin pageSize → Bool

structure Memory where
  persistent : PageId → Page
  versions : PageId → ℕ
  pageUsers : PageId → Shareinfo
  pageOwner : PageId → Owner
  bitmap : Xbitmap
  process : ℕ → Process

namespace Process

def setPageInfo (q : Process) (p : PageId) (access : PageAccess) : Process :=
  { q with pageInfo := Function.update q.pageInfo p access }

def mprotect (q : Process) (p : PageId) (protection : Protection) : Process :=
  { q with protection := Function.update q.protection p protection }

/-- `madvise(MADV_DONTNEED)` -/
def dropCopy (q : Process) (p : PageId) : Process :=
  { q with transient := Function.update q.transient p none }

/-- The private copy with some bytes stored. -/
def setCopy (q : Process) (p : PageId) (content : Page) (stored : Fin pageSize → Bool) : Process :=
  { q with
    transient := Function.update q.transient p (some content)
    written := Function.update q.written p fun offset => stored offset || q.written p offset }

def mprotectRead (q : Process) (p : PageId) : Process := (q.setPageInfo p .read).mprotect p .read

def updatePage (q : Process) (entry : Xpageinfo) : Process :=
  let q := if entry.release then q.dropCopy entry.pageNo else q
  q.mprotect entry.pageNo entry.pageNo.region.protection

def updateAll (q : Process) : Process :=
  { q.dirtiedPagesList.foldl updatePage q with dirtiedPagesList := [] }

end Process

namespace Memory

/-- A change of the private part of one process. -/
def modify (m : Memory) (me : ℕ) (change : Process → Process) : Memory :=
  { m with process := Function.update m.process me (change (m.process me)) }

def setPersistent (m : Memory) (p : PageId) (content : Page) : Memory :=
  { m with persistent := Function.update m.persistent p content }

/-- The page as the process reads it. -/
def view (m : Memory) (me : ℕ) (p : PageId) : Page :=
  ((m.process me).transient p).getD (m.persistent p)

def incrementVersion (m : Memory) (p : PageId) : Memory :=
  { m with versions := Function.update m.versions p ((m.versions p + 1) % 2 ^ 64) }

/-- A store of the program. The first one to a page without a private copy makes it. -/
def store (m : Memory) (me : ℕ) (p : PageId) (offset : Fin pageSize) (value : UInt8) : Memory :=
  m.modify me fun q =>
    q.setCopy p (Function.update (m.view me p) offset value) fun other => other = offset

/-! ## Ownership -/

/-- The exchange writes 8 bytes into an array of `int`. -/
def setSharedPage (m : Memory) (me : ℕ) (p : PageId) : Memory :=
  if m.pageOwner p ≠ .shared then
    { m with
      pageOwner := Function.update (Function.update m.pageOwner p.next .unowned) p .shared
    }.modify me fun q => q.setPageInfo p .read
  else m

/-- For one page of the block. -/
def setOwnedPage (m : Memory) (me : ℕ) (p : PageId) : Memory :=
  { m with pageOwner := Function.update m.pageOwner p (.process me) }.modify me fun q =>
    (q.mprotect p .none).setPageInfo p .none

def commitOwnedPage (m : Memory) (me : ℕ) (p : PageId) (setShared : Bool) : Memory :=
  let m := match (m.process me).pageInfo p with
    | .none | .read => m
    | .readWrite | .unused => (m.setPersistent p (m.view me p)).modify me fun q =>
        q.mprotect p .none
  let m := if setShared then (m.setSharedPage me p).modify me fun q => q.dropCopy p else m
  m.incrementVersion p

/-! ## Faults -/

/-- The handler for a page that `notifyOwnerToCommit`, if it had to be called, has
found shared. -/
def handleRead (m : Memory) (me : ℕ) (p : PageId) : Memory := m.modify me fun q => q.mprotectRead p

def mprotectReadWrite (m : Memory) (me : ℕ) (p : PageId) : Memory :=
  m.modify me fun q =>
    let q := if m.pageOwner p = .process me then q.setPageInfo p .readWrite else q
    q.mprotect p .readWrite

/-- Insertion behind the entries of the same page, as in a multimap. -/
def insertEntry (entry : Xpageinfo) (entries : List Xpageinfo) : List Xpageinfo :=
  entries.orderedInsert (fun a b => a.pageNo.Before b.pageNo) entry

/-- The entry for a write fault that happens now. -/
def newEntry (m : Memory) (p : PageId) : Xpageinfo where
  pageNo := p
  version := m.versions p % 2 ^ 32
  release := true
  committed := false
  snapshot := m.persistent p

/-- A further user of the page, with an entry in the list. -/
def recordUser (m : Memory) (me : ℕ) (p : PageId) : Memory :=
  { m with pageUsers := Function.update m.pageUsers p (m.pageUsers p).increment }.modify me fun q =>
    { q with
      dirtiedPagesList := insertEntry (m.newEntry p) q.dirtiedPagesList
      written := Function.update q.written p fun _ => false }

/-- The switch of `handleWrite`, after `notifyOwnerToCommit` as in `handleRead`. -/
def openPage (m : Memory) (me : ℕ) (p : PageId) : Memory :=
  match (m.process me).pageInfo p with
  | .unused | .read | .none => m.mprotectReadWrite me p
  | .readWrite => (m.mprotectReadWrite me p).commitOwnedPage me p false

def handleWrite (m : Memory) (me : ℕ) (p : PageId) : Memory :=
  let m := m.openPage me p
  -- what the owner stores needs no commit
  if m.pageOwner p = .process me then m else m.recordUser me p

/-! ## Commit and refresh -/

def createTwinPage (m : Memory) (p : PageId) : Memory :=
  let (index, bitmap) := m.bitmap.get
  { m with
    -- an unsigned short
    pageUsers := Function.update m.pageUsers p
      { m.pageUsers p with bitmapIndex := index % 2 ^ 16 }
    bitmap := (bitmap.setPage index (m.persistent p)).setVersion index (m.versions p) }

/-- There are several writers and no twin. -/
def NeedsTwin (m : Memory) (p : PageId) : Prop :=
  1 < (m.pageUsers p).users ∧ (m.pageUsers p).bitmapIndex = 0

instance (m : Memory) (p : PageId) : Decidable (m.NeedsTwin p) :=
  inferInstanceAs (Decidable (_ ∧ _))

def withTwin (m : Memory) (p : PageId) : Memory :=
  if m.NeedsTwin p then m.createTwinPage p else m

/-- `memcpy` if the version is the one of the entry, else the differences to the twin. -/
def copyOut (m : Memory) (me : ℕ) (entry : Xpageinfo) : Memory :=
  let p := entry.pageNo
  if entry.version = m.versions p then
    m.setPersistent p (m.view me p)
  else
    -- the slow commit
    let twin := m.bitmap.page (m.pageUsers p).bitmapIndex
    let m := m.setSharedPage me p
    m.setPersistent p (PageDiffs.writePageDiffs (m.view me p) twin (m.persistent p))

/-- The bookkeeping after a page has been carried over. -/
def finishCommit (m : Memory) (p : PageId) : Memory :=
  { m with pageUsers := Function.update m.pageUsers p (m.pageUsers p).release }.incrementVersion p

/-- The body of the loop of `checkandcommit`. -/
def commitPage (m : Memory) (me : ℕ) (entry : Xpageinfo) : Memory × Xpageinfo :=
  let p := entry.pageNo
  let m := m.withTwin p
  if (m.pageUsers p).users ≠ 1 ∨ m.pageOwner p ≠ .process me then
    ((m.copyOut me entry).finishCommit p, { entry with release := true, committed := true })
  else
    (m, { entry with release := false })

def updateAll (m : Memory) (me : ℕ) : Memory := m.modify me Process.updateAll

/-! ## What the operations leave alone -/

variable {m : Memory} {me other : ℕ} {p : PageId} {change : Process → Process}

@[simp] theorem modify_process_self (m : Memory) (me : ℕ) (change : Process → Process) :
    (m.modify me change).process me = change (m.process me) := by
  simp [modify]

theorem modify_process_of_ne (different : other ≠ me) :
    (m.modify me change).process other = m.process other := by
  simp [modify, different]

/-- A change of other fields leaves the private copies alone. -/
theorem modify_transient (same : ∀ q, (change q).transient = q.transient) :
    ((m.modify me change).process other).transient = (m.process other).transient := by
  by_cases here : other = me
  · subst here
    rw [modify_process_self, same]
  · rw [modify_process_of_ne here]

theorem modify_dirtiedPagesList
    (same : ∀ q, (change q).dirtiedPagesList = q.dirtiedPagesList) :
    ((m.modify me change).process other).dirtiedPagesList =
      (m.process other).dirtiedPagesList := by
  by_cases here : other = me
  · subst here
    rw [modify_process_self, same]
  · rw [modify_process_of_ne here]

theorem handleRead_dirtiedPagesList :
    ((m.handleRead me p).process other).dirtiedPagesList = (m.process other).dirtiedPagesList :=
  modify_dirtiedPagesList fun _ => rfl

theorem store_dirtiedPagesList {offset : Fin pageSize} {value : UInt8} :
    ((m.store me p offset value).process other).dirtiedPagesList =
      (m.process other).dirtiedPagesList :=
  modify_dirtiedPagesList fun _ => rfl

theorem setOwnedPage_dirtiedPagesList :
    ((m.setOwnedPage me p).process other).dirtiedPagesList = (m.process other).dirtiedPagesList :=
  modify_dirtiedPagesList fun _ => rfl

theorem handleRead_transient :
    ((m.handleRead me p).process other).transient = (m.process other).transient :=
  modify_transient fun _ => rfl

theorem setOwnedPage_transient :
    ((m.setOwnedPage me p).process other).transient = (m.process other).transient :=
  modify_transient fun _ => rfl

theorem recordUser_transient :
    ((m.recordUser me p).process other).transient = (m.process other).transient :=
  modify_transient fun _ => rfl

@[simp] theorem setSharedPage_persistent : (m.setSharedPage me p).persistent = m.persistent := by
  unfold setSharedPage
  split <;> rfl

@[simp] theorem setSharedPage_transient :
    ((m.setSharedPage me p).process other).transient = (m.process other).transient := by
  unfold setSharedPage
  split
  · exact modify_transient fun _ => rfl
  · rfl

@[simp] theorem setSharedPage_view (q : PageId) :
    (m.setSharedPage me p).view other q = m.view other q := by
  simp [view]

@[simp] theorem setSharedPage_pageUsers : (m.setSharedPage me p).pageUsers = m.pageUsers := by
  unfold setSharedPage
  split <;> rfl

@[simp] theorem setSharedPage_bitmap : (m.setSharedPage me p).bitmap = m.bitmap := by
  unfold setSharedPage
  split <;> rfl

@[simp] theorem setSharedPage_versions : (m.setSharedPage me p).versions = m.versions := by
  unfold setSharedPage
  split <;> rfl

@[simp] theorem commitOwnedPage_pageUsers {setShared : Bool} :
    (m.commitOwnedPage me p setShared).pageUsers = m.pageUsers := by
  cases setShared <;> cases access : (m.process me).pageInfo p <;>
    simp [commitOwnedPage, access, incrementVersion, modify, setPersistent]

@[simp] theorem commitOwnedPage_bitmap {setShared : Bool} :
    (m.commitOwnedPage me p setShared).bitmap = m.bitmap := by
  cases setShared <;> cases access : (m.process me).pageInfo p <;>
    simp [commitOwnedPage, access, incrementVersion, modify, setPersistent]

@[simp] theorem openPage_pageUsers : (m.openPage me p).pageUsers = m.pageUsers := by
  cases access : (m.process me).pageInfo p <;>
    simp [openPage, access, mprotectReadWrite, modify]

@[simp] theorem openPage_bitmap : (m.openPage me p).bitmap = m.bitmap := by
  cases access : (m.process me).pageInfo p <;>
    simp [openPage, access, mprotectReadWrite, modify]

@[simp] theorem copyOut_pageUsers {entry : Xpageinfo} :
    (m.copyOut me entry).pageUsers = m.pageUsers := by
  simp only [copyOut]
  split <;> simp [setPersistent]

@[simp] theorem copyOut_bitmap {entry : Xpageinfo} : (m.copyOut me entry).bitmap = m.bitmap := by
  simp only [copyOut]
  split <;> simp [setPersistent]

theorem setSharedPage_dirtiedPagesList :
    ((m.setSharedPage me p).process other).dirtiedPagesList =
      (m.process other).dirtiedPagesList := by
  unfold setSharedPage
  split
  · exact modify_dirtiedPagesList fun _ => rfl
  · rfl

theorem commitOwnedPage_dirtiedPagesList {setShared : Bool} :
    ((m.commitOwnedPage me p setShared).process other).dirtiedPagesList =
      (m.process other).dirtiedPagesList := by
  have finish : ∀ m' : Memory,
      ((m'.process other).dirtiedPagesList = (m.process other).dirtiedPagesList) →
      (((if setShared then (m'.setSharedPage me p).modify me fun q => q.dropCopy p
        else m').incrementVersion p).process other).dirtiedPagesList =
          (m.process other).dirtiedPagesList := by
    intro m' same
    rw [← same]
    split
    · have dropped : (((m'.setSharedPage me p).modify me fun q => q.dropCopy p).process
          other).dirtiedPagesList = ((m'.setSharedPage me p).process other).dirtiedPagesList :=
        modify_dirtiedPagesList fun _ => rfl
      exact dropped.trans setSharedPage_dirtiedPagesList
    · rfl
  simp only [commitOwnedPage]
  cases (m.process me).pageInfo p with
  | none => exact finish m rfl
  | read => exact finish m rfl
  | readWrite => exact finish _ (modify_dirtiedPagesList fun _ => rfl)
  | unused => exact finish _ (modify_dirtiedPagesList fun _ => rfl)

theorem openPage_dirtiedPagesList :
    ((m.openPage me p).process other).dirtiedPagesList = (m.process other).dirtiedPagesList := by
  have opened : ((m.mprotectReadWrite me p).process other).dirtiedPagesList =
      (m.process other).dirtiedPagesList := by
    apply modify_dirtiedPagesList
    intro q
    dsimp only
    split <;> rfl
  unfold openPage
  split
  · exact opened
  · exact opened
  · exact opened
  · exact commitOwnedPage_dirtiedPagesList.trans opened

/-- Taking a page of one's own back opens it. -/
theorem commitOwnedPage_pageOwner : (m.commitOwnedPage me p false).pageOwner = m.pageOwner := by
  cases access : (m.process me).pageInfo p <;>
    simp [commitOwnedPage, access, incrementVersion, modify, setPersistent]

theorem openPage_pageOwner : (m.openPage me p).pageOwner = m.pageOwner := by
  unfold openPage
  split
  · rfl
  · rfl
  · rfl
  · exact commitOwnedPage_pageOwner

/-- On a page of its own the process gets no entry. -/
theorem handleWrite_of_owner (owner : m.pageOwner p = .process me) :
    m.handleWrite me p = m.openPage me p := by
  simp only [handleWrite, openPage_pageOwner, if_pos owner]

theorem copyOut_dirtiedPagesList {entry : Xpageinfo} :
    ((m.copyOut me entry).process other).dirtiedPagesList =
      (m.process other).dirtiedPagesList := by
  simp only [copyOut]
  split
  · rfl
  · exact setSharedPage_dirtiedPagesList

theorem commitPage_dirtiedPagesList {entry : Xpageinfo} :
    ((m.commitPage me entry).1.process other).dirtiedPagesList =
      (m.process other).dirtiedPagesList := by
  have twinned : (m.withTwin entry.pageNo).process = m.process := by
    unfold withTwin
    split <;> rfl
  rw [← twinned]
  simp only [commitPage]
  split
  · exact copyOut_dirtiedPagesList
  · rfl

/-- On a page of others the handler opens the page and records a user. -/
theorem handleWrite_eq (unowned : m.pageOwner p ≠ .process me)
    (never : (m.process me).pageInfo p ≠ .readWrite) :
    m.handleWrite me p =
      { m with pageUsers := Function.update m.pageUsers p (m.pageUsers p).increment }.modify me
        fun q =>
          { q.mprotect p .readWrite with
            dirtiedPagesList := insertEntry (m.newEntry p) q.dirtiedPagesList
            written := Function.update q.written p fun _ => false } := by
  have opened : m.openPage me p = m.modify me fun q => q.mprotect p .readWrite := by
    have switch : m.openPage me p = m.mprotectReadWrite me p := by
      unfold openPage
      split <;> first | rfl | contradiction
    simp only [switch, mprotectReadWrite, if_neg unowned]
  simp only [handleWrite, opened]
  refine (if_neg unowned).trans ?_
  simp [recordUser, modify, newEntry, Process.mprotect]

end Memory

end Tthread
