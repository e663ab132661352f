/-
# No entry is dropped uncommitted

The users of a page are the live processes with an entry for it that is not committed.
A write fault adds a user with an entry, the commit of the entry takes both away, and a
begin clears only what the commit before it has carried over. A write fault between the
commit and the begin adds an entry that the begin drops, and a call that returns without
a begin has its entries committed again by the next one. The commit reads the users and stores
one less: a write fault in between is not counted.
-/

import Tthread.Transactions
import Tthread.TwinPages

open Transition

namespace Tthread.Transactions

open PageSystem

/-- The process has an entry for the page that is not committed. -/
def HasPending (q : Process) (p : PageId) : Bool :=
  q.dirtiedPagesList.any fun entry => entry.pageNo = p && !entry.committed

/-- The live processes with an entry for the page that is not committed. -/
def pendingUsers (s : State) (p : PageId) : Finset ℕ :=
  s.live.filter fun me => HasPending (s.memory.process me) p

/-- Nothing was cleared without a commit, and the users of every page are those with an
entry still to be committed. -/
structure NothingDropped (s : State) : Prop where
  lost : s.lost = []
  users : ∀ p, (s.memory.pageUsers p).users = (pendingUsers s p).card

/-- The page whose users have been read by `users--` and not yet written. -/
def State.releasing (s : State) : Option PageId :=
  match s.visit with
  | some (me, .store _) =>
      match s.phase me with
      | .committing _ position =>
          (s.memory.process me).dirtiedPagesList[position]?.map Xpageinfo.pageNo
      | _ => none
  | _ => none

/-- The condition on a step. A write fault comes in the program's part of the transaction and
not while the users of the page are counted down, or on a page the process owns, with fewer
than 65535 users, and finds the access `PAGE_ACCESS_READ_WRITE` (an invalid state to the
handler) on owned pages only. A block is owned by a process that has no entries for its pages. A
`sigwait` that fails has nothing to begin. -/
def KeepsEntries (s : State) : Label → Prop
  | .writeFault me p =>
      (s.phase me = .user ∧ s.releasing ≠ some p ∨ s.memory.pageOwner p = .process me) ∧
      (s.memory.pageUsers p).users < 2 ^ 16 - 1 ∧
      ((s.memory.process me).pageInfo p = .readWrite → s.memory.pageOwner p = .process me)
  | .setOwnedPage me p => ∀ entry ∈ (s.memory.process me).dirtiedPagesList, entry.pageNo ≠ p
  | .sigwaitFails me => (s.memory.process me).dirtiedPagesList = []
  | _ => True

/-! ## The entries of a process -/

/-- The pages of the list are distinct, writable, and not the process's own. -/
structure EntriesOk (owner : PageId → Owner) (me : ℕ) (q : Process) : Prop where
  nodup : (q.dirtiedPagesList.map Xpageinfo.pageNo).Nodup
  writable : ∀ entry ∈ q.dirtiedPagesList, q.protection entry.pageNo = .readWrite
  access : ∀ entry ∈ q.dirtiedPagesList, q.pageInfo entry.pageNo ≠ .readWrite
  foreign : ∀ entry ∈ q.dirtiedPagesList, owner entry.pageNo ≠ .process me

def AllEntriesOk (m : Memory) : Prop := ∀ me, EntriesOk m.pageOwner me (m.process me)

variable {owner owner' : PageId → Owner} {q q' : Process} {m m' : Memory} {me other : ℕ}
  {p : PageId} {change : Process → Process}

/-- What may change of a process and the owners without touching its entries. -/
theorem EntriesOk.frame (ok : EntriesOk owner me q)
    (list : q'.dirtiedPagesList = q.dirtiedPagesList)
    (protection : ∀ entry ∈ q.dirtiedPagesList,
      q'.protection entry.pageNo = q.protection entry.pageNo)
    (access : ∀ entry ∈ q.dirtiedPagesList, q'.pageInfo entry.pageNo ≠ .readWrite)
    (foreign : ∀ entry ∈ q.dirtiedPagesList, owner' entry.pageNo ≠ .process me) :
    EntriesOk owner' me q' where
  nodup := by rw [list]; exact ok.nodup
  writable entry member := by
    rw [list] at member
    exact (protection entry member).trans (ok.writable entry member)
  access entry member := access entry (list ▸ member)
  foreign entry member := foreign entry (list ▸ member)

theorem AllEntriesOk.modify (all : AllEntriesOk m) (change : Process → Process)
    (ok : EntriesOk m.pageOwner me (change (m.process me))) :
    AllEntriesOk (m.modify me change) := by
  intro other
  by_cases here : other = me
  · subst here
    rw [Memory.modify_process_self]
    exact ok
  · rw [Memory.modify_process_of_ne here]
    exact all other

/-- Only the lists, protections, accesses and owners matter. -/
theorem AllEntriesOk.congr (all : AllEntriesOk m) (process : m'.process = m.process)
    (owners : m'.pageOwner = m.pageOwner) : AllEntriesOk m' := by
  intro other
  rw [process, owners]
  exact all other

/-- A change that leaves lists, protections and accesses alone. -/
theorem AllEntriesOk.modifySame (all : AllEntriesOk m) (change : Process → Process)
    (list : ∀ q, (change q).dirtiedPagesList = q.dirtiedPagesList)
    (protection : ∀ q, (change q).protection = q.protection)
    (access : ∀ q, (change q).pageInfo = q.pageInfo) : AllEntriesOk (m.modify me change) := by
  refine all.modify change ((all me).frame (list _) ?_ ?_ (all me).foreign)
  · intro entry _
    rw [protection]
  · intro entry member
    rw [access]
    exact (all me).access entry member

theorem AllEntriesOk.setWord (all : AllEntriesOk m) {o : SyncObject} {value : UInt64} :
    AllEntriesOk (setWord m me o value) := by
  apply all.modifySame <;> exact fun _ => rfl

theorem EntriesOk.setPageInfo_read (ok : EntriesOk owner me q) :
    EntriesOk owner me (q.setPageInfo p .read) := by
  refine ok.frame rfl (fun _ _ => rfl) ?_ ok.foreign
  intro entry member
  show Function.update q.pageInfo p .read entry.pageNo ≠ .readWrite
  by_cases same : entry.pageNo = p
  · rw [same, Function.update_self]
    decide
  · rw [Function.update_of_ne same]
    exact ok.access entry member

/-- The protection of a page without an entry. -/
theorem EntriesOk.mprotect (ok : EntriesOk owner me q) {protection : Protection}
    (absent : ∀ entry ∈ q.dirtiedPagesList, entry.pageNo ≠ p) :
    EntriesOk owner me (q.mprotect p protection) := by
  refine ok.frame rfl ?_ ok.access ok.foreign
  intro entry member
  exact Function.update_of_ne (absent entry member) _ _

theorem AllEntriesOk.handleRead (all : AllEntriesOk m)
    (closed : (m.process me).protection p = .none) : AllEntriesOk (m.handleRead me p) := by
  refine all.modify _ ((all me).setPageInfo_read.mprotect fun entry member same => ?_)
  have writable := (all me).writable entry member
  rw [same, closed] at writable
  cases writable

theorem AllEntriesOk.setSharedPage (all : AllEntriesOk m) :
    AllEntriesOk (m.setSharedPage me p) := by
  unfold Memory.setSharedPage
  split
  · have owners : AllEntriesOk { m with
        pageOwner := Function.update (Function.update m.pageOwner p.next .unowned) p .shared } := by
      intro other
      refine (all other).frame rfl (fun _ _ => rfl) (all other).access fun entry member => ?_
      show Function.update (Function.update m.pageOwner p.next .unowned) p .shared entry.pageNo ≠ _
      by_cases here : entry.pageNo = p
      · rw [here, Function.update_self]
        nofun
      · rw [Function.update_of_ne here]
        by_cases next : entry.pageNo = p.next
        · rw [next, Function.update_self]
          nofun
        · rw [Function.update_of_ne next]
          exact (all other).foreign entry member
    exact owners.modify (fun q => q.setPageInfo p .read) (owners me).setPageInfo_read
  · exact all

theorem AllEntriesOk.setOwnedPage (all : AllEntriesOk m)
    (absent : ∀ entry ∈ (m.process me).dirtiedPagesList, entry.pageNo ≠ p) :
    AllEntriesOk (m.setOwnedPage me p) := by
  intro other
  by_cases here : other = me
  · subst here
    rw [Memory.setOwnedPage, Memory.modify_process_self]
    refine (all other).frame rfl (fun entry member => ?_) (fun entry member => ?_)
      fun entry member => ?_
    · exact Function.update_of_ne (absent entry member) _ _
    · show Function.update (m.process other).pageInfo p .none entry.pageNo ≠ .readWrite
      rw [Function.update_of_ne (absent entry member)]
      exact (all other).access entry member
    · show Function.update m.pageOwner p _ entry.pageNo ≠ _
      rw [Function.update_of_ne (absent entry member)]
      exact (all other).foreign entry member
  · rw [Memory.setOwnedPage, Memory.modify_process_of_ne here]
    refine (all other).frame rfl (fun _ _ => rfl) (all other).access fun entry member => ?_
    show Function.update m.pageOwner p (.process me) entry.pageNo ≠ .process other
    by_cases same : entry.pageNo = p
    · rw [same, Function.update_self]
      exact fun equal => here (Owner.process.inj equal).symm
    · rw [Function.update_of_ne same]
      exact (all other).foreign entry member

theorem AllEntriesOk.commitOwnedPage (all : AllEntriesOk m) {setShared : Bool}
    (owned : (m.process me).pageInfo p ≠ .unused) :
    AllEntriesOk (m.commitOwnedPage me p setShared) := by
  have finish : ∀ m', AllEntriesOk m' → AllEntriesOk
      ((if setShared then (m'.setSharedPage me p).modify me fun q => q.dropCopy p
        else m').incrementVersion p) := by
    intro m' all'
    split
    · exact (all'.setSharedPage.modifySame (fun q => q.dropCopy p) (fun _ => rfl) (fun _ => rfl)
        fun _ => rfl).congr rfl rfl
    · exact all'.congr rfl rfl
  simp only [Memory.commitOwnedPage]
  cases access : (m.process me).pageInfo p with
  | none => exact finish _ all
  | read => exact finish _ all
  | unused => exact absurd access owned
  | readWrite =>
    -- an owned page that was written has no entry
    have copied : AllEntriesOk (m.setPersistent p (m.view me p)) := all.congr rfl rfl
    refine finish _ (copied.modify (fun q => q.mprotect p .none) ((copied me).mprotect ?_))
    intro entry member same
    exact (all me).access entry member (same ▸ access)

theorem AllEntriesOk.openPage (all : AllEntriesOk m)
    (closed : (m.process me).protection p ≠ .readWrite) : AllEntriesOk (m.openPage me p) := by
  have absent : ∀ entry ∈ (m.process me).dirtiedPagesList, entry.pageNo ≠ p :=
    fun entry member same => closed (same ▸ (all me).writable entry member)
  have opened : AllEntriesOk (m.mprotectReadWrite me p) := by
    refine all.modify _ ?_
    dsimp only
    split
    · have owned : EntriesOk m.pageOwner me ((m.process me).setPageInfo p .readWrite) := by
        refine (all me).frame rfl (fun _ _ => rfl) ?_ (all me).foreign
        intro entry member
        show Function.update (m.process me).pageInfo p .readWrite entry.pageNo ≠ .readWrite
        rw [Function.update_of_ne (absent entry member)]
        exact (all me).access entry member
      exact owned.mprotect absent
    · exact (all me).mprotect absent
  unfold Memory.openPage
  cases access : (m.process me).pageInfo p with
  | unused => exact opened
  | read => exact opened
  | none => exact opened
  | readWrite =>
    refine opened.commitOwnedPage ?_
    rw [Memory.mprotectReadWrite, Memory.modify_process_self]
    split
    · simp [Process.mprotect, Process.setPageInfo]
    · simp [Process.mprotect, access]

/-- A new entry, for a page that had none. -/
theorem EntriesOk.insert (ok : EntriesOk owner me q) {entry : Xpageinfo}
    {written : PageId → Fin pageSize → Bool}
    (absent : ∀ old ∈ q.dirtiedPagesList, old.pageNo ≠ entry.pageNo)
    (access : q.pageInfo entry.pageNo ≠ .readWrite) (foreign : owner entry.pageNo ≠ .process me) :
    EntriesOk owner me { q.mprotect entry.pageNo .readWrite with
      dirtiedPagesList := Memory.insertEntry entry q.dirtiedPagesList
      written := written } := by
  have same : (Memory.insertEntry entry q.dirtiedPagesList).Perm (entry :: q.dirtiedPagesList) :=
    List.perm_orderedInsert _ _ _
  have member : ∀ e, e ∈ Memory.insertEntry entry q.dirtiedPagesList ↔
      e = entry ∨ e ∈ q.dirtiedPagesList := fun e => List.mem_orderedInsert _
  refine ⟨?_, ?_, ?_, ?_⟩
  · refine ((same.map Xpageinfo.pageNo).nodup_iff).mpr (List.nodup_cons.mpr ⟨?_, ok.nodup⟩)
    intro listed
    obtain ⟨old, inList, page⟩ := List.mem_map.mp listed
    exact absent old inList page
  · intro e listed
    show Function.update q.protection entry.pageNo .readWrite e.pageNo = .readWrite
    rcases (member e).mp listed with rfl | old
    · rw [Function.update_self]
    · rw [Function.update_of_ne (absent e old)]
      exact ok.writable e old
  · intro e listed
    rcases (member e).mp listed with rfl | old
    · exact access
    · exact ok.access e old
  · intro e listed
    rcases (member e).mp listed with rfl | old
    · exact foreign
    · exact ok.foreign e old

/-- An entry is replaced by one for the same page. -/
theorem EntriesOk.set (ok : EntriesOk owner me q) {position : ℕ} {entry entry' : Xpageinfo}
    (found : q.dirtiedPagesList[position]? = some entry) (page : entry'.pageNo = entry.pageNo) :
    EntriesOk owner me
      { q with dirtiedPagesList := q.dirtiedPagesList.set position entry' } := by
  have listed : entry ∈ q.dirtiedPagesList := List.mem_of_getElem? found
  refine ⟨?_, ?_, ?_, ?_⟩
  · show ((q.dirtiedPagesList.set position entry').map Xpageinfo.pageNo).Nodup
    have same : (q.dirtiedPagesList.set position entry').map Xpageinfo.pageNo =
        q.dirtiedPagesList.map Xpageinfo.pageNo := by
      rw [List.map_set, page]
      apply List.ext_getElem?
      intro i
      by_cases here : position = i
      · subst here
        rw [List.getElem?_set_self (by simpa using (List.getElem?_eq_some_iff.mp found).1),
          List.getElem?_map, found]
        rfl
      · rw [List.getElem?_set_ne here]
    rw [same]
    exact ok.nodup
  · intro e member
    rcases List.mem_or_eq_of_mem_set member with old | rfl
    · exact ok.writable e old
    · rw [page]
      exact ok.writable entry listed
  · intro e member
    rcases List.mem_or_eq_of_mem_set member with old | rfl
    · exact ok.access e old
    · rw [page]
      exact ok.access entry listed
  · intro e member
    rcases List.mem_or_eq_of_mem_set member with old | rfl
    · exact ok.foreign e old
    · rw [page]
      exact ok.foreign entry listed

/-! ## The invariant -/

/-- In which phases the entry at an index has been committed. -/
def Phase.hasCommitted : Phase → ℕ → Bool
  | .user, _ => false
  | .committing _ position, i => i < position
  | _, _ => true

/-- The thread has been born and has not exited. -/
def Phase.Alive : Phase → Prop
  | .absent | .exited => False
  | _ => True

/-- The entry at the index has lost its user in the iteration under way. -/
def State.hasReleased (s : State) (me i : ℕ) : Bool :=
  match s.visit, s.phase me with
  | some (who, pos), .committing _ position => who = me && i = position && pos.released
  | _, _ => false

/-- The entry at the index has been committed. -/
def State.hasCommitted (s : State) (me i : ℕ) : Bool :=
  (s.phase me).hasCommitted i || s.hasReleased me i

/-- An iteration is that of a thread in a commit, for an entry. Once it has read the users, they
are as it has read them. -/
def Visits (s : State) (me : ℕ) (pos : VisitPos) : Prop :=
  ∃ call position entry, s.phase me = .committing call position ∧
    (s.memory.process me).dirtiedPagesList[position]? = some entry ∧
    ∀ users, pos = .store users → (s.memory.pageUsers entry.pageNo).users = users

structure Inv (s : State) : Prop where
  lost : s.lost = []
  entries : AllEntriesOk s.memory
  committed : ∀ me i entry, (s.memory.process me).dirtiedPagesList[i]? = some entry →
    entry.committed = s.hasCommitted me i
  visits : ∀ me pos, s.visit = some (me, pos) → Visits s me pos
  small : ∀ p, (s.memory.pageUsers p).users < 2 ^ 16 ∧ (s.memory.pageUsers p).bitmapIndex < 2 ^ 16
  alive : ∀ me, (s.phase me).Alive → me ∈ s.live
  owners : ∀ p me, s.memory.pageOwner p = .process me → s.phase me ≠ .absent
  users : ∀ p, (s.memory.pageUsers p).users = (pendingUsers s p).card

variable {s s' : State} {label : Label}

theorem Inv.nothingDropped (inv : Inv s) : NothingDropped s := ⟨inv.lost, inv.users⟩

theorem hasPending_iff : HasPending q p = true ↔
    ∃ entry ∈ q.dirtiedPagesList, entry.pageNo = p ∧ entry.committed = false := by
  simp [HasPending]

theorem mem_pendingUsers : me ∈ pendingUsers s p ↔ me ∈ s.live ∧
    ∃ entry ∈ (s.memory.process me).dirtiedPagesList, entry.pageNo = p ∧
      entry.committed = false := by
  rw [pendingUsers, Finset.mem_filter, hasPending_iff]

theorem pendingUsers_congr (live : s'.live = s.live)
    (same : ∀ me ∈ s.live, HasPending (s'.memory.process me) p =
      HasPending (s.memory.process me) p) :
    pendingUsers s' p = pendingUsers s p := by
  unfold pendingUsers
  rw [live]
  exact Finset.filter_congr fun me member => by rw [same me member]

theorem HasPending.congr (same : q'.dirtiedPagesList = q.dirtiedPagesList) :
    HasPending q' p = HasPending q p := by
  unfold HasPending
  rw [same]

theorem hasCommitted_congr (visit : s'.visit = s.visit) (phase : s'.phase me = s.phase me)
    (i : ℕ) : s'.hasCommitted me i = s.hasCommitted me i := by
  simp only [State.hasCommitted, State.hasReleased, visit, phase]

/-- Outside an iteration a thread has committed what its phase says. -/
theorem hasCommitted_of_idle (idle : ∀ pos, s.visit ≠ some (me, pos)) (i : ℕ) :
    s.hasCommitted me i = (s.phase me).hasCommitted i := by
  have released : s.hasReleased me i = false := by
    cases visit : s.visit with
    | none => simp only [State.hasReleased, visit]
    | some it =>
      have other : it.1 ≠ me := fun same => idle it.2 (visit.trans (congrArg some (by rw [← same])))
      cases phase : s.phase me <;> simp [State.hasReleased, visit, phase, other]
  rw [State.hasCommitted, released, Bool.or_false]

theorem Visits.not_idle {pos : VisitPos} (visits : Visits s me pos)
    (other : ∀ call position, s.phase me ≠ .committing call position) : False := by
  obtain ⟨call, position, -, at_commit, -⟩ := visits
  exact other call position at_commit

/-- A thread that is not in a commit is in no iteration. -/
theorem Inv.idle (inv : Inv s) (other : ∀ call position, s.phase me ≠ .committing call position)
    (pos : VisitPos) : s.visit ≠ some (me, pos) := fun visit =>
  (inv.visits me pos visit).not_idle other

/-- The page whose users have been read. -/
theorem releasing_eq {users : ℕ} {call : Call} {position : ℕ} {entry : Xpageinfo}
    (visit : s.visit = some (me, .store users)) (at_commit : s.phase me = .committing call position)
    (found : (s.memory.process me).dirtiedPagesList[position]? = some entry) :
    s.releasing = some entry.pageNo := by
  simp only [State.releasing, visit, at_commit, found, Option.map_some]

/-- The iteration of another thread does not see a step. -/
theorem Visits.frame {pos : VisitPos} (visits : Visits s me pos)
    (visit : s.visit = some (me, pos)) (phase : s'.phase me = s.phase me)
    (list : (s'.memory.process me).dirtiedPagesList = (s.memory.process me).dirtiedPagesList)
    (users : ∀ p, s.releasing = some p →
      (s'.memory.pageUsers p).users = (s.memory.pageUsers p).users) : Visits s' me pos := by
  obtain ⟨call, position, entry, at_commit, found, loaded⟩ := visits
  refine ⟨call, position, entry, phase.trans at_commit, list ▸ found, ?_⟩
  rintro u rfl
  exact (users _ (releasing_eq visit at_commit found)).trans (loaded u rfl)

/-- A step that changes neither lists nor users nor phases. -/
theorem Inv.frame (inv : Inv s) (lost : s'.lost = s.lost) (live : s'.live = s.live)
    (phase : s'.phase = s.phase) (visit : s'.visit = s.visit)
    (users : s'.memory.pageUsers = s.memory.pageUsers)
    (lists : ∀ me, (s'.memory.process me).dirtiedPagesList =
      (s.memory.process me).dirtiedPagesList)
    (owners : ∀ p me, s'.memory.pageOwner p = .process me → s.phase me ≠ .absent)
    (entries : AllEntriesOk s'.memory) : Inv s' where
  lost := lost.trans inv.lost
  entries := entries
  committed me i entry found := by
    rw [lists] at found
    rw [hasCommitted_congr visit (congrFun phase me)]
    exact inv.committed me i entry found
  visits me pos under := by
    rw [visit] at under
    exact (inv.visits me pos under).frame under (congrFun phase me) (lists me)
      fun p _ => by rw [users]
  small := by rw [users]; exact inv.small
  alive := by rw [phase, live]; exact inv.alive
  owners := by rw [phase]; exact owners
  users p := by
    rw [users, pendingUsers_congr live fun me _ => HasPending.congr (lists me)]
    exact inv.users p

/-- A thread whose entries are all committed is in no iteration. -/
theorem Inv.idle_of_all (inv : Inv s) (all : ∀ i, (s.phase me).hasCommitted i = true)
    (pos : VisitPos) : s.visit ≠ some (me, pos) := by
  refine inv.idle (fun call position at_commit => ?_) pos
  have passed := all position
  rw [at_commit] at passed
  simp [Phase.hasCommitted] at passed

/-- All entries of a thread are committed before its begin. -/
theorem Inv.hasPending_eq_false (inv : Inv s) (all : ∀ i, (s.phase me).hasCommitted i = true) :
    HasPending (s.memory.process me) p = false := by
  rw [HasPending, List.any_eq_false]
  intro entry member
  obtain ⟨i, found⟩ := List.mem_iff_getElem?.mp member
  have committed := inv.committed me i entry found
  simp [committed, State.hasCommitted, all i]

/-! ## The steps that move entries -/

theorem setPhase_phase_self (s : State) (me : ℕ) (phase : Phase) :
    (s.setPhase me phase).phase me = phase := by
  simp [State.setPhase]

theorem setPhase_phase_of_ne {phase : Phase} (different : other ≠ me) :
    (s.setPhase me phase).phase other = s.phase other := by
  simp [State.setPhase, different]

/-- A thread moves on; what it has committed does not change. -/
theorem Inv.setPhase (inv : Inv s) {phase : Phase} (present : phase ≠ .absent)
    (idle : ∀ pos, s.visit ≠ some (me, pos))
    (committed : ∀ i entry, (s.memory.process me).dirtiedPagesList[i]? = some entry →
      entry.committed = phase.hasCommitted i)
    (alive : phase.Alive → me ∈ s.live) : Inv (s.setPhase me phase) where
  lost := inv.lost
  entries := inv.entries
  committed other i entry found := by
    by_cases here : other = me
    · subst here
      have still : ∀ pos, (s.setPhase other phase).visit ≠ some (other, pos) := idle
      rw [hasCommitted_of_idle still, setPhase_phase_self]
      exact committed i entry found
    · have same : (s.setPhase me phase).hasCommitted other i = s.hasCommitted other i := by
        apply hasCommitted_congr
        · rfl
        · exact setPhase_phase_of_ne here
      rw [same]
      exact inv.committed other i entry found
  visits other pos visit := by
    have here : other ≠ me := fun same => idle pos (same ▸ visit)
    exact (inv.visits other pos visit).frame visit (setPhase_phase_of_ne here) rfl fun _ _ => rfl
  small := inv.small
  alive other := by
    by_cases here : other = me
    · subst here
      rw [setPhase_phase_self]
      exact alive
    · rw [setPhase_phase_of_ne here]
      exact inv.alive other
  owners p other owner := by
    by_cases here : other = me
    · subst here
      rw [setPhase_phase_self]
      exact present
    · rw [setPhase_phase_of_ne here]
      exact inv.owners p other owner
  users := inv.users

/-- A write fault of the program on a page of others: one more user, with an entry. -/
theorem Inv.recordUser (inv : Inv s) (at_user : s.phase me = .user) (settled : s.releasing ≠ some p)
    (closed : (s.memory.process me).protection p ≠ .readWrite)
    (foreign : s.memory.pageOwner p ≠ .process me)
    (room : (s.memory.pageUsers p).users < 2 ^ 16 - 1)
    (access : (s.memory.process me).pageInfo p ≠ .readWrite) :
    Inv { s with memory := s.memory.handleWrite me p } := by
  -- A page on the list is writable, and this one is not.
  have absent : ∀ entry ∈ (s.memory.process me).dirtiedPagesList, entry.pageNo ≠ p :=
    fun entry member same => closed (same ▸ (inv.entries me).writable entry member)
  have member : ∀ e, e ∈ Memory.insertEntry (s.memory.newEntry p)
      (s.memory.process me).dirtiedPagesList ↔
      e = s.memory.newEntry p ∨ e ∈ (s.memory.process me).dirtiedPagesList :=
    fun e => List.mem_orderedInsert _
  have info := increment_eq room (inv.small p).2
  have live : me ∈ s.live := inv.alive me (by rw [at_user]; trivial)
  rw [Memory.handleWrite_eq foreign access]
  -- The list of `me` gets one entry that is not committed; `p` gets one user.
  set change : Process → Process := fun q =>
    { q.mprotect p .readWrite with
      dirtiedPagesList := Memory.insertEntry (s.memory.newEntry p) q.dirtiedPagesList
      written := Function.update q.written p fun _ => false } with changeDef
  have mine : ((s.memory.modify me change).process me).dirtiedPagesList =
      Memory.insertEntry (s.memory.newEntry p) (s.memory.process me).dirtiedPagesList := by
    rw [Memory.modify_process_self]
  have idle : ∀ pos, s.visit ≠ some (me, pos) := inv.idle (by rw [at_user]; nofun)
  have uncommitted : ∀ i, s.hasCommitted me i = false := by
    intro i
    rw [hasCommitted_of_idle idle, at_user]
    rfl
  refine ⟨inv.lost, ?_, ?_, ?_, ?_, inv.alive, inv.owners, ?_⟩
  · exact AllEntriesOk.modify (inv.entries.congr rfl rfl) change
      ((inv.entries me).insert absent access foreign)
  · intro other i entry found
    show _ = s.hasCommitted other i
    by_cases here : other = me
    · subst here
      rw [uncommitted]
      change ((s.memory.modify other change).process other).dirtiedPagesList[i]? = _ at found
      rw [mine] at found
      rcases (member entry).mp (List.mem_of_getElem? found) with rfl | old
      · rfl
      · obtain ⟨j, at_j⟩ := List.mem_iff_getElem?.mp old
        rw [inv.committed other j entry at_j, uncommitted]
    · change ((s.memory.modify me change).process other).dirtiedPagesList[i]? = _ at found
      rw [Memory.modify_process_of_ne here] at found
      exact inv.committed other i entry found
  · -- the iteration under way is that of another thread, and has not read the users of `p`
    intro other pos visit
    have here : other ≠ me := fun same => idle pos (same ▸ visit)
    refine (inv.visits other pos visit).frame visit rfl ?_ fun r releasing => ?_
    · exact congrArg Process.dirtiedPagesList (Memory.modify_process_of_ne here)
    · have same : r ≠ p := fun same => settled (same ▸ releasing)
      show (Function.update s.memory.pageUsers p _ r).users = _
      rw [Function.update_of_ne same]
  · intro r
    show (Function.update s.memory.pageUsers p _ r).users < _ ∧
      (Function.update s.memory.pageUsers p _ r).bitmapIndex < _
    by_cases same : r = p
    · subst same
      rw [Function.update_self, info]
      exact ⟨show (s.memory.pageUsers r).users + 1 < 2 ^ 16 by omega, (inv.small r).2⟩
    · rw [Function.update_of_ne same]
      exact inv.small r
  · intro r
    show (Function.update s.memory.pageUsers p _ r).users = _
    set after : State := { s with
      memory := { s.memory with
        pageUsers := Function.update s.memory.pageUsers p (s.memory.pageUsers p).increment }.modify
        me change } with afterDef
    -- The users of `p` that have not committed are the old ones and `me`.
    have pending : ∀ other, other ∈ pendingUsers after r ↔
        (other = me ∧ r = p) ∨ other ∈ pendingUsers s r := by
      intro other
      rw [mem_pendingUsers, mem_pendingUsers]
      show other ∈ s.live ∧ (∃ entry ∈ ((s.memory.modify me change).process
        other).dirtiedPagesList, _) ↔ _
      by_cases here : other = me
      · subst here
        rw [mine]
        constructor
        · rintro ⟨-, entry, listed, page, fresh⟩
          rcases (member entry).mp listed with rfl | old
          · exact .inl ⟨rfl, page.symm⟩
          · exact .inr ⟨live, entry, old, page, fresh⟩
        · rintro (⟨-, rfl⟩ | ⟨-, entry, old, page, fresh⟩)
          · exact ⟨live, _, (member _).mpr (.inl rfl), rfl, rfl⟩
          · exact ⟨live, entry, (member entry).mpr (.inr old), page, fresh⟩
      · rw [Memory.modify_process_of_ne here]
        exact ⟨.inr, fun old => old.resolve_left fun both => here both.1⟩
    by_cases same : r = p
    · subst same
      -- `me` had no entry of `p`, so the set grows.
      have outside : me ∉ pendingUsers s r := fun inside => by
        obtain ⟨-, entry, listed, page, -⟩ := mem_pendingUsers.mp inside
        exact absent entry listed page
      have grown : pendingUsers after r = insert me (pendingUsers s r) := by
        ext other
        rw [pending, Finset.mem_insert]
        simp
      rw [Function.update_self, info, grown, Finset.card_insert_of_notMem outside, ← inv.users r]
    · have kept : pendingUsers after r = pendingUsers s r := by
        ext other
        rw [pending]
        simp [same]
      rw [Function.update_of_ne same, kept]
      exact inv.users r

/-- Distinct positions hold entries for distinct pages. -/
theorem EntriesOk.position_eq (ok : EntriesOk owner me q) {i j : ℕ} {entry entry' : Xpageinfo}
    (at_i : q.dirtiedPagesList[i]? = some entry) (at_j : q.dirtiedPagesList[j]? = some entry')
    (page : entry.pageNo = entry'.pageNo) : i = j := by
  have inside : i < (q.dirtiedPagesList.map Xpageinfo.pageNo).length := by
    rw [List.length_map]
    exact (List.getElem?_eq_some_iff.mp at_i).1
  apply (List.getElem?_inj inside ok.nodup).mp
  rw [List.getElem?_map, List.getElem?_map, at_i, at_j]
  exact congrArg some page

/-- Sharing a page takes owners away only. -/
theorem setSharedPage_pageOwner {r : PageId}
    (owner : (m.setSharedPage me p).pageOwner r = .process other) :
    m.pageOwner r = .process other := by
  unfold Memory.setSharedPage at owner
  split at owner
  · change Function.update (Function.update m.pageOwner p.next .unowned) p .shared r = _ at owner
    by_cases here : r = p
    · rw [here, Function.update_self] at owner
      cases owner
    · rw [Function.update_of_ne here] at owner
      by_cases next : r = p.next
      · rw [next, Function.update_self] at owner
        cases owner
      · rwa [Function.update_of_ne next] at owner
  · exact owner

theorem commitOwnedPage_owner {setShared : Bool} {r : PageId}
    (owner : (m.commitOwnedPage me p setShared).pageOwner r = .process other) :
    m.pageOwner r = .process other := by
  have finish : ∀ m' : Memory, m'.pageOwner = m.pageOwner →
      ((if setShared then (m'.setSharedPage me p).modify me fun q => q.dropCopy p
        else m').incrementVersion p).pageOwner r = .process other →
      m.pageOwner r = .process other := by
    intro m' same owner
    rw [← same]
    split at owner
    · exact setSharedPage_pageOwner owner
    · exact owner
  simp only [Memory.commitOwnedPage] at owner
  cases access : (m.process me).pageInfo p <;> rw [access] at owner
  · exact finish m rfl owner
  · exact finish m rfl owner
  · exact finish (((m.setPersistent p (m.view me p)).modify me fun q => q.mprotect p .none)) rfl
      owner
  · exact finish (((m.setPersistent p (m.view me p)).modify me fun q => q.mprotect p .none)) rfl
      owner

/-! ## The accesses of a commit -/

variable {entry : Xpageinfo} {pos : VisitPos}

theorem AllEntriesOk.commitAccess (all : AllEntriesOk m) :
    AllEntriesOk (m.commitAccess me entry pos).1 := by
  cases pos with
  | share index => exact all.setSharedPage
  | sole | owner =>
    simp only [Memory.commitAccess]
    split <;> exact all
  | _ => exact all.congr rfl rfl

theorem commitAccess_pageOwner {r : PageId}
    (owner : (m.commitAccess me entry pos).1.pageOwner r = .process other) :
    m.pageOwner r = .process other := by
  cases pos with
  | share index => exact setSharedPage_pageOwner owner
  | sole | owner =>
    simp only [Memory.commitAccess] at owner
    split at owner <;> exact owner
  | _ => exact owner

/-- Only one access changes users. -/
theorem commitAccess_users (keeps : pos.releases = false) (r : PageId) :
    ((m.commitAccess me entry pos).1.pageUsers r).users = (m.pageUsers r).users := by
  cases pos with
  | store users => cases keeps
  | setIndex index => exact setBitmapIndex_users r
  | clear => exact setBitmapIndex_users r
  | share index => rw [Memory.commitAccess, Memory.setSharedPage_pageUsers]
  | sole | owner =>
    simp only [Memory.commitAccess]
    split <;> rfl
  | _ => rfl

theorem setBitmapIndex_small {index : ℕ}
    (small : ∀ p, (m.pageUsers p).bitmapIndex < 2 ^ 16) (r : PageId) :
    ((m.setBitmapIndex p index).pageUsers r).bitmapIndex < 2 ^ 16 := by
  show (Function.update m.pageUsers p _ r).bitmapIndex < 2 ^ 16
  by_cases same : r = p
  · rw [same, Function.update_self]
    exact Nat.mod_lt _ (Nat.two_pow_pos 16)
  · rw [Function.update_of_ne same]
    exact small r

theorem commitAccess_small (small : ∀ p, (m.pageUsers p).bitmapIndex < 2 ^ 16) (r : PageId) :
    ((m.commitAccess me entry pos).1.pageUsers r).bitmapIndex < 2 ^ 16 := by
  cases pos with
  | setIndex index => exact setBitmapIndex_small small r
  | clear => exact setBitmapIndex_small small r
  | share index =>
    rw [Memory.commitAccess, Memory.setSharedPage_pageUsers]
    exact small r
  | store users =>
    show (Function.update m.pageUsers entry.pageNo _ r).bitmapIndex < 2 ^ 16
    by_cases same : r = entry.pageNo
    · rw [same, Function.update_self]
      exact small entry.pageNo
    · rw [Function.update_of_ne same]
      exact small r
  | sole | owner =>
    simp only [Memory.commitAccess]
    split <;> exact small r
  | _ => exact small r

theorem commitAccess_users_small (small : ∀ p, (m.pageUsers p).users < 2 ^ 16) (r : PageId) :
    ((m.commitAccess me entry pos).1.pageUsers r).users < 2 ^ 16 := by
  by_cases keeps : pos.releases = false
  · rw [commitAccess_users keeps]
    exact small r
  · cases pos with
    | store users =>
      show (Function.update m.pageUsers entry.pageNo _ r).users < 2 ^ 16
      by_cases same : r = entry.pageNo
      · rw [same, Function.update_self]
        exact Nat.mod_lt _ (Nat.two_pow_pos 16)
      · rw [Function.update_of_ne same]
        exact small r
    | _ => exact absurd rfl keeps

/-- On a page of others an iteration comes to its end only by releasing the user. -/
theorem commitAccess_released (foreign : m.pageOwner entry.pageNo ≠ .process me)
    (goes : pos ≠ .done) :
    (m.commitAccess me entry pos).2.2.released = (pos.released || pos.releases) := by
  cases pos with
  | done => exact absurd rfl goes
  | owner => simp only [Memory.commitAccess, if_pos foreign]; rfl
  | users | bitmapIndex | room | sole | version | last =>
    simp only [Memory.commitAccess]
    split <;> rfl
  | _ => rfl

/-- What is written as one less has been read. -/
theorem commitAccess_loaded {users : ℕ}
    (next : (m.commitAccess me entry pos).2.2 = .store users) :
    (m.pageUsers entry.pageNo).users = users ∧ pos.releases = false := by
  cases pos with
  | load => exact ⟨VisitPos.store.inj next, rfl⟩
  | users | bitmapIndex | room | sole | owner | version | last =>
    simp only [Memory.commitAccess] at next
    split at next <;> cases next
  | _ => cases next

/-- A replaced entry of the same page, committed or not as before, pends as before. -/
theorem hasPending_set {position : ℕ} {entry' : Xpageinfo}
    (found : q.dirtiedPagesList[position]? = some entry) (page : entry'.pageNo = entry.pageNo)
    (committed : entry'.committed = entry.committed) (r : PageId) :
    HasPending { q with dirtiedPagesList := q.dirtiedPagesList.set position entry' } r =
      HasPending q r := by
  have inside : position < q.dirtiedPagesList.length := (List.getElem?_eq_some_iff.mp found).1
  have shows : ∀ list : List Xpageinfo,
      (list.any fun entry => entry.pageNo = r && !entry.committed) =
        (list.map fun entry => (entry.pageNo, entry.committed)).any fun pair =>
          pair.1 = r && !pair.2 := by
    intro list
    rw [List.any_map]
    rfl
  have same : (q.dirtiedPagesList.set position entry').map (fun e => (e.pageNo, e.committed)) =
      q.dirtiedPagesList.map fun e => (e.pageNo, e.committed) := by
    rw [List.map_set, page, committed]
    apply List.ext_getElem?
    intro i
    by_cases here : position = i
    · subst here
      rw [List.getElem?_set_self (by simpa using inside), List.getElem?_map, found]
      rfl
    · rw [List.getElem?_set_ne here]
  rw [HasPending, HasPending, shows, shows, same]

/-- The list of one process changes in that an entry is marked as committed. -/
structure Marks (m m' : Memory) (me position : ℕ) (entry entry' : Xpageinfo) : Prop where
  found : (m.process me).dirtiedPagesList[position]? = some entry
  page : entry'.pageNo = entry.pageNo
  committed : entry'.committed = true
  mine : (m'.process me).dirtiedPagesList = (m.process me).dirtiedPagesList.set position entry'
  others : ∀ other, other ≠ me →
    (m'.process other).dirtiedPagesList = (m.process other).dirtiedPagesList

section Marks

variable {position : ℕ} {entry entry' : Xpageinfo}

/-- An entry of the new list is the marked one or an old one elsewhere. -/
theorem Marks.getElem? (marks : Marks m m' me position entry entry') {i : ℕ} {e : Xpageinfo}
    (at_i : (m'.process me).dirtiedPagesList[i]? = some e) :
    (i = position ∧ e = entry') ∨
      (i ≠ position ∧ (m.process me).dirtiedPagesList[i]? = some e) := by
  rw [marks.mine] at at_i
  by_cases same : i = position
  · subst same
    rw [List.getElem?_set_self (List.getElem?_eq_some_iff.mp marks.found).1] at at_i
    exact .inl ⟨rfl, (Option.some.inj at_i).symm⟩
  · rw [List.getElem?_set_ne (Ne.symm same)] at at_i
    exact .inr ⟨same, at_i⟩

/-- The process is no longer a pending user of the page of the entry, and nothing else
changes. -/
theorem Marks.pendingUsers (marks : Marks s.memory m' me position entry entry')
    (lost : List Xpageinfo) (phase : ℕ → Phase) (ok : AllEntriesOk s.memory) (r : PageId) :
    pendingUsers { s with memory := m', lost := lost, phase := phase } r =
      if r = entry.pageNo then (pendingUsers s r).erase me else pendingUsers s r := by
  ext other
  have split : other ∈ (if r = entry.pageNo then (Transactions.pendingUsers s r).erase me
        else Transactions.pendingUsers s r) ↔
      ¬ (r = entry.pageNo ∧ other = me) ∧ other ∈ Transactions.pendingUsers s r := by
    split
    · next same => simp [same]
    · next different => simp [different]
  rw [split, mem_pendingUsers, mem_pendingUsers]
  by_cases here : other = me
  · subst here
    constructor
    · rintro ⟨live, e, listed, page, fresh⟩
      obtain ⟨i, at_i⟩ := List.mem_iff_getElem?.mp listed
      rcases marks.getElem? at_i with ⟨-, rfl⟩ | ⟨elsewhere, old⟩
      · rw [marks.committed] at fresh
        cases fresh
      · refine ⟨fun both => elsewhere ?_, live, e, List.mem_of_getElem? old, page, fresh⟩
        exact (ok other).position_eq old marks.found (page.trans both.1)
    · rintro ⟨apart, live, e, listed, page, fresh⟩
      obtain ⟨i, at_i⟩ := List.mem_iff_getElem?.mp listed
      have elsewhere : position ≠ i := by
        rintro rfl
        obtain rfl := Option.some.inj (marks.found.symm.trans at_i)
        exact apart ⟨page.symm, rfl⟩
      refine ⟨live, e, List.mem_iff_getElem?.mpr ⟨i, ?_⟩, page, fresh⟩
      show (m'.process other).dirtiedPagesList[i]? = some e
      rw [marks.mine, List.getElem?_set_ne elsewhere]
      exact at_i
  · show other ∈ s.live ∧ (∃ e ∈ (m'.process other).dirtiedPagesList, _) ↔ _
    rw [marks.others other here]
    simp [here]

end Marks

theorem entryAfter_pageNo : (entryAfter m me entry pos).pageNo = entry.pageNo :=
  Memory.commitAccess_pageNo m me entry pos

theorem access_process_self {position : ℕ} :
    (s.access me position entry pos).memory.process me =
      { (s.memory.commitAccess me entry pos).1.process me with
        dirtiedPagesList := (s.memory.process me).dirtiedPagesList.set position
          (entryAfter s.memory me entry pos) } := by
  simp only [State.access, Memory.modify_process_self, Memory.commitAccess_dirtiedPagesList]

theorem access_process_of_ne {position : ℕ} (here : other ≠ me) :
    (s.access me position entry pos).memory.process other =
      (s.memory.commitAccess me entry pos).1.process other := by
  simp only [State.access, Memory.modify_process_of_ne here]

/-- In an iteration the entry is committed once the user is released. -/
theorem hasCommitted_of_visit {call : Call} {position : ℕ}
    (at_commit : s.phase me = .committing call position) (visit : s.visit = some (me, pos))
    (i : ℕ) : s.hasCommitted me i = (decide (i < position) || i = position && pos.released) := by
  simp [State.hasCommitted, State.hasReleased, Phase.hasCommitted, at_commit, visit]

/-- One iteration is under way at most. -/
theorem idle_of_visit (visit : s.visit = some (me, pos)) (here : other ≠ me) (pos' : VisitPos) :
    s.visit ≠ some (other, pos') := fun visit' =>
  here (congrArg Prod.fst (Option.some.inj (visit'.symm.trans visit)))

/-- An access that leaves the users leaves the processes that count. -/
theorem pendingUsers_access {position : ℕ}
    (found : (s.memory.process me).dirtiedPagesList[position]? = some entry)
    (keeps : pos.releases = false) (r : PageId) :
    pendingUsers (s.access me position entry pos) r = pendingUsers s r := by
  refine pendingUsers_congr rfl fun other _ => ?_
  by_cases here : other = me
  · subst here
    have committed : (entryAfter s.memory other entry pos).committed = entry.committed := by
      simp [entryAfter, keeps]
    rw [access_process_self, ← hasPending_set found entryAfter_pageNo committed r]
    exact HasPending.congr rfl
  · rw [access_process_of_ne here]
    exact HasPending.congr (Memory.commitAccess_dirtiedPagesList ..)

/-- The write of `users--` takes the user away whose entry is committed now. -/
theorem Inv.release (inv : Inv s) {call : Call} {position users : ℕ}
    (at_commit : s.phase me = .committing call position)
    (visit : s.visit = some (me, .store users))
    (found : (s.memory.process me).dirtiedPagesList[position]? = some entry)
    (fresh : entry.committed = false) (r : PageId) :
    ((s.access me position entry (.store users)).memory.pageUsers r).users =
      (pendingUsers (s.access me position entry (.store users)) r).card := by
  have listed := List.mem_of_getElem? found
  have live : me ∈ s.live := inv.alive me (by rw [at_commit]; trivial)
  have counted : me ∈ pendingUsers s entry.pageNo :=
    mem_pendingUsers.mpr ⟨live, entry, listed, rfl, fresh⟩
  have marks : Marks s.memory (s.access me position entry (.store users)).memory me position entry
      (entryAfter s.memory me entry (.store users)) := by
    refine ⟨found, entryAfter_pageNo, Bool.or_true _, ?_, fun other here => ?_⟩
    · rw [access_process_self]
    · rw [access_process_of_ne here]
      exact Memory.commitAccess_dirtiedPagesList ..
  -- the users are as they have been read
  have loaded : (s.memory.pageUsers entry.pageNo).users = users := by
    obtain ⟨call', position', entry', at_commit', found', loaded⟩ := inv.visits me _ visit
    obtain ⟨rfl, rfl⟩ := Phase.committing.inj (at_commit.symm.trans at_commit')
    obtain rfl := Option.some.inj (found.symm.trans found')
    exact loaded users rfl
  have positive : 0 < users := by
    rw [← loaded, inv.users]
    exact Finset.card_pos.mpr ⟨me, counted⟩
  have small := (inv.small entry.pageNo).1
  have pending : pendingUsers (s.access me position entry (.store users)) r =
      if r = entry.pageNo then (pendingUsers s r).erase me else pendingUsers s r :=
    marks.pendingUsers s.lost s.phase inv.entries r
  rw [pending]
  show (Function.update s.memory.pageUsers entry.pageNo _ r).users = _
  by_cases here : r = entry.pageNo
  · subst here
    rw [Function.update_self, if_pos rfl, Finset.card_erase_of_mem counted, ← inv.users, loaded]
    show (users + (2 ^ 16 - 1)) % 2 ^ 16 = users - 1
    omega
  · rw [Function.update_of_ne here, if_neg here, inv.users]

/-- **One access of an iteration.** The users change with the entries that pend. -/
theorem Inv.access (inv : Inv s) {call : Call} {position : ℕ}
    (at_commit : s.phase me = .committing call position) (visit : s.visit = some (me, pos))
    (found : (s.memory.process me).dirtiedPagesList[position]? = some entry)
    (goes : pos ≠ .done) : Inv (s.access me position entry pos) := by
  have foreign := (inv.entries me).foreign entry (List.mem_of_getElem? found)
  have inside : position < (s.memory.process me).dirtiedPagesList.length :=
    (List.getElem?_eq_some_iff.mp found).1
  have flag : entry.committed = pos.released := by
    rw [inv.committed me position entry found, hasCommitted_of_visit at_commit visit]
    simp
  have visit' : (s.access me position entry pos).visit =
      some (me, (s.memory.commitAccess me entry pos).2.2) := rfl
  have at_commit' : (s.access me position entry pos).phase me = .committing call position :=
    at_commit
  refine ⟨inv.lost, ?_, ?_, ?_, ?_, inv.alive, ?_, ?_⟩
  · have kept : ((s.memory.commitAccess me entry pos).1.process me).dirtiedPagesList[position]? =
        some entry := by
      rw [Memory.commitAccess_dirtiedPagesList]
      exact found
    exact inv.entries.commitAccess.modify
      (fun q => { q with
        dirtiedPagesList :=
          q.dirtiedPagesList.set position (entryAfter s.memory me entry pos) })
      ((inv.entries.commitAccess me).set kept entryAfter_pageNo)
  · intro other i e at_i
    by_cases here : other = me
    · subst here
      rw [hasCommitted_of_visit at_commit' visit', commitAccess_released foreign goes]
      rw [access_process_self] at at_i
      change ((s.memory.process other).dirtiedPagesList.set position _)[i]? = some e at at_i
      by_cases same : i = position
      · subst same
        rw [List.getElem?_set_self inside] at at_i
        rw [← Option.some.inj at_i]
        simp [entryAfter, flag]
      · rw [List.getElem?_set_ne (Ne.symm same)] at at_i
        rw [inv.committed other i e at_i, hasCommitted_of_visit at_commit visit]
        simp [same]
    · rw [access_process_of_ne here, Memory.commitAccess_dirtiedPagesList] at at_i
      rw [inv.committed other i e at_i, hasCommitted_of_idle (idle_of_visit visit here),
        hasCommitted_of_idle (idle_of_visit visit' here)]
      rfl
  · intro other pos' under
    obtain ⟨rfl, rfl⟩ := Prod.mk.inj (Option.some.inj under)
    refine ⟨call, position, entryAfter s.memory me entry pos, at_commit, ?_, fun users stores => ?_⟩
    · rw [access_process_self]
      exact List.getElem?_set_self inside
    · obtain ⟨loaded, keeps⟩ := commitAccess_loaded stores
      rw [entryAfter_pageNo]
      exact (commitAccess_users keeps _).trans loaded
  · exact fun r => ⟨commitAccess_users_small (fun p => (inv.small p).1) r,
      commitAccess_small (fun p => (inv.small p).2) r⟩
  · exact fun r other owner => inv.owners r other (commitAccess_pageOwner owner)
  · intro r
    by_cases keeps : pos.releases = false
    · rw [pendingUsers_access found keeps, ← inv.users]
      exact commitAccess_users keeps r
    · cases pos with
      | store users => exact inv.release at_commit visit found flag r
      | _ => exact absurd rfl keeps

/-- An iteration is over: its entry is committed. -/
theorem Inv.pass (inv : Inv s) {call : Call} {position : ℕ}
    (at_commit : s.phase me = .committing call position) (visit : s.visit = some (me, .done)) :
    Inv ({ s with visit := none }.setPhase me (.committing call (position + 1))) := by
  have live : me ∈ s.live := inv.alive me (by rw [at_commit]; trivial)
  refine ⟨inv.lost, inv.entries, ?_, nofun, inv.small, ?_, ?_, inv.users⟩
  · intro other i e at_i
    have after : ∀ pos, ({ s with visit := Option.none }.setPhase me
        (.committing call (position + 1))).visit ≠ some (other, pos) := nofun
    rw [hasCommitted_of_idle after, inv.committed other i e at_i]
    by_cases here : other = me
    · subst here
      rw [setPhase_phase_self, hasCommitted_of_visit at_commit visit, Bool.eq_iff_iff]
      simp [VisitPos.released, Phase.hasCommitted]
      omega
    · rw [setPhase_phase_of_ne here, hasCommitted_of_idle (idle_of_visit visit here)]
  · intro other
    by_cases here : other = me
    · subst here
      exact fun _ => live
    · rw [setPhase_phase_of_ne here]
      exact inv.alive other
  · intro r other owner
    by_cases here : other = me
    · subst here
      rw [setPhase_phase_self]
      nofun
    · rw [setPhase_phase_of_ne here]
      exact inv.owners r other owner

/-- What a thread in `checkandcommit` does next. -/
theorem Inv.commit (inv : Inv s) {call : Call} {position : ℕ}
    (at_commit : s.phase me = .committing call position)
    (move : s.commit me call position = some s') : Inv s' := by
  simp only [State.commit] at move
  split at move
  · next visit found =>
    -- an iteration begins
    obtain rfl := Option.some.inj move
    refine ⟨inv.lost, inv.entries, ?_, ?_, inv.small, inv.alive, inv.owners, inv.users⟩
    · intro other i e at_i
      have before : ∀ pos, s.visit ≠ some (other, pos) := by rw [visit]; nofun
      rw [inv.committed other i e at_i, hasCommitted_of_idle before]
      by_cases here : other = me
      · subst here
        have at_commit' : ({ s with visit := some (other, .users) } : State).phase other =
            .committing call position := at_commit
        rw [hasCommitted_of_visit at_commit' rfl, at_commit]
        simp [Phase.hasCommitted, VisitPos.released]
      · have begun :
            ({ s with visit := some (me, .users) } : State).visit = some (me, .users) := rfl
        rw [hasCommitted_of_idle (idle_of_visit begun here)]
    · intro other pos visit'
      obtain ⟨rfl, rfl⟩ := Prod.mk.inj (Option.some.inj visit')
      exact ⟨call, position, _, at_commit, found, nofun⟩
  · next visit found =>
    -- the iterator is past the list: every entry lies before it
    obtain rfl := Option.some.inj move
    have idle : ∀ pos, s.visit ≠ some (me, pos) := by rw [visit]; nofun
    refine inv.setPhase nofun idle ?_ fun _ => inv.alive me (by rw [at_commit]; trivial)
    intro i entry at_i
    have inside := (List.getElem?_eq_some_iff.mp at_i).1
    have past := List.getElem?_eq_none_iff.mp found
    have before : i < position := by omega
    rw [inv.committed me i entry at_i, hasCommitted_of_idle idle, at_commit]
    simp [Phase.hasCommitted, before]
  · next who pos entry visit found =>
    obtain ⟨rfl, rfl⟩ := guarded move
    by_cases goes : pos = .done
    · subst goes
      exact inv.pass at_commit visit
    · have access : s.visitStep who call position entry pos = s.access who position entry pos := by
        cases pos <;> first | rfl | contradiction
      rw [access]
      exact inv.access at_commit visit found goes
  · cases move

/-- A begin after the commit drops nothing. -/
theorem Inv.update (inv : Inv s) (all : ∀ i, (s.phase me).hasCommitted i = true)
    (live : me ∈ s.live) : Inv (s.update me) := by
  -- Every entry is committed, so the filter finds nothing to drop.
  have dropped : ((s.memory.process me).dirtiedPagesList.filter fun entry : Xpageinfo =>
      !entry.committed) = [] := by
    rw [List.filter_eq_nil_iff]
    intro entry member
    obtain ⟨i, found⟩ := List.mem_iff_getElem?.mp member
    simp [inv.committed me i entry found, State.hasCommitted, all i]
  have mine : ((s.update me).memory.process me).dirtiedPagesList = [] := by
    show ((s.memory.updateAll me).process me).dirtiedPagesList = []
    rw [Memory.updateAll, Memory.modify_process_self]
    rfl
  have others : ∀ other, other ≠ me →
      (s.update me).memory.process other = s.memory.process other := by
    intro other here
    show (s.memory.updateAll me).process other = _
    rw [Memory.updateAll, Memory.modify_process_of_ne here]
  have phases : ∀ other, other ≠ me → (s.update me).phase other = s.phase other :=
    fun _ here => setPhase_phase_of_ne here
  have idle := inv.idle_of_all all
  refine ⟨?_, ?_, ?_, ?_, inv.small, ?_, ?_, ?_⟩
  · show _ ++ s.lost = []
    rw [dropped, inv.lost]
    rfl
  · intro other
    by_cases here : other = me
    · subst here
      constructor <;> rw [mine] <;> simp
    · rw [others other here]
      exact inv.entries other
  · intro other i entry found
    by_cases here : other = me
    · subst here
      rw [mine] at found
      cases found
    · rw [others other here] at found
      rw [inv.committed other i entry found]
      symm
      apply hasCommitted_congr
      · rfl
      · exact phases other here
  · intro other pos visit
    have here : other ≠ me := fun same => idle pos (same ▸ visit)
    exact (inv.visits other pos visit).frame visit (phases other here) (by rw [others other here])
      fun _ _ => rfl
  · intro other
    by_cases here : other = me
    · subst here
      exact fun _ => live
    · rw [phases other here]
      exact inv.alive other
  · intro r other owner
    by_cases here : other = me
    · subst here
      rw [State.update, setPhase_phase_self]
      simp
    · rw [phases other here]
      exact inv.owners r other owner
  · intro r
    have same : pendingUsers (s.update me) r = pendingUsers s r := by
      refine pendingUsers_congr rfl fun other _ => ?_
      by_cases here : other = me
      · subst here
        rw [inv.hasPending_eq_false all, HasPending, mine]
        rfl
      · rw [others other here]
    rw [same]
    exact inv.users r

/-- A child starts with committed entries. -/
theorem Inv.fork (inv : Inv s) {child : ℕ} (at_spawn : s.phase me = .calling .spawn)
    (at_child : s.phase child = .absent) :
    Inv ({ s with
      memory := s.memory.modify child fun _ => s.memory.process me
      live := insert child s.live }.setPhase child .born) := by
  -- At `fork` the parent has committed its entries, so the child's copies are committed too.
  have all : ∀ i, (s.phase me).hasCommitted i = true := by
    intro i
    rw [at_spawn]
    rfl
  -- A process that does not exist owns no page.
  have foreign : ∀ p, s.memory.pageOwner p ≠ .process child :=
    fun p owner => inv.owners p child owner at_child
  have idle := inv.idle (show ∀ _ _, s.phase child ≠ _ by rw [at_child]; nofun)
  refine ⟨inv.lost, ?_, ?_, ?_, inv.small, ?_, ?_, ?_⟩
  · have mine := inv.entries me
    exact inv.entries.modify (fun _ => s.memory.process me)
      ⟨mine.nodup, mine.writable, mine.access, fun entry _ => foreign entry.pageNo⟩
  · intro other i entry found
    change ((s.memory.modify child fun _ => s.memory.process me).process
      other).dirtiedPagesList[i]? = some entry at found
    by_cases here : other = child
    · subst here
      rw [Memory.modify_process_self] at found
      rw [inv.committed me i entry found, State.hasCommitted, State.hasCommitted, all i,
        setPhase_phase_self]
      rfl
    · rw [Memory.modify_process_of_ne here] at found
      rw [inv.committed other i entry found]
      symm
      apply hasCommitted_congr
      · rfl
      · exact setPhase_phase_of_ne here
  · intro other pos visit
    have here : other ≠ child := fun same => idle pos (same ▸ visit)
    refine (inv.visits other pos visit).frame visit (setPhase_phase_of_ne here) ?_ fun _ _ => rfl
    show ((s.memory.modify child fun _ => s.memory.process me).process other).dirtiedPagesList = _
    rw [Memory.modify_process_of_ne here]
  · intro other
    by_cases here : other = child
    · subst here
      exact fun _ => Finset.mem_insert_self _ _
    · rw [setPhase_phase_of_ne here]
      exact fun alive => Finset.mem_insert_of_mem (inv.alive other alive)
  · intro r other owner
    by_cases here : other = child
    · subst here
      rw [setPhase_phase_self]
      nofun
    · rw [setPhase_phase_of_ne here]
      exact inv.owners r other owner
  · -- The child is alive now, but it has nothing pending.
    intro r
    show (s.memory.pageUsers r).users = _
    rw [inv.users r]
    congr 1
    ext other
    rw [mem_pendingUsers, mem_pendingUsers]
    show _ ↔ other ∈ insert child s.live ∧ (∃ entry ∈ ((s.memory.modify child fun _ =>
      s.memory.process me).process other).dirtiedPagesList, _)
    by_cases here : other = child
    · subst here
      have absent : ∀ i, (s.phase other).hasCommitted i = true := fun i => by rw [at_child]; rfl
      have before := inv.hasPending_eq_false absent (p := r)
      have after := inv.hasPending_eq_false all (p := r)
      rw [Memory.modify_process_self, ← hasPending_iff, ← hasPending_iff, before, after]
      simp
    · rw [Memory.modify_process_of_ne here, Finset.mem_insert]
      simp [here]

/-- A thread exits with its entries committed. -/
theorem Inv.exit (inv : Inv s) (at_exit : s.phase me = .calling .exit) :
    Inv ({ s with live := s.live.erase me }.setPhase me .exited) := by
  have all : ∀ i, (s.phase me).hasCommitted i = true := by
    intro i
    rw [at_exit]
    rfl
  have idle := inv.idle_of_all all
  refine ⟨inv.lost, inv.entries, ?_, ?_, inv.small, ?_, ?_, ?_⟩
  · intro other i entry found
    by_cases here : other = me
    · subst here
      rw [inv.committed other i entry found, State.hasCommitted, State.hasCommitted, all i,
        setPhase_phase_self]
      rfl
    · rw [inv.committed other i entry found]
      symm
      apply hasCommitted_congr
      · rfl
      · exact setPhase_phase_of_ne here
  · intro other pos visit
    have here : other ≠ me := fun same => idle pos (same ▸ visit)
    exact (inv.visits other pos visit).frame visit (setPhase_phase_of_ne here) rfl fun _ _ => rfl
  · intro other
    by_cases here : other = me
    · subst here
      rw [setPhase_phase_self]
      exact fun alive => alive.elim
    · rw [setPhase_phase_of_ne here]
      exact fun alive => Finset.mem_erase.mpr ⟨here, inv.alive other alive⟩
  · intro r other owner
    by_cases here : other = me
    · subst here
      rw [setPhase_phase_self]
      nofun
    · rw [setPhase_phase_of_ne here]
      exact inv.owners r other owner
  · -- The thread that leaves had nothing pending.
    intro r
    show (s.memory.pageUsers r).users = _
    rw [inv.users r]
    congr 1
    ext other
    rw [mem_pendingUsers, mem_pendingUsers]
    show _ ↔ other ∈ s.live.erase me ∧ _
    rw [Finset.mem_erase, ← hasPending_iff]
    by_cases here : other = me
    · subst here
      rw [inv.hasPending_eq_false all]
      simp
    · simp [here, hasPending_iff, State.setPhase]

/-- Copy-on-write is turned off and on by the only live thread, whose list is empty. -/
theorem Inv.setCopyOnWrite (inv : Inv s) {content : PageId → Page} {allocated : ℕ}
    (alone : s.live = {me}) (empty : (s.memory.process me).dirtiedPagesList = []) :
    Inv { s with
      memory := { s.memory with
        persistent := content
        pageOwner := (initial content allocated).memory.pageOwner
      }.modify me fun _ => initialProcess allocated } := by
  have unowned : ∀ p pid, (initial content allocated).memory.pageOwner p ≠ .process pid := by
    intro p pid
    show (if _ then Owner.unowned else Owner.shared) ≠ _
    split <;> nofun
  have lists : ∀ other, ((s.memory.modify me fun _ => initialProcess allocated).process
      other).dirtiedPagesList = (s.memory.process other).dirtiedPagesList := by
    intro other
    by_cases here : other = me
    · subst here
      rw [Memory.modify_process_self, empty]
      rfl
    · rw [Memory.modify_process_of_ne here]
  refine inv.frame rfl rfl rfl rfl rfl lists (fun p pid owner => absurd owner (unowned p pid)) ?_
  have reset : AllEntriesOk { s.memory with
      persistent := content
      pageOwner := (initial content allocated).memory.pageOwner } := fun other =>
    (inv.entries other).frame rfl (fun _ _ => rfl) (inv.entries other).access
      fun entry _ => unowned entry.pageNo other
  exact reset.modify _ ⟨List.nodup_nil, nofun, nofun, nofun⟩

theorem Inv.step (inv : Inv s) (keeps : KeepsEntries s label) (move : step s label = some s') :
    Inv s' := by
  cases label with
  | readFault me p =>
    obtain ⟨⟨-, closed, -⟩, rfl⟩ := guarded move
    exact inv.frame rfl rfl rfl rfl rfl (fun _ => Memory.handleRead_dirtiedPagesList)
      inv.owners (inv.entries.handleRead closed)
  | writeFault me p =>
    obtain ⟨⟨-, closed, -⟩, rfl⟩ := guarded move
    obtain ⟨where_, room, access⟩ := keeps
    by_cases owner : s.memory.pageOwner p = .process me
    · rw [Memory.handleWrite_of_owner owner]
      refine inv.frame rfl rfl rfl rfl Memory.openPage_pageUsers
        (fun _ => Memory.openPage_dirtiedPagesList) ?_ (inv.entries.openPage closed)
      rw [Memory.openPage_pageOwner]
      exact inv.owners
    · obtain ⟨at_user, settled⟩ := where_.resolve_right owner
      exact inv.recordUser at_user settled closed owner room fun bad => owner (access bad)
  | takeUnowned me p =>
    obtain ⟨-, rfl⟩ := guarded move
    exact inv.frame rfl rfl rfl rfl Memory.setSharedPage_pageUsers
      (fun _ => Memory.setSharedPage_dirtiedPagesList)
      (fun p me owner => inv.owners p me (setSharedPage_pageOwner owner)) inv.entries.setSharedPage
  | store me p offset value =>
    obtain ⟨-, rfl⟩ := guarded move
    refine inv.frame rfl rfl rfl rfl rfl (fun _ => Memory.store_dirtiedPagesList) inv.owners ?_
    apply inv.entries.modifySame <;> exact fun _ => rfl
  | setSyncEntry me o entry =>
    obtain ⟨-, rfl⟩ := guarded move
    exact inv.frame rfl rfl rfl rfl rfl (fun _ => setWord_dirtiedPagesList) inv.owners
      (inv.entries.setWord.congr rfl rfl)
  | clearSyncEntry me o =>
    obtain ⟨-, rfl⟩ := guarded move
    exact inv.frame rfl rfl rfl rfl rfl (fun _ => setWord_dirtiedPagesList) inv.owners
      inv.entries.setWord
  | setOwnedPage me p =>
    obtain ⟨⟨running, -⟩, rfl⟩ := guarded move
    refine inv.frame rfl rfl rfl rfl rfl (fun _ => Memory.setOwnedPage_dirtiedPagesList) ?_
      (inv.entries.setOwnedPage keeps)
    intro r other owner
    -- The new owner runs, so it is not absent.
    change Function.update s.memory.pageOwner p (.process me) r = _ at owner
    by_cases same : r = p
    · rw [same, Function.update_self] at owner
      obtain rfl := Owner.process.inj owner
      intro absent
      rw [absent] at running
      exact running
    · rw [Function.update_of_ne same] at owner
      exact inv.owners r other owner
  | commitOwnedPage me p setShared =>
    obtain ⟨owned, rfl⟩ := guarded move
    exact inv.frame rfl rfl rfl rfl Memory.commitOwnedPage_pageUsers
      (fun _ => Memory.commitOwnedPage_dirtiedPagesList)
      (fun p me owner => inv.owners p me (commitOwnedPage_owner owner))
      (inv.entries.commitOwnedPage owned)
  | cleanup =>
    obtain rfl := Option.some.inj move
    exact inv.frame rfl rfl rfl rfl rfl (fun _ => rfl) inv.owners (inv.entries.congr rfl rfl)
  | call me call =>
    simp only [Transactions.step] at move
    split at move
    · next at_user =>
      obtain rfl := Option.some.inj move
      have idle := inv.idle (show ∀ _ _, s.phase me ≠ _ by rw [at_user]; nofun)
      refine inv.setPhase nofun idle ?_ fun _ => inv.alive me (by rw [at_user]; trivial)
      intro i entry found
      rw [inv.committed me i entry found, hasCommitted_of_idle idle, at_user]
      simp [Phase.hasCommitted]
    · cases move
  | commitPage me =>
    simp only [Transactions.step] at move
    split at move
    · next call position at_commit => exact inv.commit at_commit move
    · cases move
  | begin me =>
    simp only [Transactions.step] at move
    split at move
    · next at_born =>
      obtain rfl := Option.some.inj move
      exact inv.update (fun i => by rw [at_born]; rfl) (inv.alive me (by rw [at_born]; trivial))
    · cases move
    · next call _ at_call =>
      obtain rfl := Option.some.inj move
      exact inv.update (fun i => by rw [at_call]; rfl) (inv.alive me (by rw [at_call]; trivial))
    · cases move
  | sigwaitFails me =>
    simp only [Transactions.step] at move
    split at move
    · next sig at_sigwait =>
      obtain rfl := Option.some.inj move
      -- `sigwait` fails without a commit: the condition asks for an empty list.
      refine inv.setPhase nofun (inv.idle (by rw [at_sigwait]; nofun)) ?_ fun _ =>
        inv.alive me (by rw [at_sigwait]; trivial)
      intro i entry found
      have empty : (s.memory.process me).dirtiedPagesList = [] := keeps
      rw [empty] at found
      cases found
    · cases move
  | fork me child =>
    simp only [Transactions.step] at move
    split at move
    · next at_spawn at_child =>
      obtain rfl := Option.some.inj move
      exact inv.fork at_spawn at_child
    · cases move
  | exit me =>
    simp only [Transactions.step] at move
    split at move
    · next at_exit =>
      obtain rfl := Option.some.inj move
      exact inv.exit at_exit
    · cases move
  | setCopyOnWrite me content allocated =>
    simp only [Transactions.step] at move
    split at move
    · obtain ⟨⟨alone, empty⟩, rfl⟩ := guarded move
      exact inv.setCopyOnWrite alone empty
    · cases move

theorem start_inv (content : PageId → Page) (allocated : ℕ) : Inv (start content allocated) := by
  have unowned : ∀ p pid, (start content allocated).memory.pageOwner p ≠ .process pid := by
    intro p pid
    show (if _ then Owner.unowned else Owner.shared) ≠ _
    split <;> nofun
  refine ⟨rfl, fun _ => ⟨List.nodup_nil, nofun, nofun, nofun⟩, nofun, nofun, fun _ => ⟨?_, ?_⟩, ?_,
    fun p pid owner => absurd owner (unowned p pid), ?_⟩
  · exact Nat.two_pow_pos 16
  · exact Nat.two_pow_pos 16
  · intro me alive
    change (Function.update (fun _ => Phase.absent) 0 .user me).Alive at alive
    by_cases here : me = 0
    · exact Finset.mem_singleton.mpr here
    · rw [Function.update_of_ne here] at alive
      exact alive.elim
  · intro p
    rfl

/-! ## Entries over whole runs -/

/-- A test for the condition, for runs in which no one owns a page. -/
def keepsEntries (s : State) : Label → Bool
  | .writeFault me p =>
      (match s.phase me with
        | .user => s.releasing != some p
        | _ => false) &&
      (s.memory.pageUsers p).users < 2 ^ 16 - 1 && (s.memory.process me).pageInfo p != .readWrite
  | .setOwnedPage _ _ | .sigwaitFails _ => false
  | _ => true

theorem keepsEntries_sound (passes : keepsEntries s label = true) : KeepsEntries s label := by
  cases label with
  | writeFault me p =>
    simp only [keepsEntries, Bool.and_eq_true, decide_eq_true_eq, bne_iff_ne] at passes
    refine ⟨.inl ?_, passes.1.2, fun access => absurd access passes.2⟩
    have program := passes.1.1
    split at program
    · next at_user => exact ⟨at_user, by simpa using program⟩
    · cases program
  | setOwnedPage => cases passes
  | sigwaitFails => cases passes
  | _ => trivial

end Tthread.Transactions
