/-
# The order of commits

In a round of the fence, processes fault on pages that nobody owns and store to their copies;
then they commit, one after the other. The first to commit a page that others have written too
makes its twin, the last one gives it back, and the ones between commit their differences to it.
Whoever takes which part, a page ends up as it was, overlaid with all changes.

A page with a single writer gets no twin. Its copy goes out as a whole, unless the version has
outgrown the field of the entry: then the differences to the storage of index 0 go out, which
is not a twin of anything.
-/

import Mathlib.Data.Finset.Card
import Tthread.CommitMerge
import Tthread.Library.Overlay

namespace Tthread.PageSystem

open Transition Overlay

/-- No process owns the page. -/
def Free (m : Memory) (p : PageId) : Prop := ∀ pid, m.pageOwner p ≠ .process pid

/-- The pages in the list of dirty pages. -/
def dirtyPages (q : Process) : List PageId := q.dirtiedPagesList.map Xpageinfo.pageNo

/-- The processes with an entry for the page. -/
def writers (m : Memory) (procs : List ℕ) (p : PageId) : List ℕ :=
  procs.filter fun me => p ∈ dirtyPages (m.process me)

/-- Pages that nobody owns have no users, and the processes have no copies of them. -/
structure Fresh (procs : List ℕ) (s : State) : Prop where
  idle : s.committing = none
  unused : ∀ p, Free s.memory p → s.memory.pageUsers p = ⟨0, 0⟩
  clean : ∀ me ∈ procs, (s.memory.process me).dirtiedPagesList = []
  closed : ∀ me ∈ procs, ∀ p, Free s.memory p → (s.memory.process me).transient p = none ∧
    (s.memory.process me).protection p ≠ .readWrite ∧ (s.memory.process me).pageInfo p ≠ .readWrite
  versions : ∀ p, s.memory.versions p < 2 ^ 64
  storage : 0 < s.memory.bitmap.cur

/-- The step is a fault or a store of one of the processes, on a page that nobody owns. -/
def Faulting (procs : List ℕ) (m : Memory) (_ : State) : Label → Prop
  | .readFault me p | .writeFault me p | .takeUnowned me p | .store me p _ _ =>
      me ∈ procs ∧ Free m p
  | _ => False

/-- From a fresh state the processes have faulted and stored, and none has committed. -/
structure Round (procs : List ℕ) (s s' : State) : Prop where
  distinct : procs.Nodup
  fresh : Fresh procs s
  faults : ∃ labels, system.Complies (Faulting procs s.memory) s labels ∧
    system.run s labels = some s'

/-- The steps of `checkandcommit` of a process. -/
def commitLabels (s : State) (me : ℕ) : List Label :=
  .checkandcommit me ::
    List.replicate ((s.memory.process me).dirtiedPagesList.length + 1) .commitPage

/-- Every page nobody owns is the original overlaid with all changes, and has no users and no
twin. -/
def Settled (procs : List ℕ) (s s' s'' : State) : Prop := ∀ p, Free s.memory p →
  s''.memory.persistent p = overlay (s.memory.persistent p) (fun me => s'.memory.view me p)
    (writers s'.memory procs p) ∧ s''.memory.pageUsers p = ⟨0, 0⟩

/-- No two processes change the same byte of a page, given the memory before and after. -/
def ChangesApart (procs : List ℕ) (m m' : Memory) : Prop := ∀ p, Free m p →
  ∀ me ∈ procs, ∀ other ∈ procs, ∀ offset, m'.view me p offset ≠ m.persistent p offset →
    m'.view other p offset ≠ m.persistent p offset → me = other

/-- The page has a single writer and a version that its entry cannot hold. -/
def Outgrown (procs : List ℕ) (m m' : Memory) (p : PageId) : Prop :=
  (writers m' procs p).length = 1 ∧ 2 ^ 32 ≤ m.versions p

instance (procs : List ℕ) (m m' : Memory) (p : PageId) : Decidable (Outgrown procs m m' p) :=
  inferInstanceAs (Decidable (_ ∧ _))

/-- What the copies of a page are compared with. -/
def base (procs : List ℕ) (m m' : Memory) (p : PageId) : Page :=
  if Outgrown procs m m' p then m.bitmap.page 0 else m.persistent p

/-- Where a page with a single writer has outgrown its entry, what the writer has changed
differs from the storage of index 0. -/
def VersionsFit (procs : List ℕ) (m m' : Memory) : Prop := ∀ p, Free m p →
  Outgrown procs m m' p → ∀ me ∈ writers m' procs p, ∀ offset,
    m'.view me p offset ≠ m.persistent p offset →
      m'.view me p offset ≠ m.bitmap.page 0 offset

/-- The pages with several writers. -/
def multiplyWritten (m : Memory) (procs : List ℕ) : Finset PageId :=
  (procs.flatMap fun me => dirtyPages (m.process me)).toFinset.filter fun p =>
    1 < (writers m procs p).length

/-! ## Faults -/

/-- The users of a page after a number of increments of the two fields at once. -/
def counted (c : ℕ) : Shareinfo := ⟨c % 2 ^ 32 % 2 ^ 16, c % 2 ^ 32 / 2 ^ 16⟩

theorem counted_increment (c : ℕ) : (counted c).increment = counted (c + 1) := by
  simp only [counted, Shareinfo.increment, Shareinfo.mk.injEq]
  omega

theorem counted_of_lt {c : ℕ} (few : c < 2 ^ 16) : counted c = ⟨c, 0⟩ := by
  simp only [counted, Shareinfo.mk.injEq]
  omega

/-- A process between its refresh and its commit. -/
structure Opened (m : Memory) (q : Process) : Prop where
  entries : ∀ entry ∈ q.dirtiedPagesList, Free m entry.pageNo ∧
    entry.version = m.versions entry.pageNo % 2 ^ 32
  nodup : (dirtyPages q).Nodup
  writable : ∀ p, Free m p → (q.protection p = .readWrite ↔ p ∈ dirtyPages q)
  copied : ∀ p, Free m p → q.transient p ≠ none → q.protection p = .readWrite
  neverOwner : ∀ p, Free m p → q.pageInfo p ≠ .readWrite

/-- What faults and stores leave, given the memory before them. -/
structure FaultInv (procs : List ℕ) (m₀ m : Memory) : Prop where
  persistent : m.persistent = m₀.persistent
  versions : m.versions = m₀.versions
  bitmap : m.bitmap = m₀.bitmap
  owners : ∀ p, Free m₀ p → Free m p
  users : ∀ p, Free m₀ p → m.pageUsers p = counted (writers m procs p).length
  opened : ∀ me ∈ procs, Opened m₀ (m.process me)

variable {procs : List ℕ} {m₀ m : Memory} {me : ℕ} {p : PageId} {q : Process}

/-- One more process has an entry. -/
theorem length_filter_insert {keeps keeps' : ℕ → Prop} [DecidablePred keeps]
    [DecidablePred keeps'] (distinct : procs.Nodup) (member : me ∈ procs) (new : ¬ keeps me)
    (same : ∀ other, keeps' other ↔ other = me ∨ keeps other) :
    (procs.filter keeps').length = (procs.filter keeps).length + 1 := by
  have split := List.perm_cons_erase member
  have others : (procs.erase me).filter keeps' = (procs.erase me).filter keeps := by
    apply List.filter_congr
    intro other inside
    have different : other ≠ me := ((List.Nodup.mem_erase_iff distinct).mp inside).1
    simp [same, different]
  rw [(split.filter _).length_eq, (split.filter fun k => decide (keeps k)).length_eq,
    List.filter_cons_of_pos (by simp [same]), List.filter_cons_of_neg (by simpa using new), others]
  rfl

theorem writers_congr {m' : Memory}
    (same : ∀ me ∈ procs, dirtyPages (m'.process me) = dirtyPages (m.process me)) :
    writers m' procs p = writers m procs p := by
  apply List.filter_congr
  intro me member
  rw [same me member]

/-- Only the private part of one process changes, and not its list. -/
theorem FaultInv.modify (inv : FaultInv procs m₀ m) (change : Process → Process)
    (pages : ∀ q, dirtyPages (change q) = dirtyPages q)
    (opened : me ∈ procs → Opened m₀ (change (m.process me))) :
    FaultInv procs m₀ (m.modify me change) := by
  have processes : ∀ other ∈ procs,
      dirtyPages ((m.modify me change).process other) = dirtyPages (m.process other) := by
    intro other _
    by_cases here : other = me
    · subst here
      rw [Memory.modify_process_self, pages]
    · rw [Memory.modify_process_of_ne here]
  refine ⟨inv.persistent, inv.versions, inv.bitmap, inv.owners, ?_, ?_⟩
  · intro p free
    rw [writers_congr processes]
    exact inv.users p free
  · intro other member
    by_cases here : other = me
    · subst here
      rw [Memory.modify_process_self]
      exact opened member
    · rw [Memory.modify_process_of_ne here]
      exact inv.opened other member

theorem Opened.setPageInfo (opened : Opened m₀ q) : Opened m₀ (q.setPageInfo p .read) where
  entries := opened.entries
  nodup := opened.nodup
  writable := opened.writable
  copied := opened.copied
  neverOwner r free := by
    show Function.update q.pageInfo p .read r ≠ .readWrite
    by_cases same : r = p
    · rw [same, Function.update_self]
      decide
    · rw [Function.update_of_ne same]
      exact opened.neverOwner r free

/-- A page that was closed is opened for reading. -/
theorem Opened.mprotectRead (opened : Opened m₀ q) (closed : q.protection p = .none) :
    Opened m₀ (q.mprotectRead p) := by
  have access := opened.setPageInfo (p := p)
  have shut : ∀ r, (q.mprotectRead p).protection r = .readWrite ↔ q.protection r = .readWrite := by
    intro r
    show Function.update q.protection p .read r = .readWrite ↔ _
    by_cases same : r = p
    · subst same
      rw [Function.update_self, closed]
      decide
    · rw [Function.update_of_ne same]
  refine ⟨access.entries, access.nodup, ?_, ?_, access.neverOwner⟩
  · intro r free
    rw [shut]
    exact opened.writable r free
  · intro r free copy
    rw [shut]
    exact opened.copied r free copy

/-- A store to a page that is open for writing. -/
theorem Opened.setCopy (opened : Opened m₀ q) (writable : q.protection p = .readWrite)
    (content : Page) (stored : Fin pageSize → Bool) : Opened m₀ (q.setCopy p content stored) where
  entries := opened.entries
  nodup := opened.nodup
  writable := opened.writable
  copied r free copy := by
    by_cases same : r = p
    · exact same ▸ writable
    · change Function.update q.transient p (some content) r ≠ none at copy
      rw [Function.update_of_ne same] at copy
      exact opened.copied r free copy
  neverOwner := opened.neverOwner

/-- A write fault on a page that is not open for writing makes an entry. -/
theorem Opened.handleWrite (opened : Opened m₀ q) (closed : q.protection p ≠ .readWrite)
    (free : Free m₀ p) {entry : Xpageinfo} (here : entry.pageNo = p)
    (version : entry.version = m₀.versions p % 2 ^ 32) :
    Opened m₀ { q.mprotect p .readWrite with
      dirtiedPagesList := Memory.insertEntry entry q.dirtiedPagesList
      written := Function.update q.written p fun _ => false } := by
  have listed : (Memory.insertEntry entry q.dirtiedPagesList).Perm
      (entry :: q.dirtiedPagesList) := List.perm_orderedInsert ..
  have pages := listed.map Xpageinfo.pageNo
  rw [List.map_cons, here] at pages
  have absent : p ∉ dirtyPages q := fun member => closed ((opened.writable p free).mpr member)
  refine ⟨?_, ?_, ?_, ?_, opened.neverOwner⟩
  · intro e member
    rcases List.mem_cons.mp (listed.mem_iff.mp member) with rfl | old
    · rw [here]
      exact ⟨free, version⟩
    · exact opened.entries e old
  · exact pages.nodup_iff.mpr (List.nodup_cons.mpr ⟨absent, opened.nodup⟩)
  · intro r freeR
    show Function.update q.protection p .readWrite r = .readWrite ↔
      r ∈ (Memory.insertEntry entry q.dirtiedPagesList).map Xpageinfo.pageNo
    rw [pages.mem_iff]
    by_cases same : r = p
    · subst same
      rw [Function.update_self]
      exact iff_of_true rfl List.mem_cons_self
    · rw [Function.update_of_ne same, opened.writable r freeR, List.mem_cons]
      exact ⟨.inr, fun either => either.resolve_left same⟩
  · intro r freeR copy
    have before := opened.copied r freeR copy
    show Function.update q.protection p .readWrite r = .readWrite
    by_cases same : r = p
    · rw [same, Function.update_self]
    · rw [Function.update_of_ne same]
      exact before

theorem free_setSharedPage {r : PageId} (free : Free m r) : Free (m.setSharedPage me p) r := by
  intro pid
  unfold Memory.setSharedPage
  split
  · show Function.update (Function.update m.pageOwner p.next .unowned) p .shared r ≠ _
    by_cases here : r = p
    · rw [here, Function.update_self]
      nofun
    · rw [Function.update_of_ne here]
      by_cases next : r = p.next
      · rw [next, Function.update_self]
        nofun
      · rw [Function.update_of_ne next]
        exact free pid
  · exact free pid

theorem FaultInv.setSharedPage (inv : FaultInv procs m₀ m) :
    FaultInv procs m₀ (m.setSharedPage me p) := by
  have owners : ∀ r, Free m₀ r → Free (m.setSharedPage me p) r :=
    fun r free => free_setSharedPage (inv.owners r free)
  unfold Memory.setSharedPage at owners ⊢
  split
  · next other =>
    simp only [if_pos other] at owners
    have handed : FaultInv procs m₀ { m with
        pageOwner := Function.update (Function.update m.pageOwner p.next .unowned) p .shared } :=
      ⟨inv.persistent, inv.versions, inv.bitmap, owners, inv.users, inv.opened⟩
    exact handed.modify _ (fun _ => rfl) fun member => (inv.opened me member).setPageInfo
  · exact inv

theorem FaultInv.handleWrite (inv : FaultInv procs m₀ m) (distinct : procs.Nodup)
    (member : me ∈ procs) (free : Free m₀ p) (closed : (m.process me).protection p ≠ .readWrite) :
    FaultInv procs m₀ (m.handleWrite me p) := by
  have opened := inv.opened me member
  rw [Memory.handleWrite_eq (inv.owners p free me) (opened.neverOwner p free)]
  -- A page on the list is writable, and this one is not.
  have absent : p ∉ dirtyPages (m.process me) :=
    fun listed => closed ((opened.writable p free).mpr listed)
  have version : (m.newEntry p).version = m₀.versions p % 2 ^ 32 := by
    rw [← inv.versions]
    rfl
  have here : (m.newEntry p).pageNo = p := rfl
  have after := opened.handleWrite closed free here version
  -- What the fault changes: the process that took it, and the users of `p`.
  generalize same : ({ m with
    pageUsers := Function.update m.pageUsers p (m.pageUsers p).increment }.modify me fun q =>
      { q.mprotect p .readWrite with
        dirtiedPagesList := Memory.insertEntry (m.newEntry p) q.dirtiedPagesList
        written := Function.update q.written p fun _ => false }) = m'
  have mine : m'.process me = { (m.process me).mprotect p .readWrite with
      dirtiedPagesList := Memory.insertEntry (m.newEntry p) (m.process me).dirtiedPagesList
      written := Function.update (m.process me).written p fun _ => false } := by
    rw [← same, Memory.modify_process_self]
  have others : ∀ other, other ≠ me → m'.process other = m.process other := by
    intro other different
    rw [← same, Memory.modify_process_of_ne different]
  have users : m'.pageUsers = Function.update m.pageUsers p (m.pageUsers p).increment := by
    rw [← same]
    rfl
  -- The list of `me` gets the page `p`, and keeps the others.
  have pages : ∀ r, r ∈ dirtyPages (m'.process me) ↔ r = p ∨ r ∈ dirtyPages (m.process me) := by
    intro r
    have listed : (Memory.insertEntry (m.newEntry p) (m.process me).dirtiedPagesList).Perm
        (m.newEntry p :: (m.process me).dirtiedPagesList) := List.perm_orderedInsert ..
    rw [mine, dirtyPages, (listed.map Xpageinfo.pageNo).mem_iff]
    exact List.mem_cons
  refine ⟨?_, ?_, ?_, ?_, ?_, ?_⟩
  · rw [← same]
    exact inv.persistent
  · rw [← same]
    exact inv.versions
  · rw [← same]
    exact inv.bitmap
  · rw [← same]
    exact inv.owners
  · intro r freeR
    rw [users]
    by_cases here : r = p
    · subst here
      rw [Function.update_self, inv.users r freeR, counted_increment]
      congr 1
      -- One user more, one process more that has the page on its list.
      refine (length_filter_insert distinct member absent fun other => ?_).symm
      by_cases mineIs : other = me
      · subst mineIs
        rw [pages]
        simp
      · rw [others other mineIs]
        simp [mineIs]
    · rw [Function.update_of_ne here, inv.users r freeR]
      congr 2
      apply List.filter_congr
      intro other _
      by_cases mineIs : other = me
      · subst mineIs
        simp [pages, here]
      · rw [others other mineIs]
  · intro other inside
    by_cases mineIs : other = me
    · subst mineIs
      rw [mine]
      exact after
    · rw [others other mineIs]
      exact inv.opened other inside

/-- **One step of the round.** -/
theorem FaultInv.step {s s' : State} {label : Label} (inv : FaultInv procs m₀ s.memory)
    (distinct : procs.Nodup) (faulting : Faulting procs m₀ s label)
    (move : system.step s label = some s') :
    FaultInv procs m₀ s'.memory ∧ s'.committing = s.committing := by
  cases label with
  | readFault me p =>
    obtain ⟨⟨-, closed, -⟩, rfl⟩ := guarded move
    exact ⟨inv.modify (fun q => q.mprotectRead p) (fun _ => rfl)
      fun member => (inv.opened me member).mprotectRead closed, rfl⟩
  | writeFault me p =>
    obtain ⟨⟨-, closed, -⟩, rfl⟩ := guarded move
    exact ⟨inv.handleWrite distinct faulting.1 faulting.2 closed, rfl⟩
  | takeUnowned me p =>
    obtain ⟨-, rfl⟩ := guarded move
    exact ⟨inv.setSharedPage, rfl⟩
  | store me p offset value =>
    obtain ⟨⟨-, writable⟩, rfl⟩ := guarded move
    exact ⟨inv.modify (fun q => q.setCopy p (Function.update (s.memory.view me p) offset value)
      fun other => other = offset) (fun _ => rfl)
      fun member => (inv.opened me member).setCopy writable _ _, rfl⟩
  | setSyncEntry me o entry => exact faulting.elim
  | clearSyncEntry me o => exact faulting.elim
  | setOwnedPage me p => exact faulting.elim
  | commitOwnedPage me p setShared => exact faulting.elim
  | checkandcommit me => exact faulting.elim
  | commitPage => exact faulting.elim
  | updateAll me => exact faulting.elim
  | cleanup => exact faulting.elim

theorem Fresh.faultInv {s : State} (fresh : Fresh procs s) : FaultInv procs s.memory s.memory := by
  have none : ∀ me ∈ procs, dirtyPages (s.memory.process me) = [] := by
    intro me member
    rw [dirtyPages, fresh.clean me member]
    rfl
  refine ⟨rfl, rfl, rfl, fun _ => id, ?_, ?_⟩
  · intro p free
    have nobody : writers s.memory procs p = [] := by
      apply List.filter_eq_nil_iff.mpr
      intro me member
      simp [none me member]
    rw [nobody, fresh.unused p free]
    rfl
  · intro me member
    refine ⟨?_, ?_, ?_, ?_, ?_⟩
    · intro entry listed
      rw [fresh.clean me member] at listed
      cases listed
    · rw [none me member]
      exact .nil
    · intro p free
      rw [none me member]
      exact iff_of_false (fresh.closed me member p free).2.1 List.not_mem_nil
    · intro p free copy
      exact absurd (fresh.closed me member p free).1 copy
    · exact fun p free => (fresh.closed me member p free).2.2

theorem Round.faultInv {s s' : State} (round : Round procs s s') :
    FaultInv procs s.memory s'.memory ∧ s'.committing = none := by
  obtain ⟨labels, complies, execution⟩ := round.faults
  have preserved : ∀ s₁ label s₂, FaultInv procs s.memory s₁.memory ∧ s₁.committing = none →
      Faulting procs s.memory s₁ label → system.step s₁ label = some s₂ →
      FaultInv procs s.memory s₂.memory ∧ s₂.committing = none := by
    rintro s₁ label s₂ ⟨inv, idle⟩ faulting move
    obtain ⟨after, same⟩ := inv.step round.distinct faulting move
    exact ⟨after, same.trans idle⟩
  exact System.Complies.invariant
    (fun s₁ : State => FaultInv procs s.memory s₁.memory ∧ s₁.committing = none) preserved
    ⟨round.fresh.faultInv, round.fresh.idle⟩ complies execution

/-! ## Twins of a round -/

/-- Some of the pages have twins, in storage of their own that holds the original. -/
structure Twins (m₀ m : Memory) (has : PageId → Prop) (room : ℕ) : Prop where
  positive : 0 < m.bitmap.cur
  room : m.bitmap.cur + room ≤ 2047
  without : ∀ p, Free m₀ p → ¬ has p → (m.pageUsers p).bitmapIndex = 0
  twin : ∀ p, Free m₀ p → has p → (m.pageUsers p).bitmapIndex ≠ 0 ∧
    (m.pageUsers p).bitmapIndex < m.bitmap.cur ∧
    m.bitmap.page (m.pageUsers p).bitmapIndex = m₀.persistent p
  distinct : ∀ p q, Free m₀ p → Free m₀ q → (m.pageUsers p).bitmapIndex ≠ 0 →
    (m.pageUsers p).bitmapIndex = (m.pageUsers q).bitmapIndex → p = q
  zero : m.bitmap.page 0 = m₀.bitmap.page 0

variable {m' m₁ : Memory} {has has' : PageId → Prop} {room room' : ℕ}

theorem Twins.congr (twins : Twins m₀ m has room) (users : m'.pageUsers = m.pageUsers)
    (bitmap : m'.bitmap = m.bitmap) (fewer : room' ≤ room) (same : ∀ p, has' p ↔ has p) :
    Twins m₀ m' has' room' where
  positive := bitmap ▸ twins.positive
  room := by
    rw [bitmap]
    exact (Nat.add_le_add_left fewer _).trans twins.room
  without p free none := by
    rw [users]
    exact twins.without p free fun twin => none ((same p).mpr twin)
  twin p free twin := by
    rw [users, bitmap]
    exact twins.twin p free ((same p).mp twin)
  distinct := users ▸ twins.distinct
  zero := bitmap ▸ twins.zero

/-- The next index is the counter. -/
theorem Twins.get (twins : Twins m₀ m has (room + 1)) :
    m.bitmap.get = (m.bitmap.cur, { m.bitmap with cur := m.bitmap.cur + 1 }) := by
  have more : m.bitmap.cur + 1 < Xbitmap.total := by
    have bound := twins.room
    unfold Xbitmap.total
    omega
  rw [Xbitmap.get, if_pos more]

/-- A twin is made while the page is the original. -/
theorem Twins.create (twins : Twins m₀ m has (room + 1)) (none : ¬ has p)
    (original : m.persistent p = m₀.persistent p) :
    Twins m₀ (m.createTwinPage p) (fun q => q = p ∨ has q) room := by
  have bound := twins.room
  have index : ∀ q, ((m.createTwinPage p).pageUsers q).bitmapIndex =
      if q = p then m.bitmap.cur else (m.pageUsers q).bitmapIndex := by
    intro q
    simp only [Memory.createTwinPage, twins.get]
    by_cases same : q = p
    · subst same
      rw [Function.update_self, if_pos rfl]
      exact Nat.mod_eq_of_lt (by omega)
    · rw [Function.update_of_ne same, if_neg same]
  have storage : (m.createTwinPage p).bitmap =
      (Xbitmap.setPage { m.bitmap with cur := m.bitmap.cur + 1 } m.bitmap.cur
        (m.persistent p)).setVersion m.bitmap.cur (m.versions p) := by
    simp only [Memory.createTwinPage, twins.get]
  have counter : (m.createTwinPage p).bitmap.cur = m.bitmap.cur + 1 := by
    rw [storage]
    rfl
  -- the version number lies before the storage of all indices
  have kept : ∀ other, other ≠ m.bitmap.cur →
      (m.createTwinPage p).bitmap.page other = m.bitmap.page other := by
    intro other different
    have apart : ¬ Xbitmap.Overlays m.bitmap.cur other := by
      simp only [Xbitmap.Overlays, Xbitmap.getAddress, Xbitmap.versionAddress, Xbitmap.pageStart,
        Xbitmap.versionStart, pageSize]
      omega
    rw [storage, Xbitmap.page_setVersion apart, Xbitmap.page_setPage_of_ne different]
    rfl
  have fresh : ∀ q, Free m₀ q → (m.pageUsers q).bitmapIndex ≠ m.bitmap.cur := by
    intro q free same
    by_cases twin : has q
    · have before := (twins.twin q free twin).2.1
      omega
    · have zero := twins.without q free twin
      have positive := twins.positive
      omega
  refine ⟨?_, ?_, ?_, ?_, ?_, ?_⟩
  · rw [counter]
    exact Nat.succ_pos _
  · rw [counter]
    omega
  · intro q free other
    rw [not_or] at other
    rw [index, if_neg other.1]
    exact twins.without q free other.2
  · intro q free twin
    rw [index, counter]
    by_cases same : q = p
    · subst same
      rw [if_pos rfl, storage, Xbitmap.page_setVersion (Xbitmap.not_overlays_self _),
        Xbitmap.page_setPage_self]
      have positive := twins.positive
      exact ⟨by omega, by omega, original⟩
    · obtain ⟨used, before, holds⟩ := twins.twin q free (twin.resolve_left same)
      rw [if_neg same, kept _ (fresh q free)]
      exact ⟨used, by omega, holds⟩
  · intro q r freeQ freeR used same
    rw [index] at used
    rw [index, index] at same
    by_cases isQ : q = p <;> by_cases isR : r = p
    · exact isQ.trans isR.symm
    · rw [if_pos isQ, if_neg isR] at same
      exact absurd same.symm (fresh r freeR)
    · rw [if_neg isQ, if_pos isR] at same
      exact absurd same (fresh q freeQ)
    · rw [if_neg isQ] at used same
      rw [if_neg isR] at same
      exact twins.distinct q r freeQ freeR used same
  · have positive := twins.positive
    rw [kept 0 (by omega), twins.zero]

/-- The last user gives the twin back, and the others leave it. -/
theorem Twins.finishCommit (twins : Twins m₀ m has room)
    (same : ∀ q, has' q ↔ has q ∧ (q = p → (m.pageUsers p).users ≠ 1)) :
    Twins m₀ (m.finishCommit p) has' room := by
  have index : ∀ q, ((m.finishCommit p).pageUsers q).bitmapIndex =
      if q = p ∧ (m.pageUsers p).users = 1 then 0 else (m.pageUsers q).bitmapIndex := by
    intro q
    show (Function.update m.pageUsers p (m.pageUsers p).release q).bitmapIndex = _
    by_cases here : q = p
    · subst here
      rw [Function.update_self]
      simp [Shareinfo.release]
    · rw [Function.update_of_ne here, if_neg fun both => here both.1]
  refine ⟨twins.positive, twins.room, ?_, ?_, ?_, twins.zero⟩
  · intro q free none
    rw [index]
    split
    · rfl
    · next other =>
      apply twins.without q free
      intro twin
      exact none ((same q).mpr ⟨twin, fun here one => other ⟨here, one⟩⟩)
  · intro q free twin
    obtain ⟨before, more⟩ := (same q).mp twin
    rw [index, if_neg fun both => more both.1 both.2]
    exact twins.twin q free before
  · intro q r freeQ freeR used equal
    have kept : ∀ q, ((m.finishCommit p).pageUsers q).bitmapIndex ≠ 0 →
        ((m.finishCommit p).pageUsers q).bitmapIndex = (m.pageUsers q).bitmapIndex := by
      intro q used
      rw [index] at used ⊢
      split at used
      · exact absurd rfl used
      · next other => rw [if_neg other]
    have usedR := equal ▸ used
    rw [kept q used, kept r usedR] at equal
    exact twins.distinct q r freeQ freeR (kept q used ▸ used) equal

/-! ## Commits -/

/-- What does not change while the processes of a round commit. The pages are those that may
have several writers. -/
structure Setting (procs : List ℕ) (m₀ m₁ : Memory) (pages : Finset PageId) : Prop where
  faults : FaultInv procs m₀ m₁
  versions : ∀ p, m₀.versions p < 2 ^ 64
  few : ∀ p, Free m₀ p → (writers m₁ procs p).length < 2 ^ 16
  several : ∀ p, Free m₀ p → 1 < (writers m₁ procs p).length → p ∈ pages
  apart : ChangesApart procs m₀ m₁

/-- What commits leave of a round, given who has committed each page. -/
structure CommitInv (procs : List ℕ) (m₀ m₁ : Memory) (pages : Finset PageId)
    (done : PageId → List ℕ) (m : Memory) : Prop where
  copies : ∀ me, (m.process me).transient = (m₁.process me).transient
  owners : ∀ p, Free m₀ p → Free m p
  among : ∀ p, (done p).Nodup ∧ ∀ me ∈ done p, me ∈ writers m₁ procs p
  users : ∀ p, Free m₀ p → (m.pageUsers p).users + (done p).length = (writers m₁ procs p).length
  version : ∀ p, Free m₀ p → m.versions p = (m₀.versions p + (done p).length) % 2 ^ 64
  carries : ∀ p, Free m₀ p → Carries (m₀.persistent p) (base procs m₀ m₁ p)
    (fun me => m₁.view me p) (done p) (m.persistent p)
  twins : Twins m₀ m (fun p => done p ≠ [] ∧ (done p).length < (writers m₁ procs p).length)
    (pages.filter fun p => done p = []).card

variable {pages : Finset PageId} {done : PageId → List ℕ} {entry : Xpageinfo} {other : ℕ}

/-- Somebody who has not committed is left over. -/
theorem CommitInv.remaining (inv : CommitInv procs m₀ m₁ pages done m)
    (wrote : me ∈ writers m₁ procs p) (pending : me ∉ done p) :
    (done p).length < (writers m₁ procs p).length := by
  obtain ⟨nodup, sub⟩ := inv.among p
  have all : me :: done p ⊆ writers m₁ procs p := by
    intro other member
    rcases List.mem_cons.mp member with rfl | old
    · exact wrote
    · exact sub other old
  exact (List.subperm_of_subset (List.nodup_cons.mpr ⟨pending, nodup⟩) all).length_le

/-- A page that is begun is off the list of those that are not. -/
theorem card_filter_update (others : List ℕ) (ne : others ≠ []) :
    (pages.filter fun q => Function.update done p others q = []) =
      (pages.filter fun q => done q = []).erase p := by
  ext q
  rw [Finset.mem_filter, Finset.mem_erase, Finset.mem_filter]
  by_cases same : q = p
  · subst same
    rw [Function.update_self]
    exact iff_of_false (fun both => ne both.2) fun both => both.1 rfl
  · rw [Function.update_of_ne same]
    exact ⟨fun both => ⟨same, both⟩, And.right⟩

/-- Only the content of a page that nobody has committed is the original for certain. -/
theorem CommitInv.untouched (inv : CommitInv procs m₀ m₁ pages done m) (free : Free m₀ p)
    (first : done p = []) : m.persistent p = m₀.persistent p := by
  funext offset
  apply (inv.carries p free).kept
  rw [first]
  exact nofun

/-- Before a page goes out it has a twin if and only if it has several writers. -/
theorem CommitInv.withTwin (inv : CommitInv procs m₀ m₁ pages done m)
    (setting : Setting procs m₀ m₁ pages) (free : Free m₀ p) (wrote : me ∈ writers m₁ procs p)
    (pending : me ∉ done p) :
    Twins m₀ (m.withTwin p)
      (fun q => (q = p → 1 < (writers m₁ procs p).length) ∧ (q ≠ p → done q ≠ [] ∧
        (done q).length < (writers m₁ procs q).length))
      (pages.filter fun q => Function.update done p (me :: done p) q = []).card := by
  have remaining := inv.remaining wrote pending
  have users := inv.users p free
  rw [card_filter_update _ (List.cons_ne_nil me (done p))]
  unfold Memory.withTwin
  split
  · next needs =>
    -- somebody else's commit would have made the twin
    have first : done p = [] := by
      by_contra begun
      exact (inv.twins.twin p free ⟨begun, remaining⟩).1 needs.2
    have several : 1 < (writers m₁ procs p).length := by
      have more := needs.1
      omega
    have listed : p ∈ pages.filter fun q => done q = [] :=
      Finset.mem_filter.mpr ⟨setting.several p free several, first⟩
    have card := Finset.card_erase_add_one listed
    have original := inv.untouched free first
    have none : ¬ (done p ≠ [] ∧ (done p).length < (writers m₁ procs p).length) :=
      fun both => both.1 first
    have twins := inv.twins
    rw [← card] at twins
    refine (twins.create none original).congr rfl rfl le_rfl fun q => ?_
    by_cases same : q = p
    · subst same
      exact iff_of_true ⟨fun _ => several, fun other => absurd rfl other⟩ (.inl rfl)
    · constructor
      · exact fun both => .inr (both.2 same)
      · exact fun either => ⟨fun here => absurd here same, fun _ => either.resolve_left same⟩
  · next enough =>
    refine inv.twins.congr rfl rfl (Finset.card_erase_le) fun q => ?_
    by_cases same : q = p
    · subst same
      have begun : 1 < (writers m₁ procs q).length ↔ done q ≠ [] := by
        constructor
        · intro several first
          have index := inv.twins.without q free fun both => both.1 first
          rw [first, List.length_nil, Nat.add_zero] at users
          exact enough ⟨users ▸ several, index⟩
        · intro begun
          have positive := List.length_pos_iff.mpr begun
          omega
      constructor
      · exact fun both => ⟨begun.mp (both.1 rfl), remaining⟩
      · exact fun both => ⟨fun _ => begun.mpr both.1, fun other => absurd rfl other⟩
    · constructor
      · exact fun both => both.2 same
      · exact fun both => ⟨fun here => absurd here same, fun _ => both⟩

/-- A process sees its copy, or whatever the page is now. -/
theorem CommitInv.view_eq (inv : CommitInv procs m₀ m₁ pages done m)
    (setting : Setting procs m₀ m₁ pages) :
    m.view me p = m₁.view me p ∨
      (m.view me p = m.persistent p ∧ m₁.view me p = m₀.persistent p) := by
  unfold Memory.view
  rw [inv.copies me, setting.faults.persistent]
  cases (m₁.process me).transient p with
  | none => exact .inr ⟨rfl, rfl⟩
  | some copy => exact .inl rfl

/-- **One commit of one page.** What the process has against the base goes out. -/
theorem CommitInv.copyOut (inv : CommitInv procs m₀ m₁ pages done m)
    (setting : Setting procs m₀ m₁ pages) (free : Free m₀ p) (wrote : me ∈ writers m₁ procs p)
    (pending : me ∉ done p) (here : entry.pageNo = p)
    (version : entry.version = m₀.versions p % 2 ^ 32) (offset : Fin pageSize) :
    let mine := m₁.view me p offset
    let after := ((m.withTwin p).copyOut me entry).persistent p offset
    (mine ≠ base procs m₀ m₁ p offset → after = mine) ∧
      (mine = base procs m₀ m₁ p offset → after = m.persistent p offset) := by
  intro mine after
  have remaining := inv.remaining wrote pending
  have few := setting.few p free
  have number := inv.version p free
  have bound := setting.versions p
  have twins := inv.withTwin setting free wrote pending
  have view : (m.withTwin p).view me p = m.view me p := by
    unfold Memory.view
    rw [withTwin_process, withTwin_persistent]
  have first : (writers m₁ procs p).length = 1 → m.persistent p = m₀.persistent p := by
    intro single
    apply inv.untouched free
    exact List.length_eq_zero_iff.mp (by omega)
  -- the twin, or the storage of index 0 that stands in for it
  have twin : entry.version ≠ m.versions p →
      (m.withTwin p).bitmap.page ((m.withTwin p).pageUsers p).bitmapIndex =
        base procs m₀ m₁ p := by
    intro stale
    unfold base
    by_cases several : 1 < (writers m₁ procs p).length
    · have single : ¬ Outgrown procs m₀ m₁ p := fun both => several.ne' both.1
      rw [if_neg single]
      exact (twins.twin p free ⟨fun _ => several, fun other => absurd rfl other⟩).2.2
    · have none := twins.without p free fun both => several (both.1 rfl)
      have outgrown : Outgrown procs m₀ m₁ p := by
        refine ⟨by omega, ?_⟩
        rw [version, number] at stale
        omega
      rw [none, if_pos outgrown]
      exact twins.zero
  have formula : after = if entry.version = m.versions p then m.view me p offset
      else if m.view me p offset = base procs m₀ m₁ p offset then m.persistent p offset
      else m.view me p offset := by
    have out : ((m.withTwin p).copyOut me entry).persistent p = _ :=
      here ▸ copyOut_persistent_self
    rw [withTwin_versions, view, withTwin_persistent] at out
    refine (congrFun out offset).trans ?_
    split
    · rfl
    · next stale => rw [PageDiffs.writePageDiffs_apply, twin stale]
  have seen : m.view me p = m₁.view me p ∨
      m.view me p = m.persistent p ∧ m₁.view me p = m₀.persistent p := inv.view_eq setting
  rcases seen with own | ⟨shown, unchanged⟩
  · rw [formula, own]
    by_cases current : entry.version = m.versions p
    · -- nobody has committed the page, and the version fits
      rw [version, number] at current
      have none : done p = [] := List.length_eq_zero_iff.mp (by omega)
      have small : ¬ Outgrown procs m₀ m₁ p := by
        intro outgrown
        have large := outgrown.2
        omega
      rw [version, number, if_pos current]
      refine ⟨fun _ => rfl, fun equal => ?_⟩
      rw [inv.untouched free none]
      unfold base at equal
      rwa [if_neg small] at equal
    · rw [if_neg current]
      constructor
      · exact fun differs => if_neg differs
      · exact fun equal => if_pos equal
  · -- without a copy, the page is what it was
    have still : after = m.persistent p offset := by
      rw [formula, shown]
      split
      · rfl
      · exact ite_self _
    refine ⟨fun differs => ?_, fun _ => still⟩
    have outgrown : Outgrown procs m₀ m₁ p := by
      by_contra small
      unfold base at differs
      rw [if_neg small] at differs
      exact differs (congrFun unchanged offset)
    rw [still, first outgrown.1]
    exact (congrFun unchanged offset).symm

theorem copyOut_transient :
    ((m.copyOut me entry).process other).transient = (m.process other).transient := by
  simp only [Memory.copyOut]
  split
  · rfl
  · exact Memory.setSharedPage_transient

theorem copyOut_versions : (m.copyOut me entry).versions = m.versions := by
  simp only [Memory.copyOut]
  split
  · rfl
  · exact Memory.setSharedPage_versions

/-- A page that nobody owns goes out. -/
theorem commitPage_of_free (free : Free m entry.pageNo) : (m.commitPage me entry).1 =
    ((m.withTwin entry.pageNo).copyOut me entry).finishCommit entry.pageNo := by
  have unowned : (m.withTwin entry.pageNo).pageOwner entry.pageNo ≠ .process me := by
    unfold Memory.withTwin
    split <;> exact free me
  simp only [Memory.commitPage]
  rw [if_pos (.inr unowned)]

theorem free_commitPage (free : Free m p) : Free (m.commitPage me entry).1 p := by
  have twin : Free (m.withTwin entry.pageNo) p := by
    unfold Memory.withTwin
    split <;> exact free
  simp only [Memory.commitPage]
  split
  · show Free ((m.withTwin entry.pageNo).copyOut me entry) p
    simp only [Memory.copyOut]
    split
    · exact twin
    · exact free_setSharedPage twin
  · exact twin

/-- **One commit of one page keeps the invariant.** -/
theorem CommitInv.commitPage (inv : CommitInv procs m₀ m₁ pages done m)
    (setting : Setting procs m₀ m₁ pages) (free : Free m₀ p) (wrote : me ∈ writers m₁ procs p)
    (pending : me ∉ done p) (here : entry.pageNo = p)
    (version : entry.version = m₀.versions p % 2 ^ 32) :
    CommitInv procs m₀ m₁ pages (Function.update done p (me :: done p))
      (m.commitPage me entry).1 := by
  have out : (m.commitPage me entry).1 = _ :=
    commitPage_of_free (here ▸ inv.owners p free : Free m entry.pageNo)
  have stay : ∀ r, Free m₀ r → Free (m.commitPage me entry).1 r :=
    fun r freeR => free_commitPage (inv.owners r freeR)
  have merged := inv.copyOut setting free wrote pending here version
  have twins := inv.withTwin setting free wrote pending
  have remaining := inv.remaining wrote pending
  have users := inv.users p free
  have few := setting.few p free
  rw [here] at out
  generalize (m.commitPage me entry).1 = m' at out stay ⊢
  have counted : (((m.withTwin p).copyOut me entry).pageUsers p).users =
      (writers m₁ procs p).length - (done p).length := by
    rw [Memory.copyOut_pageUsers, withTwin_users]
    omega
  have last : ((writers m₁ procs p).length - (done p).length = 1) ↔
      ¬ (done p).length + 1 < (writers m₁ procs p).length := by omega
  have released : m'.pageUsers = Function.update ((m.withTwin p).copyOut me entry).pageUsers p
      (((m.withTwin p).copyOut me entry).pageUsers p).release := by
    rw [out]
    rfl
  have content : m'.persistent = ((m.withTwin p).copyOut me entry).persistent := by
    rw [out]
    rfl
  have number : m'.versions = Function.update m.versions p ((m.versions p + 1) % 2 ^ 64) := by
    rw [out]
    show Function.update ((m.withTwin p).copyOut me entry).versions p
      ((((m.withTwin p).copyOut me entry).versions p + 1) % 2 ^ 64) = _
    rw [copyOut_versions, withTwin_versions]
  refine ⟨?_, stay, ?_, ?_, ?_, ?_, ?_⟩
  · intro other
    rw [out]
    show (((m.withTwin p).copyOut me entry).process other).transient = _
    rw [copyOut_transient, withTwin_process]
    exact inv.copies other
  · intro r
    by_cases same : r = p
    · subst same
      rw [Function.update_self]
      refine ⟨List.nodup_cons.mpr ⟨pending, (inv.among r).1⟩, ?_⟩
      intro other member
      rcases List.mem_cons.mp member with rfl | old
      · exact wrote
      · exact (inv.among r).2 other old
    · rw [Function.update_of_ne same]
      exact inv.among r
  · intro r freeR
    rw [released]
    by_cases same : r = p
    · subst same
      rw [Function.update_self, Function.update_self, List.length_cons]
      show ((((m.withTwin r).copyOut me entry).pageUsers r).users + (2 ^ 16 - 1)) % 2 ^ 16 + _ = _
      rw [counted]
      omega
    · rw [Function.update_of_ne same, Function.update_of_ne same, Memory.copyOut_pageUsers,
        withTwin_users]
      exact inv.users r freeR
  · intro r freeR
    rw [number]
    by_cases same : r = p
    · subst same
      rw [Function.update_self, Function.update_self, inv.version r freeR, List.length_cons,
        Nat.mod_add_mod, Nat.add_assoc]
    · rw [Function.update_of_ne same, Function.update_of_ne same]
      exact inv.version r freeR
  · intro r freeR
    rw [content]
    by_cases same : r = p
    · subst same
      rw [Function.update_self]
      refine (inv.carries r freeR).merge ?_ merged
      intro other earlier offset differs
      by_cases outgrown : Outgrown procs m₀ m₁ r
      · -- the only writer has not committed before
        have single := outgrown.1
        have none : done r = [] := List.length_eq_zero_iff.mp (by omega)
        rw [none] at earlier
        cases earlier
      · unfold base at differs ⊢
        rw [if_neg outgrown] at differs ⊢
        by_contra changed
        have wroteOther := (inv.among r).2 other earlier
        have same := setting.apart r free me (List.mem_of_mem_filter wrote) other
          (List.mem_of_mem_filter wroteOther) offset differs changed
        exact pending (same ▸ earlier)
    · rw [Function.update_of_ne same, copyOut_persistent_of_ne (here ▸ same), withTwin_persistent]
      exact inv.carries r freeR
  · have carried : Twins m₀ ((m.withTwin p).copyOut me entry) _ _ :=
      twins.congr Memory.copyOut_pageUsers Memory.copyOut_bitmap le_rfl fun _ => Iff.rfl
    rw [out]
    refine carried.finishCommit fun r => ?_
    rw [counted]
    by_cases same : r = p
    · subst same
      rw [Function.update_self, List.length_cons]
      have more : (done r).length + 1 < (writers m₁ procs r).length ↔
          ¬ (writers m₁ procs r).length - (done r).length = 1 := by omega
      constructor
      · exact fun both => ⟨⟨fun _ => by omega, fun other => absurd rfl other⟩,
          fun _ => more.mp both.2⟩
      · exact fun both => ⟨List.cons_ne_nil me (done r), more.mpr (both.2 rfl)⟩
    · rw [Function.update_of_ne same]
      constructor
      · exact fun both => ⟨⟨fun here => absurd here same, fun _ => both⟩,
          fun here => absurd here same⟩
      · exact fun both => both.1.2 same

/-- Changes of other fields of the private parts do not matter. -/
theorem CommitInv.congr (inv : CommitInv procs m₀ m₁ pages done m)
    (change : Process → Process) (same : ∀ q, (change q).transient = q.transient) :
    CommitInv procs m₀ m₁ pages done (m.modify me change) where
  copies _ := (Memory.modify_transient same).trans (inv.copies _)
  owners := inv.owners
  among := inv.among
  users := inv.users
  version := inv.version
  carries := inv.carries
  twins := inv.twins.congr rfl rfl le_rfl fun _ => Iff.rfl

/-- The lists of the others stay, as does what is known of the commits. -/
structure Onward (procs : List ℕ) (m₀ m₁ : Memory) (pages : Finset PageId)
    (me : ℕ) (done : PageId → List ℕ) (mine : List PageId) (s s' : State) : Prop where
  idle : s'.committing = none
  lists : ∀ other, other ≠ me →
    (s'.memory.process other).dirtiedPagesList = (s.memory.process other).dirtiedPagesList
  inv : ∃ done', CommitInv procs m₀ m₁ pages done' s'.memory ∧
    ∀ p other, other ∈ done' p ↔ other ∈ done p ∨ (other = me ∧ p ∈ mine)

/-- The loop of `checkandcommit`, by induction on the entries it has not visited. -/
theorem CommitInv.run_commitPage (setting : Setting procs m₀ m₁ pages) {position : ℕ}
    (rest : List Xpageinfo) :
    ∀ {s : State} {done : PageId → List ℕ}, CommitInv procs m₀ m₁ pages done s.memory →
      s.committing = some (me, position) →
      (s.memory.process me).dirtiedPagesList.drop position = rest →
      (rest.map Xpageinfo.pageNo).Nodup →
      (∀ entry ∈ rest, Free m₀ entry.pageNo ∧
        entry.version = m₀.versions entry.pageNo % 2 ^ 32 ∧
        me ∈ writers m₁ procs entry.pageNo ∧ me ∉ done entry.pageNo) →
      ∃ s', system.run s (List.replicate (rest.length + 1) .commitPage) = some s' ∧
        Onward procs m₀ m₁ pages me done (rest.map Xpageinfo.pageNo) s s' := by
  induction rest generalizing position with
  -- The iterator is at the end of the list.
  | nil =>
    intro s done inv committing visited _ _
    have past : (s.memory.process me).dirtiedPagesList[position]? = none := by
      rw [List.getElem?_eq_none_iff]
      exact List.drop_eq_nil_iff.mp visited
    refine ⟨{ s with committing := none }, ?_, rfl, fun _ _ => rfl, done, inv, ?_⟩
    · show (PageSystem.step s .commitPage).bind _ = _
      simp only [PageSystem.step, committing, past]
      rfl
    · intro p other
      simp
  | cons entry rest ih =>
    intro s done inv committing visited nodup pending
    -- The entry at the iterator is the first of those not visited.
    have found : (s.memory.process me).dirtiedPagesList[position]? = some entry := by
      rw [← List.head?_drop, visited]
      rfl
    obtain ⟨free, version, wrote, new⟩ := pending entry List.mem_cons_self
    have move : system.step s .commitPage = some (commitStep s me position entry) := by
      show PageSystem.step s .commitPage = _
      simp only [PageSystem.step, committing, found]
    have inv' : CommitInv procs m₀ m₁ pages _ (commitStep s me position entry).memory :=
      (inv.commitPage setting free wrote new rfl version).congr (fun q =>
        { q with dirtiedPagesList :=
            q.dirtiedPagesList.set position (s.memory.commitPage me entry).2 }) fun _ => rfl
    obtain ⟨fresh, distinct⟩ := List.nodup_cons.mp nodup
    -- Only the entry at `position` is written, so the ones after it are still `rest`.
    have visited' : ((commitStep s me position entry).memory.process me).dirtiedPagesList.drop
        (position + 1) = rest := by
      rw [commitStep_memory, Memory.modify_process_self]
      show (List.set _ position _).drop (position + 1) = rest
      rw [List.drop_set_of_lt (Nat.lt_succ_self position), Memory.commitPage_dirtiedPagesList,
        ← List.tail_drop, visited]
      rfl
    have pending' : ∀ e ∈ rest, Free m₀ e.pageNo ∧ e.version = m₀.versions e.pageNo % 2 ^ 32 ∧
        me ∈ writers m₁ procs e.pageNo ∧
        me ∉ Function.update done entry.pageNo (me :: done entry.pageNo) e.pageNo := by
      intro e member
      -- Each page is on the list once: the commit of `entry` says nothing of the others.
      have other : e.pageNo ≠ entry.pageNo :=
        fun same => fresh (same ▸ List.mem_map_of_mem member)
      rw [Function.update_of_ne other]
      exact pending e (List.mem_cons_of_mem entry member)
    obtain ⟨s', execution, onward⟩ := ih inv' rfl visited' distinct pending'
    obtain ⟨done', after, members⟩ := onward.inv
    refine ⟨s', ?_, onward.idle, ?_, done', after, ?_⟩
    · rw [List.length_cons, List.replicate_succ, System.run_cons, move]
      exact execution
    · intro other different
      rw [onward.lists other different, commitStep_memory,
        Memory.modify_process_of_ne different, Memory.commitPage_dirtiedPagesList]
    · intro p other
      rw [members, List.map_cons, List.mem_cons]
      by_cases same : p = entry.pageNo
      · subst same
        rw [Function.update_self, List.mem_cons]
        tauto
      · rw [Function.update_of_ne same]
        tauto

/-- A process of the round commits all its pages. -/
theorem CommitInv.run_commitLabels {s₁ s : State}
    (setting : Setting procs m₀ s₁.memory pages)
    (inv : CommitInv procs m₀ s₁.memory pages done s.memory) (idle : s.committing = none)
    (member : me ∈ procs) (pending : ∀ p, me ∉ done p)
    (list : (s.memory.process me).dirtiedPagesList = (s₁.memory.process me).dirtiedPagesList) :
    ∃ s', system.run s (commitLabels s₁ me) = some s' ∧
      Onward procs m₀ s₁.memory pages me done (dirtyPages (s₁.memory.process me)) s s' := by
  have opened := setting.faults.opened me member
  have move : system.step s (.checkandcommit me) = some { s with committing := some (me, 0) } :=
    if_pos idle
  have entries : ∀ entry ∈ (s₁.memory.process me).dirtiedPagesList, Free m₀ entry.pageNo ∧
      entry.version = m₀.versions entry.pageNo % 2 ^ 32 ∧
      me ∈ writers s₁.memory procs entry.pageNo ∧ me ∉ done entry.pageNo := by
    intro entry listed
    obtain ⟨free, version⟩ := opened.entries entry listed
    have wrote : me ∈ writers s₁.memory procs entry.pageNo := by
      apply List.mem_filter.mpr
      exact ⟨member, decide_eq_true (List.mem_map_of_mem listed)⟩
    exact ⟨free, version, wrote, pending entry.pageNo⟩
  obtain ⟨s', execution, onward⟩ := CommitInv.run_commitPage setting
    (s₁.memory.process me).dirtiedPagesList (s := { s with committing := some (me, 0) }) inv rfl
    list opened.nodup entries
  refine ⟨s', ?_, onward.idle, onward.lists, onward.inv⟩
  rw [commitLabels, System.run_cons, move]
  exact execution

/-- **All commits of a round**, by induction on the processes that have not committed. -/
theorem CommitInv.run_commits {s₁ : State} (setting : Setting procs m₀ s₁.memory pages)
    (order : List ℕ) :
    ∀ {s : State} {done : PageId → List ℕ}, CommitInv procs m₀ s₁.memory pages done s.memory →
      s.committing = none → order.Nodup →
      (∀ me ∈ order, me ∈ procs ∧ (∀ p, me ∉ done p) ∧
        (s.memory.process me).dirtiedPagesList = (s₁.memory.process me).dirtiedPagesList) →
      ∃ s', system.run s (order.flatMap (commitLabels s₁)) = some s' ∧
        ∃ done', CommitInv procs m₀ s₁.memory pages done' s'.memory ∧ ∀ p other,
          other ∈ done' p ↔ other ∈ done p ∨
            (other ∈ order ∧ p ∈ dirtyPages (s₁.memory.process other)) := by
  induction order with
  | nil =>
    intro s done inv idle _ _
    refine ⟨s, rfl, done, inv, fun p other => ?_⟩
    simp
  | cons me order ih =>
    intro s done inv idle nodup waiting
    obtain ⟨absent, distinct⟩ := List.nodup_cons.mp nodup
    obtain ⟨member, pending, list⟩ := waiting me List.mem_cons_self
    obtain ⟨s', execution, onward⟩ := inv.run_commitLabels setting idle member pending list
    obtain ⟨done', inv', members⟩ := onward.inv
    -- The commit of `me` leaves the lists of those who come later.
    have waiting' : ∀ other ∈ order, other ∈ procs ∧ (∀ p, other ∉ done' p) ∧
        (s'.memory.process other).dirtiedPagesList =
          (s₁.memory.process other).dirtiedPagesList := by
      intro other later
      have different : other ≠ me := fun same => absent (same ▸ later)
      obtain ⟨memberOther, pendingOther, listOther⟩ := waiting other (List.mem_cons_of_mem me later)
      refine ⟨memberOther, fun p begun => ?_, (onward.lists other different).trans listOther⟩
      rcases (members p other).mp begun with old | ⟨same, -⟩
      · exact pendingOther p old
      · exact different same
    obtain ⟨s'', rest, done'', inv'', members'⟩ := ih inv' onward.idle distinct waiting'
    refine ⟨s'', ?_, done'', inv'', fun p other => ?_⟩
    · rw [List.flatMap_cons, System.run_append, execution]
      exact rest
    · rw [members', members, List.mem_cons]
      constructor
      · rintro ((old | ⟨rfl, mine⟩) | ⟨later, theirs⟩)
        · exact .inl old
        · exact .inr ⟨.inl rfl, mine⟩
        · exact .inr ⟨.inr later, theirs⟩
      · rintro (old | ⟨rfl | later, theirs⟩)
        · exact .inl (.inl old)
        · exact .inl (.inr ⟨rfl, theirs⟩)
        · exact .inr ⟨later, theirs⟩

/-- Nobody has committed a page. -/
theorem Setting.commitInv (setting : Setting procs m₀ m₁ pages) (positive : 0 < m₀.bitmap.cur)
    (room : m₀.bitmap.cur + pages.card ≤ 2047) :
    CommitInv procs m₀ m₁ pages (fun _ => []) m₁ where
  copies _ := rfl
  owners := setting.faults.owners
  among _ := ⟨.nil, nofun⟩
  users p free := by
    rw [setting.faults.users p free, counted_of_lt (setting.few p free)]
    rfl
  version p free := by
    rw [setting.faults.versions]
    exact (Nat.mod_eq_of_lt (setting.versions p)).symm
  carries p free := by
    rw [setting.faults.persistent]
    exact carries_nil
  twins := by
    have bitmap := setting.faults.bitmap
    have none : ∀ p, Free m₀ p → (m₁.pageUsers p).bitmapIndex = 0 := by
      intro p free
      rw [setting.faults.users p free, counted_of_lt (setting.few p free)]
    refine ⟨bitmap ▸ positive, ?_, fun p free _ => none p free, fun _ _ both => absurd rfl both.1,
      fun p _ free _ twin => absurd (none p free) twin, by rw [bitmap]⟩
    rw [bitmap]
    exact (Nat.add_le_add_left (Finset.card_filter_le _ _) _).trans room

/-! ## After the commits -/

/-- All writers have committed. -/
theorem CommitInv.finished (inv : CommitInv procs m₀ m₁ pages done m)
    (distinct : procs.Nodup) (all : ∀ p other, other ∈ done p ↔ other ∈ writers m₁ procs p)
    (free : Free m₀ p) :
    Carries (m₀.persistent p) (base procs m₀ m₁ p) (fun me => m₁.view me p)
      (writers m₁ procs p) (m.persistent p) ∧ m.pageUsers p = ⟨0, 0⟩ := by
  have same : (done p).length = (writers m₁ procs p).length := by
    apply List.Perm.length_eq
    exact (List.perm_ext_iff_of_nodup (inv.among p).1 (distinct.filter _)).mpr (all p)
  have users : (m.pageUsers p).users = 0 := by
    have total := inv.users p free
    omega
  have index : (m.pageUsers p).bitmapIndex = 0 :=
    inv.twins.without p free fun both => both.2.ne same
  refine ⟨(inv.carries p free).congr fun other => (all p other).symm, ?_⟩
  calc m.pageUsers p = ⟨(m.pageUsers p).users, (m.pageUsers p).bitmapIndex⟩ := rfl
    _ = ⟨0, 0⟩ := by rw [users, index]

/-- A page with one writer that has outgrown its entry is the only one that may be lost. -/
theorem settled_iff {s₀ s₁ s₂ : State} (finished : ∀ p, Free s₀.memory p →
      Carries (s₀.memory.persistent p) (base procs s₀.memory s₁.memory p)
        (fun me => s₁.memory.view me p) (writers s₁.memory procs p) (s₂.memory.persistent p) ∧
      s₂.memory.pageUsers p = ⟨0, 0⟩) :
    Settled procs s₀ s₁ s₂ ↔ VersionsFit procs s₀.memory s₁.memory := by
  have single : ∀ p, Free s₀.memory p → Outgrown procs s₀.memory s₁.memory p →
      (s₂.memory.persistent p = overlay (s₀.memory.persistent p)
          (fun me => s₁.memory.view me p) (writers s₁.memory procs p) ↔
        ∀ me ∈ writers s₁.memory procs p, ∀ offset,
          s₁.memory.view me p offset ≠ s₀.memory.persistent p offset →
            s₁.memory.view me p offset ≠ s₀.memory.bitmap.page 0 offset) := by
    intro p free outgrown
    obtain ⟨me, only⟩ := List.length_eq_one_iff.mp outgrown.1
    have carries := (finished p free).1
    unfold base at carries
    rw [only, if_pos outgrown] at carries
    rw [only, carries.eq_overlay_singleton_iff]
    simp
  constructor
  · intro settled p free outgrown
    exact (single p free outgrown).mp (settled p free).1
  · intro fit p free
    refine ⟨?_, (finished p free).2⟩
    by_cases outgrown : Outgrown procs s₀.memory s₁.memory p
    · exact (single p free outgrown).mpr (fit p free outgrown)
    · have carries := (finished p free).1
      unfold base at carries
      rw [if_neg outgrown] at carries
      exact carries.eq_overlay

theorem mem_multiplyWritten (several : 1 < (writers m procs p).length) :
    p ∈ multiplyWritten m procs := by
  obtain ⟨me, wrote⟩ := List.exists_mem_of_length_pos (Nat.zero_lt_of_lt several)
  obtain ⟨member, listed⟩ := List.mem_filter.mp wrote
  apply Finset.mem_filter.mpr
  refine ⟨?_, several⟩
  exact List.mem_toFinset.mpr (List.mem_flatMap.mpr ⟨me, member, of_decide_eq_true listed⟩)

/-- In every order the commits come to an end, and settle the round or do not. -/
theorem Round.run_commits {s₀ s₁ : State} (round : Round procs s₀ s₁)
    (apart : ChangesApart procs s₀.memory s₁.memory)
    (few : ∀ p, Free s₀.memory p → (writers s₁.memory procs p).length < 2 ^ 16)
    (room : s₀.memory.bitmap.cur + (multiplyWritten s₁.memory procs).card ≤ 2047)
    {order : List ℕ} (perm : order.Perm procs) :
    ∃ s₂, system.run s₁ (order.flatMap (commitLabels s₁)) = some s₂ ∧
      (Settled procs s₀ s₁ s₂ ↔ VersionsFit procs s₀.memory s₁.memory) := by
  obtain ⟨faults, idle⟩ := round.faultInv
  have setting : Setting procs s₀.memory s₁.memory (multiplyWritten s₁.memory procs) :=
    ⟨faults, round.fresh.versions, few, fun _ _ => mem_multiplyWritten, apart⟩
  have start := setting.commitInv round.fresh.storage room
  obtain ⟨s₂, execution, done, inv, members⟩ := CommitInv.run_commits setting order start idle
    (perm.nodup_iff.mpr round.distinct) fun me member => ⟨perm.subset member, nofun, rfl⟩
  refine ⟨s₂, execution, settled_iff fun p free => inv.finished round.distinct ?_ free⟩
  intro p other
  rw [members, perm.mem_iff, writers, List.mem_filter, decide_eq_true_iff]
  exact ⟨fun either => either.resolve_left nofun, .inr⟩

/-- A program whose pages have all been committed a number of times. -/
def aged (content : PageId → Page) (version : ℕ) : State :=
  { initial content 0 with
    memory := { (initial content 0).memory with versions := fun _ => version } }

theorem fresh_aged (content : PageId → Page) {version : ℕ} (fits : version < 2 ^ 64) :
    Fresh procs (aged content version) where
  idle := rfl
  unused _ _ := rfl
  clean _ _ := rfl
  closed me _ p _ := by
    refine ⟨rfl, protection_ne_readWrite p.region, ?_⟩
    show (initialProcess 0).pageInfo p ≠ .readWrite
    unfold initialProcess
    cases h : p.region with
    | globals => simp [h]
    | heap => simp [h]
  versions _ := fits
  storage := Nat.one_pos

theorem free_globalsPage (content : PageId → Page) (version pageNo : ℕ) :
    Free (aged content version).memory (globalsPage pageNo) := by
  intro pid
  have shared : (aged content version).memory.pageOwner (globalsPage pageNo) = .shared := by
    have elsewhere : ¬ ((globalsPage pageNo).region = .heap ∧ 0 ≤ pageNo) :=
      fun both => nomatch both.1
    exact if_neg elsewhere (t := Owner.unowned)
  rw [shared]
  nofun

/-- Whatever the order of the commits, they settle the round, provided that no page with a
single writer has outgrown its entry and shows, in the storage of index 0, what was written. -/
theorem settled_iff_versionsFit {s₀ s₁ : State} (round : Round procs s₀ s₁)
    (apart : ChangesApart procs s₀.memory s₁.memory)
    (few : ∀ p, Free s₀.memory p → (writers s₁.memory procs p).length < 2 ^ 16)
    (room : s₀.memory.bitmap.cur + (multiplyWritten s₁.memory procs).card ≤ 2047) :
    (∀ order : List ℕ, order.Perm procs →
      ∃ s₂, system.run s₁ (order.flatMap (commitLabels s₁)) = some s₂ ∧ Settled procs s₀ s₁ s₂) ↔
      VersionsFit procs s₀.memory s₁.memory := by
  constructor
  · intro all
    obtain ⟨s₂, execution, settled⟩ := all procs (.refl procs)
    obtain ⟨s₂', execution', exact⟩ := round.run_commits apart few room (.refl procs)
    rw [execution] at execution'
    cases execution'
    exact exact.mp settled
  · intro fit order perm
    obtain ⟨s₂, execution, exact⟩ := round.run_commits apart few room perm
    exact ⟨s₂, execution, exact.mpr fit⟩

/-- Two processes store to the same page. -/
theorem settled_twoWriters : ∃ s₀ s₁, Round [1, 2] s₀ s₁ ∧
    writers s₁.memory [1, 2] (globalsPage 0) = [1, 2] ∧
    ∀ order : List ℕ, order.Perm [1, 2] →
      ∃ s₂, system.run s₁ (order.flatMap (commitLabels s₁)) = some s₂ ∧
        Settled [1, 2] s₀ s₁ s₂ := by
  let start := aged (fun _ _ => 0) 0
  let labels : List Label :=
    [.writeFault 1 (globalsPage 0), .store 1 (globalsPage 0) 0 1,
      .writeFault 2 (globalsPage 0), .store 2 (globalsPage 0) 1 1]
  -- Each process changes one byte, so a byte that differs tells who has written it.
  have stored : ∀ (value : Fin pageSize) (p : PageId) (offset : Fin pageSize),
      (Function.update (fun _ => none) (globalsPage 0)
        (some (Function.update (fun _ => 0) value 1)) p).getD (fun _ => (0 : UInt8)) offset ≠ 0 →
      offset = value := by
    intro value p offset changed
    by_contra other
    apply changed
    by_cases here : p = globalsPage 0
    · rw [here, Function.update_self, Option.getD_some, Function.update_of_ne other]
    · rw [Function.update_of_ne here]
      rfl
  -- The run is evaluated once, and only what the proof needs of its end is kept.
  have run : ∃ s₁, system.run start labels = some s₁ ∧
      (∀ p offset, s₁.memory.view 1 p offset ≠ 0 → offset = 0) ∧
      (∀ p offset, s₁.memory.view 2 p offset ≠ 0 → offset = 1) ∧
      dirtyPages (s₁.memory.process 1) = [globalsPage 0] ∧
      dirtyPages (s₁.memory.process 2) = [globalsPage 0] :=
    ⟨_, rfl, stored 0, stored 1, rfl, rfl⟩
  obtain ⟨s₁, execution, first, second, list₁, list₂⟩ := run
  have free : Free start.memory (globalsPage 0) := free_globalsPage _ _ 0
  have complies : system.Complies (Faulting [1, 2] start.memory) start labels := by
    have move : ∀ me ∈ [1, 2], me ∈ [1, 2] ∧ Free start.memory (globalsPage 0) :=
      fun me member => ⟨member, free⟩
    exact ⟨move 1 (by decide), fun _ _ => ⟨move 1 (by decide), fun _ _ =>
      ⟨move 2 (by decide), fun _ _ => ⟨move 2 (by decide), fun _ _ => trivial⟩⟩⟩⟩
  have round : Round [1, 2] start s₁ :=
    ⟨by decide, fresh_aged _ (by decide), labels, complies, execution⟩
  have wrote : ∀ p, (writers s₁.memory [1, 2] p).length ≤ 2 := fun p => List.length_filter_le _ _
  have apart : ChangesApart [1, 2] start.memory s₁.memory := by
    intro p _ me member other memberOther offset mine theirs
    -- The process 1 writes the byte 0 and the process 2 the byte 1.
    have place : ∀ me ∈ [1, 2], s₁.memory.view me p offset ≠ 0 → (offset : ℕ) + 1 = me := by
      intro me member changed
      rcases List.mem_pair.mp member with rfl | rfl
      · rw [first p offset changed]
        rfl
      · rw [second p offset changed]
        rfl
    exact (place me member mine).symm.trans (place other memberOther theirs)
  have few : (multiplyWritten s₁.memory [1, 2]).card ≤ 1 := by
    apply Finset.card_le_one.mpr
    have only : ∀ p ∈ multiplyWritten s₁.memory [1, 2], p = globalsPage 0 := by
      intro p member
      obtain ⟨listed, -⟩ := Finset.mem_filter.mp member
      simpa [list₁, list₂] using listed
    intro p member q memberQ
    exact (only p member).trans (only q memberQ).symm
  have fit : VersionsFit [1, 2] start.memory s₁.memory := by
    intro p _ outgrown
    exact absurd outgrown.2 (Nat.not_succ_le_zero _)
  refine ⟨start, s₁, round, ?_, ?_⟩
  · simp [writers, list₁, list₂]
  · apply (settled_iff_versionsFit round apart (fun p _ => (wrote p).trans_lt (by decide)) ?_).mpr
      fit
    show 1 + _ ≤ 2047
    omega

/-- A page has been committed `2 ^ 32` times. Its only writer stores a zero, and the storage of
index 0 is all zeros: the store is lost. -/
theorem not_settled_outgrown : ¬ ∀ (procs : List ℕ) (s₀ s₁ : State), Round procs s₀ s₁ →
    ChangesApart procs s₀.memory s₁.memory →
    (∀ p, Free s₀.memory p → (writers s₁.memory procs p).length < 2 ^ 16) →
    s₀.memory.bitmap.cur + (multiplyWritten s₁.memory procs).card ≤ 2047 →
    ∀ order : List ℕ, order.Perm procs →
      ∃ s₂, system.run s₁ (order.flatMap (commitLabels s₁)) = some s₂ ∧
        Settled procs s₀ s₁ s₂ := by
  intro settles
  let start := aged (fun _ _ => 1) (2 ^ 32)
  let labels : List Label := [.writeFault 1 (globalsPage 0), .store 1 (globalsPage 0) 0 0]
  have run : ∃ s₁, system.run start labels = some s₁ ∧
      s₁.memory.view 1 (globalsPage 0) 0 = 0 ∧
      dirtyPages (s₁.memory.process 1) = [globalsPage 0] := ⟨_, rfl, rfl, rfl⟩
  obtain ⟨s₁, execution, zero, list⟩ := run
  have free : Free start.memory (globalsPage 0) := free_globalsPage _ _ 0
  have round : Round [1] start s₁ := by
    refine ⟨by decide, fresh_aged _ (by decide), labels, ?_, execution⟩
    have move : 1 ∈ [1] ∧ Free start.memory (globalsPage 0) := ⟨by decide, free⟩
    exact ⟨move, fun _ _ => ⟨move, fun _ _ => trivial⟩⟩
  have wrote : ∀ p, (writers s₁.memory [1] p).length ≤ 1 := fun p => List.length_filter_le _ _
  have apart : ChangesApart [1] start.memory s₁.memory := by
    intro p _ me member other memberOther _ _ _
    exact (List.mem_singleton.mp member).trans (List.mem_singleton.mp memberOther).symm
  have few : ∀ p, Free start.memory p → (writers s₁.memory [1] p).length < 2 ^ 16 :=
    fun p _ => (wrote p).trans_lt (by decide)
  have none : multiplyWritten s₁.memory [1] = ∅ := by
    apply Finset.filter_eq_empty_iff.mpr
    exact fun p _ => (wrote p).not_gt
  have room : start.memory.bitmap.cur + (multiplyWritten s₁.memory [1]).card ≤ 2047 := by
    rw [none]
    decide
  obtain ⟨s₂, sameRun, settled⟩ := settles [1] start s₁ round apart few room [1] (.refl _)
  -- The commits succeed, so it is the meaning of the memory that fails.
  obtain ⟨s₂', sameRun', exact⟩ := round.run_commits apart few room (.refl [1])
  rw [sameRun] at sameRun'
  cases sameRun'
  -- The only writer has stored a zero, and the storage it is compared with is all zeros.
  have only : writers s₁.memory [1] (globalsPage 0) = [1] := by simp [writers, list]
  refine exact.mp settled (globalsPage 0) free ⟨by rw [only]; rfl, le_rfl⟩ 1 ?_ 0 ?_ ?_
  · rw [only]
    exact List.mem_cons_self
  · rw [zero]
    decide
  · rw [zero]
    rfl

end Tthread.PageSystem
