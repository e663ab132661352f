/-
# Destroyed synchronisation objects

`clearSyncEntry` clears the word of an object in the private copy of the caller, and then asks
`mem_write` to clear what the word points to, which by then is `NULL`. So the shared word stays what
it was, and the entry that the destroyed object had is given back to the internal heap while every
process that refreshes the page still finds it. The shared word of a destroyed object is `NULL` only
if it was before, and stays so as long as no copy that is carried over brings an entry back.
-/

import Tthread.CommitMerge
import Tthread.SyncObjects

namespace Tthread.DestroyedObjects

open Transition
open PageSystem hiding State Label system initial step clearSyncEntry

/-! ## Destroying objects -/

structure State where
  pages : PageSystem.State
  /-- the entries that have been given back to `InternalHeap` -/
  freed : UInt64 → Bool
  /-- ghost: the objects that have been destroyed and not been initialised since -/
  destroyed : SyncObject → Bool

def State.getSyncEntry (s : State) (me : ℕ) (o : SyncObject) : UInt64 :=
  readWord (s.pages.memory.view me o.page) o.slot

def State.freeSyncEntry (s : State) (entry : UInt64) : State :=
  { s with freed := if entry ≠ 0 then Function.update s.freed entry true else s.freed }

/-- A step of the pages. -/
def State.follow (s : State) (label : PageSystem.Label) : Option State :=
  (PageSystem.step s.pages label).map fun pages => { s with pages := pages }

def State.clearSyncEntry (s : State) (me : ℕ) (o : SyncObject) : Option State :=
  s.follow (.clearSyncEntry me o)

def State.lockDestroy (s : State) (me : ℕ) (o : SyncObject) : Option State :=
  let entry := s.getSyncEntry me o
  (s.clearSyncEntry me o).map fun s' => s'.freeSyncEntry entry

def State.condDestroy (s : State) (me : ℕ) (o : SyncObject) : Option State :=
  let entry := s.getSyncEntry me o
  (s.clearSyncEntry me o).map fun s' => s'.freeSyncEntry entry

/-- The entry of a barrier is freed first. -/
def State.barrierDestroy (s : State) (me : ℕ) (o : SyncObject) : Option State :=
  let entry := s.getSyncEntry me o
  (s.freeSyncEntry entry).clearSyncEntry me o

inductive Label
  | init (me : ℕ) (o : SyncObject) (entry : UInt64)
  | lockDestroy (me : ℕ) (o : SyncObject)
  | condDestroy (me : ℕ) (o : SyncObject)
  | barrierDestroy (me : ℕ) (o : SyncObject)
  /-- anything else that a process does to the pages -/
  | page (label : PageSystem.Label)

/-- The process and the object of a call that destroys one. -/
def Label.destroys : Label → Option (ℕ × SyncObject)
  | .lockDestroy me o | .condDestroy me o | .barrierDestroy me o => some (me, o)
  | .init .. | .page _ => none

/-- The object is destroyed from now on, or is not any more. -/
def State.note (s : State) (o : SyncObject) (destroyed : Bool) : State :=
  { s with destroyed := Function.update s.destroyed o destroyed }

def step (s : State) : Label → Option State
  | .init me o entry => (s.follow (.setSyncEntry me o entry)).map fun s' =>
      { s' with freed := Function.update s'.freed entry false }.note o false
  | .lockDestroy me o => (s.lockDestroy me o).map fun s' => s'.note o true
  | .condDestroy me o => (s.condDestroy me o).map fun s' => s'.note o true
  | .barrierDestroy me o => (s.barrierDestroy me o).map fun s' => s'.note o true
  | .page (.setSyncEntry ..) | .page (.clearSyncEntry ..) => none
  | .page label => s.follow label

def initial (content : PageId → Page) (allocated : ℕ) : State where
  pages := PageSystem.initial content allocated
  freed _ := false
  destroyed _ := false

def system : System State Label where
  Init s := ∃ content allocated, s = initial content allocated
  step := step

/-! ## What has to hold -/

/-- The shared word of a destroyed object is `NULL`, and so it is for who has refreshed the page. -/
structure Cleared (s : State) : Prop where
  shared : ∀ o, s.destroyed o = true → readWord (s.pages.memory.persistent o.page) o.slot = 0
  refreshed : ∀ o me, s.destroyed o = true →
    (s.pages.memory.process me).transient o.page = none → s.getSyncEntry me o = 0

/-- The word of the object is `NULL`. -/
def Null (o : SyncObject) (page : Page) : Prop := ∀ k, page (wordByte o.slot k) = 0

/-- A page has no entry of a destroyed object. -/
def State.NullIn (s : State) (p : PageId) (page : Page) : Prop :=
  ∀ o, s.destroyed o = true → o.page = p → Null o page

/-- What a commit carries over has no entry of a destroyed object: in the words of these, a copy of
the current version is `NULL`, and any other copy has at most what the twin has, too. -/
def State.CarriesNull (s : State) (me : ℕ) (entry : Xpageinfo) : Prop :=
  let p := entry.pageNo
  let m := s.pages.memory.withTwin p
  (m.pageUsers p).users ≠ 1 ∨ m.pageOwner p ≠ .process me →
    ∀ o, s.destroyed o = true → o.page = p → ∀ k,
      m.view me p (wordByte o.slot k) = 0 ∨ entry.version ≠ m.versions p ∧
        m.view me p (wordByte o.slot k) =
          m.bitmap.page (m.pageUsers p).bitmapIndex (wordByte o.slot k)

/-- The copies that go out have no entry of a destroyed object. -/
def KeepsNull (s : State) : PageSystem.Label → Prop
  | .writeFault me p => (s.pages.memory.process me).pageInfo p = .readWrite →
      s.NullIn p (s.pages.memory.view me p)
  | .commitOwnedPage me p _ => (s.pages.memory.process me).pageInfo p = .readWrite ∨
      (s.pages.memory.process me).pageInfo p = .unused → s.NullIn p (s.pages.memory.view me p)
  | .commitPage => ∀ me position entry, s.pages.committing = some (me, position) →
      (s.pages.memory.process me).dirtiedPagesList[position]? = some entry → s.CarriesNull me entry
  | _ => True

/-- An object whose shared word is not `NULL` is not destroyed, and no copy that goes out has an
entry of a destroyed object. -/
def Clears (s : State) : Label → Prop
  | .lockDestroy _ o | .condDestroy _ o | .barrierDestroy _ o =>
      Null o (s.pages.memory.persistent o.page)
  | .page label => KeepsNull s label
  | .init .. => True

/-! ## Words -/

variable {s s' : State} {o o' : SyncObject} {p : PageId} {page : Page} {me : ℕ}
  {entry : UInt64}

theorem readWord_eq_zero_iff : readWord page o.slot = 0 ↔ Null o page := by
  rw [Null, ← Bytes.word_eq_zero_iff]
  have fits := Bytes.word_lt 8 fun k => page (wordByte o.slot k)
  constructor
  · intro zero
    have value := congrArg UInt64.toNat zero
    rwa [readWord, UInt64.toNat_ofNat_of_lt' fits] at value
  · intro zero
    rw [readWord, zero]
    rfl

/-- The shared word is what matters. -/
theorem cleared_iff :
    Cleared s ↔ ∀ o, s.destroyed o = true → Null o (s.pages.memory.persistent o.page) := by
  constructor
  · exact fun cleared o gone => readWord_eq_zero_iff.mp (cleared.shared o gone)
  · intro null
    have shared : ∀ o, s.destroyed o = true →
        readWord (s.pages.memory.persistent o.page) o.slot = 0 :=
      fun o gone => readWord_eq_zero_iff.mpr (null o gone)
    refine ⟨shared, fun o me gone copy => ?_⟩
    rw [State.getSyncEntry, Memory.view, copy]
    exact shared o gone

/-- A step that leaves the shared pages alone. -/
theorem Cleared.congr (cleared : Cleared s)
    (persistent : s'.pages.memory.persistent = s.pages.memory.persistent)
    (destroyed : s'.destroyed = s.destroyed) : Cleared s' := by
  rw [cleared_iff] at cleared ⊢
  rw [persistent, destroyed]
  exact cleared

/-- A step that changes one of the shared pages. -/
theorem Cleared.setPersistent_iff (cleared : Cleared s)
    (persistent : s'.pages.memory.persistent =
      Function.update s.pages.memory.persistent p page)
    (destroyed : s'.destroyed = s.destroyed) : Cleared s' ↔ s.NullIn p page := by
  rw [cleared_iff] at cleared ⊢
  rw [persistent, destroyed]
  constructor
  · rintro null o gone rfl
    have here := null o gone
    rwa [Function.update_self] at here
  · intro null o gone
    by_cases here : o.page = p
    · rw [here, Function.update_self]
      exact null o gone here
    · rw [Function.update_of_ne here]
      exact cleared o gone

/-- The word of another object. -/
theorem Null.writeWord (null : Null o page) (different : o ≠ o') (same : o'.page = o.page) :
    Null o (writeWord page o'.slot entry) := by
  have holds : Holds o 0 page := fun k => (null k).trans (by simp [Bytes.byteOf])
  intro k
  rw [holds.writeWord_of_ne different same k]
  simp [Bytes.byteOf]

/-! ## What the steps of the pages carry over -/

variable {m : Memory} {setShared : Bool}

theorem commitOwnedPage_persistent :
    (m.commitOwnedPage me p setShared).persistent =
      if (m.process me).pageInfo p = .readWrite ∨ (m.process me).pageInfo p = .unused then
        Function.update m.persistent p (m.view me p)
      else m.persistent := by
  cases setShared <;> cases access : (m.process me).pageInfo p <;>
    simp [Memory.commitOwnedPage, access, Memory.incrementVersion, Memory.modify,
      Memory.setPersistent]

theorem mprotectReadWrite_transient :
    ((m.mprotectReadWrite me p).process me).transient = (m.process me).transient := by
  apply Memory.modify_transient
  intro q
  dsimp only
  split <;> rfl

/-- A page that was written before is taken over with what it has. -/
theorem handleWrite_persistent :
    (m.handleWrite me p).persistent =
      if (m.process me).pageInfo p = .readWrite then
        Function.update m.persistent p (m.view me p)
      else m.persistent := by
  have recorded : (m.handleWrite me p).persistent = (m.openPage me p).persistent := by
    simp only [Memory.handleWrite]
    split <;> rfl
  rw [recorded]
  unfold Memory.openPage
  split
  · next access => rw [if_neg (by rw [access]; decide)]; rfl
  · next access => rw [if_neg (by rw [access]; decide)]; rfl
  · next access => rw [if_neg (by rw [access]; decide)]; rfl
  · next access =>
    have still : ((m.mprotectReadWrite me p).process me).pageInfo p = .readWrite := by
      rw [Memory.mprotectReadWrite, Memory.modify_process_self]
      dsimp only
      split
      · exact Function.update_self ..
      · exact access
    have view : (m.mprotectReadWrite me p).view me p = m.view me p := by
      rw [Memory.view, mprotectReadWrite_transient]
      rfl
    rw [commitOwnedPage_persistent, if_pos (.inl still), if_pos access, view]
    rfl

/-- What is in a page after a commit. -/
def committed (m : Memory) (me : ℕ) (entry : Xpageinfo) : Page :=
  let p := entry.pageNo
  if entry.version = m.versions p then m.view me p
  else PageDiffs.writePageDiffs (m.view me p) (m.bitmap.page (m.pageUsers p).bitmapIndex)
    (m.persistent p)

theorem copyOut_persistent {entry : Xpageinfo} : (m.copyOut me entry).persistent =
    Function.update m.persistent entry.pageNo (committed m me entry) := by
  simp only [Memory.copyOut, committed]
  split
  · rfl
  · simp only [Memory.setPersistent, Memory.setSharedPage_persistent, Memory.setSharedPage_view]

theorem commitPage_persistent {entry : Xpageinfo} :
    (m.commitPage me entry).1.persistent =
      if ((m.withTwin entry.pageNo).pageUsers entry.pageNo).users ≠ 1 ∨
          (m.withTwin entry.pageNo).pageOwner entry.pageNo ≠ .process me then
        Function.update m.persistent entry.pageNo
          (committed (m.withTwin entry.pageNo) me entry)
      else m.persistent := by
  simp only [Memory.commitPage]
  split
  · exact copyOut_persistent.trans (by rw [withTwin_persistent])
  · exact withTwin_persistent

/-- A commit keeps words `NULL` if it carries over nothing else. -/
theorem nullIn_committed_iff {entry : Xpageinfo} (cleared : Cleared s) {m : Memory}
    (same : m.persistent = s.pages.memory.persistent) :
    s.NullIn entry.pageNo (committed m me entry) ↔
      ∀ o, s.destroyed o = true → o.page = entry.pageNo → ∀ k,
        m.view me entry.pageNo (wordByte o.slot k) = 0 ∨
          entry.version ≠ m.versions entry.pageNo ∧
            m.view me entry.pageNo (wordByte o.slot k) =
              m.bitmap.page (m.pageUsers entry.pageNo).bitmapIndex (wordByte o.slot k) := by
  apply forall₃_congr
  intro o gone here
  have null := cleared_iff.mp cleared o gone
  rw [here, ← same] at null
  apply forall_congr'
  intro k
  have nothing := null k
  rw [committed]
  by_cases current : entry.version = m.versions entry.pageNo
  · rw [if_pos current]
    exact (or_iff_left fun other => other.1 current).symm
  · rw [if_neg current, PageDiffs.writePageDiffs_apply, nothing]
    split
    · next equal => exact iff_of_true rfl (.inr ⟨current, equal⟩)
    · next differs => exact (or_iff_left fun other => differs other.2).symm

/-! ## Steps -/

/-- What a step of the pages leaves alone. -/
theorem follow_cases {label : PageSystem.Label} (move : s.follow label = some s') :
    PageSystem.step s.pages label = some s'.pages ∧ s'.destroyed = s.destroyed := by
  obtain ⟨pages, step, rfl⟩ := Option.map_eq_some_iff.mp move
  exact ⟨step, rfl⟩

theorem freeSyncEntry_pages : (s.freeSyncEntry entry).pages = s.pages := rfl

/-- What the three calls do, in whichever order. -/
theorem destroys_cases {label : Label} (destroys : label.destroys = some (me, o))
    (move : step s label = some s') :
    PageSystem.step s.pages (.clearSyncEntry me o) = some s'.pages ∧
      s'.freed = (s.freeSyncEntry (s.getSyncEntry me o)).freed ∧
      s'.destroyed = Function.update s.destroyed o true := by
  have locks : (s.lockDestroy me o).map (fun s' => s'.note o true) = some s' →
      PageSystem.step s.pages (.clearSyncEntry me o) = some s'.pages ∧
        s'.freed = (s.freeSyncEntry (s.getSyncEntry me o)).freed ∧
        s'.destroyed = Function.update s.destroyed o true := by
    intro move
    obtain ⟨freed, first, rfl⟩ := Option.map_eq_some_iff.mp move
    obtain ⟨cleared, second, rfl⟩ := Option.map_eq_some_iff.mp first
    obtain ⟨pages, third, rfl⟩ := Option.map_eq_some_iff.mp second
    refine ⟨third, ?_, rfl⟩
    simp only [State.note, State.freeSyncEntry]
  cases label with
  | init | page => exact absurd destroys (Option.some_ne_none _).symm
  | lockDestroy | condDestroy =>
    obtain ⟨rfl, rfl⟩ := Prod.mk.inj (Option.some.inj destroys)
    exact locks move
  | barrierDestroy =>
    obtain ⟨rfl, rfl⟩ := Prod.mk.inj (Option.some.inj destroys)
    obtain ⟨cleared, first, rfl⟩ := Option.map_eq_some_iff.mp move
    obtain ⟨pages, second, rfl⟩ := Option.map_eq_some_iff.mp first
    rw [freeSyncEntry_pages] at second
    refine ⟨second, ?_, ?_⟩
    · simp only [State.note]
    · simp only [State.note, State.freeSyncEntry]

/-- No shared page is different afterwards. -/
theorem clearSyncEntry_persistent {pages : PageSystem.State}
    (move : PageSystem.step s.pages (.clearSyncEntry me o) = some pages) :
    pages.memory.persistent = s.pages.memory.persistent := by
  obtain ⟨-, same⟩ := guarded move
  rw [← same]
  rfl

/-- A commit of one page. -/
theorem commit_iff (cleared : Cleared s) (move : s.follow .commitPage = some s') :
    Cleared s' ↔ KeepsNull s .commitPage := by
  obtain ⟨step, destroyed⟩ := follow_cases move
  obtain ⟨me, i, at_, ⟨ended, same⟩ | ⟨entry, found, same⟩⟩ := commitPage_cases step
  · refine iff_of_true (cleared.congr (by rw [same]) destroyed) ?_
    intro me' i' entry at_' listed
    obtain ⟨rfl, rfl⟩ := Prod.mk.inj (Option.some.inj (at_.symm.trans at_'))
    rw [ended] at listed
    exact absurd listed (Option.some_ne_none _).symm
  · have only : KeepsNull s .commitPage ↔ s.CarriesNull me entry := by
      constructor
      · exact fun all => all me i entry at_ found
      · intro carries me' i' entry' at_' listed
        obtain ⟨rfl, rfl⟩ := Prod.mk.inj (Option.some.inj (at_.symm.trans at_'))
        obtain rfl := Option.some.inj (found.symm.trans listed)
        exact carries
    have persistent : s'.pages.memory.persistent =
        (s.pages.memory.commitPage me entry).1.persistent := by
      rw [same, commitStep_memory]
      rfl
    rw [only, State.CarriesNull]
    rw [commitPage_persistent] at persistent
    split at persistent
    · next taken =>
      rw [cleared.setPersistent_iff persistent destroyed,
        nullIn_committed_iff cleared withTwin_persistent]
      exact ⟨fun all _ => all, fun all => all taken⟩
    · next untaken =>
      refine iff_of_true (cleared.congr persistent destroyed) ?_
      exact fun taken => absurd taken untaken

/-- A step that may take over one page. -/
theorem Cleared.takeOver_iff {taken : Prop} [Decidable taken] (cleared : Cleared s)
    (destroyed : s'.destroyed = s.destroyed) (persistent : s'.pages.memory.persistent =
      if taken then Function.update s.pages.memory.persistent p page
      else s.pages.memory.persistent) : Cleared s' ↔ (taken → s.NullIn p page) := by
  split at persistent
  · next holds =>
    rw [cleared.setPersistent_iff persistent destroyed]
    exact ⟨fun null _ => null, fun null => null holds⟩
  · next fails =>
    refine iff_of_true (cleared.congr persistent destroyed) ?_
    exact fun holds => absurd holds fails

/-- A step of the pages. -/
theorem page_iff (cleared : Cleared s) {label : PageSystem.Label}
    (move : step s (.page label) = some s') : Cleared s' ↔ KeepsNull s label := by
  cases label with
  | setSyncEntry me o entry => exact absurd move (Option.some_ne_none _).symm
  | clearSyncEntry me o => exact absurd move (Option.some_ne_none _).symm
  | commitPage => exact commit_iff cleared move
  | writeFault me p =>
    obtain ⟨moved, destroyed⟩ := follow_cases move
    obtain ⟨-, same⟩ := guarded moved
    exact cleared.takeOver_iff destroyed (by rw [← same]; exact handleWrite_persistent)
  | commitOwnedPage me p setShared =>
    obtain ⟨moved, destroyed⟩ := follow_cases move
    have same := Option.some.inj moved
    exact cleared.takeOver_iff destroyed (by rw [← same]; exact commitOwnedPage_persistent)
  | takeUnowned me p =>
    obtain ⟨moved, destroyed⟩ := follow_cases move
    obtain ⟨-, same⟩ := guarded moved
    refine iff_of_true (cleared.congr ?_ destroyed) trivial
    rw [← same]
    exact Memory.setSharedPage_persistent
  | checkandcommit me =>
    obtain ⟨moved, destroyed⟩ := follow_cases move
    obtain ⟨-, same⟩ := guarded moved
    exact iff_of_true (cleared.congr (by rw [← same]) destroyed) trivial
  | cleanup =>
    obtain ⟨moved, destroyed⟩ := follow_cases move
    have same := Option.some.inj moved
    exact iff_of_true (cleared.congr (by rw [← same]) destroyed) trivial
  | readFault me p | store me p offset value | setOwnedPage me p | updateAll me =>
    -- only the private part of a process changes
    obtain ⟨moved, destroyed⟩ := follow_cases move
    obtain ⟨-, same⟩ := guarded moved
    exact iff_of_true (cleared.congr (by rw [← same]; rfl) destroyed) trivial

/-- An object is initialised. The words of others stay. -/
theorem Cleared.init (cleared : Cleared s) (move : step s (.init me o entry) = some s') :
    Cleared s' := by
  obtain ⟨middle, moved, rfl⟩ := Option.map_eq_some_iff.mp move
  obtain ⟨moved, destroyed⟩ := follow_cases moved
  obtain ⟨-, same⟩ := guarded moved
  have persistent : middle.pages.memory.persistent =
      Function.update s.pages.memory.persistent o.page
        (writeWord (s.pages.memory.persistent o.page) o.slot entry) := by
    rw [← same]
    rfl
  rw [cleared_iff] at cleared ⊢
  intro o' gone
  change Function.update middle.destroyed o false o' = true at gone
  by_cases here : o' = o
  · rw [here, Function.update_self] at gone
    exact absurd gone Bool.false_ne_true
  · rw [Function.update_of_ne here, destroyed] at gone
    have null := cleared o' gone
    change Null o' (middle.pages.memory.persistent o'.page)
    rw [persistent]
    by_cases page : o'.page = o.page
    · rw [page, Function.update_self]
      rw [page] at null
      exact null.writeWord here page.symm
    · rwa [Function.update_of_ne page]

/-- An object is destroyed, and the shared pages stay as they are. -/
theorem destroy_iff (cleared : Cleared s) {label : Label}
    (destroys : label.destroys = some (me, o)) (move : step s label = some s') :
    Cleared s' ↔ Null o (s.pages.memory.persistent o.page) := by
  obtain ⟨moved, -, destroyed⟩ := destroys_cases destroys move
  rw [cleared_iff] at cleared ⊢
  rw [clearSyncEntry_persistent moved, destroyed]
  constructor
  · intro null
    exact null o (Function.update_self ..)
  · intro null o' gone
    by_cases here : o' = o
    · rwa [here]
    · rw [Function.update_of_ne here] at gone
      exact cleared o' gone

/-- **What a step makes of cleared words.** -/
theorem step_iff (cleared : Cleared s) {label : Label} (move : step s label = some s') :
    Cleared s' ↔ Clears s label := by
  cases label with
  | init => exact iff_of_true (cleared.init move) trivial
  | lockDestroy | condDestroy | barrierDestroy => exact destroy_iff cleared rfl move
  | page label => exact page_iff cleared move

/-! ## Runs -/

theorem cleared_initial (content : PageId → Page) (allocated : ℕ) :
    Cleared (initial content allocated) :=
  cleared_iff.mpr fun _ gone => absurd gone Bool.false_ne_true

/-- **Destroyed objects do not dangle** in a run just when no step of it leaves an entry in, or
brings one back to, the shared word of a destroyed object. -/
theorem cleared_iff_clears (init : system.Init s) {labels : List Label}
    (execution : system.run s labels = some s') :
    system.Throughout Cleared s labels ↔ system.Complies Clears s labels := by
  obtain ⟨content, allocated, rfl⟩ := init
  exact system.throughout_iff_complies (fun _ cleared => cleared)
    (fun _ _ _ cleared clears move => (step_iff cleared move).mpr clears)
    (fun _ _ _ cleared move after => (step_iff cleared move).mp after)
    (cleared_initial content allocated) execution

/-- **Destroyed objects dangle** wherever all copies of the page agree on the entry: the shared
word is what it was, and it has been freed. -/
theorem dangles_of_agree (agree : AllAgree s.pages) (registered : s.pages.registered o = some entry)
    {label : Label} (destroys : label.destroys = some (me, o)) (move : step s label = some s') :
    readWord (s'.pages.memory.persistent o.page) o.slot = entry ∧ s'.freed entry = true ∧
      ¬ Cleared s' := by
  obtain ⟨some_, held⟩ := agree o entry registered
  have read : s.getSyncEntry me o = entry := readWord_eq (held.view me)
  obtain ⟨moved, freed, destroyed⟩ := destroys_cases destroys move
  have stays : readWord (s'.pages.memory.persistent o.page) o.slot = entry := by
    rw [clearSyncEntry_persistent moved]
    exact readWord_eq held.persistent
  refine ⟨stays, ?_, fun cleared => ?_⟩
  · rw [freed, read, State.freeSyncEntry, if_pos some_]
    exact Function.update_self ..
  · have gone := cleared.shared o (by rw [destroyed]; exact Function.update_self ..)
    exact some_ (stays.symm.trans gone)

/-- The object behind the first one of the page. -/
def secondObject : SyncObject := ⟨globalsPage 0, ⟨1, by decide⟩⟩

/-- One object is initialised, another one is destroyed without, and the page goes out. -/
def neighbours : List Label :=
  [.page (.writeFault 1 (globalsPage 0)), .init 1 firstObject 7, .lockDestroy 1 secondObject,
    .page (.checkandcommit 1), .page .commitPage]

theorem cleared_neighbours :
    system.Throughout Cleared (initial (fun _ _ => 0) 0) neighbours := by
  have run : (system.run (initial (fun _ _ => 0) 0) neighbours).isSome = true := by decide +kernel
  obtain ⟨s, execution⟩ := Option.isSome_iff_exists.mp run
  apply (cleared_iff_clears ⟨_, _, rfl⟩ execution).mpr
  refine ⟨nofun, fun s₁ first => ⟨trivial, fun s₂ second => ⟨?_, fun s₃ third => ⟨trivial,
    fun s₄ fourth => ⟨?_, fun _ _ => trivial⟩⟩⟩⟩⟩
  · obtain rfl := Option.some.inj first
    obtain rfl := Option.some.inj second
    unfold Clears Null
    decide +kernel
  · obtain rfl := Option.some.inj first
    obtain rfl := Option.some.inj second
    obtain rfl := Option.some.inj third
    obtain rfl := Option.some.inj fourth
    intro me position entry at_ listed _ o gone _ k
    obtain ⟨rfl, rfl⟩ := Prod.mk.inj (Option.some.inj at_)
    obtain rfl := Option.some.inj listed
    have here : o = secondObject := by
      by_contra other
      change Function.update (Function.update (fun _ => false) firstObject false)
        secondObject true o = true at gone
      rw [Function.update_of_ne other] at gone
      by_cases initialised : o = firstObject
      · rw [initialised, Function.update_self] at gone
        exact Bool.false_ne_true gone
      · rw [Function.update_of_ne initialised] at gone
        exact Bool.false_ne_true gone
    subst here
    left
    revert k
    decide +kernel

/-- The shared word of a destroyed mutex still is what `lock_init` made it. -/
theorem not_cleared_destroy : ¬ ∀ s, system.Reachable AnyStep s → Cleared s := by
  intro cleared
  have run : (system.run (initial (fun _ _ => 0) 0)
      [.page (.writeFault 1 (globalsPage 0)), .init 1 firstObject 7,
        .lockDestroy 1 firstObject]).any fun s =>
      s.destroyed firstObject ∧ readWord (s.pages.memory.persistent firstObject.page)
        firstObject.slot = 7 := by decide +kernel
  obtain ⟨s, execution, facts⟩ := (Option.any_eq_true _ _).mp run
  obtain ⟨gone, word⟩ := of_decide_eq_true facts
  have null := (cleared s (.run (.init ⟨_, _, rfl⟩) execution)).shared firstObject gone
  exact absurd (word.symm.trans null) (by decide)

end Tthread.DestroyedObjects
