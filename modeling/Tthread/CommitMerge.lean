/-
# Commit as a byte merge

On pages that nobody owns, a commit should change the bytes in which the local copy
differs from the shared page at the write fault, and no others. With the version of
the fault still current the whole copy goes out, and that is the same. Otherwise the
differences to the twin go out, so the twin has to be the page at the fault: one twin
serves all users of a page, and it does so only if its version is theirs. Between the access
that carries a page over and the one that counts its version up, the page is newer than its
version says.
-/

import Tthread.TwinPages

open Transition

namespace Tthread.PageSystem

/-- The page of the entry becomes the local one where that differs from the shared page at the
write fault, and bytes that were not stored stay; so do the other pages. -/
structure ExactMerge (m : Memory) (persistent : PageId → Page) (me : ℕ) (entry : Xpageinfo) :
    Prop where
  merged : ∀ offset,
    let before := m.persistent entry.pageNo offset
    let mine := m.view me entry.pageNo offset
    let after := persistent entry.pageNo offset
    after = (if mine = entry.snapshot offset then before else mine) ∧
      ((m.process me).written entry.pageNo offset = false → after = before)
  elsewhere : ∀ p, p ≠ entry.pageNo → persistent p = m.persistent p

/-- The access that carries a page over merges it exactly, no other one changes shared pages, and
no iteration ends without having carried its page over. -/
def MergesExactly (s : AccessState) : Prop := ∀ me position entry s',
  s.committing = some (me, position) →
  (s.memory.process me).dirtiedPagesList[position]? = some entry →
  accessStep s .commitPage = some s' →
  match s.access with
  | some .copy | some (.diffs _) => ExactMerge s.memory s'.memory.persistent me entry
  | some .done => entry.committed = true ∧ s'.memory.persistent = s.memory.persistent
  | _ => s'.memory.persistent = s.memory.persistent

/-- Write faults, stores, commits and refreshes on pages that nobody owns. -/
def CopyOnWriteOnly (_ : AccessState) : Label → Prop
  | .setSyncEntry _ _ _ | .clearSyncEntry _ _ | .setOwnedPage _ _ | .commitOwnedPage _ _ _ => False
  | _ => True

/-- The twin of the page is from the version at which the entry was made. -/
def TwinMatches (m : Memory) (entry : Xpageinfo) : Prop :=
  (m.pageUsers entry.pageNo).bitmapIndex ≠ 0 ∧
    m.bitmap.getVersion (m.pageUsers entry.pageNo).bitmapIndex = entry.version

/-- The condition on a commit: an iteration begins for an entry that has not been committed
before, a new twin lies before the pages that the version array runs into, a page is
committed fewer than `2 ^ 32` times, and one that is committed by differences has a twin of
the entry's version. -/
def CommitFits (m : Memory) (entry : Xpageinfo) : Option VisitPos → Prop
  | none => entry.committed = false
  | some .room => m.bitmap.cur < 3071
  | some .version => m.versions entry.pageNo + 1 < 2 ^ 32 ∧
      (entry.version ≠ m.versions entry.pageNo → TwinMatches m entry)
  | _ => True

/-- The condition on a step: besides the one on a commit and those that keep twins intact, there
is no write fault on a page between the access that carries it over and the one that counts its
version up, and the private copy is made while the version of the fault is current. -/
def MergesCleanly (s : AccessState) (label : Label) : Prop :=
  CopyOnWriteOnly s label ∧
    match label with
    | .writeFault _ p => (s.memory.pageUsers p).users < 2 ^ 16 - 1 ∧ s.carried ≠ some p
    | .store me p _ _ => (s.memory.process me).transient p = none → s.carried ≠ some p ∧
        ∀ entry ∈ (s.memory.process me).dirtiedPagesList, entry.pageNo = p →
          entry.committed = false → entry.version = s.memory.versions p
    | .commitPage => ∀ me position entry, s.committing = some (me, position) →
        (s.memory.process me).dirtiedPagesList[position]? = some entry →
        CommitFits s.memory entry s.access
    | .cleanup => (∀ p, ¬ LiveTwin s.memory p) ∧
        ∀ entry pos, s.visit = some (entry, pos) → pos.allocating = false
    | _ => True

/-! ## The invariant -/

/-- What a process relies on, given what the shared pages were at each version. -/
structure ProcessInv (versions : PageId → ℕ) (history : PageId → ℕ → Page) (q : Process) :
    Prop where
  neverOwner : ∀ p, q.pageInfo p ≠ .readWrite
  writable : ∀ p, q.protection p = .readWrite ↔ ∃ entry ∈ q.dirtiedPagesList, entry.pageNo = p
  copied : ∀ p copy, q.transient p = some copy → q.protection p = .readWrite
  released : ∀ entry ∈ q.dirtiedPagesList, entry.release = true
  recorded : ∀ entry ∈ q.dirtiedPagesList, entry.committed = false →
    entry.version ≤ versions entry.pageNo ∧ entry.snapshot = history entry.pageNo entry.version
  unchanged : ∀ entry ∈ q.dirtiedPagesList, entry.committed = false →
    ∀ copy, q.transient entry.pageNo = some copy →
      ∀ offset, q.written entry.pageNo offset = false → copy offset = entry.snapshot offset

/-- What holds of the shared pages, given their versions. A page that has just been carried over
counts as one version further. -/
structure MergeInv (m : Memory) (versions : PageId → ℕ) (content : PageId → Page)
    (history : PageId → ℕ → Page) (making : Option PageId) : Prop where
  unowned : ∀ p pid, m.pageOwner p ≠ .process pid
  bound : ∀ p, versions p < 2 ^ 32
  current : ∀ p, history p (versions p) = m.persistent p
  twinVersion : ∀ p, (m.pageUsers p).bitmapIndex ≠ 0 → making ≠ some p →
    (m.pageUsers p).bitmapIndex < 3071 ∧
      m.bitmap.getVersion (m.pageUsers p).bitmapIndex ≤ versions p ∧
      content p = history p (m.bitmap.getVersion (m.pageUsers p).bitmapIndex)
  process : ∀ me, ProcessInv versions history (m.process me)

/-- The versions of the pages, with the one that has been carried over. -/
def AccessState.versions (s : AccessState) : PageId → ℕ :=
  match s.carried with
  | some p => Function.update s.memory.versions p (s.memory.versions p + 1)
  | none => s.memory.versions

/-- The same by the access that comes next. -/
def versionsAt (m : Memory) (p : PageId) (pos : VisitPos) : PageId → ℕ :=
  if pos.carried then Function.update m.versions p (m.versions p + 1) else m.versions

/-- What is known of the entry that an iteration visits, by the access that comes next. -/
def MergePos (m : Memory) (content : PageId → Page) (entry : Xpageinfo) : VisitPos → Prop
  | .take => entry.committed = false ∧ m.bitmap.cur < 3071
  | .advance index | .setIndex index | .copyTwin index =>
      entry.committed = false ∧ 0 < index ∧ index < 3071
  | .setVersion index => entry.committed = false ∧ (0 < index ∧ index < 3071) ∧
      content entry.pageNo = m.persistent entry.pageNo
  | .copy => entry.committed = false ∧ m.versions entry.pageNo + 1 < 2 ^ 32 ∧
      entry.version = m.versions entry.pageNo
  | .twin => entry.committed = false ∧ m.versions entry.pageNo + 1 < 2 ^ 32 ∧ TwinMatches m entry
  | .share index | .diffs index => entry.committed = false ∧
      m.versions entry.pageNo + 1 < 2 ^ 32 ∧ TwinMatches m entry ∧
      index = (m.pageUsers entry.pageNo).bitmapIndex
  | .last | .clear | .load | .store _ | .loadVersion | .done => entry.committed = true
  | .storeVersion version => entry.committed = true ∧ version = m.versions entry.pageNo
  | _ => entry.committed = false

variable {m m' : Memory} {content : PageId → Page} {history history' : PageId → ℕ → Page}
  {versions versions' : PageId → ℕ} {me : ℕ} {p : PageId} {q : Process} {entry : Xpageinfo}

/-! ## What processes do -/

/-- Later versions leave what is recorded of earlier ones. -/
theorem ProcessInv.later (inv : ProcessInv versions history q)
    (grown : ∀ p, versions p ≤ versions' p)
    (same : ∀ p v, v ≤ versions p → history' p v = history p v) :
    ProcessInv versions' history' q where
  neverOwner := inv.neverOwner
  writable := inv.writable
  copied := inv.copied
  released := inv.released
  recorded entry member pending := by
    have old := inv.recorded entry member pending
    exact ⟨old.1.trans (grown _), old.2.trans (same _ _ old.1).symm⟩
  unchanged := inv.unchanged

theorem ProcessInv.setPageInfo (inv : ProcessInv versions history q) :
    ProcessInv versions history (q.setPageInfo p .read) where
  neverOwner p' := by
    show Function.update q.pageInfo p .read p' ≠ .readWrite
    by_cases same : p' = p
    · rw [same, Function.update_self]
      decide
    · rw [Function.update_of_ne same]
      exact inv.neverOwner p'
  writable := inv.writable
  copied := inv.copied
  released := inv.released
  recorded := inv.recorded
  unchanged := inv.unchanged

theorem ProcessInv.mprotectRead (inv : ProcessInv versions history q)
    (closed : q.protection p = .none) : ProcessInv versions history (q.mprotectRead p) := by
  have opened := inv.setPageInfo (p := p)
  refine ⟨opened.neverOwner, ?_, ?_, opened.released, opened.recorded, opened.unchanged⟩
  · intro p'
    show Function.update q.protection p .read p' = .readWrite ↔ _
    by_cases same : p' = p
    · subst same
      rw [Function.update_self]
      refine iff_of_false (by decide) fun listed => ?_
      rw [(inv.writable p').mpr listed] at closed
      cases closed
    · rw [Function.update_of_ne same]
      exact inv.writable p'
  · intro p' copy found
    have writable := inv.copied p' copy found
    show Function.update q.protection p .read p' = .readWrite
    by_cases same : p' = p
    · rw [same, closed] at writable
      cases writable
    · rw [Function.update_of_ne same]
      exact writable

/-- A write fault on a page that is not writable: there is no private copy yet. -/
theorem ProcessInv.handleWrite (inv : ProcessInv versions history q)
    (closed : q.protection p ≠ .readWrite) (here : entry.pageNo = p)
    (release : entry.release = true) (version : entry.version = versions p)
    (snapshot : entry.snapshot = history p (versions p)) :
    ProcessInv versions history
      { q.mprotect p .readWrite with
        dirtiedPagesList := Memory.insertEntry entry q.dirtiedPagesList
        written := Function.update q.written p fun _ => false } := by
  have member : ∀ e, e ∈ Memory.insertEntry entry q.dirtiedPagesList ↔
      e = entry ∨ e ∈ q.dirtiedPagesList := fun e => List.mem_orderedInsert _
  -- A page on the list is writable, and this one is not.
  have absent : ∀ e ∈ q.dirtiedPagesList, e.pageNo ≠ p := fun e listed same =>
    closed ((inv.writable p).mpr ⟨e, listed, same⟩)
  refine ⟨inv.neverOwner, ?_, ?_, ?_, ?_, ?_⟩
  · intro p'
    show Function.update q.protection p .readWrite p' = .readWrite ↔ _
    by_cases same : p' = p
    · subst same
      rw [Function.update_self]
      exact iff_of_true rfl ⟨entry, (member entry).mpr (.inl rfl), here⟩
    · rw [Function.update_of_ne same, inv.writable p']
      constructor
      · rintro ⟨e, listed, page⟩
        exact ⟨e, (member e).mpr (.inr listed), page⟩
      · rintro ⟨e, listed, page⟩
        rcases (member e).mp listed with rfl | old
        · exact absurd (page.symm.trans here) same
        · exact ⟨e, old, page⟩
  · -- A private copy is of a writable page, so of another one.
    intro p' copy found
    have writable := inv.copied p' copy found
    have other : p' ≠ p := fun same => closed (same ▸ writable)
    show Function.update q.protection p .readWrite p' = .readWrite
    rw [Function.update_of_ne other]
    exact writable
  · intro e listed
    rcases (member e).mp listed with rfl | old
    · exact release
    · exact inv.released e old
  · intro e listed pending
    rcases (member e).mp listed with rfl | old
    · rw [here]
      exact ⟨version.le, snapshot.trans (by rw [version])⟩
    · exact inv.recorded e old pending
  · -- The entry that is new has no copy yet; the bytes of the others are as they were.
    intro e listed pending copy found offset unwritten
    rcases (member e).mp listed with rfl | old
    · exact absurd (inv.copied p copy (here ▸ found)) closed
    · have elsewhere := absent e old
      change Function.update q.written p _ e.pageNo offset = false at unwritten
      rw [Function.update_of_ne elsewhere] at unwritten
      exact inv.unchanged e old pending copy found offset unwritten

/-- A store to the private copy, or to a copy that is made for it from the page that the
entry records. -/
theorem ProcessInv.store (inv : ProcessInv versions history q) {page : Page} {offset : Fin pageSize}
    {value : UInt8} (writable : q.protection p = .readWrite)
    (source : ∀ entry ∈ q.dirtiedPagesList, entry.pageNo = p → entry.committed = false →
      ∀ other, q.written p other = false → page other = entry.snapshot other) :
    ProcessInv versions history
      (q.setCopy p (Function.update page offset value) fun other => other = offset) := by
  refine ⟨inv.neverOwner, inv.writable, ?_, inv.released, inv.recorded, ?_⟩
  · intro p' copy found
    by_cases same : p' = p
    · exact same ▸ writable
    · change Function.update q.transient p _ p' = some copy at found
      rw [Function.update_of_ne same] at found
      exact inv.copied p' copy found
  · intro e listed pending copy found other unwritten
    change Function.update q.transient p _ e.pageNo = some copy at found
    change Function.update q.written p _ e.pageNo other = false at unwritten
    by_cases same : e.pageNo = p
    · rw [same, Function.update_self] at found unwritten
      simp only [Bool.or_eq_false_iff, decide_eq_false_iff_not] at unwritten
      rw [← Option.some.inj found, Function.update_of_ne unwritten.1]
      exact source e listed same pending other unwritten.2
    · rw [Function.update_of_ne same] at found unwritten
      exact inv.unchanged e listed pending copy found other unwritten

/-- What a refresh does to one page. -/
theorem updatePage_here (release : entry.release = true) :
    (q.updatePage entry).protection entry.pageNo = entry.pageNo.region.protection ∧
      (q.updatePage entry).transient entry.pageNo = none := by
  simp [Process.updatePage, release, Process.mprotect, Process.dropCopy]

theorem updatePage_elsewhere (different : p ≠ entry.pageNo) :
    (q.updatePage entry).protection p = q.protection p ∧
      (q.updatePage entry).transient p = q.transient p := by
  unfold Process.updatePage
  split <;> simp [Process.mprotect, Process.dropCopy, different]

/-- A refresh resets the pages of the list and no others. -/
theorem foldl_updatePage_elsewhere (entries : List Xpageinfo)
    (different : ∀ entry ∈ entries, p ≠ entry.pageNo) :
    (entries.foldl Process.updatePage q).protection p = q.protection p ∧
      (entries.foldl Process.updatePage q).transient p = q.transient p := by
  induction entries generalizing q with
  | nil => exact ⟨rfl, rfl⟩
  | cons first rest ih =>
    have step := updatePage_elsewhere (q := q) (different first List.mem_cons_self)
    have tail := ih (q := q.updatePage first) fun e later =>
      different e (List.mem_cons_of_mem _ later)
    exact ⟨tail.1.trans step.1, tail.2.trans step.2⟩

theorem foldl_updatePage_here (entries : List Xpageinfo)
    (release : ∀ entry ∈ entries, entry.release = true)
    (listed : ∃ entry ∈ entries, entry.pageNo = p) :
    (entries.foldl Process.updatePage q).protection p = p.region.protection ∧
      (entries.foldl Process.updatePage q).transient p = none := by
  induction entries generalizing q with
  | nil => obtain ⟨_, member, -⟩ := listed; cases member
  | cons first rest ih =>
    rw [List.foldl_cons]
    by_cases later : ∃ entry ∈ rest, entry.pageNo = p
    · exact ih (fun e member => release e (List.mem_cons_of_mem _ member)) later
    · have rest_elsewhere := foldl_updatePage_elsewhere (p := p) (q := q.updatePage first) rest
        fun e member same => later ⟨e, member, same.symm⟩
      obtain ⟨e, member, here⟩ := listed
      rcases List.mem_cons.mp member with rfl | inRest
      · have reset := updatePage_here (q := q) (release e List.mem_cons_self)
        rw [here] at reset
        exact ⟨rest_elsewhere.1.trans reset.1, rest_elsewhere.2.trans reset.2⟩
      · exact absurd ⟨e, inRest, here⟩ later

theorem foldl_updatePage_pageInfo (entries : List Xpageinfo) (q : Process) :
    (entries.foldl Process.updatePage q).pageInfo = q.pageInfo := by
  induction entries generalizing q with
  | nil => rfl
  | cons first rest ih =>
    rw [List.foldl_cons, ih]
    unfold Process.updatePage
    split <;> rfl

theorem protection_ne_readWrite (region : Region) : region.protection ≠ .readWrite := by
  cases region <;> decide

theorem ProcessInv.updateAll (inv : ProcessInv versions history q) :
    ProcessInv versions history q.updateAll := by
  refine ⟨?_, ?_, ?_, nofun, nofun, nofun⟩
  · intro p
    show (q.dirtiedPagesList.foldl Process.updatePage q).pageInfo p ≠ .readWrite
    rw [foldl_updatePage_pageInfo]
    exact inv.neverOwner p
  · intro p
    refine iff_of_false ?_ nofun
    show (q.dirtiedPagesList.foldl Process.updatePage q).protection p ≠ .readWrite
    by_cases listed : ∃ entry ∈ q.dirtiedPagesList, entry.pageNo = p
    · rw [(foldl_updatePage_here _ inv.released listed).1]
      exact protection_ne_readWrite _
    · rw [(foldl_updatePage_elsewhere _ fun e member same => listed ⟨e, member, same.symm⟩).1]
      exact fun writable => listed ((inv.writable p).mp writable)
  · intro p copy found
    change (q.dirtiedPagesList.foldl Process.updatePage q).transient p = some copy at found
    by_cases listed : ∃ entry ∈ q.dirtiedPagesList, entry.pageNo = p
    · rw [(foldl_updatePage_here _ inv.released listed).2] at found
      cases found
    · rw [(foldl_updatePage_elsewhere _ fun e member same =>
        listed ⟨e, member, same.symm⟩).2] at found
      exact absurd ((inv.writable p).mp (inv.copied p copy found)) listed

/-- The iterator's entry is marked as committed, or stays as it is. -/
theorem ProcessInv.setEntry (inv : ProcessInv versions history q) {position : ℕ}
    (found : q.dirtiedPagesList[position]? = some entry) {entry' : Xpageinfo}
    (page : entry'.pageNo = entry.pageNo) (release : entry'.release = true)
    (pending : entry'.committed = false → entry' = entry) :
    ProcessInv versions history
      { q with dirtiedPagesList := q.dirtiedPagesList.set position entry' } := by
  have inside : position < q.dirtiedPagesList.length := (List.getElem?_eq_some_iff.mp found).1
  have older : ∀ e ∈ q.dirtiedPagesList.set position entry', e.committed = false →
      e ∈ q.dirtiedPagesList := by
    intro e member uncommitted
    rcases List.mem_or_eq_of_mem_set member with old | rfl
    · exact old
    · rw [pending uncommitted]
      exact List.mem_of_getElem? found
  refine ⟨inv.neverOwner, ?_, inv.copied, ?_, ?_, ?_⟩
  · intro p
    rw [inv.writable p]
    constructor
    · rintro ⟨e, member, here⟩
      obtain ⟨i, at_i⟩ := List.mem_iff_getElem?.mp member
      by_cases same : position = i
      · subst same
        obtain rfl := Option.some.inj (found.symm.trans at_i)
        exact ⟨entry', List.mem_set inside _, page.trans here⟩
      · refine ⟨e, List.mem_iff_getElem?.mpr ⟨i, ?_⟩, here⟩
        rw [List.getElem?_set_ne same]
        exact at_i
    · rintro ⟨e, member, here⟩
      rcases List.mem_or_eq_of_mem_set member with old | rfl
      · exact ⟨e, old, here⟩
      · exact ⟨entry, List.mem_of_getElem? found, page.symm.trans here⟩
  · intro e member
    rcases List.mem_or_eq_of_mem_set member with old | rfl
    · exact inv.released e old
    · exact release
  · intro e member uncommitted
    exact inv.recorded e (older e member uncommitted) uncommitted
  · intro e member uncommitted
    exact inv.unchanged e (older e member uncommitted) uncommitted

/-! ## What happens to the shared part -/

variable {making : Option PageId} {pos : VisitPos} {index : ℕ}

/-- Only the private part of one process changes. -/
theorem MergeInv.modify (inv : MergeInv m versions content history making)
    (change : Process → Process) (ok : ProcessInv versions history (change (m.process me))) :
    MergeInv (m.modify me change) versions content history making where
  unowned := inv.unowned
  bound := inv.bound
  current := inv.current
  twinVersion := inv.twinVersion
  process other := by
    by_cases here : other = me
    · subst here
      rw [Memory.modify_process_self]
      exact ok
    · rw [Memory.modify_process_of_ne here]
      exact inv.process other

/-- Users do not matter, nor do twins that are given back. -/
theorem MergeInv.congr (inv : MergeInv m versions content history making)
    (owners : m'.pageOwner = m.pageOwner) (shared : m'.persistent = m.persistent)
    (index : ∀ p, (m'.pageUsers p).bitmapIndex = (m.pageUsers p).bitmapIndex ∨
      (m'.pageUsers p).bitmapIndex = 0)
    (bytes : m'.bitmap.bytes = m.bitmap.bytes) (process : m'.process = m.process) :
    MergeInv m' versions content history making := by
  refine ⟨owners ▸ inv.unowned, inv.bound, shared ▸ inv.current, ?_, process ▸ inv.process⟩
  intro p twin ready
  have same := (index p).resolve_right twin
  rw [same] at twin ⊢
  have version : m'.bitmap.getVersion (m.pageUsers p).bitmapIndex =
      m.bitmap.getVersion (m.pageUsers p).bitmapIndex := by
    simp only [Xbitmap.getVersion, bytes]
  rw [version]
  exact inv.twinVersion p twin ready

theorem MergeInv.handleWrite (inv : MergeInv m versions content history making)
    (closed : (m.process me).protection p ≠ .readWrite)
    (room : (m.pageUsers p).users < 2 ^ 16 - 1) (small : (m.pageUsers p).bitmapIndex < 2 ^ 16)
    (counted : m.versions p = versions p) :
    MergeInv (m.handleWrite me p) versions content history making := by
  rw [Memory.handleWrite_eq (inv.unowned p me) ((inv.process me).neverOwner p)]
  have info := increment_eq room small
  have recorded : MergeInv
      { m with pageUsers := Function.update m.pageUsers p (m.pageUsers p).increment } versions
      content history making := by
    refine inv.congr rfl rfl (fun q => .inl ?_) rfl rfl
    show (Function.update m.pageUsers p _ q).bitmapIndex = _
    by_cases same : q = p
    · rw [same, Function.update_self, info]
    · rw [Function.update_of_ne same]
  refine recorded.modify (fun q => { q.mprotect p .readWrite with
    dirtiedPagesList := Memory.insertEntry (m.newEntry p) q.dirtiedPagesList
    written := Function.update q.written p fun _ => false }) ?_
  refine (inv.process me).handleWrite closed rfl rfl ?_ (inv.current p).symm
  show m.versions p % 2 ^ 32 = _
  rw [counted]
  exact Nat.mod_eq_of_lt (inv.bound p)

theorem MergeInv.setSharedPage (inv : MergeInv m versions content history making) :
    MergeInv (m.setSharedPage me p) versions content history making := by
  unfold Memory.setSharedPage
  split
  · have owners : ∀ q pid,
        Function.update (Function.update m.pageOwner p.next .unowned) p .shared q ≠
          .process pid := by
      intro q pid
      by_cases here : q = p
      · rw [here, Function.update_self]
        nofun
      · rw [Function.update_of_ne here]
        by_cases next : q = p.next
        · rw [next, Function.update_self]
          nofun
        · rw [Function.update_of_ne next]
          exact inv.unowned q pid
    have handed : MergeInv { m with
        pageOwner := Function.update (Function.update m.pageOwner p.next .unowned) p .shared }
        versions content history making :=
      ⟨owners, inv.bound, inv.current, inv.twinVersion, inv.process⟩
    exact handed.modify (fun q => q.setPageInfo p .read) (inv.process me).setPageInfo
  · exact inv

/-! ## A new twin -/

/-- The page whose twin is made is left out until that is done. -/
theorem MergeInv.setIndex (inv : MergeInv m versions content history none)
    (small : index < 2 ^ 16) :
    MergeInv (m.setBitmapIndex p index) versions content history (some p) := by
  refine ⟨inv.unowned, inv.bound, inv.current, ?_, inv.process⟩
  intro q twin ready
  have other : q ≠ p := fun same => ready (congrArg some same.symm)
  have same : ((m.setBitmapIndex p index).pageUsers q).bitmapIndex =
      (m.pageUsers q).bitmapIndex := by
    rw [setBitmapIndex_bitmapIndex small, if_neg other]
  rw [same] at twin ⊢
  exact inv.twinVersion q twin (Option.some_ne_none q).symm

/-- Twin pages lie behind the version numbers in use. -/
theorem MergeInv.copyTwin (inv : MergeInv m versions content history (some p))
    (positive : 0 < index) (page : Page) :
    MergeInv { m with bitmap := m.bitmap.setPage index page } versions
      (Function.update content p page) history (some p) := by
  refine ⟨inv.unowned, inv.bound, inv.current, ?_, inv.process⟩
  intro q twin ready
  have other : q ≠ p := fun same => ready (congrArg some same.symm)
  have old := inv.twinVersion q twin ready
  show _ ∧ (m.bitmap.setPage index page).getVersion (m.pageUsers q).bitmapIndex ≤ _ ∧
    _ = history q ((m.bitmap.setPage index page).getVersion (m.pageUsers q).bitmapIndex)
  rw [Xbitmap.getVersion_setPage old.1 positive, Function.update_of_ne other]
  exact old

/-- The number of its version completes a twin. -/
theorem MergeInv.setVersion (inv : MergeInv m m.versions content history (some p))
    (fresh : FreshIndex m p index) (here : (m.pageUsers p).bitmapIndex = index) (low : index < 3071)
    (copied : content p = m.persistent p) :
    MergeInv { m with bitmap := m.bitmap.setVersion index (m.versions p) } m.versions content
      history none := by
  refine ⟨inv.unowned, inv.bound, inv.current, ?_, inv.process⟩
  intro q twin _
  show _ ∧ (m.bitmap.setVersion index (m.versions p)).getVersion (m.pageUsers q).bitmapIndex ≤ _ ∧
    _ = history q
      ((m.bitmap.setVersion index (m.versions p)).getVersion (m.pageUsers q).bitmapIndex)
  by_cases same : q = p
  · subst same
    rw [here, Xbitmap.getVersion_setVersion_self, Nat.mod_eq_of_lt (inv.bound q)]
    exact ⟨here ▸ low, le_rfl, copied.trans (inv.current q).symm⟩
  · rw [Xbitmap.getVersion_setVersion_of_ne (fresh.others q same twin).1]
    exact inv.twinVersion q twin fun made => same (Option.some.inj made).symm

/-! ## A commit -/

/-- What the pages were at each version, after a page has been published. -/
def extend (history : PageId → ℕ → Page) (p : PageId) (version : ℕ) (page : Page) :
    PageId → ℕ → Page :=
  Function.update history p (Function.update (history p) version page)

theorem extend_self (page : Page) (version : ℕ) :
    extend history p version page p version = page := by
  simp [extend]

theorem extend_of_lt {q : PageId} {page : Page} {v : ℕ} (earlier : q = p → v < versions p + 1) :
    extend history p (versions p + 1) page q v = history q v := by
  unfold extend
  by_cases same : q = p
  · subst same
    rw [Function.update_self, Function.update_of_ne (Nat.ne_of_lt (earlier rfl))]
  · rw [Function.update_of_ne same]

/-- A page is published, as its next version. -/
theorem MergeInv.publish (inv : MergeInv m m.versions content history making) (page : Page)
    (room : m.versions p + 1 < 2 ^ 32) :
    MergeInv (m.setPersistent p page) (Function.update m.versions p (m.versions p + 1)) content
      (extend history p (m.versions p + 1) page) making := by
  -- Versions only grow, so what has been recorded of the past stays true.
  have grown : ∀ q, m.versions q ≤ Function.update m.versions p (m.versions p + 1) q := by
    intro q
    by_cases same : q = p
    · subst same
      rw [Function.update_self]
      exact Nat.le_succ _
    · rw [Function.update_of_ne same]
  have old : ∀ q v, v ≤ m.versions q →
      extend history p (m.versions p + 1) page q v = history q v := by
    intro q v earlier
    apply extend_of_lt
    rintro rfl
    exact Nat.lt_succ_of_le earlier
  refine ⟨inv.unowned, ?_, ?_, ?_, fun me => (inv.process me).later grown old⟩
  · intro q
    by_cases same : q = p
    · rw [same, Function.update_self]
      exact room
    · rw [Function.update_of_ne same]
      exact inv.bound q
  · -- The newest version is the published page, and the others are in the history as before.
    intro q
    show _ = Function.update m.persistent p page q
    by_cases same : q = p
    · subst same
      rw [Function.update_self, Function.update_self, extend_self]
    · rw [Function.update_of_ne same, Function.update_of_ne same, extend,
        Function.update_of_ne same]
      exact inv.current q
  · intro q twin ready
    have version := inv.twinVersion q twin ready
    exact ⟨version.1, version.2.1.trans (grown q), version.2.2.trans (old q _ version.2.1).symm⟩

/-- Where a page becomes the local one apart from the bytes of the fault, bytes that were not
stored stay. -/
theorem MergeInv.exactMerge (inv : MergeInv m versions content history making)
    (member : entry ∈ (m.process me).dirtiedPagesList) (pending : entry.committed = false)
    {page : Page}
    (formula : ∀ offset, page offset =
      if m.view me entry.pageNo offset = entry.snapshot offset then
        m.persistent entry.pageNo offset
      else m.view me entry.pageNo offset) :
    ExactMerge m (m.setPersistent entry.pageNo page).persistent me entry := by
  have published : (m.setPersistent entry.pageNo page).persistent entry.pageNo = page :=
    Function.update_self _ _ _
  refine ⟨fun offset => ?_, fun p elsewhere => Function.update_of_ne elsewhere _ _⟩
  dsimp only
  rw [published]
  refine ⟨formula offset, fun unwritten => ?_⟩
  rw [formula]
  split
  · rfl
  · next differs =>
    -- a private copy would hold the byte of the fault
    have noCopy : (m.process me).transient entry.pageNo = none := by
      cases copy : (m.process me).transient entry.pageNo with
      | none => rfl
      | some page =>
        refine absurd ?_ differs
        show ((m.process me).transient entry.pageNo).getD _ offset = _
        rw [copy]
        exact (inv.process me).unchanged entry member pending page copy offset unwritten
    show ((m.process me).transient entry.pageNo).getD _ offset = _
    rw [noCopy]
    rfl

/-- With the version of the fault the whole copy goes out. -/
theorem MergeInv.copy_exact (inv : MergeInv m m.versions content history making)
    (member : entry ∈ (m.process me).dirtiedPagesList) (pending : entry.committed = false)
    (current : entry.version = m.versions entry.pageNo) :
    ExactMerge m (m.commitAccess me entry .copy).1.persistent me entry := by
  refine inv.exactMerge member pending fun offset => ?_
  have recorded := (inv.process me).recorded entry member pending
  -- nothing was committed since the fault
  have snapshot : entry.snapshot = m.persistent entry.pageNo := by
    rw [recorded.2, current, inv.current]
  rw [snapshot]
  split
  · next same => exact same
  · rfl

/-- With a twin that is the page at the fault the differences to it are those of the process. -/
theorem MergeInv.diffs_exact (inv : MergeInv m m.versions content history none)
    (twins : TwinInv m content none) (member : entry ∈ (m.process me).dirtiedPagesList)
    (pending : entry.committed = false) (matched : TwinMatches m entry) :
    ExactMerge m
      (m.commitAccess me entry (.diffs (m.pageUsers entry.pageNo).bitmapIndex)).1.persistent me
      entry := by
  refine inv.exactMerge member pending fun offset => ?_
  have recorded := (inv.process me).recorded entry member pending
  have ready : (none : Option PageId) ≠ some entry.pageNo := (Option.some_ne_none _).symm
  have version := inv.twinVersion entry.pageNo matched.1 ready
  have snapshot : m.bitmap.page (m.pageUsers entry.pageNo).bitmapIndex = entry.snapshot := by
    rw [twins.intact entry.pageNo matched.1 ready, version.2.2, matched.2, recorded.2]
  rw [PageDiffs.writePageDiffs_apply, snapshot]

/-- The entry is marked where the page is carried over; no other access changes it, or shared
pages. -/
theorem commitAccess_entry (pos : VisitPos) (inv : MergeInv m versions content history making)
    (member : entry ∈ (m.process me).dirtiedPagesList) :
    (m.commitAccess me entry pos).2.1 = entry ∧
        (m.commitAccess me entry pos).1.persistent = m.persistent ∨
      (m.commitAccess me entry pos).2.1 = { entry with committed := true } ∧
        (pos = .copy ∨ ∃ index, pos = .diffs index) := by
  have kept : { entry with release := true } = entry := by
    rw [← (inv.process me).released entry member]
  cases pos with
  | sole =>
    refine .inl ?_
    simp only [Memory.commitAccess]
    split
    · exact ⟨kept, rfl⟩
    · exact ⟨rfl, rfl⟩
  | owner =>
    refine .inl ?_
    simp only [Memory.commitAccess, if_pos (inv.unowned entry.pageNo me)]
    exact ⟨kept, trivial⟩
  | share index => exact .inl ⟨rfl, Memory.setSharedPage_persistent⟩
  | copy => exact .inr ⟨rfl, .inl rfl⟩
  | diffs index => exact .inr ⟨rfl, .inr ⟨index, rfl⟩⟩
  | _ => exact .inl ⟨rfl, rfl⟩

/-- **One access of a commit**, with the entry as it was. -/
theorem MergeInv.commitAccess
    (inv : MergeInv m (versionsAt m entry.pageNo pos) content history (makingAt entry.pageNo pos))
    (twins : TwinInv m content (makingAt entry.pageNo pos))
    (twinPos : TwinPos m content entry.pageNo pos) (at_ : MergePos m content entry pos)
    (member : entry ∈ (m.process me).dirtiedPagesList) (fits : CommitFits m entry (some pos)) :
    let result := m.commitAccess me entry pos
    let content' := twinContentAfter m content entry.pageNo pos
    (∃ history', MergeInv result.1 (versionsAt result.1 entry.pageNo result.2.2) content' history'
      (makingAt entry.pageNo result.2.2)) ∧
      MergePos result.1 content' result.2.1 result.2.2 := by
  intro result content'
  have kept : { entry with release := true } = entry := by
    rw [← (inv.process me).released entry member]
  cases pos with
  | users =>
    by_cases several : 1 < (m.pageUsers entry.pageNo).users
    · simp only [result, Memory.commitAccess, if_pos several]
      exact ⟨⟨history, inv⟩, at_⟩
    · simp only [result, Memory.commitAccess, if_neg several]
      exact ⟨⟨history, inv⟩, at_⟩
  | bitmapIndex =>
    by_cases none : (m.pageUsers entry.pageNo).bitmapIndex = 0
    · simp only [result, Memory.commitAccess, if_pos none]
      exact ⟨⟨history, inv⟩, at_⟩
    · simp only [result, Memory.commitAccess, if_neg none]
      exact ⟨⟨history, inv⟩, at_⟩
  | room =>
    have low : m.bitmap.cur < 3071 := fits
    have room : m.bitmap.cur + 1 < Xbitmap.total := by
      show m.bitmap.cur + 1 < 81920
      omega
    simp only [result, Memory.commitAccess, if_pos room]
    exact ⟨⟨history, inv⟩, at_, low⟩
  | take => exact ⟨⟨history, inv⟩, at_.1, twins.positive, at_.2⟩
  | advance index =>
    exact ⟨⟨history, inv.congr rfl rfl (fun _ => .inl rfl) rfl rfl⟩, at_⟩
  | setIndex index => exact ⟨⟨history, inv.setIndex twinPos.2.2.1.small⟩, at_⟩
  | copyTwin index =>
    exact ⟨⟨history, inv.copyTwin at_.2.1 _⟩, at_.1, at_.2, Function.update_self _ _ _⟩
  | setVersion index =>
    exact ⟨⟨history, inv.setVersion twinPos.2.2.1 twinPos.2.1 at_.2.1.2 at_.2.2⟩, at_.1⟩
  | sole =>
    by_cases several : (m.pageUsers entry.pageNo).users ≠ 1
    · simp only [result, Memory.commitAccess, if_pos several, kept]
      exact ⟨⟨history, inv⟩, at_⟩
    · simp only [result, Memory.commitAccess, if_neg several]
      exact ⟨⟨history, inv⟩, at_⟩
  | owner =>
    simp only [result, Memory.commitAccess, if_pos (inv.unowned entry.pageNo me), kept]
    exact ⟨⟨history, inv⟩, at_⟩
  | version =>
    by_cases current : entry.version = m.versions entry.pageNo
    · simp only [result, Memory.commitAccess, if_pos current]
      exact ⟨⟨history, inv⟩, at_, fits.1, current⟩
    · simp only [result, Memory.commitAccess, if_neg current]
      exact ⟨⟨history, inv⟩, at_, fits.1, fits.2 current⟩
  | copy => exact ⟨⟨_, inv.publish _ at_.2.1⟩, rfl⟩
  | twin => exact ⟨⟨history, inv⟩, at_.1, at_.2.1, at_.2.2, rfl⟩
  | share index =>
    have versions : (m.setSharedPage me entry.pageNo).versions = m.versions := by
      unfold Memory.setSharedPage
      split <;> rfl
    refine ⟨⟨history, ?_⟩, at_.1, ?_, ?_, ?_⟩
    · show MergeInv (m.setSharedPage me entry.pageNo) (m.setSharedPage me entry.pageNo).versions
        content history none
      rw [versions]
      exact inv.setSharedPage
    · show (m.setSharedPage me entry.pageNo).versions entry.pageNo + 1 < 2 ^ 32
      rw [versions]
      exact at_.2.1
    · show TwinMatches (m.setSharedPage me entry.pageNo) entry
      rw [TwinMatches, Memory.setSharedPage_pageUsers, Memory.setSharedPage_bitmap]
      exact at_.2.2.1
    · show index = ((m.setSharedPage me entry.pageNo).pageUsers entry.pageNo).bitmapIndex
      rw [Memory.setSharedPage_pageUsers]
      exact at_.2.2.2
  | diffs index => exact ⟨⟨_, inv.publish _ at_.2.1⟩, rfl⟩
  | last =>
    by_cases sole : (m.pageUsers entry.pageNo).users = 1
    · simp only [result, Memory.commitAccess, if_pos sole]
      exact ⟨⟨history, inv⟩, at_⟩
    · simp only [result, Memory.commitAccess, if_neg sole]
      exact ⟨⟨history, inv⟩, at_⟩
  | clear =>
    refine ⟨⟨history, inv.congr rfl rfl (fun q => ?_) rfl rfl⟩, at_⟩
    show ((m.setBitmapIndex entry.pageNo 0).pageUsers q).bitmapIndex = _ ∨
      ((m.setBitmapIndex entry.pageNo 0).pageUsers q).bitmapIndex = 0
    rw [setBitmapIndex_bitmapIndex (Nat.two_pow_pos 16)]
    split
    · exact .inr rfl
    · exact .inl rfl
  | load => exact ⟨⟨history, inv⟩, at_⟩
  | store users =>
    refine ⟨⟨history, inv.congr rfl rfl (fun q => .inl ?_) rfl rfl⟩, at_⟩
    show (Function.update m.pageUsers entry.pageNo _ q).bitmapIndex = _
    by_cases same : q = entry.pageNo
    · rw [same, Function.update_self]
    · rw [Function.update_of_ne same]
  | loadVersion => exact ⟨⟨history, inv⟩, at_, rfl⟩
  | storeVersion version =>
    obtain ⟨marked, rfl⟩ := at_
    have bound : m.versions entry.pageNo + 1 < 2 ^ 32 := by
      have counted : versionsAt m entry.pageNo (.storeVersion (m.versions entry.pageNo)) =
          Function.update m.versions entry.pageNo (m.versions entry.pageNo + 1) := if_pos rfl
      have bound := inv.bound entry.pageNo
      rw [counted, Function.update_self] at bound
      exact bound
    refine ⟨⟨history, ?_⟩, marked⟩
    have next : (m.versions entry.pageNo + 1) % 2 ^ 64 = m.versions entry.pageNo + 1 :=
      Nat.mod_eq_of_lt (by omega)
    show MergeInv { m with versions := Function.update m.versions entry.pageNo _ }
      (Function.update m.versions entry.pageNo ((m.versions entry.pageNo + 1) % 2 ^ 64)) content
      history none
    rw [next]
    exact ⟨inv.unowned, inv.bound, inv.current, inv.twinVersion, inv.process⟩
  | done => exact ⟨⟨history, inv⟩, at_⟩

/-! ## The states of a run -/

/-- The invariant, for whatever the pages were at earlier versions. -/
structure MergeState (s : AccessState) : Prop where
  twins : TwinState s
  merges : ∃ history, MergeInv s.memory s.versions s.twinContent history s.making
  at_ : ∀ entry pos, s.visit = some (entry, pos) → MergePos s.memory s.twinContent entry pos

variable {s s' : AccessState} {label : Label}

theorem versions_of_visit (visit : s.visit = some (entry, pos)) :
    s.versions = versionsAt s.memory entry.pageNo pos := by
  cases carried : pos.carried <;>
    simp [AccessState.versions, AccessState.carried, visit, versionsAt, carried]

theorem versions_of_none (visit : s.visit = none) : s.versions = s.memory.versions := by
  simp [AccessState.versions, AccessState.carried, visit]

/-- A page that is not newer than its version has the version that is counted. -/
theorem versions_of_not_carried (settled : s.carried ≠ some p) :
    s.versions p = s.memory.versions p := by
  cases carried : s.carried with
  | none => simp only [AccessState.versions, carried]
  | some q =>
    have other : p ≠ q := fun same => settled (same ▸ carried)
    simp only [AccessState.versions, carried, Function.update_of_ne other]

theorem MergesCleanly.keepsTwins (clean : MergesCleanly s label) :
    KeepsTwins s label := by
  cases label with
  | writeFault me p => exact clean.2.1
  | cleanup => exact clean.2
  | commitPage =>
    intro entry visit
    obtain ⟨me, position, at_position, found, access⟩ := Memory.visit_some visit
    have low : s.memory.bitmap.cur < 3071 := by
      have fits := clean.2 me position entry at_position found
      rw [access] at fits
      exact fits
    have room : s.memory.bitmap.cur + 1 < Xbitmap.total := by
      show s.memory.bitmap.cur + 1 < 81920
      omega
    have index : s.memory.bitmap.get.1 = s.memory.bitmap.cur := by rw [Xbitmap.get, if_pos room]
    refine ⟨by omega, fun q live => ?_⟩
    rw [index]
    exact Xbitmap.not_overlays_of_lt low (Nat.pos_of_ne_zero live.2)
  | _ => trivial

theorem MergePos.congr (at_ : MergePos m content entry pos)
    (counter : pos.allocating → m'.bitmap.cur = m.bitmap.cur)
    (shared : m'.persistent = m.persistent) (versions : m'.versions = m.versions)
    (index : ∀ q, (m'.pageUsers q).bitmapIndex = (m.pageUsers q).bitmapIndex)
    (bytes : m'.bitmap.bytes = m.bitmap.bytes) : MergePos m' content entry pos := by
  have matches_ : TwinMatches m entry → TwinMatches m' entry := by
    intro matched
    rw [TwinMatches, index]
    refine ⟨matched.1, ?_⟩
    rw [← matched.2]
    simp only [Xbitmap.getVersion, bytes]
  cases pos with
  | take => exact ⟨at_.1, (counter rfl).trans_lt at_.2⟩
  | setVersion i => exact ⟨at_.1, at_.2.1, at_.2.2.trans (by rw [shared])⟩
  | copy => exact ⟨at_.1, versions ▸ at_.2.1, versions ▸ at_.2.2⟩
  | twin => exact ⟨at_.1, versions ▸ at_.2.1, matches_ at_.2.2⟩
  | share i | diffs i =>
    exact ⟨at_.1, versions ▸ at_.2.1, matches_ at_.2.2.1, at_.2.2.2.trans (index _).symm⟩
  | storeVersion v => exact ⟨at_.1, versions ▸ at_.2⟩
  | _ => exact at_

/-- Steps other than those of the commit. -/
theorem MergeState.other (inv : MergeState s) (twins : TwinState s') (same : s'.visit = s.visit)
    (content : s'.twinContent = s.twinContent)
    (merges : ∀ history, MergeInv s.memory s.versions s.twinContent history s.making →
      MergeInv s'.memory s.versions s.twinContent history s.making)
    (counter : ∀ entry pos, s.visit = some (entry, pos) → pos.allocating →
      s'.memory.bitmap.cur = s.memory.bitmap.cur)
    (shared : s'.memory.persistent = s.memory.persistent)
    (versions : s'.memory.versions = s.memory.versions)
    (index : ∀ q, (s'.memory.pageUsers q).bitmapIndex = (s.memory.pageUsers q).bitmapIndex)
    (bytes : s'.memory.bitmap.bytes = s.memory.bitmap.bytes) : MergeState s' := by
  have counted : s'.versions = s.versions := by
    simp only [AccessState.versions, AccessState.carried, same, versions]
  have making : s'.making = s.making := by simp only [AccessState.making, same]
  obtain ⟨history, before⟩ := inv.merges
  refine ⟨twins, ⟨history, ?_⟩, fun entry pos visit => ?_⟩
  · rw [counted, content, making]
    exact merges history before
  · rw [same] at visit
    rw [content]
    exact (inv.at_ entry pos visit).congr (counter entry pos visit) shared versions index bytes

theorem MergeState.commit (inv : MergeState s) (clean : MergesCleanly s .commitPage)
    (move : accessStep s .commitPage = some s') : MergeState s' := by
  have twins := inv.twins.commit clean.keepsTwins move
  obtain ⟨me, position, at_position, move⟩ := accessStep_commitPage move
  obtain ⟨history, merges⟩ := inv.merges
  -- the invariant outside an iteration
  have idle : ∀ s' : AccessState, TwinState s' → s'.visit = none →
      MergeInv s'.memory s'.memory.versions s'.twinContent history none → MergeState s' := by
    intro s' twins none merges
    refine ⟨twins, ⟨history, ?_⟩, fun entry pos visit => by cases none.symm.trans visit⟩
    rw [versions_of_none none, making_of_none none]
    exact merges
  cases move with
  | ended found =>
    have before : s.visit = none := visit_of_ended at_position found
    rw [versions_of_none before, making_of_none before] at merges
    exact idle _ twins rfl merges
  | begun entry found stopped =>
    have before : s.visit = none := by rw [visit_eq at_position found, stopped]; rfl
    have after : ({ s with access := some .users } : AccessState).visit = some (entry, .users) :=
      visit_eq at_position found
    have pending := clean.2 me position entry at_position found
    rw [stopped] at pending
    rw [versions_of_none before, making_of_none before] at merges
    refine ⟨twins, ⟨history, ?_⟩, fun entry' pos' visit => ?_⟩
    · rw [versions_of_visit after, making_of_visit after]
      exact merges
    · cases after.symm.trans visit
      exact pending
  | accessed entry pos found access _ =>
    have before : s.visit = some (entry, pos) := by rw [visit_eq at_position found, access]; rfl
    have after := accessed_visit pos at_position found
    have member := List.mem_of_getElem? found
    have fits := clean.2 me position entry at_position found
    rw [access] at fits
    have twinInv := inv.twins.twins
    rw [making_of_visit before] at merges twinInv
    rw [versions_of_visit before] at merges
    obtain ⟨⟨history', kept⟩, next⟩ := merges.commitAccess twinInv (inv.twins.at_ entry pos before)
      (inv.at_ entry pos before) member fits
    have list : ((s.memory.commitAccess me entry pos).1.process me).dirtiedPagesList[position]? =
        some entry := by
      rw [Memory.commitAccess_dirtiedPagesList]
      exact found
    have released := (merges.process me).released entry member
    have set : ProcessInv
        (versionsAt (s.memory.commitAccess me entry pos).1 entry.pageNo
          (s.memory.commitAccess me entry pos).2.2) history'
        { (s.memory.commitAccess me entry pos).1.process me with
          dirtiedPagesList :=
            ((s.memory.commitAccess me entry pos).1.process me).dirtiedPagesList.set position
              (s.memory.commitAccess me entry pos).2.1 } := by
      refine (kept.process me).setEntry list (Memory.commitAccess_pageNo ..) ?_ ?_
      · rcases commitAccess_entry pos merges member with ⟨same, -⟩ | ⟨marked, -⟩
        · rw [same]
          exact released
        · rw [marked]
          exact released
      · intro pending
        rcases commitAccess_entry pos merges member with ⟨same, -⟩ | ⟨marked, -⟩
        · exact same
        · rw [marked] at pending
          cases pending
    refine ⟨twins, ⟨history', ?_⟩, fun entry' pos' visit => ?_⟩
    · rw [versions_of_visit after, making_of_visit after, Memory.commitAccess_pageNo]
      exact kept.modify (fun q => { q with
        dirtiedPagesList :=
          q.dirtiedPagesList.set position (s.memory.commitAccess me entry pos).2.1 }) set
    · cases after.symm.trans visit
      exact next.congr (fun _ => rfl) rfl rfl (fun _ => rfl) rfl
  | passed entry found done =>
    have before : s.visit = some (entry, .done) := by rw [visit_eq at_position found, done]; rfl
    rw [versions_of_visit before, making_of_visit before] at merges
    exact idle _ twins (by simp only [AccessState.visit, Memory.visit_between]) merges

theorem MergeState.step (inv : MergeState s) (clean : MergesCleanly s label)
    (move : accessStep s label = some s') : MergeState s' := by
  by_cases commit : label = .commitPage
  · subst commit
    exact inv.commit clean move
  · have twins := inv.twins.step clean.keepsTwins move
    obtain ⟨moved, -⟩ := accessStep_of_ne move commit
    have same := accessStep_visit move commit
    -- a step that changes one process only
    have alone : ∀ me change, s'.toState = { s.toState with memory := s.memory.modify me change } →
        (∀ history, MergeInv s.memory s.versions s.twinContent history s.making →
          ProcessInv s.versions history (change (s.memory.process me))) → MergeState s' := by
      intro me change after ok
      have memory : s'.memory = s.memory.modify me change := congrArg State.memory after
      have content := congrArg State.twinContent after
      refine inv.other twins same content ?_ ?_ ?_ ?_ ?_ ?_
      · rw [memory]
        exact fun history merges => merges.modify change (ok history merges)
      all_goals rw [memory]
      · exact fun _ _ _ _ => rfl
      · rfl
      · rfl
      · exact fun _ => rfl
      · rfl
    cases label with
    | commitPage => exact absurd rfl commit
    | setSyncEntry me o entry => exact clean.1.elim
    | clearSyncEntry me o => exact clean.1.elim
    | setOwnedPage me p => exact clean.1.elim
    | commitOwnedPage me p setShared => exact clean.1.elim
    | readFault me p =>
      obtain ⟨⟨-, closed, -⟩, after⟩ := guarded moved
      exact alone me _ after.symm fun history merges => (merges.process me).mprotectRead closed
    | updateAll me =>
      obtain ⟨-, after⟩ := guarded moved
      exact alone me _ after.symm fun history merges => (merges.process me).updateAll
    | store me p offset value =>
      obtain ⟨⟨-, writable⟩, after⟩ := guarded moved
      refine alone me _ after.symm fun history merges => (merges.process me).store writable ?_
      intro entry member here pending other unwritten
      show ((s.memory.process me).transient p).getD _ other = _
      cases copy : (s.memory.process me).transient p with
      | some page =>
        subst here
        exact (merges.process me).unchanged entry member pending page copy other unwritten
      | none =>
        -- the copy is made from the page of the fault
        obtain ⟨settled, current⟩ := clean.2 copy
        have recorded := (merges.process me).recorded entry member pending
        rw [recorded.2, current entry member here pending, here,
          ← versions_of_not_carried settled, merges.current]
        rfl
    | writeFault me p =>
      obtain ⟨⟨-, closed, -⟩, after⟩ := guarded moved
      obtain ⟨history, merges⟩ := inv.merges
      have memory : s'.memory = s.memory.handleWrite me p := (congrArg State.memory after).symm
      have small := (inv.twins.twins.small p).2
      have users := handleWrite_pageUsers me clean.2.1 small
      have written := Memory.handleWrite_eq (merges.unowned p me) ((merges.process me).neverOwner p)
      refine inv.other twins same (congrArg State.twinContent after).symm ?_ ?_ ?_ ?_ ?_ ?_
      · rw [memory]
        exact fun history merges => merges.handleWrite closed clean.2.1 small
          (versions_of_not_carried clean.2.2).symm
      all_goals rw [memory]
      · rw [handleWrite_bitmap]
        exact fun _ _ _ _ => rfl
      · rw [written]
        rfl
      · rw [written]
        rfl
      · exact fun q => (users q).2
      · rw [handleWrite_bitmap]
    | takeUnowned me p =>
      obtain ⟨-, after⟩ := guarded moved
      have memory : s'.memory = s.memory.setSharedPage me p := (congrArg State.memory after).symm
      refine inv.other twins same (congrArg State.twinContent after).symm ?_ ?_ ?_ ?_ ?_ ?_
      · rw [memory]
        exact fun history merges => merges.setSharedPage
      all_goals rw [memory]
      · rw [Memory.setSharedPage_bitmap]
        exact fun _ _ _ _ => rfl
      · exact Memory.setSharedPage_persistent
      · exact Memory.setSharedPage_versions
      · rw [Memory.setSharedPage_pageUsers]
        exact fun _ => rfl
      · rw [Memory.setSharedPage_bitmap]
    | checkandcommit me =>
      obtain ⟨-, after⟩ := guarded moved
      have memory : s'.memory = s.memory := (congrArg State.memory after).symm
      refine inv.other twins same (congrArg State.twinContent after).symm ?_ ?_ ?_ ?_ ?_ ?_
      all_goals rw [memory]
      · exact fun _ merges => merges
      · exact fun _ _ _ _ => rfl
      · exact fun _ => rfl
    | cleanup =>
      have after := Option.some.inj moved
      have memory : s'.memory = { s.memory with bitmap := s.memory.bitmap.cleanup } :=
        (congrArg State.memory after).symm
      refine inv.other twins same (congrArg State.twinContent after).symm ?_ ?_ ?_ ?_ ?_ ?_
      · rw [memory]
        exact fun history merges => merges.congr rfl rfl (fun _ => .inl rfl) rfl rfl
      all_goals rw [memory]
      · intro entry pos visit allocating
        rw [clean.2.2 entry pos visit] at allocating
        cases allocating
      · exact fun _ => rfl
      · rfl

theorem initial_mergeState (contents : PageId → Page) (allocated : ℕ) :
    MergeState ⟨initial contents allocated, none⟩ := by
  refine ⟨initial_twinState contents allocated, ⟨fun p _ => contents p, ?_, ?_, fun _ => rfl,
    fun _ twin => absurd rfl twin, fun _ => ⟨?_, ?_, nofun, nofun, nofun, nofun⟩⟩,
    fun _ _ visit => by cases visit⟩
  · intro p pid
    show (if _ then Owner.unowned else Owner.shared) ≠ _
    split <;> nofun
  · exact fun _ => Nat.two_pow_pos 32
  · intro p
    simp only [initial, initialProcess]
    cases p.region with
    | globals => nofun
    | heap =>
      dsimp only
      split <;> nofun
  · intro p
    exact iff_of_false (protection_ne_readWrite _) nofun

theorem mergeState_of_reachable (reach : accessSystem.Reachable MergesCleanly s) :
    MergeState s := by
  have first : ∀ s, accessSystem.Init s → MergeState s := by
    rintro _ ⟨contents, allocated, rfl⟩
    exact initial_mergeState contents allocated
  have next : ∀ s label s', MergeState s → MergesCleanly s label →
      accessSystem.step s label = some s' → MergeState s' :=
    fun s label s' inv clean move => inv.step clean move
  exact reach.invariant MergeState first next

/-! ## Merges over whole runs -/

theorem MergeState.mergesExactly (inv : MergeState s) : MergesExactly s := by
  intro me position entry s' at_position found move
  have after : s' = visitStep s me position entry s.access := by
    simp only [accessStep, at_position, found] at move
    exact (Option.some.inj move).symm
  have visit := visit_eq at_position found
  have member := List.mem_of_getElem? found
  obtain ⟨history, merges⟩ := inv.merges
  have twins := inv.twins.twins
  subst after
  cases access : s.access with
  | none => rfl
  | some pos =>
    rw [access] at visit
    have at_ := inv.at_ entry pos visit
    rw [versions_of_visit visit, making_of_visit visit] at merges
    rw [making_of_visit visit] at twins
    cases pos with
    | copy => exact merges.copy_exact member at_.1 at_.2.2
    | diffs index =>
      obtain ⟨pending, -, matched, rfl⟩ := at_
      exact merges.diffs_exact twins member pending matched
    | done => exact ⟨at_, rfl⟩
    | share index => exact Memory.setSharedPage_persistent
    | sole | owner =>
      show (s.memory.commitAccess me entry _).1.persistent = _
      simp only [Memory.commitAccess]
      split <;> rfl
    | _ => rfl

/-- In every run whose steps all meet the condition, every commit of a page is the exact
byte merge. -/
theorem mergesExactly_of_mergesCleanly (reach : accessSystem.Reachable MergesCleanly s) :
    MergesExactly s :=
  (mergeState_of_reachable reach).mergesExactly

/-- A test for the condition on the accesses of a commit. -/
def commitFits (s : AccessState) : Bool :=
  match s.committing with
  | some (me, position) =>
      match (s.memory.process me).dirtiedPagesList[position]? with
      | some entry =>
          match s.access with
          | none => !entry.committed
          | some .room => s.memory.bitmap.cur < 3071
          | some .version => s.memory.versions entry.pageNo + 1 < 2 ^ 32 &&
              (entry.version = s.memory.versions entry.pageNo ||
                (s.memory.pageUsers entry.pageNo).bitmapIndex != 0 &&
                  s.memory.bitmap.getVersion (s.memory.pageUsers entry.pageNo).bitmapIndex ==
                    entry.version)
          | _ => true
      | none => true
  | none => true

/-- A test for the condition, for runs without clean-ups. -/
def mergesCleanly (s : AccessState) : Label → Bool
  | .readFault _ _ | .takeUnowned _ _ | .checkandcommit _ | .updateAll _ => true
  | .writeFault _ p => (s.memory.pageUsers p).users < 2 ^ 16 - 1 && s.carried != some p
  | .store me p _ _ => s.carried != some p &&
      (s.memory.process me).dirtiedPagesList.all fun entry =>
        entry.pageNo != p || entry.committed || entry.version == s.memory.versions p
  | .commitPage => commitFits s
  | _ => false

theorem mergesCleanly_sound (passes : mergesCleanly s label = true) : MergesCleanly s label := by
  cases label with
  | readFault | takeUnowned | checkandcommit | updateAll => exact ⟨trivial, trivial⟩
  | setSyncEntry | clearSyncEntry | setOwnedPage | commitOwnedPage | cleanup => cases passes
  | writeFault me p =>
    refine ⟨trivial, ?_⟩
    simpa [mergesCleanly] using passes
  | store me p offset value =>
    refine ⟨trivial, fun _ => ?_⟩
    simp only [mergesCleanly, Bool.and_eq_true, bne_iff_ne, List.all_eq_true, Bool.or_eq_true,
      beq_iff_eq] at passes
    refine ⟨passes.1, fun entry member here pending => ?_⟩
    rcases passes.2 entry member with (other | committed) | current
    · exact absurd here other
    · rw [pending] at committed
      cases committed
    · exact current
  | commitPage =>
    refine ⟨trivial, fun me position entry at_position found => ?_⟩
    simp only [mergesCleanly, commitFits, at_position, found] at passes
    cases access : s.access with
    | none => simpa [CommitFits, access] using passes
    | some pos =>
      cases pos with
      | room => simpa [CommitFits, access] using passes
      | version =>
        simp only [access, Bool.and_eq_true, Bool.or_eq_true, decide_eq_true_eq, bne_iff_ne,
          beq_iff_eq] at passes
        exact ⟨passes.1, fun stale => passes.2.resolve_left stale⟩
      | _ => trivial

/-- Two processes write a page. While the first one commits, a third one writes another page; the
second commits by its differences to the twin. -/
theorem mergesExactly_secondWriter : ∃ s, accessSystem.Reachable MergesCleanly s ∧
    (∃ entry, s.visit = some (entry, .diffs 1)) ∧ MergesExactly s := by
  let labels : List Label :=
    [.writeFault 1 (globalsPage 0), .store 1 (globalsPage 0) 0 1,
      .writeFault 2 (globalsPage 0), .store 2 (globalsPage 0) 1 1, .checkandcommit 1] ++
    List.replicate 12 .commitPage ++ [.writeFault 3 (globalsPage 1)] ++
    List.replicate 7 .commitPage ++ [.checkandcommit 2] ++ List.replicate 7 .commitPage
  have run :
      ∃ s, accessSystem.runIf mergesCleanly ⟨initial (fun _ _ => 0) 0, none⟩ labels = some s ∧
      ∃ entry, s.visit = some (entry, .diffs 1) := ⟨_, rfl, _, rfl⟩
  obtain ⟨s, execution, visit⟩ := run
  have start : accessSystem.Reachable MergesCleanly ⟨initial (fun _ _ => 0) 0, none⟩ :=
    .init ⟨_, _, rfl⟩
  have reach := start.runIf (fun _ _ => mergesCleanly_sound) execution
  exact ⟨s, reach, visit, mergesExactly_of_mergesCleanly reach⟩

/-- A third writer that faults after the first commit shares the twin made before it. Its
commit takes the byte of the first writer, which it has not changed, for its own and writes
it over that of the second. -/
theorem not_mergesExactly_lateWriter :
    ¬ ∀ s, accessSystem.Reachable CopyOnWriteOnly s → MergesExactly s := by
  intro mergesExactly
  let commit : ℕ → List Label := fun accesses => List.replicate accesses .commitPage
  let labels : List Label :=
    [.writeFault 1 (globalsPage 0), .store 1 (globalsPage 0) 0 1,
      .writeFault 2 (globalsPage 0), .store 2 (globalsPage 0) 0 2, .checkandcommit 1] ++
    commit 19 ++
    [.updateAll 1, .writeFault 3 (globalsPage 0), .store 3 (globalsPage 0) 2 1,
      .checkandcommit 2] ++ commit 15 ++ [.updateAll 2, .checkandcommit 3] ++ commit 7
  have start : accessSystem.Reachable CopyOnWriteOnly ⟨initial (fun _ _ => 0) 0, none⟩ :=
    .init ⟨_, _, rfl⟩
  have allowed : ∀ label ∈ labels, ∀ s, CopyOnWriteOnly s label := by
    simp [labels, commit, CopyOnWriteOnly]
  -- the third commit is about to write byte 0, which the process has found as it is in its copy
  have stands : (accessSystem.run ⟨initial (fun _ _ => 0) 0, none⟩ labels).map (fun s =>
      (s.committing, s.access, (s.memory.process 3).dirtiedPagesList[0]?.map fun entry =>
        (entry.pageNo, entry.snapshot 0))) =
      some (some (3, 0), some (.diffs 1), some (globalsPage 0, 1)) := by decide +kernel
  have writes : (accessSystem.run ⟨initial (fun _ _ => 0) 0, none⟩ labels).map (fun s =>
      (s.memory.persistent (globalsPage 0) 0, s.memory.view 3 (globalsPage 0) 0,
        (accessStep s .commitPage).map fun s' => s'.memory.persistent (globalsPage 0) 0)) =
      some (2, 1, some 1) := by decide +kernel
  obtain ⟨s, execution, stands⟩ := Option.map_eq_some_iff.mp stands
  rw [execution, Option.map_some, Option.some.injEq] at writes
  simp only [Prod.mk.injEq, Option.map_eq_some_iff] at stands writes
  obtain ⟨at_position, access, entry, found, here, snapshot⟩ := stands
  obtain ⟨before, mine, s', move, after⟩ := writes
  have exact := mergesExactly s (start.follow (System.complies_of_forall allowed _) execution) 3 0
    entry s' at_position found move
  rw [access] at exact
  have merged := (exact.merged 0).1
  rw [here, before, mine, after, snapshot] at merged
  exact absurd merged (by decide)

end Tthread.PageSystem
