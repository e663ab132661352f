/-
# Registered synchronisation objects

`setSyncEntry` stores an object's entry into the shared mapping behind the back of the
page protocol: neither the version nor the twin of the page changes. The entry stays
there as long as every private copy of the page holds it too, for then whatever is
committed writes it back. A process that made its copy before the registration and
commits after it takes the entry away.
-/

import Tthread.PageSystem

open Transition

namespace Tthread.PageSystem

/-- The shared mapping holds the entry of every registered object, so a process that has
refreshed the page finds one. -/
structure Remembers (s : State) : Prop where
  shared : ∀ o entry, s.registered o = some entry →
    readWord (s.memory.persistent o.page) o.slot = entry
  refreshed : ∀ o entry me, s.registered o = some entry →
    (s.memory.process me).transient o.page = none →
    readWord (s.memory.view me o.page) o.slot ≠ 0

/-- What programs may do: they do not store to the word of an object, and an object is
registered when it is initialised, or by the first caller that finds no entry. -/
def WellUsed (s : State) : Label → Prop
  | .store _ p offset _ => ∀ o, s.registered o ≠ none → o.page = p → (offset : ℕ) / 8 ≠ o.slot
  | .setSyncEntry me o entry => entry ≠ 0 ∧
      (s.registered o = none ∨ readWord (s.memory.view me o.page) o.slot = 0)
  | _ => True

/-- The condition on a step: when an object is registered, no other process has a
private copy of its page. -/
def RegistersFirst (s : State) (label : Label) : Prop :=
  WellUsed s label ∧ ∀ me o entry, label = .setSyncEntry me o entry →
    ∀ other, other ≠ me → (s.memory.process other).transient o.page = none

/-! ## Pages that hold an entry -/

/-- The word of the object holds the entry, byte by byte. -/
def Holds (o : SyncObject) (entry : UInt64) (page : Page) : Prop :=
  ∀ k, page (wordByte o.slot k) = Bytes.byteOf entry.toNat k

/-- The shared page and every private copy hold the entry. -/
structure Agree (o : SyncObject) (entry : UInt64) (m : Memory) : Prop where
  persistent : Holds o entry (m.persistent o.page)
  copies : ∀ other copy, (m.process other).transient o.page = some copy → Holds o entry copy

variable {m m' : Memory} {o : SyncObject} {entry : UInt64} {me other : ℕ} {p : PageId}
  {content : Page}

theorem Agree.view (agree : Agree o entry m) (me : ℕ) : Holds o entry (m.view me o.page) := by
  unfold Memory.view
  cases copy : (m.process me).transient o.page with
  | none => exact agree.persistent
  | some content => exact agree.copies me content copy

/-- The shared pages stay and every private copy is an old one. -/
theorem Agree.shrink (agree : Agree o entry m) (same : m'.persistent = m.persistent)
    (copies : ∀ other copy, (m'.process other).transient o.page = some copy →
      (m.process other).transient o.page = some copy) : Agree o entry m' where
  persistent := by rw [same]; exact agree.persistent
  copies other copy found := agree.copies other copy (copies other copy found)

theorem Agree.congr (agree : Agree o entry m) (same : m'.persistent = m.persistent)
    (copies : ∀ other, (m'.process other).transient = (m.process other).transient) :
    Agree o entry m' :=
  agree.shrink same fun other copy found => by rw [← copies other]; exact found

/-- A change of a process that leaves its private copies alone. -/
theorem Agree.modify (agree : Agree o entry m) (change : Process → Process)
    (same : ∀ q, (change q).transient = q.transient) : Agree o entry (m.modify me change) :=
  agree.congr rfl fun _ => Memory.modify_transient same

theorem Agree.setPersistent (agree : Agree o entry m)
    (holds : p = o.page → Holds o entry content) : Agree o entry (m.setPersistent p content) where
  persistent := by
    show Holds o entry (Function.update m.persistent p content o.page)
    by_cases same : o.page = p
    · subst same
      rw [Function.update_self]
      exact holds rfl
    · rw [Function.update_of_ne same]
      exact agree.persistent
  copies := agree.copies

theorem Agree.setCopy (agree : Agree o entry m) {stored : Fin pageSize → Bool}
    (holds : p = o.page → Holds o entry content) :
    Agree o entry (m.modify me fun q => q.setCopy p content stored) where
  persistent := agree.persistent
  copies other copy found := by
    by_cases here : other = me
    · subst here
      rw [Memory.modify_process_self] at found
      simp only [Process.setCopy] at found
      by_cases same : o.page = p
      · subst same
        rw [Function.update_self] at found
        exact Option.some.inj found ▸ holds rfl
      · rw [Function.update_of_ne same] at found
        exact agree.copies other copy found
    · rw [Memory.modify_process_of_ne here] at found
      exact agree.copies other copy found

theorem dropCopy_transient {q : Process} {p' : PageId} {copy : Page}
    (found : (q.dropCopy p).transient p' = some copy) : q.transient p' = some copy := by
  simp only [Process.dropCopy] at found
  by_cases same : p' = p
  · subst same
    rw [Function.update_self] at found
    cases found
  · rwa [Function.update_of_ne same] at found

theorem Agree.dropCopy (agree : Agree o entry m) :
    Agree o entry (m.modify me fun q => q.dropCopy p) := by
  refine agree.shrink rfl fun other copy found => ?_
  by_cases here : other = me
  · subst here
    rw [Memory.modify_process_self] at found
    exact dropCopy_transient found
  · rwa [Memory.modify_process_of_ne here] at found

theorem updateAll_transient {q : Process} {copy : Page}
    (found : q.updateAll.transient p = some copy) : q.transient p = some copy := by
  have loop : ∀ (entries : List Xpageinfo) (q : Process),
      (entries.foldl Process.updatePage q).transient p = some copy → q.transient p = some copy := by
    intro entries
    induction entries with
    | nil => exact fun _ found => found
    | cons first rest ih =>
      intro q found
      have later := ih _ found
      simp only [Process.updatePage] at later
      split at later
      · exact dropCopy_transient later
      · exact later
  exact loop _ q found

theorem Agree.updateAll (agree : Agree o entry m) : Agree o entry (m.updateAll me) := by
  refine agree.shrink rfl fun other copy found => ?_
  by_cases here : other = me
  · subst here
    rw [Memory.updateAll, Memory.modify_process_self] at found
    exact updateAll_transient found
  · rwa [Memory.updateAll, Memory.modify_process_of_ne here] at found

/-! ## The operations -/

theorem Agree.setSharedPage (agree : Agree o entry m) : Agree o entry (m.setSharedPage me p) :=
  agree.congr Memory.setSharedPage_persistent fun _ => Memory.setSharedPage_transient

theorem Agree.commitOwnedPage (agree : Agree o entry m) {setShared : Bool} :
    Agree o entry (m.commitOwnedPage me p setShared) := by
  have copied : ∀ change : Process → Process, (∀ q, (change q).transient = q.transient) →
      Agree o entry ((m.setPersistent p (m.view me p)).modify me change) := by
    intro change same
    refine (agree.setPersistent fun here => ?_).modify change same
    rw [here]
    exact agree.view me
  have finish : ∀ m', Agree o entry m' → Agree o entry
      ((if setShared then (m'.setSharedPage me p).modify me fun q => q.dropCopy p
        else m').incrementVersion p) := by
    intro m' agree'
    split
    · exact agree'.setSharedPage.dropCopy.congr rfl fun _ => rfl
    · exact agree'.congr rfl fun _ => rfl
  simp only [Memory.commitOwnedPage]
  cases (m.process me).pageInfo p with
  | none => exact finish _ agree
  | read => exact finish _ agree
  | readWrite => exact finish _ (copied _ fun _ => rfl)
  | unused => exact finish _ (copied _ fun _ => rfl)

theorem Agree.mprotectReadWrite (agree : Agree o entry m) :
    Agree o entry (m.mprotectReadWrite me p) := by
  refine agree.modify _ fun q => ?_
  dsimp only
  split <;> rfl

theorem Agree.handleWrite (agree : Agree o entry m) : Agree o entry (m.handleWrite me p) := by
  have opened : Agree o entry (m.openPage me p) := by
    unfold Memory.openPage
    split
    · exact agree.mprotectReadWrite
    · exact agree.mprotectReadWrite
    · exact agree.mprotectReadWrite
    · exact agree.mprotectReadWrite.commitOwnedPage
  simp only [Memory.handleWrite]
  split
  · exact opened
  · exact opened.congr rfl fun _ => Memory.recordUser_transient

/-- Either way of committing a page takes the word from pages that hold the entry. -/
theorem Agree.copyOut (agree : Agree o entry m) {info : Xpageinfo} :
    Agree o entry (m.copyOut me info) := by
  simp only [Memory.copyOut]
  split
  · refine agree.setPersistent fun here => ?_
    rw [here]
    exact agree.view me
  · refine agree.setSharedPage.setPersistent fun here k => ?_
    rw [here, PageDiffs.writePageDiffs_apply, Memory.setSharedPage_view,
      Memory.setSharedPage_persistent]
    split
    · exact agree.persistent k
    · exact agree.view me k

theorem Agree.commitPage (agree : Agree o entry m) {info : Xpageinfo} :
    Agree o entry (m.commitPage me info).1 := by
  have twinned : Agree o entry (m.withTwin info.pageNo) := by
    unfold Memory.withTwin
    split
    · exact agree.congr rfl fun _ => rfl
    · exact agree
  simp only [Memory.commitPage]
  split
  · exact twinned.copyOut.congr rfl fun _ => rfl
  · exact twinned

/-! ## The invariant -/

/-- Registered entries are pointers, and all pages hold them. -/
def AllAgree (s : State) : Prop := ∀ o entry, s.registered o = some entry →
  entry ≠ 0 ∧ Agree o entry s.memory

variable {s s' : State} {label : Label}

theorem AllAgree.remembers (agree : AllAgree s) : Remembers s where
  shared o entry registered := readWord_eq (agree o entry registered).2.persistent
  refreshed o entry me registered _ := by
    have held := agree o entry registered
    rw [readWord_eq (held.2.view me)]
    exact held.1

/-- A step that registers nothing new. -/
theorem AllAgree.keep (agree : AllAgree s) (same : s'.registered = s.registered)
    (keeps : ∀ o entry, s.registered o = some entry → Agree o entry s.memory →
      Agree o entry s'.memory) : AllAgree s' := by
  intro o entry registered
  rw [same] at registered
  have held := agree o entry registered
  exact ⟨held.1, keeps o entry registered held.2⟩

theorem holds_writeWord (o : SyncObject) (entry : UInt64) (page : Page) :
    Holds o entry (writeWord page o.slot entry) :=
  fun k => writeWord_wordByte page o.slot entry k

/-- The word of another object of the page. -/
theorem Holds.writeWord_of_ne {o' : SyncObject} {value : UInt64} {page : Page}
    (different : o ≠ o') (samePage : o'.page = o.page) (holds : Holds o entry page) :
    Holds o entry (writeWord page o'.slot value) := by
  intro k
  have slots : o.slot ≠ o'.slot := by
    intro same
    obtain ⟨page, slot⟩ := o
    obtain ⟨page', slot'⟩ := o'
    dsimp only at same samePage
    exact different (by rw [same, samePage])
  rw [Tthread.writeWord_of_ne page value k slots]
  exact holds k

/-- After the registration of an object of whose page no one else has a copy, all pages
hold its entry. -/
theorem agree_setSyncEntry
    (alone : ∀ other, other ≠ me → (m.process other).transient o.page = none) :
    Agree o entry (setSyncEntry m me o entry) where
  persistent := by
    show Holds o entry (Function.update m.persistent o.page _ o.page)
    rw [Function.update_self]
    exact holds_writeWord o entry _
  copies other copy found := by
    by_cases here : other = me
    · subst here
      have same : ((setSyncEntry m other o entry).process other).transient o.page =
          some (writeWord (m.view other o.page) o.slot entry) := by
        simp only [PageSystem.setSyncEntry, PageSystem.setWord, Memory.setPersistent,
          Memory.modify_process_self, Process.setCopy, Function.update_self]
      rw [same] at found
      exact Option.some.inj found ▸ holds_writeWord o entry _
    · have same : ((setSyncEntry m me o entry).process other).transient o.page = none := by
        simp only [PageSystem.setSyncEntry, PageSystem.setWord, Memory.setPersistent,
          Memory.modify_process_of_ne here]
        exact alone other here
      rw [same] at found
      cases found

theorem Agree.setWord {o' : SyncObject} {value : UInt64} (agree : Agree o entry m)
    (different : o ≠ o') : Agree o entry (setWord m me o' value) := by
  refine agree.setCopy fun here => ?_
  rw [here]
  exact (agree.view me).writeWord_of_ne different here

theorem Agree.setSyncEntry {o' : SyncObject} {value : UInt64} (agree : Agree o entry m)
    (different : o ≠ o') : Agree o entry (setSyncEntry m me o' value) := by
  refine (agree.setWord different).setPersistent fun here => ?_
  rw [here]
  exact agree.persistent.writeWord_of_ne different here

/-- A store of the program misses the words of the objects. -/
theorem Agree.store {offset : Fin pageSize} {value : UInt8} (agree : Agree o entry m)
    (misses : o.page = p → (offset : ℕ) / 8 ≠ o.slot) :
    Agree o entry (m.store me p offset value) := by
  refine agree.setCopy fun here k => ?_
  have elsewhere : wordByte o.slot k ≠ offset := by
    intro same
    apply misses here.symm
    rw [← same]
    show (8 * (o.slot : ℕ) + k) / 8 = o.slot
    omega
  rw [here, Function.update_of_ne elsewhere]
  exact agree.view me k

theorem AllAgree.step (agree : AllAgree s) (first : RegistersFirst s label)
    (move : step s label = some s') : AllAgree s' := by
  cases label with
  | store me p offset value =>
    obtain ⟨-, rfl⟩ := guarded move
    refine agree.keep rfl fun o entry registered held => held.store fun here => ?_
    -- By the condition the program does not store to a word that is registered.
    exact first.1 o (by rw [registered]; exact Option.some_ne_none entry) here
  | setSyncEntry me o' value =>
    obtain ⟨-, rfl⟩ := guarded move
    intro o entry registered
    change Function.update s.registered o' (some value) o = some entry at registered
    -- The word that is set agrees, and another word is not touched by it.
    by_cases same : o = o'
    · subst same
      rw [Function.update_self] at registered
      obtain rfl := Option.some.inj registered
      exact ⟨first.1.1, agree_setSyncEntry (first.2 me o value rfl)⟩
    · rw [Function.update_of_ne same] at registered
      have held := agree o entry registered
      exact ⟨held.1, held.2.setSyncEntry same⟩
  | clearSyncEntry me o' =>
    obtain ⟨-, rfl⟩ := guarded move
    intro o entry registered
    change Function.update s.registered o' none o = some entry at registered
    by_cases same : o = o'
    · subst same
      rw [Function.update_self] at registered
      cases registered
    · rw [Function.update_of_ne same] at registered
      have held := agree o entry registered
      exact ⟨held.1, held.2.setWord same⟩
  | commitPage =>
    obtain ⟨me, position, -, ⟨-, rfl⟩ | ⟨entry, -, rfl⟩⟩ := commitPage_cases move
    · exact agree
    · -- A commit publishes what the process has; the word agrees already.
      refine agree.keep rfl fun o entry _ held => held.commitPage.congr rfl fun other => ?_
      rw [commitStep_memory]
      exact Memory.modify_transient fun _ => rfl
  | readFault me p =>
    obtain ⟨-, rfl⟩ := guarded move
    exact agree.keep rfl fun o entry _ held =>
      held.congr rfl fun _ => Memory.handleRead_transient
  | writeFault me p =>
    obtain ⟨-, rfl⟩ := guarded move
    exact agree.keep rfl fun o entry _ held => held.handleWrite
  | takeUnowned me p =>
    obtain ⟨-, rfl⟩ := guarded move
    exact agree.keep rfl fun o entry _ held => held.setSharedPage
  | setOwnedPage me p =>
    obtain ⟨-, rfl⟩ := guarded move
    exact agree.keep rfl fun o entry _ held =>
      held.congr rfl fun _ => Memory.setOwnedPage_transient
  | commitOwnedPage me p setShared =>
    obtain rfl := Option.some.inj move
    exact agree.keep rfl fun o entry _ held => held.commitOwnedPage
  | checkandcommit me =>
    obtain ⟨-, rfl⟩ := guarded move
    exact agree
  | updateAll me =>
    obtain ⟨-, rfl⟩ := guarded move
    exact agree.keep rfl fun o entry _ held => held.updateAll
  | cleanup =>
    obtain rfl := Option.some.inj move
    exact agree.keep rfl fun o entry _ held => held.congr rfl fun _ => rfl

/-! ## Objects over whole runs -/

/-- In every run that registers objects before other processes copy their pages, the
shared mapping holds the entry of every registered object in every state reached. -/
theorem remembers_of_registersFirst (reach : system.Reachable RegistersFirst s) : Remembers s := by
  have first : ∀ s, system.Init s → AllAgree s := by
    rintro _ ⟨contents, allocated, rfl⟩ o entry registered
    cases registered
  have next : ∀ s label s', AllAgree s → RegistersFirst s label →
      system.step s label = some s' → AllAgree s' :=
    fun s label s' agree ok move => agree.step ok move
  exact (reach.invariant AllAgree first next).remembers

/-- An object at the start of a page. -/
def firstObject : SyncObject := ⟨globalsPage 0, ⟨0, by decide⟩⟩

/-- Process 1 registers an object, process 2 writes behind it and commits. -/
theorem remembers_laterCopy : ∃ s, system.Reachable RegistersFirst s ∧
    s.registered firstObject = some 7 ∧ Remembers s := by
  have start : system.Reachable RegistersFirst (initial (fun _ _ => 0) 0) := .init ⟨_, _, rfl⟩
  have fault₁ := start.step (Label.writeFault 1 (globalsPage 0)) ⟨trivial, nofun⟩ rfl
  have registered := fault₁.step (Label.setSyncEntry 1 firstObject 7) (by
    refine ⟨⟨by decide, .inl rfl⟩, fun me o entry same other different => ?_⟩
    obtain ⟨rfl, rfl, rfl⟩ := Label.setSyncEntry.inj same
    let processes := fun _ : ℕ => initialProcess 0
    show (Function.update (Function.update processes 1 _) 1 _ other).transient _ = none
    rw [Function.update_of_ne different, Function.update_of_ne different]
    rfl) rfl
  have fault₂ := registered.step (Label.writeFault 2 (globalsPage 0)) ⟨trivial, nofun⟩ rfl
  have stored := fault₂.step (Label.store 2 (globalsPage 0) 100 1) (by
    refine ⟨fun o known _ => ?_, nofun⟩
    by_cases same : o = firstObject
    · subst same
      decide
    · exact absurd (Function.update_of_ne same _ _) known) rfl
  have begun := stored.step (Label.checkandcommit 2) ⟨trivial, nofun⟩ rfl
  have commit := begun.step Label.commitPage ⟨trivial, nofun⟩ rfl
  exact ⟨_, commit, rfl, remembers_of_registersFirst commit⟩

/-- A process that copied the page before the registration commits after it: the version
has not changed, so the whole copy goes out and the entry is gone. -/
theorem not_remembers_earlierCopy : ¬ ∀ s, system.Reachable WellUsed s → Remembers s := by
  intro remembers
  have start : system.Reachable WellUsed (initial (fun _ _ => 0) 0) := .init ⟨_, _, rfl⟩
  have fault₂ := start.step (Label.writeFault 2 (globalsPage 0)) trivial rfl
  have stored :=
    fault₂.step (Label.store 2 (globalsPage 0) 100 1) (fun o known => absurd rfl known) rfl
  have fault₁ := stored.step (Label.writeFault 1 (globalsPage 0)) trivial rfl
  have registered := fault₁.step (Label.setSyncEntry 1 firstObject 7)
    ⟨by decide, .inl rfl⟩ rfl
  have begun := registered.step (Label.checkandcommit 2) trivial rfl
  have commit := begun.step Label.commitPage trivial rfl
  have found := (remembers _ commit).shared firstObject 7 rfl
  revert found
  decide

end Tthread.PageSystem
