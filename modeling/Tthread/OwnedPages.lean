/-
# Nothing is lost in the handoff

A page is with its owner or given up. While the owner has it, the owner sees every store,
and the shared page holds all of them unless the owner may still write; afterwards the
shared page holds them. This holds in every run in which a page is shared only while nobody
owns the page behind it and processes end only when they own nothing, and then whoever
returns from a fault finds the stores.
-/

import Tthread.Handoff

namespace Tthread.Handoff

open Transition

variable {s s' : State} {m : Memory} {me q : ℕ} {p : PageId}

/-! ## The invariant -/

/-- The owner still has the page. -/
structure Held (s : State) (p : PageId) (q : ℕ) : Prop where
  owner : s.memory.pageOwner p = .process q
  live : (s.control q).exited = false
  seen : s.memory.view q p = s.content p
  saved : (s.memory.process q).protection p ≠ .readWrite → s.memory.persistent p = s.content p
  marked : (s.memory.process q).protection p = .readWrite →
    (s.memory.process q).pageInfo p = .readWrite

/-- The process is in the call, perhaps below its signal handler. -/
def Control.Runs (c : Control) (call : CommitCall) : Prop :=
  c.handler = some call ∨ ∃ pages, c.task = .commit call pages

/-- The call is about to record that the page is shared. -/
def CommitCall.Sharing (call : CommitCall) : Prop :=
  call.pos = .share .exchange ∨ call.pos = .share .record

/-- The owner has given the page up. -/
structure Handed (s : State) (p : PageId) (q : ℕ) : Prop where
  owner : ∀ r, s.memory.pageOwner p ≠ .process r
  saved : s.memory.persistent p = s.content p
  marked : (s.memory.process q).pageInfo p = .readWrite →
    s.memory.view q p = s.content p ∧
      ∃ call, (s.control q).Runs call ∧ call.page = p ∧ call.Sharing

/-- What is known of a page and the process that has allocated it. -/
structure PageInv (s : State) (p : PageId) (q : ℕ) : Prop where
  held : s.given p = false → Held s p q
  handed : s.given p = true → Handed s p q
  used : (s.memory.process q).pageInfo p ≠ .unused
  inside : p.region = .heap ∧ p.pageNo < s.position

/-- What a call of `commitOwnedPage` has found or done so far. -/
structure CallInv (s : State) (q : ℕ) (call : CommitCall) : Prop where
  allocated : s.allocator call.page = some q
  seen : call.pos = .copy → s.memory.view q call.page = s.content call.page
  saved : call.pos = .protect ∨ call.pos = .share .check ∨ call.pos = .share .exchange →
    s.memory.persistent call.page = s.content call.page
  given : call.pos = .share .record ∨ call.pos = .release → s.given call.page = true

/-- The value of the local variable `owner`. -/
def NotifyPos.asked : NotifyPos → Option Owner
  | .signal owner | .queue owner | .share owner _ _ | .spin owner _ => some owner
  | .enter | .done => none

/-- The owner that was read can only be the one that has allocated the page. -/
structure NotifyInv (s : State) (p : PageId) (pos : NotifyPos) : Prop where
  allocated : s.allocator p ≠ none
  asked : ∀ owner ∈ pos.asked, owner = .unowned ∧ s.given p = true ∨
    ∃ q, owner = .process q ∧ s.allocator p = some q
  sharing : ∀ owner failed share, pos = .share owner failed share → s.given p = true
  done : pos = .done → s.given p = true

structure Inv (s : State) : Prop where
  page : ∀ p q, s.allocator p = some q → PageInv s p q
  call : ∀ q call, (s.control q).Runs call → CallInv s q call
  pending : ∀ q pageNo, (s.control q).pending = some pageNo →
    s.allocator (heapPage pageNo) = some q
  notify : ∀ q isWrite p pos, (s.control q).task = .notify isWrite p pos → NotifyInv s p pos
  unowned : ∀ p, s.allocator p = none → ∀ r, s.memory.pageOwner p ≠ .process r
  unmarked : ∀ p q, s.allocator p ≠ some q → (s.memory.process q).pageInfo p ≠ .readWrite
  /-- the pages allocated before there were threads -/
  old : ∀ p q, p.region = .heap → p.pageNo < s.position → s.allocator p = none →
    (s.memory.process q).pageInfo p ≠ .unused
  fresh : ∀ p, p.region = .heap → s.position ≤ p.pageNo →
    s.given p = false ∧ s.memory.persistent p = s.content p ∧
      ∀ q, (s.memory.process q).transient p = none ∧
        (s.memory.process q).protection p ≠ .readWrite

namespace Inv

/-- Who is in the array of owners has allocated the page and has not given it up. -/
theorem of_pageOwner (inv : Inv s) (owner : s.memory.pageOwner p = .process q) :
    s.allocator p = some q ∧ s.given p = false := by
  cases allocated : s.allocator p with
  | none => exact absurd owner (inv.unowned p allocated q)
  | some r =>
    cases given : s.given p with
    | true => exact absurd owner (((inv.page p r allocated).handed given).owner q)
    | false =>
      have same := ((inv.page p r allocated).held given).owner
      rw [owner] at same
      cases same
      exact ⟨rfl, rfl⟩

theorem given_of_pageOwner (inv : Inv s) (allocated : s.allocator p ≠ none)
    (owner : ∀ r, s.memory.pageOwner p ≠ .process r) : s.given p = true := by
  obtain ⟨q, allocated⟩ := Option.ne_none_iff_exists'.mp allocated
  cases given : s.given p with
  | true => rfl
  | false => exact absurd ((inv.page p q allocated).held given).owner (owner q)

theorem saved_of_given (inv : Inv s) (allocated : s.allocator p ≠ none)
    (given : s.given p = true) : s.memory.persistent p = s.content p := by
  obtain ⟨q, allocated⟩ := Option.ne_none_iff_exists'.mp allocated
  exact ((inv.page p q allocated).handed given).saved

/-! ## Changes of control -/

/-- A process goes on; the memory stays as it is. -/
theorem setControl (inv : Inv s) {c : Control}
    (ends : c.exited = true → (s.control me).exited = true ∨
      ∀ p, s.memory.pageOwner p ≠ .process me)
    (runs : ∀ call, c.Runs call → CallInv s me call)
    (sharing : ∀ call, (s.control me).Runs call → call.Sharing →
      (s.memory.process me).pageInfo call.page = .readWrite →
      ∃ call', c.Runs call' ∧ call'.page = call.page ∧ call'.Sharing)
    (pending : ∀ pageNo, c.pending = some pageNo → s.allocator (heapPage pageNo) = some me)
    (notify : ∀ isWrite p pos, c.task = .notify isWrite p pos → NotifyInv s p pos) :
    Inv (s.setControl me c) where
  page p q allocated := by
    obtain ⟨held, handed, used, inside⟩ := inv.page p q allocated
    refine ⟨fun given => ?_, fun given => ?_, used, inside⟩
    · obtain ⟨owner, live, seen, saved, marked⟩ := held given
      -- If `me` exits, it has no page left.
      refine ⟨owner, ?_, seen, saved, marked⟩
      by_cases same : q = me
      · subst same
        simp only [State.setControl, Function.update_self]
        rw [← Bool.not_eq_true]
        intro exited
        obtain before | nothing := ends exited
        · rw [live] at before
          cases before
        · exact nothing p owner
      · simpa only [State.setControl, Function.update_of_ne same] using live
    · obtain ⟨owner, saved, marked⟩ := handed given
      refine ⟨owner, saved, fun readWrite => ?_⟩
      obtain ⟨seen, call, running, rfl, shares⟩ := marked readWrite
      refine ⟨seen, ?_⟩
      -- Shared while still marked as written: the call that shares it must go on.
      by_cases same : q = me
      · subst same
        simpa only [State.setControl, Function.update_self] using
          sharing call running shares readWrite
      · exact ⟨call, by simpa only [State.setControl, Function.update_of_ne same] using running,
          rfl, shares⟩
  call q call running := by
    have known : CallInv s q call := by
      by_cases same : q = me
      · subst same
        exact runs call (by simpa only [State.setControl, Function.update_self] using running)
      · exact inv.call q call (by
          simpa only [State.setControl, Function.update_of_ne same] using running)
    exact ⟨known.allocated, known.seen, known.saved, known.given⟩
  pending q pageNo waits := by
    by_cases same : q = me
    · subst same
      exact pending pageNo (by simpa only [State.setControl, Function.update_self] using waits)
    · exact inv.pending q pageNo (by
        simpa only [State.setControl, Function.update_of_ne same] using waits)
  notify q isWrite p pos task := by
    have known : NotifyInv s p pos := by
      by_cases same : q = me
      · subst same
        exact notify isWrite p pos (by
          simpa only [State.setControl, Function.update_self] using task)
      · exact inv.notify q isWrite p pos (by
          simpa only [State.setControl, Function.update_of_ne same] using task)
    exact ⟨known.allocated, known.asked, known.sharing, known.done⟩
  unowned := inv.unowned
  unmarked := inv.unmarked
  old := inv.old
  fresh := inv.fresh

end Inv

/-! ## Changes of one page by one process -/

/-- The parts of the process that concern the page. -/
structure SamePage (q q' : Process) (p : PageId) : Prop where
  transient : q'.transient p = q.transient p
  pageInfo : q'.pageInfo p = q.pageInfo p
  protection : q'.protection p = q.protection p

/-- Nothing but the page and what the process has of it is changed. -/
structure ChangesAt (m m' : Memory) (me : ℕ) (p : PageId) : Prop where
  pageOwner : m'.pageOwner = m.pageOwner
  persistent : ∀ p' ≠ p, m'.persistent p' = m.persistent p'
  process : ∀ q p', q ≠ me ∨ p' ≠ p → SamePage (m.process q) (m'.process q) p'

theorem ChangesAt.view (change : ChangesAt s.memory m me p) {p' : PageId}
    (other : q ≠ me ∨ p' ≠ p) (same : m.persistent p' = s.memory.persistent p') :
    m.view q p' = s.memory.view q p' := by
  rw [Memory.view, Memory.view, (change.process q p' other).transient, same]

/-- What is known of a page depends only on the page. -/
theorem PageInv.congr (known : PageInv s p q) {content : PageId → Page}
    (pageOwner : m.pageOwner p = s.memory.pageOwner p)
    (persistent : m.persistent p = s.memory.persistent p)
    (process : SamePage (s.memory.process q) (m.process q) p) (same : content p = s.content p) :
    PageInv { s with memory := m, content := content } p q := by
  have view : m.view q p = s.memory.view q p := by
    rw [Memory.view, Memory.view, process.transient, persistent]
  obtain ⟨held, handed, used, inside⟩ := known
  refine ⟨fun given => ?_, fun given => ?_, by simpa only [process.pageInfo] using used, inside⟩
  · obtain ⟨owner, live, seen, saved, marked⟩ := held given
    constructor
    · simpa only [pageOwner] using owner
    · exact live
    · simpa only [view, same] using seen
    · simpa only [persistent, same, process.protection] using saved
    · simpa only [process.pageInfo, process.protection] using marked
  · obtain ⟨owner, saved, marked⟩ := handed given
    constructor
    · simpa only [pageOwner] using owner
    · simpa only [persistent, same] using saved
    · simpa only [view, same, process.pageInfo] using marked

theorem CallInv.congr {call : CommitCall} (known : CallInv s q call) {content : PageId → Page}
    (persistent : m.persistent call.page = s.memory.persistent call.page)
    (transient : (m.process q).transient call.page = (s.memory.process q).transient call.page)
    (same : content call.page = s.content call.page) :
    CallInv { s with memory := m, content := content } q call := by
  have view : m.view q call.page = s.memory.view q call.page := by
    rw [Memory.view, Memory.view, transient, persistent]
  constructor
  · exact known.allocated
  · simpa only [view, same] using known.seen
  · simpa only [persistent, same] using known.saved
  · exact known.given

/-- **One page.** A change of a page by a process keeps the invariant if it keeps what is
known of the page, and if only the one who has allocated the page changes the shared one. -/
theorem Inv.changeAt (inv : Inv s) {content : PageId → Page}
    (change : ChangesAt s.memory m me p) (elsewhere : ∀ p' ≠ p, content p' = s.content p')
    (inside : p.region = .heap → p.pageNo < s.position)
    (mine : s.allocator p = some me → PageInv { s with memory := m, content := content } p me ∧
      ∀ call, (s.control me).Runs call → call.page = p →
        CallInv { s with memory := m, content := content } me call)
    (foreign : s.allocator p ≠ some me → m.persistent p = s.memory.persistent p ∧
      content p = s.content p ∧ (m.process me).pageInfo p ≠ .readWrite)
    (used : p.region = .heap → s.allocator p = none → (m.process me).pageInfo p ≠ .unused) :
    Inv { s with memory := m, content := content } where
  page p' q allocated := by
    have known := inv.page p' q allocated
    -- Only the page `p` changes, and of it only what `me` sees unless `me` has allocated it.
    by_cases here : p' = p
    · subst here
      by_cases own : q = me
      · subst own
        exact (mine allocated).1
      · have other : s.allocator p' ≠ some me := fun same => own (by
          rw [allocated] at same
          -- Somebody else has allocated it: the shared page is untouched.
          exact Option.some.inj same)
        obtain ⟨persistent, same, -⟩ := foreign other
        exact known.congr (congrFun change.pageOwner p') persistent
          (change.process q p' (.inl own)) same
    · exact known.congr (congrFun change.pageOwner p') (change.persistent p' here)
        (change.process q p' (.inr here)) (elsewhere p' here)
  call q call running := by
    have known := inv.call q call running
    by_cases here : call.page = p
    · by_cases own : q = me
      · subst own
        exact (mine (here ▸ known.allocated)).2 call running here
      · have other : s.allocator p ≠ some me := fun same => own (by
          rw [← here, known.allocated] at same
          exact Option.some.inj same)
        obtain ⟨persistent, same, -⟩ := foreign other
        exact known.congr (here ▸ persistent) (change.process q call.page (.inl own)).transient
          (here ▸ same)
    · exact known.congr (change.persistent call.page here)
        (change.process q call.page (.inr here)).transient (elsewhere call.page here)
  pending := inv.pending
  notify q isWrite p' pos task :=
    have known := inv.notify q isWrite p' pos task
    ⟨known.allocated, known.asked, known.sharing, known.done⟩
  unowned p' none r := by
    simpa only [change.pageOwner] using inv.unowned p' none r
  unmarked p' q other := by
    by_cases here : q = me ∧ p' = p
    · obtain ⟨rfl, rfl⟩ := here
      exact (foreign other).2.2
    · have untouched := change.process q p' (not_and_or.mp here)
      simpa only [untouched.pageInfo] using inv.unmarked p' q other
  old p' q heap below none := by
    by_cases here : q = me ∧ p' = p
    · obtain ⟨rfl, rfl⟩ := here
      exact used heap none
    · have untouched := change.process q p' (not_and_or.mp here)
      simpa only [untouched.pageInfo] using inv.old p' q heap below none
  fresh p' heap beyond := by
    have here : p' ≠ p := by
      rintro rfl
      exact absurd (inside heap) (Nat.not_lt.mpr beyond)
    obtain ⟨given, saved, unseen⟩ := inv.fresh p' heap beyond
    refine ⟨given, ?_, fun q => ?_⟩
    · simpa only [change.persistent p' here, elsewhere p' here] using saved
    · have untouched := change.process q p' (.inr here)
      simpa only [untouched.transient, untouched.protection] using unseen q

theorem ChangesAt.refl (m : Memory) (me : ℕ) (p : PageId) : ChangesAt m m me p :=
  ⟨rfl, fun _ _ => rfl, fun _ _ _ => ⟨rfl, rfl, rfl⟩⟩

theorem ChangesAt.trans {m₁ m₂ m₃ : Memory} (first : ChangesAt m₁ m₂ me p)
    (second : ChangesAt m₂ m₃ me p) : ChangesAt m₁ m₃ me p where
  pageOwner := second.pageOwner.trans first.pageOwner
  persistent p' other := (second.persistent p' other).trans (first.persistent p' other)
  process q p' other :=
    have before := first.process q p' other
    have after := second.process q p' other
    ⟨after.transient.trans before.transient, after.pageInfo.trans before.pageInfo,
      after.protection.trans before.protection⟩

theorem changesAt_modify {change : Process → Process}
    (same : ∀ p' ≠ p, SamePage (m.process me) (change (m.process me)) p') :
    ChangesAt m (m.modify me change) me p where
  pageOwner := rfl
  persistent _ _ := rfl
  process q p' other := by
    by_cases own : q = me
    · subst own
      simpa only [Memory.modify, Function.update_self] using
        same p' (other.resolve_left (not_not_intro rfl))
    · simp only [Memory.modify, Function.update_of_ne own]
      exact ⟨rfl, rfl, rfl⟩

theorem changesAt_setPersistent {content : Page} :
    ChangesAt m (m.setPersistent p content) me p where
  pageOwner := rfl
  persistent _ other := Function.update_of_ne other _ _
  process _ _ _ := ⟨rfl, rfl, rfl⟩

/-- A program that runs is in no call of `commitOwnedPage`. -/
theorem State.InProgram.not_runs (inProgram : s.InProgram me) (call : CommitCall) :
    ¬ (s.control me).Runs call := by
  rintro (handler | ⟨pages, task⟩)
  · exact Option.some_ne_none call (handler.symm.trans inProgram.2.2)
  · have user := inProgram.2.1
    rw [task] at user
    cases user

namespace Inv

/-- A change of the access to a page. -/
theorem access (inv : Inv s) (change : ChangesAt s.memory m me p)
    (persistent : m.persistent p = s.memory.persistent p)
    (transient : (m.process me).transient p = (s.memory.process me).transient p)
    (inside : p.region = .heap → p.pageNo < s.position)
    (used : (m.process me).pageInfo p = .unused → (s.memory.process me).pageInfo p = .unused)
    (held : s.memory.pageOwner p = .process me →
      ((m.process me).protection p ≠ .readWrite → s.memory.persistent p = s.content p) ∧
      ((m.process me).protection p = .readWrite → (m.process me).pageInfo p = .readWrite))
    (marked : s.memory.pageOwner p ≠ .process me →
      (m.process me).pageInfo p = .readWrite → (s.memory.process me).pageInfo p = .readWrite) :
    Inv { s with memory := m } := by
  have view : m.view me p = s.memory.view me p := by
    rw [Memory.view, Memory.view, transient, persistent]
  refine inv.changeAt change (fun _ _ => rfl) inside (fun allocated => ⟨?_, ?_⟩) ?_
    fun heap none unused => inv.old p me heap (inside heap) none (used unused)
  · have known := inv.page p me allocated
    refine ⟨fun given => ?_, fun given => ?_, known.used ∘ used, known.inside⟩
    · obtain ⟨owner, live, seen, -, -⟩ := known.held given
      obtain ⟨saved, marked⟩ := held owner
      refine ⟨change.pageOwner ▸ owner, live, view.trans seen, ?_, marked⟩
      simpa only [persistent] using saved
    · have handed := known.handed given
      refine ⟨change.pageOwner ▸ handed.owner, persistent.trans handed.saved, fun now => ?_⟩
      obtain ⟨seen, shares⟩ := handed.marked (marked (handed.owner me) now)
      exact ⟨view.trans seen, shares⟩
  · rintro call running rfl
    exact (inv.call me call running).congr persistent transient rfl
  · intro other
    refine ⟨persistent, rfl, fun now => ?_⟩
    have unowned : s.memory.pageOwner p ≠ .process me := fun owner =>
      other (inv.of_pageOwner owner).1
    exact inv.unmarked p me other (marked unowned now)

/-- The owner copies what it sees, which is what it has stored. -/
theorem copy (inv : Inv s) (allocated : s.allocator p = some me)
    (seen : s.memory.view me p = s.content p) :
    Inv { s with memory := s.memory.setPersistent p (s.memory.view me p) } := by
  have known := inv.page p me allocated
  have saved : (s.memory.setPersistent p (s.memory.view me p)).persistent p = s.content p := by
    simpa only [Memory.setPersistent, Function.update_self] using seen
  have view : (s.memory.setPersistent p (s.memory.view me p)).view me p = s.content p := by
    rw [Memory.view, saved, ← seen, Memory.view]
    simp only [Memory.setPersistent]
    cases (s.memory.process me).transient p <;> rfl
  refine inv.changeAt changesAt_setPersistent (fun _ _ => rfl) (fun _ => known.inside.2)
    (fun _ => ⟨?_, ?_⟩) (fun other => absurd allocated other)
    fun _ none => absurd (allocated.symm.trans none) (Option.some_ne_none me)
  · refine ⟨fun given => ?_, fun given => ?_, known.used, known.inside⟩
    · have held := known.held given
      exact ⟨held.owner, held.live, view, fun _ => saved, held.marked⟩
    · have handed := known.handed given
      exact ⟨handed.owner, saved, fun readWrite => ⟨view, (handed.marked readWrite).2⟩⟩
  · rintro call running rfl
    have before := inv.call me call running
    exact ⟨before.allocated, fun _ => view, fun _ => saved, before.given⟩

/-- The private copy of a page given up is dropped. -/
theorem dropCopy (inv : Inv s) (allocated : s.allocator p = some me) (given : s.given p = true) :
    Inv { s with memory := s.memory.modify me fun q => q.dropCopy p } := by
  have known := inv.page p me allocated
  have handed := known.handed given
  have view : (s.memory.modify me fun q => q.dropCopy p).view me p = s.content p := by
    simp only [Memory.view, Memory.modify, Process.dropCopy, Function.update_self,
      Option.getD_none]
    exact handed.saved
  have change : ChangesAt s.memory (s.memory.modify me fun q => q.dropCopy p) me p :=
    changesAt_modify fun p' other => ⟨Function.update_of_ne other _ _, rfl, rfl⟩
  have info : ((s.memory.modify me fun q => q.dropCopy p).process me).pageInfo p =
      (s.memory.process me).pageInfo p := by
    simp only [Memory.modify, Process.dropCopy, Function.update_self]
  refine inv.changeAt change (fun _ _ => rfl) (fun _ => known.inside.2) (fun _ => ⟨?_, ?_⟩)
    (fun other => absurd allocated other)
    fun _ none => absurd (allocated.symm.trans none) (Option.some_ne_none me)
  · refine ⟨fun held => ?_, fun _ => ⟨handed.owner, handed.saved, fun readWrite => ?_⟩, ?_,
      known.inside⟩
    · exact absurd (held.symm.trans given) Bool.false_ne_true
    · exact ⟨view, (handed.marked (info ▸ readWrite)).2⟩
    · exact info ▸ known.used
  · rintro call running rfl
    have before := inv.call me call running
    exact ⟨before.allocated, fun _ => view, before.saved, before.given⟩

/-- A store of the program. -/
theorem store (inv : Inv s) (inProgram : s.InProgram me)
    (writable : (s.memory.process me).protection p = .readWrite) (offset : Fin pageSize)
    (value : UInt8) : Inv (s.store me p offset value) := by
  have inside : p.region = .heap → p.pageNo < s.position := fun heap =>
    Nat.lt_of_not_le fun beyond => ((inv.fresh p heap beyond).2.2 me).2 writable
  have view : (s.memory.store me p offset value).view me p =
      Function.update (s.memory.view me p) offset value := by
    simp only [Memory.view, Memory.store, Memory.modify, Process.setCopy, Function.update_self,
      Option.getD_some]
  have change : ChangesAt s.memory (s.memory.store me p offset value) me p :=
    changesAt_modify fun p' other => ⟨Function.update_of_ne other _ _, rfl, rfl⟩
  have info : ((s.memory.store me p offset value).process me).pageInfo =
      (s.memory.process me).pageInfo := by
    simp only [Memory.store, Memory.modify, Process.setCopy, Function.update_self]
  have protection : ((s.memory.store me p offset value).process me).protection =
      (s.memory.process me).protection := by
    simp only [Memory.store, Memory.modify, Process.setCopy, Function.update_self]
  refine inv.changeAt change (fun p' other => ?_) inside (fun allocated => ⟨?_, ?_⟩)
    (fun other => ⟨rfl, ?_, ?_⟩) fun heap none => ?_
  · split
    · exact Function.update_of_ne other _ _
    · rfl
  · have known := inv.page p me allocated
    refine ⟨fun given => ?_, fun given => ?_, info ▸ known.used, known.inside⟩
    · -- The store counts as the owner's: `me` has allocated the page and it is not shared yet.
      have own : s.OwnStore me p := ⟨allocated, given⟩
      obtain ⟨owner, live, seen, -, marked⟩ := known.held given
      refine ⟨owner, live, ?_, fun closed => ?_, ?_⟩
      · simp only [if_pos own, Function.update_self, view, seen]
      · exact absurd (protection ▸ writable) closed
      · simpa only [info, protection] using marked
    · -- A shared page is no longer the owner's: the content is what it was.
      have own : ¬ s.OwnStore me p := fun own => Bool.false_ne_true (own.2.symm.trans given)
      obtain ⟨owner, saved, marked⟩ := known.handed given
      refine ⟨owner, ?_, fun readWrite => ?_⟩
      · simp only [if_neg own]
        exact saved
      · -- Marked as written and shared is the middle of a call, but `me` is in the program.
        obtain ⟨-, call, running, -, -⟩ := marked (info ▸ readWrite)
        exact absurd running (inProgram.not_runs call)
  · exact fun call running _ => absurd running (inProgram.not_runs call)
  · exact if_neg (fun own : s.OwnStore me p => other own.1) ▸ rfl
  · exact info ▸ inv.unmarked p me other
  · exact info ▸ inv.old p me heap (inside heap) none

/-- A page that holds what its owner has stored is shared. -/
theorem exchange (inv : Inv s) (allocated : s.allocator p ≠ none)
    (nobody : ∀ owner, s.memory.pageOwner p.next ≠ .process owner)
    (saved : s.memory.persistent p = s.content p) {given : PageId → Bool}
    (elsewhere : ∀ p' ≠ p, given p' = s.given p') (here : given p = true)
    (sharing : ∀ q, s.allocator p = some q → s.given p = false →
      ∃ call, (s.control q).Runs call ∧ call.page = p ∧ call.Sharing) :
    Inv { s with memory := Handoff.exchange s.memory p, given := given } := by
  have more : ∀ p', s.given p' = true → given p' = true := fun p' before => by
    by_cases same : p' = p
    · exact same ▸ here
    · exact (elsewhere p' same).trans before
  -- Two owners are cleared, that of `p` and that of its neighbour; no other changes.
  have owner : ∀ p' r, (Handoff.exchange s.memory p).pageOwner p' = .process r →
      s.memory.pageOwner p' = .process r := fun p' r now => by
    by_cases same : p' = p
    · subst same
      simp only [Handoff.exchange, Function.update_self, reduceCtorEq] at now
    · simp only [Handoff.exchange, Function.update_of_ne same] at now
      by_cases next : p' = p.next
      · subst next
        simp only [Function.update_self, reduceCtorEq] at now
      · simpa only [Function.update_of_ne next] using now
  have kept : ∀ p' ≠ p, ∀ r, s.memory.pageOwner p' = .process r →
      (Handoff.exchange s.memory p).pageOwner p' = .process r := fun p' other r before => by
    -- The neighbour has no owner by `nobody`, so a page other than `p` keeps its own.
    have next : p' ≠ p.next := by
      rintro rfl
      exact nobody r before
    simpa only [Handoff.exchange, Function.update_of_ne other, Function.update_of_ne next]
  constructor
  case page =>
    intro p' q mine
    have known := inv.page p' q mine
    refine ⟨fun held => ?_, fun _ => ?_, known.used, known.inside⟩
    · have other : p' ≠ p := by
        rintro rfl
        exact absurd (held.symm.trans here) Bool.false_ne_true
      have before := known.held ((elsewhere p' other).symm.trans held)
      exact ⟨kept p' other q before.owner, before.live, before.seen, before.saved, before.marked⟩
    · cases before : s.given p' with
      | true =>
        have handed := known.handed before
        exact ⟨fun r now => handed.owner r (owner p' r now), handed.saved, handed.marked⟩
      -- It was not shared before, so it is the page of the exchange.
      | false =>
        have held := known.held before
        obtain rfl : p' = p := by
          by_contra other
          exact absurd (before.symm.trans ((elsewhere p' other).symm.trans ‹_›))
            Bool.false_ne_true
        refine ⟨fun r now => ?_, saved, fun _ => ⟨held.seen, sharing q mine before⟩⟩
        simp only [Handoff.exchange, Function.update_self, reduceCtorEq] at now
  case call =>
    intro q call running
    have known := inv.call q call running
    exact ⟨known.allocated, known.seen, known.saved, fun at' => more _ (known.given at')⟩
  case pending => exact inv.pending
  case notify =>
    intro q isWrite p' pos task
    have known := inv.notify q isWrite p' pos task
    exact ⟨known.allocated, fun asked mem => (known.asked asked mem).imp_left
        (And.imp_right (more p')),
      fun asked failed share at' => more p' (known.sharing asked failed share at'),
      fun at' => more p' (known.done at')⟩
  case unowned => exact fun p' none r now => inv.unowned p' none r (owner p' r now)
  case unmarked => exact inv.unmarked
  case old => exact inv.old
  case fresh =>
    intro p' heap beyond
    have other : p' ≠ p := by
      rintro rfl
      obtain ⟨q, allocated⟩ := Option.ne_none_iff_exists'.mp allocated
      exact absurd (inv.page p' q allocated).inside.2 (Nat.not_lt.mpr beyond)
    obtain ⟨before, saved, unseen⟩ := inv.fresh p' heap beyond
    exact ⟨(elsewhere p' other).trans before, saved, unseen⟩

end Inv

/-! ## Allocation -/

/-- A page with one of the numbers. -/
def Numbered (pages : List ℕ) (p : PageId) : Prop := p.region = .heap ∧ p.pageNo ∈ pages

instance (pages : List ℕ) : DecidablePred (Numbered pages) := fun _ =>
  inferInstanceAs (Decidable (_ ∧ _))

theorem numbered_cons {pageNo : ℕ} {pages : List ℕ} :
    Numbered (pageNo :: pages) p ↔ p = heapPage pageNo ∨ Numbered pages p := by
  obtain ⟨region, number⟩ := p
  simp only [Numbered, heapPage, List.mem_cons, PageId.mk.injEq]
  tauto

theorem setOwnedPages_persistent (pages : List ℕ) :
    (setOwnedPages m me pages).persistent = m.persistent := by
  induction pages generalizing m with
  | nil => rfl
  | cons pageNo pages ih => exact ih

theorem setOwnedPages_pageOwner (pages : List ℕ) :
    (setOwnedPages m me pages).pageOwner p =
      if Numbered pages p then .process me else m.pageOwner p := by
  induction pages generalizing m with
  | nil => exact (if_neg fun numbered => List.not_mem_nil numbered.2).symm
  | cons pageNo pages ih =>
    refine (ih (m := m.setOwnedPage me (heapPage pageNo))).trans ?_
    simp only [numbered_cons]
    by_cases first : p = heapPage pageNo
    · subst first
      simp [Memory.setOwnedPage, Memory.modify]
    · simp [first, Memory.setOwnedPage, Memory.modify]

theorem setOwnedPages_transient (pages : List ℕ) :
    ((setOwnedPages m me pages).process q).transient = (m.process q).transient := by
  induction pages generalizing m with
  | nil => rfl
  | cons pageNo pages ih =>
    refine (ih (m := m.setOwnedPage me (heapPage pageNo))).trans ?_
    by_cases own : q = me
    · subst own
      simp [Memory.setOwnedPage, Memory.modify, Process.setPageInfo, Process.mprotect]
    · simp [own, Memory.setOwnedPage, Memory.modify]

/-- What a process has of each page: the new owner of some pages gets it of all of them if it
gets it of one. -/
theorem setOwnedPages_process {α : Type} {read : Process → PageId → α} {owned : α}
    (one : ∀ (m : Memory) (pageNo : ℕ) (p : PageId),
      read ((m.setOwnedPage me (heapPage pageNo)).process q) p =
        if q = me ∧ p = heapPage pageNo then owned else read (m.process q) p) (pages : List ℕ) :
    read ((setOwnedPages m me pages).process q) p =
      if q = me ∧ Numbered pages p then owned else read (m.process q) p := by
  induction pages generalizing m with
  | nil => exact (if_neg fun numbered => List.not_mem_nil numbered.2.2).symm
  | cons pageNo pages ih =>
    refine (ih (m := m.setOwnedPage me (heapPage pageNo))).trans ?_
    rw [one]
    by_cases first : q = me ∧ p = heapPage pageNo
    · rw [if_pos first, ite_self, if_pos ⟨first.1, numbered_cons.mpr (.inl first.2)⟩]
    · rw [if_neg first]
      refine if_congr (and_congr_right fun own => ?_) rfl rfl
      rw [numbered_cons, or_iff_right fun same => first ⟨own, same⟩]

theorem setOwnedPage_pageInfo (m : Memory) (pageNo : ℕ) (p : PageId) :
    ((m.setOwnedPage me (heapPage pageNo)).process q).pageInfo p =
      if q = me ∧ p = heapPage pageNo then .none else (m.process q).pageInfo p := by
  simp only [Memory.setOwnedPage, Memory.modify, Function.update_apply]
  split_ifs <;> simp_all [Process.setPageInfo, Process.mprotect]

theorem setOwnedPage_protection (m : Memory) (pageNo : ℕ) (p : PageId) :
    ((m.setOwnedPage me (heapPage pageNo)).process q).protection p =
      if q = me ∧ p = heapPage pageNo then .none else (m.process q).protection p := by
  simp only [Memory.setOwnedPage, Memory.modify, Function.update_apply]
  split_ifs <;> simp_all [Process.setPageInfo, Process.mprotect]

theorem setOwnedPages_pageInfo (pages : List ℕ) :
    ((setOwnedPages m me pages).process q).pageInfo p =
      if q = me ∧ Numbered pages p then .none else (m.process q).pageInfo p :=
  setOwnedPages_process setOwnedPage_pageInfo pages

theorem setOwnedPages_protection (pages : List ℕ) :
    ((setOwnedPages m me pages).process q).protection p =
      if q = me ∧ Numbered pages p then .none else (m.process q).protection p :=
  setOwnedPages_process setOwnedPage_protection pages

theorem numbered_block {pages : ℕ} :
    Numbered (List.range' s.position pages) p ↔ s.Fresh pages p := by
  rw [Numbered, State.Fresh, List.mem_range'_1]

namespace Inv

theorem not_fresh (inv : Inv s) {pages : ℕ} (allocated : s.allocator p = some q) :
    ¬ s.Fresh pages p := fun fresh =>
  absurd (inv.page p q allocated).inside.2 (Nat.not_lt.mpr fresh.2.1)

/-- The owner of a new block sees what is there. -/
theorem allocate (inv : Inv s) (live : (s.control me).exited = false) (pages : ℕ) :
    Inv { s with
      memory := setOwnedPages s.memory me (List.range' s.position pages)
      position := s.position + pages
      allocator := fun p => if s.Fresh pages p then some me else s.allocator p } := by
  -- What `setOwnedPages` does, field by field; the cases below use these equations only.
  generalize changed : setOwnedPages s.memory me (List.range' s.position pages) = m
  have persistent : m.persistent = s.memory.persistent := by
    rw [← changed, setOwnedPages_persistent]
  have transient : ∀ q, (m.process q).transient = (s.memory.process q).transient := fun q => by
    rw [← changed, setOwnedPages_transient]
  have pageOwner : ∀ p, m.pageOwner p =
      if s.Fresh pages p then .process me else s.memory.pageOwner p := fun p => by
    simp only [← changed, setOwnedPages_pageOwner, numbered_block]
  have pageInfo : ∀ q p, (m.process q).pageInfo p =
      if q = me ∧ s.Fresh pages p then .none else (s.memory.process q).pageInfo p := fun q p => by
    simp only [← changed, setOwnedPages_pageInfo, numbered_block]
  have protection : ∀ q p, (m.process q).protection p =
      if q = me ∧ s.Fresh pages p then .none else (s.memory.process q).protection p :=
    fun q p => by simp only [← changed, setOwnedPages_protection, numbered_block]
  have untouched : ∀ p, ¬ s.Fresh pages p → ∀ q, SamePage (s.memory.process q) (m.process q) p :=
    fun p outside q => ⟨congrFun (transient q) p, by rw [pageInfo, if_neg fun h => outside h.2],
      by rw [protection, if_neg fun h => outside h.2]⟩
  have before : ∀ {p q}, ¬ s.Fresh pages p →
      (if s.Fresh pages p then some me else s.allocator p) = some q → s.allocator p = some q :=
    fun outside now => by rwa [if_neg outside] at now
  constructor
  case page =>
    intro p q now
    by_cases fresh : s.Fresh pages p
    · -- A page of the new block: nobody has touched it, so `me` sees what is saved.
      simp only [if_pos fresh, Option.some.injEq] at now
      subst now
      obtain ⟨given, saved, unseen⟩ := inv.fresh p fresh.1 fresh.2.1
      have closed : (m.process me).protection p = .none := by rw [protection, if_pos ⟨rfl, fresh⟩]
      have unused : (m.process me).pageInfo p = .none := by rw [pageInfo, if_pos ⟨rfl, fresh⟩]
      refine ⟨fun _ => ⟨?_, live, ?_, fun _ => ?_, fun writable => ?_⟩, fun handed => ?_, ?_,
        fresh.1, fresh.2.2⟩
      · simp only [pageOwner, if_pos fresh]
      · rw [Memory.view, transient, (unseen me).1, persistent]
        exact saved
      · rw [persistent]
        exact saved
      · exact absurd (closed.symm.trans writable) (by decide)
      · exact absurd (given.symm.trans handed) Bool.false_ne_true
      · simp only [unused, ne_eq, reduceCtorEq, not_false_eq_true]
    · -- A page of an old block.
      have known := inv.page p q (before fresh now)
      obtain ⟨held, handed, used, inside⟩ := known.congr (m := m)
        (by rw [pageOwner, if_neg fresh]) (congrFun persistent p) (untouched p fresh q) rfl
      refine ⟨fun given => ?_, fun given => ?_, used, inside.1,
        Nat.lt_of_lt_of_le inside.2 (Nat.le_add_right _ _)⟩
      · obtain ⟨owner, live, seen, saved, marked⟩ := held given
        exact ⟨owner, live, seen, saved, marked⟩
      · obtain ⟨owner, saved, marked⟩ := handed given
        exact ⟨owner, saved, marked⟩
  case call =>
    intro q call running
    have known := inv.call q call running
    have outside : ¬ s.Fresh pages call.page := inv.not_fresh known.allocated
    obtain ⟨allocated, seen, saved, given⟩ := known.congr (m := m)
      (congrFun persistent _) (congrFun (transient q) _) rfl
    refine ⟨?_, seen, saved, given⟩
    simpa only [if_neg outside] using allocated
  case pending =>
    intro q pageNo waits
    have allocated := inv.pending q pageNo waits
    simpa only [if_neg (inv.not_fresh allocated)] using allocated
  case notify =>
    intro q isWrite p pos task
    obtain ⟨allocated, asked, sharing, done⟩ := inv.notify q isWrite p pos task
    obtain ⟨r, known⟩ := Option.ne_none_iff_exists'.mp allocated
    have outside : ¬ s.Fresh pages p := inv.not_fresh known
    refine ⟨?_, ?_, sharing, done⟩
    · simpa only [if_neg outside] using allocated
    · simpa only [if_neg outside] using asked
  case unowned =>
    intro p none r
    by_cases fresh : s.Fresh pages p
    · simp only [if_pos fresh, reduceCtorEq] at none
    · simp only [if_neg fresh] at none
      simpa only [pageOwner, if_neg fresh] using inv.unowned p none r
  case unmarked =>
    intro p q other
    by_cases fresh : s.Fresh pages p
    · have own : q ≠ me := by
        rintro rfl
        exact other (if_pos fresh)
      simp only [pageInfo, own, false_and, if_false]
      exact inv.unmarked p q fun allocated => inv.not_fresh allocated fresh
    · simp only [if_neg fresh] at other
      rw [(untouched p fresh q).pageInfo]
      exact inv.unmarked p q other
  case old =>
    intro p q heap below none
    by_cases fresh : s.Fresh pages p
    · simp only [if_pos fresh, reduceCtorEq] at none
    · simp only [if_neg fresh] at none
      rw [(untouched p fresh q).pageInfo]
      refine inv.old p q heap (Nat.lt_of_not_le fun beyond => fresh ⟨heap, beyond, below⟩) none
  case fresh =>
    intro p heap beyond
    have outside : ¬ s.Fresh pages p := fun fresh => absurd fresh.2.2 (Nat.not_lt.mpr beyond)
    obtain ⟨given, saved, unseen⟩ := inv.fresh p heap (le_trans (Nat.le_add_right _ _) beyond)
    refine ⟨given, (congrFun persistent p).trans saved, fun q => ?_⟩
    rw [(untouched p outside q).transient, (untouched p outside q).protection]
    exact unseen q

/-- `xheap::malloc`. -/
theorem malloc (inv : Inv s) (inProgram : s.InProgram me) (pages : ℕ) :
    Inv (s.malloc me pages) := by
  refine (inv.allocate inProgram.1 pages).setControl ?_ ?_ ?_ ?_ ?_
  · exact fun exited => .inl exited
  · exact fun call running => absurd running (inProgram.not_runs call)
  · exact fun call running => absurd running (inProgram.not_runs call)
  · exact (inv.allocate inProgram.1 pages).pending me
  · exact (inv.allocate inProgram.1 pages).notify me

end Inv

/-! ## Faults -/

theorem changesAt_recordUser : ChangesAt m (m.recordUser me p) me p := by
  refine ⟨rfl, fun _ _ => rfl, fun q p' _ => ?_⟩
  by_cases own : q = me
  · subst own
    simp only [Memory.recordUser, Memory.modify, Function.update_self]
    exact ⟨rfl, rfl, rfl⟩
  · simp only [Memory.recordUser, Memory.modify, Function.update_of_ne own]
    exact ⟨rfl, rfl, rfl⟩

theorem recordUser_process (m : Memory) (me : ℕ) (p : PageId) :
    ((m.recordUser me p).process me).transient = (m.process me).transient ∧
      ((m.recordUser me p).process me).pageInfo = (m.process me).pageInfo ∧
      ((m.recordUser me p).process me).protection = (m.process me).protection := by
  simp only [Memory.recordUser, Memory.modify, Function.update_self, and_self]

/-- What a process that opens a page for writing has of it afterwards: the owner marks it. -/
structure Opens (m m' : Memory) (me : ℕ) (p : PageId) : Prop where
  change : ChangesAt m m' me p
  persistent : m'.persistent = m.persistent
  transient : (m'.process me).transient = (m.process me).transient
  protection : (m'.process me).protection p = .readWrite
  pageInfo : (m'.process me).pageInfo p =
    if m.pageOwner p = .process me then .readWrite else (m.process me).pageInfo p

theorem opens_mprotectReadWrite : Opens m (m.mprotectReadWrite me p) me p := by
  refine ⟨changesAt_modify fun p' other => ?_, rfl, ?_, ?_, ?_⟩
  · split
    · exact ⟨rfl, Function.update_of_ne other _ _, Function.update_of_ne other _ _⟩
    · exact ⟨rfl, rfl, Function.update_of_ne other _ _⟩
  · simp only [Memory.mprotectReadWrite, Memory.modify, Function.update_self, Process.mprotect]
    split <;> rfl
  · simp only [Memory.mprotectReadWrite, Memory.modify, Function.update_self, Process.mprotect]
  · simp only [Memory.mprotectReadWrite, Memory.modify, Function.update_self, Process.mprotect]
    split
    · exact Function.update_self _ _ _
    · rfl

theorem opens_afterNotify : Opens m (afterNotify m me p true) me p := by
  have opened : Opens m (m.mprotectReadWrite me p) me p := opens_mprotectReadWrite
  simp only [afterNotify, if_true]
  split
  · exact opened
  · obtain ⟨transient, pageInfo, protection⟩ :=
      recordUser_process (m.mprotectReadWrite me p) me p
    constructor
    · exact opened.change.trans changesAt_recordUser
    · exact opened.persistent
    · exact transient.trans opened.transient
    · exact (congrFun protection p).trans opened.protection
    · exact (congrFun pageInfo p).trans opened.pageInfo

namespace Inv

/-- A read fault of a process that sees the page as it is. -/
theorem handleRead (inv : Inv s) (inside : p.region = .heap → p.pageNo < s.position)
    (saved : s.memory.pageOwner p = .process me → s.memory.persistent p = s.content p) :
    Inv { s with memory := s.memory.handleRead me p } := by
  have change : ChangesAt s.memory (s.memory.handleRead me p) me p :=
    changesAt_modify fun p' other => ⟨rfl, Function.update_of_ne other _ _,
      Function.update_of_ne other _ _⟩
  have info : ((s.memory.handleRead me p).process me).pageInfo p = .read := by
    simp only [Memory.handleRead, Memory.modify, Process.mprotectRead, Process.mprotect,
      Process.setPageInfo, Function.update_self]
  have protection : ((s.memory.handleRead me p).process me).protection p = .read := by
    simp only [Memory.handleRead, Memory.modify, Process.mprotectRead, Process.mprotect,
      Function.update_self]
  refine inv.access change rfl ?_ inside ?_ (fun owner => ⟨fun _ => saved owner, ?_⟩) ?_
  · simp only [Memory.handleRead, Memory.modify, Process.mprotectRead, Process.mprotect,
      Process.setPageInfo, Function.update_self]
  · simp only [info, reduceCtorEq, false_implies]
  · simp only [protection, reduceCtorEq, false_implies]
  · simp only [info, reduceCtorEq, false_implies, implies_true]

/-- A process opens a page that it may not write yet. -/
theorem opens (inv : Inv s) (opened : Opens s.memory m me p)
    (inside : p.region = .heap → p.pageNo < s.position) : Inv { s with memory := m } := by
  refine inv.access opened.change (congrFun opened.persistent p) (congrFun opened.transient p)
    inside ?_ (fun owner => ⟨fun closed => ?_, fun _ => ?_⟩) fun other => ?_
  · rw [opened.pageInfo]
    split
    · exact PageAccess.noConfusion
    · exact id
  · exact absurd opened.protection closed
  · rw [opened.pageInfo, if_pos owner]
  · rw [opened.pageInfo, if_neg other]
    exact id

theorem incrementVersion (inv : Inv s) : Inv { s with memory := s.memory.incrementVersion p } where
  page p' q allocated :=
    (inv.page p' q allocated).congr rfl rfl ⟨rfl, rfl, rfl⟩ rfl
  call q call running := (inv.call q call running).congr rfl rfl rfl
  pending := inv.pending
  notify q isWrite p' pos task :=
    have known := inv.notify q isWrite p' pos task
    ⟨known.allocated, known.asked, known.sharing, known.done⟩
  unowned := inv.unowned
  unmarked := inv.unmarked
  old := inv.old
  fresh := inv.fresh

/-- The owner forbids itself to write a page that is saved. -/
theorem protect (inv : Inv s) (inside : p.region = .heap → p.pageNo < s.position)
    (saved : s.memory.persistent p = s.content p) :
    Inv { s with memory := s.memory.modify me fun q => q.mprotect p .none } := by
  have change : ChangesAt s.memory (s.memory.modify me fun q => q.mprotect p .none) me p :=
    changesAt_modify fun p' other => ⟨rfl, rfl, Function.update_of_ne other _ _⟩
  refine inv.access change rfl ?_ inside ?_ (fun owner => ⟨fun _ => saved, ?_⟩) ?_
  · simp only [Memory.modify, Process.mprotect, Function.update_self]
  · simp only [Memory.modify, Process.mprotect, Function.update_self, imp_self]
  · simp only [Memory.modify, Process.mprotect, Function.update_self, reduceCtorEq, false_implies]
  · simp only [Memory.modify, Process.mprotect, Function.update_self, imp_self, implies_true]

/-- A page that its owner has given up is recorded to be shared. -/
theorem record (inv : Inv s) (inside : p.region = .heap → p.pageNo < s.position)
    (owner : s.memory.pageOwner p ≠ .process me) :
    Inv { s with memory := s.memory.modify me fun q => q.setPageInfo p .read } := by
  have change : ChangesAt s.memory (s.memory.modify me fun q => q.setPageInfo p .read) me p :=
    changesAt_modify fun p' other => ⟨rfl, Function.update_of_ne other _ _, rfl⟩
  refine inv.access change rfl ?_ inside ?_ (fun own => absurd own owner) ?_
  · simp only [Memory.modify, Process.setPageInfo, Function.update_self]
  · simp only [Memory.modify, Process.setPageInfo, Function.update_self, reduceCtorEq,
      false_implies]
  · simp only [Memory.modify, Process.setPageInfo, Function.update_self, reduceCtorEq,
      false_implies, implies_true]

/-- A write fault on a page that the owner has written before: it is saved once more. -/
theorem handleWrite_marked (inv : Inv s) (inProgram : s.InProgram me)
    (marked : (s.memory.process me).pageInfo p = .readWrite) :
    Inv { s with memory := s.memory.handleWrite me p } := by
  have allocated : s.allocator p = some me := by
    by_contra other
    exact inv.unmarked p me other marked
  have known := inv.page p me allocated
  -- The page is not shared, as the program does not run inside a call.
  have given : s.given p = false := by
    cases given : s.given p with
    | false => rfl
    | true =>
      obtain ⟨-, call, running, -⟩ := (known.handed given).marked marked
      exact absurd running (inProgram.not_runs call)
  have held := known.held given
  -- The three parts of the fault: the page is opened, copied and closed.
  have opened : Opens s.memory (s.memory.mprotectReadWrite me p) me p := opens_mprotectReadWrite
  have info : ((s.memory.mprotectReadWrite me p).process me).pageInfo p = .readWrite :=
    opened.pageInfo.trans (if_pos held.owner)
  have first := inv.opens opened fun _ => known.inside.2
  have view : (s.memory.mprotectReadWrite me p).view me p = s.content p := by
    rw [Memory.view, opened.transient, opened.persistent]
    exact held.seen
  have second := first.copy allocated view
  have saved : ((s.memory.mprotectReadWrite me p).setPersistent p
      ((s.memory.mprotectReadWrite me p).view me p)).persistent p = s.content p := by
    simpa only [Memory.setPersistent, Function.update_self] using view
  have third : Inv { s with
      memory := ((s.memory.mprotectReadWrite me p).setPersistent p
        ((s.memory.mprotectReadWrite me p).view me p)).modify me fun q => q.mprotect p .none } :=
    second.protect (fun _ => known.inside.2) saved
  have result : s.memory.handleWrite me p =
      (((s.memory.mprotectReadWrite me p).setPersistent p
        ((s.memory.mprotectReadWrite me p).view me p)).modify me
          fun q => q.mprotect p .none).incrementVersion p := by
    have opening : s.memory.openPage me p =
        (((s.memory.mprotectReadWrite me p).setPersistent p
          ((s.memory.mprotectReadWrite me p).view me p)).modify me
            fun q => q.mprotect p .none).incrementVersion p := by
      simp only [Memory.openPage, marked, Memory.commitOwnedPage, info, Bool.false_eq_true,
        if_false]
    simp only [Memory.handleWrite, opening]
    exact if_pos held.owner
  rw [result]
  exact third.incrementVersion

/-- A fault of the program, which waits for the owner if it has never seen the page. -/
theorem fault (inv : Inv s) (inProgram : s.InProgram me)
    (inside : p.region = .heap ∧ p.pageNo < s.position) {isWrite : Bool}
    (denied : s.Denied me p isWrite) : Inv (s.fault me p isWrite) := by
  rw [State.fault]
  split
  · next unused =>
    have allocated : s.allocator p ≠ none := fun none =>
      inv.old p me inside.1 inside.2 none unused
    have idle := inProgram.not_runs
    refine inv.setControl .inl ?_ (fun call running => absurd running (idle call))
      (inv.pending me) ?_
    · rintro call (handler | ⟨pages, task⟩)
      · exact absurd (.inl handler) (idle call)
      · cases task
    · rintro isWrite' p' pos ⟨⟩
      exact ⟨allocated, fun _ mem => (Option.not_mem_none _ mem).elim,
        fun _ _ _ => NotifyPos.noConfusion, NotifyPos.noConfusion⟩
  · cases isWrite with
    | false =>
      refine inv.handleRead (fun _ => inside.2) fun owner => ?_
      have allocated := inv.of_pageOwner owner
      refine ((inv.page p me allocated.1).held allocated.2).saved ?_
      obtain closed | ⟨write, -⟩ := denied
      · simp only [closed, ne_eq, reduceCtorEq, not_false_eq_true]
      · cases write
    | true =>
      by_cases marked : (s.memory.process me).pageInfo p = .readWrite
      · exact inv.handleWrite_marked inProgram marked
      · have opened : s.memory.openPage me p = s.memory.mprotectReadWrite me p := by
          cases info : (s.memory.process me).pageInfo p with
          | readWrite => exact absurd info marked
          | unused | read | none => simp only [Memory.openPage, info]
        have opening : s.memory.handleWrite me p = afterNotify s.memory me p true := by
          simp only [Memory.handleWrite, opened, afterNotify, if_true]
        simp only [handleAccess, if_true, opening]
        exact inv.opens opens_afterNotify fun _ => inside.2

/-! ## Accesses of `commitOwnedPage` -/

/-- A call of `commitOwnedPage` that does not fault and does not clear an owner. -/
theorem commitAccess (inv : Inv s) {call : CommitCall} (running : (s.control me).Runs call)
    (nobody : call.pos = .share .exchange →
      ∀ owner, s.memory.pageOwner call.page.next ≠ .process owner) :
    Inv (s.commitAccess me call) := by
  have known := inv.call me call running
  have page := inv.page call.page me known.allocated
  -- Only the exchange changes what is shared.
  have keep : call.pos ≠ .share .exchange → s.commitAccess me call =
      { s with memory := (commitOwnedPage s.memory me call).1 } := fun other => by
    rw [State.commitAccess, if_neg other]
  obtain ⟨p, setShared, pos⟩ := call
  cases pos with
  | test =>
    rw [keep CommitPos.noConfusion]
    simp only [commitOwnedPage]
    split <;> exact inv
  | copy =>
    rw [keep CommitPos.noConfusion]
    exact inv.copy known.allocated (known.seen rfl)
  | protect =>
    rw [keep CommitPos.noConfusion]
    exact inv.protect (fun _ => page.inside.2) (known.saved (.inl rfl))
  | release =>
    rw [keep CommitPos.noConfusion]
    exact inv.dropCopy known.allocated (known.given (.inr rfl))
  | version =>
    rw [keep CommitPos.noConfusion]
    exact inv.incrementVersion
  | share pos =>
    cases pos with
    | check =>
      rw [keep (by simp)]
      exact inv
    | record =>
      rw [keep (by simp)]
      have handed := page.handed (known.given (.inl rfl))
      exact inv.record (fun _ => page.inside.2) (handed.owner me)
    | exchange =>
      simp only [State.commitAccess, if_true]
      refine inv.exchange (known.allocated ▸ Option.some_ne_none me) (nobody rfl)
        (known.saved (.inr (.inr rfl))) (fun p' other => Function.update_of_ne other _ _)
        (Function.update_self _ _ _) fun q allocated _ => ?_
      -- The one who runs the call has allocated the page.
      obtain rfl : me = q := Option.some.inj (known.allocated.symm.trans allocated)
      exact ⟨_, running, rfl, .inl rfl⟩

/-- The call goes on knowing what it has found and done. -/
theorem nextCall (inv : Inv s) {call next : CommitCall} (running : (s.control me).Runs call)
    (goes : s.nextCall me call = some next) : CallInv (s.commitAccess me call) me next := by
  have known := inv.call me call running
  have page := inv.page call.page me known.allocated
  -- the copy is skipped or done: the shared page holds what the owner has stored
  have after : ∀ (setShared : Bool) (s' : State), s'.allocator = s.allocator →
      s'.memory.persistent call.page = s'.content call.page →
      CallInv s' me ⟨call.page, setShared, afterCopy setShared⟩ := fun setShared s' same saved => by
    refine ⟨same ▸ known.allocated, fun at' => ?_, fun _ => saved, fun at' => ?_⟩
    · cases setShared <;> cases at'
    · cases setShared <;> obtain at' | at' := at' <;> cases at'
  obtain ⟨p, setShared, pos⟩ := call
  cases pos with
  | test =>
    simp only [State.nextCall, commitOwnedPage] at goes
    split at goes
    -- the owner has not opened the page for writing
    case h_1 info | h_2 info =>
      obtain rfl := Option.some.inj goes
      refine after setShared _ rfl ?_
      simp only [State.commitAccess, commitOwnedPage, info]
      cases given : s.given p with
      | true => exact (page.handed given).saved
      | false =>
        have held := page.held given
        refine held.saved fun writable => ?_
        exact PageAccess.noConfusion (info.symm.trans (held.marked writable))
    case h_3 info | h_4 info =>
      obtain rfl := Option.some.inj goes
      refine ⟨known.allocated, fun _ => ?_, ?_, ?_⟩
      · simp only [State.commitAccess, commitOwnedPage, info]
        cases given : s.given p with
        | false => exact (page.held given).seen
        | true =>
          first
          | exact ((page.handed given).marked info).1
          | exact absurd info page.used
      · rintro (at' | at' | at') <;> cases at'
      · rintro (at' | at') <;> cases at'
  | copy =>
    obtain rfl := Option.some.inj goes
    refine ⟨known.allocated, CommitPos.noConfusion, fun _ => ?_, ?_⟩
    · simpa only [State.commitAccess, commitOwnedPage, Memory.setPersistent,
        Function.update_self] using known.seen rfl
    · rintro (at' | at') <;> cases at'
  | protect =>
    obtain rfl := Option.some.inj goes
    exact after setShared _ rfl (known.saved (.inl rfl))
  | release =>
    obtain rfl := Option.some.inj goes
    refine ⟨known.allocated, CommitPos.noConfusion, ?_, ?_⟩
    · rintro (at' | at' | at') <;> cases at'
    · rintro (at' | at') <;> cases at'
  | version => cases goes
  | share pos =>
    cases pos with
    | check =>
      simp only [State.nextCall, commitOwnedPage, setSharedPage, Option.map_some] at goes
      split at goes
      · obtain rfl := Option.some.inj goes
        refine ⟨known.allocated, CommitPos.noConfusion, fun _ => known.saved (.inr (.inl rfl)), ?_⟩
        rintro (at' | at') <;> cases at'
      · next shared =>
        obtain rfl := Option.some.inj goes
        have nobody : ∀ r, s.memory.pageOwner p ≠ .process r := fun r owner =>
          Owner.noConfusion ((not_not.mp shared).symm.trans owner)
        refine ⟨known.allocated, CommitPos.noConfusion, ?_, fun _ => ?_⟩
        · rintro (at' | at' | at') <;> cases at'
        · exact inv.given_of_pageOwner (known.allocated ▸ Option.some_ne_none me) nobody
    | exchange =>
      obtain rfl := Option.some.inj goes
      refine ⟨known.allocated, CommitPos.noConfusion, ?_, fun _ => ?_⟩
      · rintro (at' | at' | at') <;> cases at'
      · simp only [State.commitAccess, if_true, Function.update_self]
    | record =>
      obtain rfl := Option.some.inj goes
      refine ⟨known.allocated, CommitPos.noConfusion, ?_, fun _ => known.given (.inl rfl)⟩
      rintro (at' | at' | at') <;> cases at'

/-- While the page is marked, somebody is about to record that it is shared. -/
theorem sharing_nextCall {call : CommitCall} (shares : call.Sharing)
    (marked : ((s.commitAccess me call).memory.process me).pageInfo call.page = .readWrite) :
    ∃ next, s.nextCall me call = some next ∧ next.page = call.page ∧ next.Sharing := by
  obtain ⟨p, setShared, pos⟩ := call
  obtain rfl | rfl := shares
  · exact ⟨_, rfl, rfl, .inr rfl⟩
  · simp [State.commitAccess, commitOwnedPage, setSharedPage, Memory.modify, Process.setPageInfo]
      at marked

theorem ownsNothing (inv : Inv s) (nothing : s.OwnsNothing me) (p : PageId) :
    s.memory.pageOwner p ≠ .process me := by
  intro owner
  obtain ⟨region, pageNo⟩ := p
  obtain ⟨rfl, below⟩ := (inv.page _ me (inv.of_pageOwner owner).1).inside
  exact nothing pageNo below owner

/-- An access of the signal handler. -/
theorem handlerAccess (inv : Inv s) {call : CommitCall}
    (handler : (s.control me).handler = some call)
    (keeps : KeepsHandoff s (.exec me)) : Inv (s.handlerAccess me call) := by
  have running : (s.control me).Runs call := .inl handler
  rw [State.handlerAccess]
  split
  · next faults =>
    refine inv.setControl (fun _ => .inr ?_) (inv.call me)
      (fun call running shares _ => ⟨call, running, rfl, shares⟩) (inv.pending me) (inv.notify me)
    exact inv.ownsNothing (keeps.2 ⟨call, handler, faults⟩)
  · have nobody : call.pos = .share .exchange →
        ∀ owner, s.memory.pageOwner call.page.next ≠ .process owner := fun at' =>
      keeps.1 call.page (by simp [State.exchanging, handler, at'])
    have after := inv.commitAccess running nobody
    refine after.setControl .inl ?_ ?_ (after.pending me) (after.notify me)
    · rintro call' (next | below)
      · exact inv.nextCall running next
      · exact after.call me call' (.inr below)
    · rintro call' (same | below) shares marked
      · obtain rfl : call = call' := Option.some.inj (handler.symm.trans same)
        obtain ⟨next, goes, here, shares⟩ := sharing_nextCall shares marked
        exact ⟨next, .inl goes, here, shares⟩
      · exact ⟨call', .inr below, rfl, shares⟩

/-- An access of `commitOwnedPage` in `finalcommit`. -/
theorem callAccess (inv : Inv s) {call : CommitCall} {pages : List PageId}
    (handler : (s.control me).handler = none) (task : (s.control me).task = .commit call pages)
    (keeps : KeepsHandoff s (.exec me)) (move : s.taskAccess me (.commit call pages) = some s') :
    Inv s' := by
  have running : (s.control me).Runs call := .inr ⟨pages, task⟩
  have known := inv.call me call running
  have page := inv.page call.page me known.allocated
  simp only [State.taskAccess] at move
  split at move
  · next faults =>
    obtain rfl := Option.some.inj move
    refine inv.handleRead (fun _ => page.inside.2) fun owner => ?_
    refine (page.held (inv.of_pageOwner owner).2).saved ?_
    simp only [faults.2, ne_eq, reduceCtorEq, not_false_eq_true]
  · obtain rfl := Option.some.inj move
    have nobody : call.pos = .share .exchange →
        ∀ owner, s.memory.pageOwner call.page.next ≠ .process owner := fun at' =>
      keeps.1 call.page (by simp [State.exchanging, handler, task, at'])
    have after := inv.commitAccess running nobody
    refine after.setControl .inl ?_ ?_ (after.pending me) ?_
    · rintro call' (below | ⟨pages', next⟩)
      · exact absurd (handler.symm.trans below) (Option.some_ne_none call').symm
      · cases goes : s.nextCall me call with
        | none =>
          simp only [goes, Option.elim_none, reduceCtorEq] at next
        | some call'' =>
          simp only [goes, Option.elim_some, Task.commit.injEq] at next
          obtain ⟨rfl, -⟩ := next
          exact inv.nextCall running goes
    · rintro call' (below | ⟨pages', same⟩) shares marked
      · exact absurd (handler.symm.trans below) (Option.some_ne_none call').symm
      · obtain ⟨rfl, rfl⟩ : call = call' ∧ pages = pages' := by
          simpa only [Task.commit.injEq] using task.symm.trans same
        obtain ⟨next, goes, here, shares⟩ := sharing_nextCall shares marked
        exact ⟨next, .inr ⟨pages, by simp only [goes, Option.elim_some]⟩, here, shares⟩
    · intro isWrite p pos at'
      cases goes : s.nextCall me call with
      | none => simp only [goes, Option.elim_none, reduceCtorEq] at at'
      | some call'' => simp only [goes, Option.elim_some, reduceCtorEq] at at'

/-! ## Accesses of the fault handler -/

/-- `sigqueue`, for the owner that was read. -/
theorem sigqueue (inv : Inv s) {target : Option ℕ}
    (owner : ∀ pid ∈ target, s.allocator p = some pid) : Inv (s.sigqueue p target) := by
  cases target with
  | none => exact inv
  | some pid =>
    have allocated := owner pid rfl
    refine inv.setControl .inl (inv.call pid)
      (fun call running shares _ => ⟨call, running, rfl, shares⟩) ?_ (inv.notify pid)
    intro pageNo waits
    cases before : (s.control pid).pending with
    | some pageNo' =>
      simp only [before, Option.some_or] at waits
      exact inv.pending pid pageNo (before.trans waits)
    | none =>
      simp only [before, Option.none_or, Option.some.injEq] at waits
      obtain ⟨region, pageNo'⟩ := p
      obtain ⟨rfl, -⟩ := (inv.page _ pid allocated).inside
      exact waits ▸ allocated

/-- What an access of `notifyOwnerToCommit` does to the memory. -/
theorem notifyOwnerToCommit (inv : Inv s) {isWrite : Bool} {pos : NotifyPos}
    (handler : (s.control me).handler = none)
    (task : (s.control me).task = .notify isWrite p pos)
    (keeps : KeepsHandoff s (.exec me)) :
    Inv { s with memory := (Handoff.notifyOwnerToCommit s.memory me p pos).1 } := by
  have known := inv.notify me isWrite p pos task
  cases pos with
  | enter | signal | queue | spin =>
    simp only [Handoff.notifyOwnerToCommit]
    split <;> first | exact inv | (split <;> exact inv)
  | done => exact inv
  | share owner failed share =>
    have given := known.sharing owner failed share rfl
    obtain ⟨q, allocated⟩ := Option.ne_none_iff_exists'.mp known.allocated
    have page := inv.page p q allocated
    have handed := page.handed given
    cases share with
    | check => exact inv
    | record => exact inv.record (fun _ => page.inside.2) (handed.owner me)
    | exchange =>
      refine inv.exchange known.allocated ?_ handed.saved (fun _ _ => rfl) given
        fun q _ held => absurd (held.symm.trans given) Bool.false_ne_true
      exact keeps.1 p (by simp [State.exchanging, handler, task])

/-- The fault handler goes on with what it has read. -/
theorem notifyInv (inv : Inv s) {pos : NotifyPos} (known : NotifyInv s p pos) :
    NotifyInv s p (Handoff.notifyOwnerToCommit s.memory me p pos).2.2 := by
  have allocated := known.allocated
  -- a page that no process owns has been given up
  have given : (∀ r, s.memory.pageOwner p ≠ .process r) → s.given p = true :=
    inv.given_of_pageOwner allocated
  have done : s.memory.pageOwner p = .shared → NotifyInv s p .done := fun shared =>
    ⟨allocated, fun _ mem => (Option.not_mem_none _ mem).elim, fun _ _ _ => NotifyPos.noConfusion,
      fun _ => given fun r owner => Owner.noConfusion (shared.symm.trans owner)⟩
  have keep : ∀ next : NotifyPos, next.asked = pos.asked → next ≠ .done →
      (∀ owner failed share, next = .share owner failed share → s.given p = true) →
      NotifyInv s p next := fun next same going sharing =>
    ⟨allocated, same ▸ known.asked, sharing, fun at' => absurd at' going⟩
  cases pos with
  | done => exact known
  | enter =>
    simp only [Handoff.notifyOwnerToCommit]
    split
    · next shared => exact done shared
    · next unshared =>
      refine ⟨allocated, ?_, fun _ _ _ => NotifyPos.noConfusion, NotifyPos.noConfusion⟩
      intro owner mem
      obtain rfl := Option.some.inj mem
      cases owner : s.memory.pageOwner p with
      | unowned => exact .inl ⟨rfl, given fun r at' => Owner.noConfusion (owner.symm.trans at')⟩
      | process q => exact .inr ⟨q, rfl, (inv.of_pageOwner owner).1⟩
      | shared => exact absurd owner unshared
  | signal owner =>
    simp only [Handoff.notifyOwnerToCommit]
    split
    · next unowned =>
      exact keep _ rfl NotifyPos.noConfusion fun _ _ _ _ =>
        given fun r at' => Owner.noConfusion (unowned.symm.trans at')
    · exact keep _ rfl NotifyPos.noConfusion fun _ _ _ => NotifyPos.noConfusion
  | queue owner =>
    obtain ⟨rfl, held⟩ | ⟨q, rfl, -⟩ := known.asked owner rfl
    · exact keep _ rfl NotifyPos.noConfusion fun _ _ _ _ => held
    · exact keep _ rfl NotifyPos.noConfusion fun _ _ _ => NotifyPos.noConfusion
  | share owner failed share =>
    have held := known.sharing owner failed share rfl
    simp only [Handoff.notifyOwnerToCommit]
    cases next : (setSharedPage s.memory me p share).2 with
    | some share' => exact keep _ rfl NotifyPos.noConfusion fun _ _ _ _ => held
    | none =>
      cases failed with
      | false => exact keep _ rfl NotifyPos.noConfusion fun _ _ _ => NotifyPos.noConfusion
      | true =>
        exact ⟨allocated, fun _ mem => (Option.not_mem_none _ mem).elim,
          fun _ _ _ => NotifyPos.noConfusion, fun _ => held⟩
  | spin owner i =>
    simp only [Handoff.notifyOwnerToCommit]
    split
    · next shared => exact done shared
    · split <;> exact keep _ rfl NotifyPos.noConfusion fun _ _ _ => NotifyPos.noConfusion

/-- A signal goes to the owner of the page. -/
theorem target {pos : NotifyPos} (known : NotifyInv s p pos) :
    ∀ pid ∈ (Handoff.notifyOwnerToCommit s.memory me p pos).2.1, s.allocator p = some pid := by
  intro pid mem
  cases pos with
  | queue owner =>
    obtain ⟨rfl, -⟩ | ⟨q, rfl, allocated⟩ := known.asked owner rfl
    · exact (Option.not_mem_none _ mem).elim
    · exact Option.some.inj mem ▸ allocated
  | done | share => exact (Option.not_mem_none _ mem).elim
  | enter | signal | spin =>
    simp only [Handoff.notifyOwnerToCommit] at mem
    split at mem <;> first | exact (Option.not_mem_none _ mem).elim |
      (split at mem <;> exact (Option.not_mem_none _ mem).elim)

/-- An access of the fault handler. -/
theorem notifyAccess (inv : Inv s) {isWrite : Bool} {pos : NotifyPos}
    (handler : (s.control me).handler = none)
    (task : (s.control me).task = .notify isWrite p pos)
    (keeps : KeepsHandoff s (.exec me)) : Inv (s.notifyAccess me isWrite p pos) := by
  have known := inv.notify me isWrite p pos task
  have idle : ∀ (c : Control) call, c.handler = none → (∀ call pages, c.task ≠ .commit call pages) →
      ¬ c.Runs call := by
    rintro c call none other (below | ⟨pages, at'⟩)
    · exact Option.some_ne_none call (below.symm.trans none)
    · exact other call pages at'
  have before : ∀ call, ¬ (s.control me).Runs call := fun call =>
    idle _ call handler fun _ _ at' => Task.noConfusion (task.symm.trans at')
  rw [State.notifyAccess]
  split
  · next done =>
    have given := known.done done
    obtain ⟨q, allocated⟩ := Option.ne_none_iff_exists'.mp known.allocated
    have page := inv.page p q allocated
    have handed := page.handed given
    have after : Inv { s with memory := afterNotify s.memory me p isWrite } := by
      cases isWrite with
      | false =>
        exact inv.handleRead (fun _ => page.inside.2) fun own => absurd own (handed.owner me)
      | true => exact inv.opens opens_afterNotify fun _ => page.inside.2
    refine after.setControl .inl ?_ (fun call running => absurd running (before call))
      (after.pending me) ?_
    · exact fun call running => absurd running (idle _ call handler fun _ _ => Task.noConfusion)
    · exact fun _ _ _ => Task.noConfusion
  · have after := inv.notifyOwnerToCommit handler task keeps
    refine Inv.sigqueue ?_ (Inv.target known)
    refine after.setControl .inl ?_ (fun call running => absurd running (before call))
      (after.pending me) ?_
    · exact fun call running => absurd running (idle _ call handler fun _ _ => Task.noConfusion)
    · rintro isWrite' p' pos' ⟨⟩
      have next : NotifyInv s p (Handoff.notifyOwnerToCommit s.memory me p pos).2.2 :=
        inv.notifyInv known
      exact ⟨next.allocated, next.asked, next.sharing, next.done⟩

theorem exec (inv : Inv s) (keeps : KeepsHandoff s (.exec me)) (move : s.exec me = some s') :
    Inv s' := by
  rw [State.exec] at move
  split at move
  · cases move
  · split at move
    · next call handler =>
      obtain rfl := Option.some.inj move
      exact inv.handlerAccess handler keeps
    · next handler =>
      -- a task other than a call of `commitOwnedPage` has nothing in common with one
      have moved : ∀ task : Task, (∀ call pages, (s.control me).task ≠ .commit call pages) →
          (∀ call pages, task = .commit call pages → CallInv s me call) →
          (∀ isWrite p pos, task ≠ .notify isWrite p pos) →
          Inv (s.setControl me { s.control me with task := task }) := by
        intro task before calls other
        refine inv.setControl .inl ?_ ?_ (inv.pending me) fun isWrite p pos at' =>
          absurd at' (other isWrite p pos)
        · rintro call (below | ⟨pages, at'⟩)
          · exact absurd (handler.symm.trans below) (Option.some_ne_none call).symm
          · exact calls call pages at'
        · rintro call (below | ⟨pages, at'⟩)
          · exact absurd (handler.symm.trans below) (Option.some_ne_none call).symm
          · exact absurd at' (before call pages)
      cases task : (s.control me).task with
      | user =>
        rw [task] at move
        cases move
      | finalcommit release pages =>
        rw [task] at move
        cases pages with
        | nil =>
          obtain rfl := Option.some.inj move
          exact moved .user (by simp [task]) (fun _ _ => Task.noConfusion)
            fun _ _ _ => Task.noConfusion
        | cons p pages =>
          obtain rfl := Option.some.inj move
          refine moved _ (by simp [task]) (fun call rest at' => ?_) fun isWrite p' pos at' => ?_
          · split at at'
            · next owner =>
              cases at'
              refine ⟨(inv.of_pageOwner owner).1, CommitPos.noConfusion, ?_, ?_⟩
              · rintro (at' | at' | at') <;> cases at'
              · rintro (at' | at') <;> cases at'
            · cases at'
          · split at at' <;> cases at'
      | commit call pages =>
        rw [task] at move
        exact inv.callAccess handler task keeps move
      | notify isWrite p pos =>
        rw [task] at move
        obtain rfl := Option.some.inj move
        exact inv.notifyAccess handler task keeps

/-- The signal arrives, for a page the process has allocated. -/
theorem deliver (inv : Inv s) {pageNo : ℕ} (waits : (s.control me).pending = some pageNo)
    (handler : (s.control me).handler = none) : Inv (s.deliver me pageNo) := by
  refine inv.setControl .inl ?_ ?_ (fun _ none => by cases none) (inv.notify me)
  · rintro call (above | below)
    · obtain rfl := Option.some.inj above
      refine ⟨inv.pending me pageNo waits, CommitPos.noConfusion, ?_, ?_⟩
      · rintro (at' | at' | at') <;> cases at'
      · rintro (at' | at') <;> cases at'
    · exact inv.call me call (.inr below)
  · rintro call (above | below) shares -
    · exact absurd (handler.symm.trans above) (Option.some_ne_none call).symm
    · exact ⟨call, .inr below, rfl, shares⟩

/-- **Step lemma.** -/
theorem step (inv : Inv s) {label : Label} (keeps : KeepsHandoff s label)
    (move : s.step label = some s') : Inv s' := by
  cases label with
  | malloc me pages =>
    obtain ⟨inProgram, rfl⟩ := guarded move
    exact inv.malloc inProgram pages
  | store me p offset value =>
    obtain ⟨⟨inProgram, writable⟩, rfl⟩ := guarded move
    exact inv.store inProgram writable offset value
  | fault me p isWrite =>
    obtain ⟨⟨inProgram, inside, denied⟩, rfl⟩ := guarded move
    exact inv.fault inProgram inside denied
  | finalcommit me release =>
    obtain ⟨inProgram, rfl⟩ := guarded move
    have idle := inProgram.not_runs
    refine inv.setControl .inl ?_ (fun call running => absurd running (idle call))
      (inv.pending me) fun _ _ _ => Task.noConfusion
    rintro call (handler | ⟨pages, task⟩)
    · exact absurd (.inl handler) (idle call)
    · cases task
  | exec me => exact inv.exec keeps move
  | deliver me =>
    obtain ⟨pageNo, waits, move⟩ := Option.bind_eq_some_iff.mp move
    obtain ⟨interruptible, rfl⟩ := guarded move
    exact inv.deliver waits interruptible.2.1
  | exit me =>
    obtain ⟨inProgram, rfl⟩ := guarded move
    refine inv.setControl (fun _ => .inr (inv.ownsNothing keeps)) (inv.call me)
      (fun call running shares _ => ⟨call, running, rfl, shares⟩) (inv.pending me) (inv.notify me)

end Inv

theorem initial_inv (content : PageId → Page) (allocated : ℕ) :
    Inv (initial content allocated) where
  page _ _ none := by cases none
  call q call running := by
    obtain none | ⟨pages, user⟩ := running
    · cases none
    · cases user
  pending _ _ none := by cases none
  notify _ _ _ _ user := by cases user
  unowned p _ r := by
    simp only [initial, PageSystem.initial]
    split <;> exact Owner.noConfusion
  unmarked p q _ := by
    simp only [initial, PageSystem.initial, PageSystem.initialProcess]
    split
    · exact PageAccess.noConfusion
    · split <;> exact PageAccess.noConfusion
  old p q heap below _ := by
    simp only [initial, PageSystem.initial, PageSystem.initialProcess, heap]
    rw [if_pos (show p.pageNo < allocated from below)]
    exact PageAccess.noConfusion
  fresh p heap _ := by
    refine ⟨rfl, rfl, fun q => ⟨rfl, ?_⟩⟩
    simp only [initial, PageSystem.initial, PageSystem.initialProcess, heap, Region.protection]
    exact Protection.noConfusion

/-- **Run lemma.** -/
theorem inv_of_keepsHandoff (reach : system.Reachable KeepsHandoff s) : Inv s := by
  refine reach.invariant Inv ?_ fun s label s' inv keeps move => inv.step keeps move
  rintro s ⟨content, allocated, rfl⟩
  exact initial_inv content allocated

/-! ## What is handed over -/

theorem handlerAccess_task {call : CommitCall} :
    ((s.handlerAccess me call).control me).task = (s.control me).task := by
  rw [State.handlerAccess]
  split <;> simp only [State.setControl, Function.update_self]

/-- The fault handler returns from its last position only. -/
theorem eq_notifyAccess {isWrite : Bool} {pos : NotifyPos}
    (task : (s.control me).task = .notify isWrite p pos) (move : s.exec me = some s')
    (returns : (s'.control me).task = .user) :
    pos = .done ∧ s' = s.notifyAccess me isWrite p .done := by
  rw [State.exec] at move
  split at move
  · cases move
  · split at move
    · next call handler =>
      obtain rfl := Option.some.inj move
      rw [handlerAccess_task, task] at returns
      cases returns
    · rw [task] at move
      obtain rfl := Option.some.inj move
      by_cases last : pos = .done
      · exact ⟨last, last ▸ rfl⟩
      · rw [State.notifyAccess, if_neg last, sigqueue_task] at returns
        simp only [State.setControl, Function.update_self, reduceCtorEq] at returns

theorem afterNotify_persistent {isWrite : Bool} :
    (afterNotify m me p isWrite).persistent = m.persistent := by
  cases isWrite with
  | false => rfl
  | true => exact opens_afterNotify.persistent

theorem Inv.delivered (inv : Inv s) : Delivered s := by
  intro me isWrite p pos owner s' task allocated _ move returns
  obtain ⟨rfl, rfl⟩ := eq_notifyAccess task move returns
  have known := inv.notify me isWrite p .done task
  have saved := inv.saved_of_given known.allocated (known.done rfl)
  simpa only [State.notifyAccess, if_true, State.setControl, afterNotify_persistent] using saved

theorem Inv.ownersLive (inv : Inv s) : OwnersLive s := by
  intro me isWrite p asked i owner task at'
  obtain ⟨allocated, given⟩ := inv.of_pageOwner at'
  exact ((inv.page p owner allocated).held given).live

/-- **Nothing is lost in the handoff** when pages are shared only while nobody owns the page
behind them and processes end only when they own nothing. -/
theorem handsOver_of_keepsHandoff (reach : system.Reachable KeepsHandoff s) : HandsOver s :=
  have inv := inv_of_keepsHandoff reach
  ⟨inv.delivered, inv.ownersLive⟩

/-- A run of two processes: the first one writes a page and gives it up when it is asked. -/
def handOverLabels : List Label :=
  [.malloc 1 1, .fault 1 (heapPage 0) true, .store 1 (heapPage 0) 0 7, .fault 2 (heapPage 0) false]
    ++ List.replicate 4 (.exec 2) ++ [.deliver 1] ++ List.replicate 8 (.exec 1) ++ [.exec 2]

/-- The condition, for runs without exits. -/
def keepsHandoff (s : State) : Label → Bool
  | .exec me =>
      (s.exchanging me).all (fun p => match s.memory.pageOwner p.next with
        | .process _ => false
        | _ => true) &&
      (s.control me).handler.all fun call => !decide (s.Faults me call)
  | .exit _ => false
  | _ => true

theorem keepsHandoff_sound {label : Label} (passes : keepsHandoff s label = true) :
    KeepsHandoff s label := by
  cases label with
  | malloc | store | fault | finalcommit | deliver => trivial
  | exit => exact absurd passes Bool.false_ne_true
  | exec me =>
    obtain ⟨exchange, lives⟩ := Bool.and_eq_true_iff.mp passes
    constructor
    · intro p mem owner at'
      rw [Option.mem_def] at mem
      simp only [mem, Option.all_some, at', Bool.false_eq_true] at exchange
    · rintro ⟨call, handler, faults⟩
      rw [Option.mem_def] at handler
      simp only [handler, Option.all_some, faults, decide_true, Bool.not_true,
        Bool.false_eq_true] at lives

/-- There is such a run in which a page is handed over. -/
theorem handsOver_asked : ∃ s, system.Reachable KeepsHandoff s ∧
    (s.control 2).task = .notify false (heapPage 0) .done ∧ s.allocator (heapPage 0) = some 1 ∧
    s.memory.persistent (heapPage 0) 0 = 7 ∧ HandsOver s := by
  have execution : (system.runIf keepsHandoff (initial (fun _ _ => 0) 0) handOverLabels).any
      (fun s => decide ((s.control 2).task = .notify false (heapPage 0) .done ∧
        s.allocator (heapPage 0) = some 1 ∧ s.memory.persistent (heapPage 0) 0 = 7)) = true := by
    decide +kernel
  obtain ⟨s, execution, good⟩ := (Option.any_eq_true _ _).mp execution
  obtain ⟨task, allocated, written⟩ := of_decide_eq_true good
  have start : system.Reachable KeepsHandoff (initial (fun _ _ => 0) 0) := .init ⟨_, _, rfl⟩
  have reach := start.runIf (fun _ _ => keepsHandoff_sound) execution
  exact ⟨s, reach, task, allocated, written, handsOver_of_keepsHandoff reach⟩

/-- Process 2 asks for the first of two pages; sharing it clears the owner of the second
one, which process 2 then takes without a word to process 1. -/
def neighbourLabels : List Label :=
  [.malloc 1 2, .fault 1 (heapPage 1) true, .store 1 (heapPage 1) 0 7, .fault 2 (heapPage 0) false]
    ++ List.replicate 4 (.exec 2) ++ [.deliver 1] ++ List.replicate 6 (.exec 1)
    ++ List.replicate 2 (.exec 2) ++ [.fault 2 (heapPage 1) false] ++ List.replicate 6 (.exec 2)

/-- Process 1 exits as threads do, with `finalcommit(false)`, and process 2 waits for it. -/
def exitLabels : List Label :=
  [.malloc 1 1, .fault 1 (heapPage 0) true, .finalcommit 1 false] ++ List.replicate 6 (.exec 1)
    ++ [.exit 1, .fault 2 (heapPage 0) false] ++ List.replicate 3 (.exec 2)

/-- Neither half holds without the condition: sharing a page can lose the stores to the one
behind it, and a thread that exits keeps its pages. -/
theorem not_handsOver : (¬ ∀ s, system.Reachable AnyStep s → Delivered s) ∧
    ¬ ∀ s, system.Reachable AnyStep s → OwnersLive s := by
  constructor
  · intro all
    have execution : (system.run (initial (fun _ _ => 0) 0) neighbourLabels).any
        (fun s => decide ((s.control 2).task = .notify false (heapPage 1) .done ∧
          s.allocator (heapPage 1) = some 1) && (s.exec 2).any fun s' =>
            decide ((s'.control 2).task = .user ∧
              s'.memory.persistent (heapPage 1) 0 ≠ s'.content (heapPage 1) 0)) = true := by
      decide +kernel
    obtain ⟨s, execution, good⟩ := (Option.any_eq_true _ _).mp execution
    obtain ⟨before, after⟩ := Bool.and_eq_true_iff.mp good
    obtain ⟨task, allocated⟩ := of_decide_eq_true before
    obtain ⟨s', move, after⟩ := (Option.any_eq_true _ _).mp after
    obtain ⟨returns, lost⟩ := of_decide_eq_true after
    have start : system.Reachable AnyStep (initial (fun _ _ => 0) 0) := .init ⟨_, _, rfl⟩
    have reach := start.run execution
    have same := all s reach 2 false (heapPage 1) .done 1 s' task allocated (by decide) move returns
    exact lost (congrFun same 0)
  · intro all
    have execution : (system.run (initial (fun _ _ => 0) 0) exitLabels).any
        (fun s => decide ((s.control 2).task = .notify false (heapPage 0) (.spin (.process 1) 0) ∧
          s.memory.pageOwner (heapPage 0) = .process 1 ∧ (s.control 1).exited = true)) = true := by
      decide +kernel
    obtain ⟨s, execution, good⟩ := (Option.any_eq_true _ _).mp execution
    obtain ⟨task, owner, exited⟩ := of_decide_eq_true good
    have start : system.Reachable AnyStep (initial (fun _ _ => 0) 0) := .init ⟨_, _, rfl⟩
    have reach := start.run execution
    have live := all s reach 2 false (heapPage 0) (.process 1) 0 1 task owner
    exact Bool.false_ne_true (live.symm.trans exited)

end Tthread.Handoff
