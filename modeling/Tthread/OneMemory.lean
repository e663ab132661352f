/-
# Private copies as one memory

Every process works on copies of its own, and commits merge the copies byte by byte. A
program need not see any of this. Say that a process takes a byte before it stores to it, and
gives its bytes back when its commit has ended, and that nobody takes a byte that somebody
has. Then the holder of a byte reads what was last stored there, and so does everybody from
the shared mapping once nobody holds it, whoever has written the same page in the meantime.
-/

import Tthread.CommitMerge

open Transition

namespace Tthread.OneMemory

open PageSystem

structure State where
  pages : AccessState
  /-- ghost: the process that may use a byte -/
  holder : PageId → Fin pageSize → Option ℕ

inductive Label
  | page (label : PageSystem.Label)
  /-- ghost: the process takes a byte that is free, of a page of which it has no copy -/
  | take (me : ℕ) (p : PageId) (offset : Fin pageSize)

/-- The process whose commit has ended. -/
def ended (s s' : AccessState) : Option ℕ :=
  if s'.committing = none then s.committing.map Prod.fst else none

/-- A process gives its bytes back. -/
def giveBack (holder : PageId → Fin pageSize → Option ℕ) (who : Option ℕ) :
    PageId → Fin pageSize → Option ℕ :=
  fun p offset => if holder p offset = who then none else holder p offset

def step (s : State) : Label → Option State
  | .page label =>
      (accessStep s.pages label).map fun pages =>
        ⟨pages, giveBack s.holder (ended s.pages pages)⟩
  | .take me p offset =>
      if s.holder p offset = none ∧ (s.pages.memory.process me).transient p = none then
        some { s with
          holder := Function.update s.holder p
            (Function.update (s.holder p) offset (some me)) }
      else none

def initial (content : PageId → Page) (allocated : ℕ) : State where
  pages := ⟨PageSystem.initial content allocated, none⟩
  holder _ _ := none

def system : System State Label where
  Init s := ∃ content allocated, s = initial content allocated
  step := step

/-- The condition on a step: a process stores to bytes that it holds, on a page it has not
committed yet, and holds nothing when it refreshes; besides the one for exact merges. -/
def Exclusive (s : State) : Label → Prop
  | .page label => MergesCleanly s.pages label ∧
      match label with
      | .store me p offset _ => s.holder p offset = some me ∧
          ∀ entry ∈ (s.pages.memory.process me).dirtiedPagesList, entry.pageNo = p →
            entry.committed = false
      | .updateAll me => ∀ p offset, s.holder p offset ≠ some me
      | _ => True
  | .take _ _ _ => True

/-! ## One memory -/

structure Store where
  page : PageId
  offset : Fin pageSize
  value : UInt8

/-- A memory without copies. -/
def plain : System (PageId → Page) Store where
  Init _ := True
  step content store :=
    some (Function.update content store.page
      (Function.update (content store.page) store.offset store.value))

/-- A byte as its holder reads it, or from the shared mapping. -/
def State.content (s : State) : PageId → Page := fun p offset =>
  match s.holder p offset with
  | none => s.pages.memory.persistent p offset
  | some me => s.pages.memory.view me p offset

/-- Only the stores of the program are seen. -/
def shows : Label → Option Store
  | .page (.store _ p offset value) => some ⟨p, offset, value⟩
  | _ => none

/-! ## What a process relies on -/

/-- The entries of a process are of different pages. What it has stored since a write fault are
bytes it holds, where the shared page is still the one of the fault until the process commits,
and is the copy of the process after that. -/
structure Uses (persistent : PageId → Page) (holder : PageId → Fin pageSize → Option ℕ) (me : ℕ)
    (q : Process) : Prop where
  once : (q.dirtiedPagesList.map Xpageinfo.pageNo).Nodup
  mine : ∀ entry ∈ q.dirtiedPagesList, entry.committed = false →
    ∀ offset, q.written entry.pageNo offset = true → holder entry.pageNo offset = some me
  base : ∀ p offset, holder p offset = some me → ∀ entry ∈ q.dirtiedPagesList, entry.pageNo = p →
    entry.committed = false → q.transient p ≠ none → persistent p offset = entry.snapshot offset
  settled : ∀ p offset, holder p offset = some me →
    (∀ entry ∈ q.dirtiedPagesList, entry.pageNo = p → entry.committed = true) →
      ∀ copy, q.transient p = some copy → copy offset = persistent p offset

/-- The invariant: the pages are in order, and what the iterator has passed is committed. -/
structure Inv (s : State) : Prop where
  pages : MergeState s.pages
  uses : ∀ me, Uses s.pages.memory.persistent s.holder me (s.pages.memory.process me)
  passed : ∀ me position, s.pages.committing = some (me, position) →
    ∀ i < position, ∀ entry, (s.pages.memory.process me).dirtiedPagesList[i]? = some entry →
      entry.committed = true

variable {persistent persistent' : PageId → Page}
  {holder holder' : PageId → Fin pageSize → Option ℕ}
  {me other : ℕ} {q q' : Process} {p : PageId} {offset : Fin pageSize} {entry : Xpageinfo}
  {s s' : State}

/-- Bytes that a process does not hold do not matter to it. -/
theorem Uses.frame (uses : Uses persistent holder me q)
    (held : ∀ p offset, holder' p offset = some me ↔ holder p offset = some me)
    (shared : ∀ p offset, holder p offset = some me → persistent' p offset = persistent p offset)
    (list : q'.dirtiedPagesList = q.dirtiedPagesList) (copies : q'.transient = q.transient)
    (written : q'.written = q.written) : Uses persistent' holder' me q' where
  once := list ▸ uses.once
  mine entry member pending offset stored := by
    rw [list] at member
    rw [written] at stored
    exact (held _ _).mpr (uses.mine entry member pending offset stored)
  base p offset holds entry member page pending copy := by
    have holds := (held p offset).mp holds
    rw [list] at member
    rw [copies] at copy
    exact (shared p offset holds).trans (uses.base p offset holds entry member page pending copy)
  settled p offset holds all copy found := by
    have holds := (held p offset).mp holds
    rw [list] at all
    rw [copies] at found
    exact (uses.settled p offset holds all copy found).trans (shared p offset holds).symm

/-- A write fault on a page that has neither an entry nor a copy. -/
theorem Uses.handleWrite (uses : Uses persistent holder me q) (fresh : q.transient p = none)
    (absent : ∀ e ∈ q.dirtiedPagesList, e.pageNo ≠ p) (here : entry.pageNo = p)
    (pending : entry.committed = false) :
    Uses persistent holder me
      { q.mprotect p .readWrite with
        dirtiedPagesList := Memory.insertEntry entry q.dirtiedPagesList
        written := Function.update q.written p fun _ => false } := by
  have member : ∀ e, e ∈ Memory.insertEntry entry q.dirtiedPagesList ↔
      e = entry ∨ e ∈ q.dirtiedPagesList := fun e => List.mem_orderedInsert _
  refine ⟨?_, ?_, ?_, ?_⟩
  · have perm := (List.perm_orderedInsert
      (fun a b : Xpageinfo => a.pageNo.Before b.pageNo) entry q.dirtiedPagesList).map
        Xpageinfo.pageNo
    rw [List.map_cons] at perm
    refine perm.nodup_iff.mpr (List.nodup_cons.mpr ⟨fun listed => ?_, uses.once⟩)
    obtain ⟨e, listed, same⟩ := List.mem_map.mp listed
    exact absent e listed (same.trans here)
  · intro e listed uncommitted offset stored
    change Function.update q.written p _ e.pageNo offset = true at stored
    obtain rfl | old := (member e).mp listed
    · rw [here, Function.update_self] at stored
      cases stored
    · rw [Function.update_of_ne (absent e old)] at stored
      exact uses.mine e old uncommitted offset stored
  · intro p' offset holds e listed page uncommitted copy
    obtain rfl | old := (member e).mp listed
    · exact absurd (page.symm.trans here ▸ fresh) copy
    · exact uses.base p' offset holds e old page uncommitted copy
  · intro p' offset holds all copy found
    refine uses.settled p' offset holds (fun e old page => ?_) copy found
    exact all e ((member e).mpr (.inr old)) page

/-- A store to a byte that the process holds, of a page that it has not committed. -/
theorem Uses.store (uses : Uses persistent holder me q) {page : Page} {value : UInt8}
    (holds : holder p offset = some me)
    (listed : ∃ entry ∈ q.dirtiedPagesList, entry.pageNo = p)
    (pending : ∀ entry ∈ q.dirtiedPagesList, entry.pageNo = p → entry.committed = false)
    (fresh : q.transient p = none → ∀ entry ∈ q.dirtiedPagesList, entry.pageNo = p →
      entry.snapshot = persistent p) :
    Uses persistent holder me
      (q.setCopy p (Function.update page offset value) fun other => other = offset) := by
  refine ⟨uses.once, ?_, ?_, ?_⟩
  · intro e member uncommitted other stored
    change Function.update q.written p _ e.pageNo other = true at stored
    by_cases same : e.pageNo = p
    · rw [same, Function.update_self, Bool.or_eq_true, decide_eq_true_eq] at stored
      obtain rfl | stored := stored
      · exact same ▸ holds
      · exact uses.mine e member uncommitted other (same ▸ stored)
    · rw [Function.update_of_ne same] at stored
      exact uses.mine e member uncommitted other stored
  · intro p' other holds' e member here uncommitted copy
    change Function.update q.transient p _ p' ≠ none at copy
    by_cases same : p' = p
    · subst same
      cases found : q.transient p' with
      | none => rw [fresh found e member here]
      | some old =>
        exact uses.base p' other holds' e member here uncommitted (by rw [found]; simp)
    · rw [Function.update_of_ne same] at copy
      exact uses.base p' other holds' e member here uncommitted copy
  · intro p' other holds' all copy found
    change Function.update q.transient p _ p' = some copy at found
    by_cases same : p' = p
    · subst same
      obtain ⟨e, member, here⟩ := listed
      exact absurd ((pending e member here).symm.trans (all e member here)) Bool.false_ne_true
    · rw [Function.update_of_ne same] at found
      exact uses.settled p' other holds' all copy found

/-- What the commit of a page does to the shared byte at some place: nothing, unless the process
holds it and has a copy, which the byte then agrees with. -/
def Carries (persistent persistent' : PageId → Page)
    (holder : PageId → Fin pageSize → Option ℕ) (me : ℕ) (q : Process) (p : PageId) : Prop :=
  ∀ offset, persistent' p offset = persistent p offset ∧
      (holder p offset = some me → ∀ copy, q.transient p = some copy →
        copy offset = persistent p offset) ∨
    holder p offset = some me ∧ ∃ copy, q.transient p = some copy ∧
      persistent' p offset = copy offset

/-- The process has committed the page of one more entry. -/
theorem Uses.commit (uses : Uses persistent holder me q) {position : ℕ}
    (found : q.dirtiedPagesList[position]? = some entry)
    (carries : Carries persistent persistent' holder me q entry.pageNo)
    (others : ∀ p, p ≠ entry.pageNo → persistent' p = persistent p) :
    Uses persistent' holder me
      { q with
        dirtiedPagesList :=
          q.dirtiedPagesList.set position { entry with committed := true } } := by
  obtain ⟨inside, at_position⟩ := List.getElem?_eq_some_iff.mp found
  have names : (q.dirtiedPagesList.set position
      { entry with committed := true }).map Xpageinfo.pageNo =
        q.dirtiedPagesList.map Xpageinfo.pageNo := by
    rw [List.map_set]
    refine List.ext_getElem? fun i => ?_
    rw [List.getElem?_set, List.length_map, List.getElem?_map]
    split_ifs with same
    · subst same
      rw [found]
      rfl
    · rfl
  -- an entry that is still to be committed is another one, of another page
  have older : ∀ e ∈ q.dirtiedPagesList.set position
      { entry with committed := true }, e.committed = false →
        e ∈ q.dirtiedPagesList ∧ e.pageNo ≠ entry.pageNo := by
    intro e member uncommitted
    obtain ⟨i, at_i⟩ := List.mem_iff_getElem?.mp member
    rw [List.getElem?_set] at at_i
    split_ifs at at_i with same
    · cases at_i
      cases uncommitted
    · refine ⟨List.mem_of_getElem? at_i, fun page => same ?_⟩
      have first : (q.dirtiedPagesList.map Xpageinfo.pageNo)[position]? = some entry.pageNo := by
        rw [List.getElem?_map, found, Option.map_some]
      have second : (q.dirtiedPagesList.map Xpageinfo.pageNo)[i]? = some entry.pageNo := by
        rw [List.getElem?_map, at_i, Option.map_some, page]
      exact (List.getElem?_inj (by simpa using inside) uses.once).mp (first.trans second.symm)
  refine ⟨names ▸ uses.once, ?_, ?_, ?_⟩
  · intro e member uncommitted
    exact uses.mine e (older e member uncommitted).1 uncommitted
  · intro p offset holds e member here uncommitted copy
    obtain ⟨old, elsewhere⟩ := older e member uncommitted
    rw [others p (here ▸ elsewhere)]
    exact uses.base p offset holds e old here uncommitted copy
  · intro p offset holds all copy found'
    by_cases here : p = entry.pageNo
    · subst here
      obtain ⟨same, agrees⟩ | ⟨-, copy', found'', carried⟩ := carries offset
      · exact (agrees holds copy found').trans same.symm
      · obtain rfl := Option.some.inj (found'.symm.trans found'')
        exact carried.symm
    · rw [others p here]
      refine uses.settled p offset holds (fun e member page => ?_) copy found'
      obtain ⟨i, at_i⟩ := List.mem_iff_getElem?.mp member
      have apart : position ≠ i := by
        rintro rfl
        obtain rfl := Option.some.inj (found.symm.trans at_i)
        exact here page.symm
      refine all e (List.mem_iff_getElem?.mpr ⟨i, ?_⟩) page
      rw [List.getElem?_set_ne apart]
      exact at_i

/-! ## What a commit does -/

variable {m : Memory}

theorem process_setSharedPage :
    ((m.setSharedPage me p).process other).dirtiedPagesList = (m.process other).dirtiedPagesList ∧
      ((m.setSharedPage me p).process other).transient = (m.process other).transient ∧
      ((m.setSharedPage me p).process other).written = (m.process other).written := by
  refine ⟨Memory.setSharedPage_dirtiedPagesList, Memory.setSharedPage_transient, ?_⟩
  unfold Memory.setSharedPage
  split
  · by_cases here : other = me
    · subst here
      rw [Memory.modify_process_self]
      rfl
    · rw [Memory.modify_process_of_ne here]
  · rfl

/-- The copies stay, and what is known of them. -/
theorem commitAccess_copies {pos : VisitPos} :
    ((m.commitAccess me entry pos).1.process other).transient = (m.process other).transient ∧
      ((m.commitAccess me entry pos).1.process other).written = (m.process other).written := by
  cases pos with
  | share index => exact ⟨process_setSharedPage.2.1, process_setSharedPage.2.2⟩
  | sole | owner =>
    simp only [Memory.commitAccess]
    split <;> exact ⟨rfl, rfl⟩
  | _ => exact ⟨rfl, rfl⟩

/-- What changes is held by the process. -/
theorem Inv.carries (inv : Inv s) (exact_ : ExactMerge s.pages.memory persistent' me entry)
    (member : entry ∈ (s.pages.memory.process me).dirtiedPagesList)
    (pending : entry.committed = false) :
    Carries s.pages.memory.persistent persistent' s.holder me (s.pages.memory.process me)
      entry.pageNo := by
  intro offset
  obtain ⟨merged, kept⟩ := exact_.merged offset
  by_cases holds : s.holder entry.pageNo offset = some me
  · cases found : (s.pages.memory.process me).transient entry.pageNo with
    | none =>
      -- without a copy the process reads the shared page
      have same : s.pages.memory.view me entry.pageNo offset =
          s.pages.memory.persistent entry.pageNo offset := by
        rw [Memory.view, found]
        rfl
      rw [same, ite_self] at merged
      exact .inl ⟨merged, fun _ copy found' => absurd found' (by simp)⟩
    | some copy =>
      have base := (inv.uses me).base entry.pageNo offset holds entry member rfl pending
        (by rw [found]; simp)
      have mine : s.pages.memory.view me entry.pageNo offset = copy offset := by
        rw [Memory.view, found]
        rfl
      refine .inr ⟨holds, copy, rfl, merged.trans ?_⟩
      rw [mine, base]
      split_ifs with same
      · exact same.symm
      · rfl
  · refine .inl ⟨kept ?_, fun holds' => absurd holds' holds⟩
    by_contra stored
    exact holds ((inv.uses me).mine entry member pending offset
      (Bool.eq_true_of_not_eq_false stored))

/-! ## What a step does -/

theorem giveBack_none : giveBack holder none = holder := by
  funext p offset
  rw [giveBack]
  split_ifs with free
  · exact free.symm
  · rfl

/-- Only the end of a commit gives bytes back. -/
theorem step_page {label : PageSystem.Label} (move : step s (.page label) = some s') :
    accessStep s.pages label = some s'.pages ∧
      s'.holder = giveBack s.holder (ended s.pages s'.pages) := by
  obtain ⟨pages, moved, rfl⟩ := Option.map_eq_some_iff.mp move
  exact ⟨moved, rfl⟩

theorem holder_of_same (same : s'.pages.committing = s.pages.committing)
    (gives : s'.holder = giveBack s.holder (ended s.pages s'.pages)) : s'.holder = s.holder := by
  have none : ended s.pages s'.pages = none := by
    rw [ended, same]
    split_ifs with idle
    · rw [idle]
      rfl
    · rfl
  rw [gives, none, giveBack_none]

/-- A step of the program of one process, which is not in a commit. -/
theorem Inv.local (inv : Inv s) (pages : MergeState s'.pages)
    (committing : s'.pages.committing = s.pages.committing) (outside : s.pages.Outside me)
    (gives : s'.holder = giveBack s.holder (ended s.pages s'.pages))
    (shared : s'.pages.memory.persistent = s.pages.memory.persistent)
    (others : ∀ other, other ≠ me →
      s'.pages.memory.process other = s.pages.memory.process other)
    (mine : Uses s.pages.memory.persistent s.holder me (s'.pages.memory.process me)) : Inv s' := by
  refine ⟨pages, fun other => ?_, fun other position at_position => ?_⟩
  · rw [shared, holder_of_same committing gives]
    by_cases here : other = me
    · exact here ▸ mine
    · rw [others other here]
      exact inv.uses other
  · rw [committing] at at_position
    have elsewhere : other ≠ me := fun same => outside position (same ▸ at_position)
    rw [others other elsewhere]
    exact inv.passed other position at_position

/-- A step that leaves copies, bytes and entries alone. -/
theorem Inv.quiet (inv : Inv s) (pages : MergeState s'.pages)
    (committing : s'.pages.committing = s.pages.committing)
    (gives : s'.holder = giveBack s.holder (ended s.pages s'.pages))
    (shared : s'.pages.memory.persistent = s.pages.memory.persistent)
    (same : ∀ me,
      (s'.pages.memory.process me).dirtiedPagesList =
          (s.pages.memory.process me).dirtiedPagesList ∧
        (s'.pages.memory.process me).transient = (s.pages.memory.process me).transient ∧
        (s'.pages.memory.process me).written = (s.pages.memory.process me).written) :
    Inv s' := by
  refine ⟨pages, fun me => ?_, fun me position at_position => ?_⟩
  · rw [shared, holder_of_same committing gives]
    exact (inv.uses me).frame (fun _ _ => .rfl) (fun _ _ _ => rfl) (same me).1 (same me).2.1
      (same me).2.2
  · rw [committing] at at_position
    rw [(same me).1]
    exact inv.passed me position at_position

theorem content_of_held (held : s.holder p offset = some me) :
    s.content p offset = s.pages.memory.view me p offset := by
  simp only [State.content, held]

theorem content_of_free (free : s.holder p offset = none) :
    s.content p offset = s.pages.memory.persistent p offset := by
  simp only [State.content, free]

/-- The content is the same if the shared pages and the copies of the holders are. -/
theorem content_congr (holder : s'.holder = s.holder)
    (shared : s'.pages.memory.persistent = s.pages.memory.persistent)
    (copies : ∀ me p offset, s.holder p offset = some me →
      s'.pages.memory.view me p offset = s.pages.memory.view me p offset) :
    s'.content = s.content := by
  funext p offset
  cases held : s.holder p offset with
  | none => rw [content_of_free held, content_of_free (holder ▸ held), shared]
  | some me =>
    rw [content_of_held held, content_of_held (holder ▸ held)]
    exact copies me p offset held

theorem view_congr {m' : Memory} (shared : m'.persistent = m.persistent)
    (copies : (m'.process me).transient = (m.process me).transient) : m'.view me = m.view me := by
  funext p
  rw [Memory.view, Memory.view, copies, shared]

/-- A content in which one byte is stored. -/
def Store.apply (store : Store) (content : PageId → Page) : PageId → Page :=
  Function.update content store.page
    (Function.update (content store.page) store.offset store.value)

theorem Inv.writeFault (inv : Inv s) (ok : Exclusive s (.page (.writeFault me p)))
    (move : step s (.page (.writeFault me p)) = some s') : Inv s' ∧ s'.content = s.content := by
  obtain ⟨moved, gives⟩ := step_page move
  have pages := inv.pages.step ok.1 moved
  obtain ⟨⟨outside, closed, -⟩, after⟩ := guarded (accessStep_of_ne moved nofun).1
  obtain ⟨history, merge⟩ := inv.pages.merges
  have fresh : (s.pages.memory.process me).transient p = none := by
    cases found : (s.pages.memory.process me).transient p with
    | none => rfl
    | some copy => exact absurd ((merge.process me).copied p copy found) closed
  have absent : ∀ e ∈ (s.pages.memory.process me).dirtiedPagesList, e.pageNo ≠ p :=
    fun e listed same => closed (((merge.process me).writable p).mpr ⟨e, listed, same⟩)
  have committing : s'.pages.committing = s.pages.committing := by rw [← after]
  have memory := (congrArg PageSystem.State.memory after).symm.trans
    (Memory.handleWrite_eq (merge.unowned p me) ((merge.process me).neverOwner p))
  have shared : s'.pages.memory.persistent = s.pages.memory.persistent := by rw [memory]; rfl
  have others : ∀ other, other ≠ me →
      s'.pages.memory.process other = s.pages.memory.process other := by
    intro other elsewhere
    rw [memory]
    exact Memory.modify_process_of_ne elsewhere
  refine ⟨inv.local pages committing outside gives shared others ?_,
    content_congr (holder_of_same committing gives) shared fun other p' offset _ => ?_⟩
  · rw [memory, Memory.modify_process_self]
    exact (inv.uses me).handleWrite fresh absent rfl rfl
  · refine congrFun (congrFun (view_congr shared ?_) p') offset
    by_cases here : other = me
    · subst here
      rw [memory, Memory.modify_process_self]
      rfl
    · rw [others other here]

theorem store_view_self {value : UInt8} : (m.store me p offset value).view me p =
    Function.update (m.view me p) offset value := by
  rw [Memory.view, Memory.store, Memory.modify_process_self]
  show Option.getD (Function.update (m.process me).transient p (some _) p) _ = _
  rw [Function.update_self, Option.getD_some]

theorem store_view_of_ne {value : UInt8} {p' : PageId} (elsewhere : other ≠ me ∨ p' ≠ p) :
    (m.store me p offset value).view other p' = m.view other p' := by
  rw [Memory.view, Memory.store]
  by_cases here : other = me
  · subst here
    rw [Memory.modify_process_self]
    show Option.getD (Function.update (m.process other).transient p (some _) p') _ = _
    rw [Function.update_of_ne (elsewhere.resolve_left (not_not.mpr rfl))]
    rfl
  · rw [Memory.modify_process_of_ne here]
    rfl

theorem Inv.store (inv : Inv s) {value : UInt8}
    (ok : Exclusive s (.page (.store me p offset value)))
    (move : step s (.page (.store me p offset value)) = some s') :
    Inv s' ∧ s'.content = Store.apply ⟨p, offset, value⟩ s.content := by
  obtain ⟨moved, gives⟩ := step_page move
  have pages := inv.pages.step ok.1 moved
  obtain ⟨⟨outside, writable⟩, after⟩ := guarded (accessStep_of_ne moved nofun).1
  obtain ⟨⟨-, current⟩, holds, pending⟩ := ok
  obtain ⟨history, merge⟩ := inv.pages.merges
  have committing : s'.pages.committing = s.pages.committing := by rw [← after]
  have memory : s'.pages.memory = s.pages.memory.store me p offset value := by rw [← after]
  have shared : s'.pages.memory.persistent = s.pages.memory.persistent := by rw [memory]; rfl
  have others : ∀ other, other ≠ me →
      s'.pages.memory.process other = s.pages.memory.process other := by
    intro other elsewhere
    rw [memory]
    exact Memory.modify_process_of_ne elsewhere
  have held := holder_of_same committing gives
  refine ⟨inv.local pages committing outside gives shared others ?_, ?_⟩
  · rw [memory, Memory.store, Memory.modify_process_self]
    refine (inv.uses me).store holds (((merge.process me).writable p).mp writable) pending ?_
    -- a copy that is made now is of the page that the entry records
    intro fresh entry member here
    have uncommitted := pending entry member here
    have recorded := (merge.process me).recorded entry member uncommitted
    obtain ⟨settled, current⟩ := current fresh
    rw [recorded.2, current entry member here uncommitted, here,
      ← versions_of_not_carried settled, merge.current]
  · funext p' offset'
    have elsewhere : p' ≠ p ∨ offset' ≠ offset →
        s'.content p' offset' = s.content p' offset' := by
      intro other
      cases user : s.holder p' offset' with
      | none => rw [content_of_free user, content_of_free (held ▸ user), shared]
      | some user' =>
        rw [content_of_held user, content_of_held (held ▸ user), memory]
        by_cases here : user' = me ∧ p' = p
        · obtain ⟨rfl, rfl⟩ := here
          rw [store_view_self, Function.update_of_ne (other.resolve_left (not_not.mpr rfl))]
        · rw [store_view_of_ne (Decidable.not_and_iff_or_not.mp here)]
    rw [Store.apply]
    by_cases page : p' = p
    · subst page
      rw [Function.update_self]
      by_cases byte : offset' = offset
      · subst byte
        rw [Function.update_self, content_of_held (held ▸ holds), memory, store_view_self,
          Function.update_self]
      · rw [Function.update_of_ne byte]
        exact elsewhere (.inr byte)
    · rw [Function.update_of_ne page]
      exact elsewhere (.inl page)

theorem Inv.updateAll (inv : Inv s) (ok : Exclusive s (.page (.updateAll me)))
    (move : step s (.page (.updateAll me)) = some s') : Inv s' ∧ s'.content = s.content := by
  obtain ⟨moved, gives⟩ := step_page move
  have pages := inv.pages.step ok.1 moved
  obtain ⟨outside, after⟩ := guarded (accessStep_of_ne moved nofun).1
  have none := ok.2
  have committing : s'.pages.committing = s.pages.committing := by rw [← after]
  have memory : s'.pages.memory = s.pages.memory.updateAll me := by rw [← after]
  have shared : s'.pages.memory.persistent = s.pages.memory.persistent := by rw [memory]; rfl
  have others : ∀ other, other ≠ me →
      s'.pages.memory.process other = s.pages.memory.process other := by
    intro other elsewhere
    rw [memory]
    exact Memory.modify_process_of_ne elsewhere
  refine ⟨inv.local pages committing outside gives shared others ?_,
    content_congr (holder_of_same committing gives) shared fun other p' offset held => ?_⟩
  · -- the list is empty, and the process holds nothing
    rw [memory, Memory.updateAll, Memory.modify_process_self]
    exact ⟨List.nodup_nil, fun _ member => absurd member List.not_mem_nil,
      fun _ _ _ _ member => absurd member List.not_mem_nil,
      fun p offset held => absurd held (none p offset)⟩
  · have elsewhere : other ≠ me := fun same => none p' offset (same ▸ held)
    rw [Memory.view, Memory.view, others other elsewhere, shared]

/-- The access of a commit that carries the page of an entry over. -/
theorem Inv.carryOver (inv : Inv s) {position : ℕ} {pos : VisitPos}
    (pages : MergeState s'.pages) (at_position : s.pages.committing = some (me, position))
    (found : (s.pages.memory.process me).dirtiedPagesList[position]? = some entry)
    (pending : entry.committed = false)
    (marked : (s.pages.memory.commitAccess me entry pos).2.1 = { entry with committed := true })
    (exact_ : ExactMerge s.pages.memory (s.pages.memory.commitAccess me entry pos).1.persistent me
      entry)
    (after : s'.pages = accessed s.pages me position entry pos) (held : s'.holder = s.holder) :
    Inv s' ∧ s'.content = s.content := by
  have member := List.mem_of_getElem? found
  have carries := inv.carries exact_ member pending
  have elsewhere := exact_.elsewhere
  have shared : s'.pages.memory.persistent =
      (s.pages.memory.commitAccess me entry pos).1.persistent := by rw [after]; rfl
  have kept : ∀ other, other ≠ me →
      (s'.pages.memory.process other) =
        (s.pages.memory.commitAccess me entry pos).1.process other := by
    intro other apart
    simp only [after, accessed, Memory.accessed]
    exact Memory.modify_process_of_ne apart
  have mine : s'.pages.memory.process me =
      { (s.pages.memory.commitAccess me entry pos).1.process me with
        dirtiedPagesList := (s.pages.memory.process me).dirtiedPagesList.set position
          { entry with committed := true } } := by
    simp only [after, accessed, Memory.accessed, marked, Memory.modify_process_self,
      Memory.commitAccess_dirtiedPagesList]
  -- a byte of another process is the same in the shared page
  have foreign : ∀ other, other ≠ me → ∀ p offset, s.holder p offset = some other →
      s'.pages.memory.persistent p offset = s.pages.memory.persistent p offset := by
    intro other apart p offset holds
    rw [shared]
    by_cases page : p = entry.pageNo
    · subst page
      obtain ⟨same, -⟩ | ⟨holds', -⟩ := carries offset
      · exact same
      · exact absurd (Option.some.inj (holds.symm.trans holds')) apart
    · rw [elsewhere p page]
  refine ⟨⟨pages, fun other => ?_, fun other position' at_position' => ?_⟩, ?_⟩
  · rw [held]
    by_cases here : other = me
    · subst here
      have before := (inv.uses other).commit found carries elsewhere
      rw [shared, mine]
      exact before.frame (fun _ _ => .rfl) (fun _ _ _ => rfl) rfl commitAccess_copies.1
        commitAccess_copies.2
    · rw [kept other here]
      exact (inv.uses other).frame (fun _ _ => .rfl) (foreign other here)
        (Memory.commitAccess_dirtiedPagesList ..) commitAccess_copies.1 commitAccess_copies.2
  · -- what the iterator has passed is as it was
    have same : s'.pages.committing = some (me, position) := by rw [after]; exact at_position
    obtain ⟨rfl, rfl⟩ := Prod.mk.inj (Option.some.inj (same.symm.trans at_position'))
    intro i passed e at_i
    rw [mine] at at_i
    change ((s.pages.memory.process me).dirtiedPagesList.set position _)[i]? = some e at at_i
    rw [List.getElem?_set_ne (by omega)] at at_i
    exact inv.passed me position at_position i passed e at_i
  · funext p offset
    cases user : s.holder p offset with
    | none =>
      rw [content_of_free user, content_of_free (held ▸ user), shared]
      by_cases page : p = entry.pageNo
      · subst page
        obtain ⟨same, -⟩ | ⟨holds, -⟩ := carries offset
        · exact same
        · rw [user] at holds
          cases holds
      · rw [elsewhere p page]
    | some other =>
      rw [content_of_held user, content_of_held (held ▸ user)]
      by_cases here : other = me
      · subst here
        have copies : (s'.pages.memory.process other).transient =
            (s.pages.memory.process other).transient := by
          rw [mine]
          exact commitAccess_copies.1
        rw [Memory.view, Memory.view, copies, shared]
        cases copy : (s.pages.memory.process other).transient p with
        | some page => rfl
        | none =>
          by_cases page : p = entry.pageNo
          · subst page
            obtain ⟨same, -⟩ | ⟨-, page, found', -⟩ := carries offset
            · exact same
            · rw [copy] at found'
              cases found'
          · exact congrFun (elsewhere p page) offset
      · rw [Memory.view, Memory.view, kept other here, commitAccess_copies.1]
        cases (s.pages.memory.process other).transient p with
        | some page => rfl
        | none => exact foreign other here p offset user

/-- The other accesses of a commit change neither pages nor lists. -/
theorem Inv.access (inv : Inv s) {position : ℕ} {pos : VisitPos}
    (pages : MergeState s'.pages) (at_position : s.pages.committing = some (me, position))
    (found : (s.pages.memory.process me).dirtiedPagesList[position]? = some entry)
    (same : (s.pages.memory.commitAccess me entry pos).2.1 = entry)
    (shared : (s.pages.memory.commitAccess me entry pos).1.persistent =
      s.pages.memory.persistent)
    (after : s'.pages = accessed s.pages me position entry pos)
    (gives : s'.holder = giveBack s.holder (ended s.pages s'.pages)) :
    Inv s' ∧ s'.content = s.content := by
  have committing : s'.pages.committing = s.pages.committing := by rw [after]; rfl
  have shared' : s'.pages.memory.persistent = s.pages.memory.persistent := by
    rw [after]
    exact shared
  have process : ∀ other,
      (s'.pages.memory.process other).dirtiedPagesList =
          (s.pages.memory.process other).dirtiedPagesList ∧
        (s'.pages.memory.process other).transient = (s.pages.memory.process other).transient ∧
        (s'.pages.memory.process other).written = (s.pages.memory.process other).written := by
    intro other
    have list := Memory.commitAccess_dirtiedPagesList s.pages.memory me entry pos other
    simp only [after, accessed, Memory.accessed, same]
    by_cases here : other = me
    · subst here
      rw [Memory.modify_process_self]
      refine ⟨?_, commitAccess_copies⟩
      show ((s.pages.memory.commitAccess other entry pos).1.process other).dirtiedPagesList.set
        position entry = _
      obtain ⟨inside, here⟩ := List.getElem?_eq_some_iff.mp found
      rw [list, ← here]
      exact List.set_getElem_self inside
    · rw [Memory.modify_process_of_ne here]
      exact ⟨list, commitAccess_copies⟩
  exact ⟨inv.quiet pages committing gives shared' process,
    content_congr (holder_of_same committing gives) shared' fun me p offset _ =>
      congrFun (congrFun (view_congr shared' (process me).2.1) p) offset⟩

/-- The end of a commit: the process gives back bytes that everybody can see. -/
theorem Inv.commitEnd (inv : Inv s) {position : ℕ} (pages : MergeState s'.pages)
    (at_position : s.pages.committing = some (me, position))
    (found : (s.pages.memory.process me).dirtiedPagesList[position]? = none)
    (after : s'.pages = { s.pages with committing := none })
    (gives : s'.holder = giveBack s.holder (ended s.pages s'.pages)) :
    Inv s' ∧ s'.content = s.content := by
  have given : ended s.pages s'.pages = some me := by
    rw [ended, after, if_pos rfl, at_position]
    rfl
  rw [given] at gives
  have memory : s'.pages.memory = s.pages.memory := by rw [after]
  have rest : ∀ p offset, s.holder p offset ≠ some me → s'.holder p offset = s.holder p offset := by
    intro p offset other
    rw [gives, giveBack, if_neg other]
  have gone : ∀ p offset, s.holder p offset = some me → s'.holder p offset = none := by
    intro p offset mine
    rw [gives, giveBack, if_pos mine]
  -- all entries have been passed
  have all : ∀ entry ∈ (s.pages.memory.process me).dirtiedPagesList, entry.committed = true := by
    intro entry member
    obtain ⟨i, at_i⟩ := List.mem_iff_getElem?.mp member
    have inside := (List.getElem?_eq_some_iff.mp at_i).1
    have outside := List.getElem?_eq_none_iff.mp found
    exact inv.passed me position at_position i (by omega) entry at_i
  refine ⟨⟨pages, fun other => ?_, fun other position' at_position' => ?_⟩, ?_⟩
  · rw [memory]
    by_cases here : other = me
    · subst here
      have uses := inv.uses other
      refine ⟨uses.once, ?_, ?_, ?_⟩
      · intro entry member pending
        exact absurd ((all entry member).symm.trans pending) (by simp)
      · intro p offset holds entry member _ pending
        exact absurd ((all entry member).symm.trans pending) (by simp)
      · intro p offset holds
        by_cases mine : s.holder p offset = some other
        · rw [gone p offset mine] at holds
          cases holds
        · exact absurd ((rest p offset mine).symm.trans holds) mine
    · refine (inv.uses other).frame (fun p offset => ?_) (fun _ _ _ => rfl) rfl rfl rfl
      by_cases mine : s.holder p offset = some me
      · rw [gone p offset mine, mine]
        exact iff_of_false (by simp) fun same => here (Option.some.inj same).symm
      · rw [rest p offset mine]
  · rw [after] at at_position'
    cases at_position'
  · funext p offset
    by_cases mine : s.holder p offset = some me
    · rw [content_of_free (gone p offset mine), content_of_held mine, memory, Memory.view]
      cases copy : (s.pages.memory.process me).transient p with
      | none => rfl
      | some page =>
        exact ((inv.uses me).settled p offset mine (fun entry member _ => all entry member) page
          copy).symm
    · have same := rest p offset mine
      cases user : s.holder p offset with
      | none => rw [content_of_free user, content_of_free (same.trans user), memory]
      | some other => rw [content_of_held user, content_of_held (same.trans user), memory]

/-- The iterator stays, and so do pages and lists. -/
theorem Inv.still (inv : Inv s) (pages : MergeState s'.pages)
    (committing : s'.pages.committing = s.pages.committing)
    (memory : s'.pages.memory = s.pages.memory)
    (gives : s'.holder = giveBack s.holder (ended s.pages s'.pages)) :
    Inv s' ∧ s'.content = s.content :=
  ⟨inv.quiet pages committing gives (by rw [memory]) fun _ => by rw [memory]; exact ⟨rfl, rfl, rfl⟩,
    content_congr (holder_of_same committing gives) (by rw [memory]) fun _ _ _ _ => by rw [memory]⟩

/-- An iteration has ended: its entry is marked. -/
theorem Inv.pass (inv : Inv s) {position : ℕ} (pages : MergeState s'.pages)
    (at_position : s.pages.committing = some (me, position))
    (found : (s.pages.memory.process me).dirtiedPagesList[position]? = some entry)
    (committed : entry.committed = true) (memory : s'.pages.memory = s.pages.memory)
    (next : s'.pages.committing = some (me, position + 1))
    (gives : s'.holder = giveBack s.holder (ended s.pages s'.pages)) :
    Inv s' ∧ s'.content = s.content := by
  have held : s'.holder = s.holder := by
    have going : ended s.pages s'.pages = none := by
      rw [ended, next]
      exact if_neg (Option.some_ne_none _)
    rw [gives, going, giveBack_none]
  refine ⟨⟨pages, fun other => ?_, fun other position' at_position' => ?_⟩,
    content_congr held (by rw [memory]) fun _ _ _ _ => by rw [memory]⟩
  · rw [memory, held]
    exact inv.uses other
  · obtain ⟨rfl, rfl⟩ := Prod.mk.inj (Option.some.inj (next.symm.trans at_position'))
    intro i passed e at_i
    rw [memory] at at_i
    by_cases same : i = position
    · subst same
      obtain rfl := Option.some.inj (found.symm.trans at_i)
      exact committed
    · exact inv.passed me position at_position i (by omega) e at_i

/-- What a commit does next. -/
theorem Inv.commit (inv : Inv s) (ok : Exclusive s (.page .commitPage))
    (move : step s (.page .commitPage) = some s') : Inv s' ∧ s'.content = s.content := by
  obtain ⟨moved, gives⟩ := step_page move
  have pages := inv.pages.step ok.1 moved
  obtain ⟨me, position, at_position, moves⟩ := accessStep_commitPage moved
  generalize after : s'.pages = pages' at moves
  cases moves with
  | ended found => exact inv.commitEnd pages at_position found after gives
  | begun entry found idle =>
    exact inv.still pages (by rw [after]) (by rw [after]) gives
  | accessed entry pos found access goes =>
    have visit : s.pages.visit = some (entry, pos) := by
      rw [visit_eq at_position found, access]
      rfl
    have held : s'.holder = s.holder :=
      holder_of_same (by rw [after]; rfl) gives
    obtain ⟨history, merges⟩ := inv.pages.merges
    rcases commitAccess_entry pos merges (List.mem_of_getElem? found) with
      ⟨same, shared⟩ | ⟨marked, carries⟩
    · exact inv.access pages at_position found same shared after gives
    · have at_ := inv.pages.at_ entry pos visit
      have exact_ := inv.pages.mergesExactly me position entry s'.pages at_position found moved
      rw [access] at exact_
      obtain rfl | ⟨index, rfl⟩ := carries
      · rw [after] at exact_
        exact inv.carryOver pages at_position found at_.1 marked exact_ after held
      · rw [after] at exact_
        exact inv.carryOver pages at_position found at_.1 marked exact_ after held
  | passed entry found done =>
    have visit : s.pages.visit = some (entry, .done) := by
      rw [visit_eq at_position found, done]
      rfl
    exact inv.pass pages at_position found (inv.pages.at_ entry .done visit) (by rw [after])
      (by rw [after]) gives

/-- A process takes a byte that is free, and reads what everybody reads. -/
theorem Inv.take (inv : Inv s) (move : step s (.take me p offset) = some s') :
    Inv s' ∧ s'.content = s.content := by
  obtain ⟨⟨free, fresh⟩, rfl⟩ := guarded move
  have taken : ∀ p' offset', (p' ≠ p ∨ offset' ≠ offset) →
      Function.update s.holder p (Function.update (s.holder p) offset (some me)) p' offset' =
        s.holder p' offset' := by
    intro p' offset' other
    by_cases page : p' = p
    · subst page
      rw [Function.update_self,
        Function.update_of_ne (other.resolve_left (not_not.mpr rfl))]
    · rw [Function.update_of_ne page]
  have here : Function.update s.holder p (Function.update (s.holder p) offset (some me)) p offset =
      some me := by rw [Function.update_self, Function.update_self]
  refine ⟨⟨inv.pages, fun other => ?_, inv.passed⟩, ?_⟩
  · have uses := inv.uses other
    refine ⟨uses.once, ?_, ?_, ?_⟩
    · intro entry member pending offset' stored
      have mine := uses.mine entry member pending offset' stored
      refine (taken _ _ ?_).trans mine
      by_contra both
      obtain ⟨rfl, rfl⟩ := not_or.mp both |>.imp not_not.mp not_not.mp
      rw [free] at mine
      cases mine
    · intro p' offset' holds entry member page pending copy
      by_cases same : p' ≠ p ∨ offset' ≠ offset
      · exact uses.base p' offset' ((taken p' offset' same).symm.trans holds) entry member page
          pending copy
      · obtain ⟨rfl, rfl⟩ := not_or.mp same |>.imp not_not.mp not_not.mp
        obtain rfl := Option.some.inj (here.symm.trans holds)
        exact absurd fresh copy
    · intro p' offset' holds all copy found
      by_cases same : p' ≠ p ∨ offset' ≠ offset
      · exact uses.settled p' offset' ((taken p' offset' same).symm.trans holds) all copy found
      · obtain ⟨rfl, rfl⟩ := not_or.mp same |>.imp not_not.mp not_not.mp
        obtain rfl := Option.some.inj (here.symm.trans holds)
        rw [fresh] at found
        cases found
  · funext p' offset'
    by_cases same : p' ≠ p ∨ offset' ≠ offset
    · have kept := taken p' offset' same
      cases user : s.holder p' offset' with
      | none => rw [content_of_free user, content_of_free (kept.trans user)]
      | some other => rw [content_of_held user, content_of_held (kept.trans user)]
    · obtain ⟨rfl, rfl⟩ := not_or.mp same |>.imp not_not.mp not_not.mp
      rw [content_of_free free, content_of_held here, Memory.view, fresh]
      rfl

/-- **One step.** It stores the byte that it shows, and otherwise nobody sees it. -/
theorem Inv.step {label : Label} (inv : Inv s) (ok : Exclusive s label)
    (move : step s label = some s') :
    Inv s' ∧ s'.content = (shows label).elim s.content fun store => store.apply s.content := by
  cases label with
  | take me p offset => exact inv.take move
  | page label =>
    obtain ⟨moved, gives⟩ := step_page move
    have pages := inv.pages.step ok.1 moved
    by_cases commit : label = .commitPage
    · subst commit
      exact inv.commit ok move
    · have plain := (accessStep_of_ne moved commit).1
      have access := (accessStep_of_ne moved commit).2
      -- what neither moves the iterator nor changes bytes, entries or copies
      have quiet : ∀ memory : Memory, s'.pages.toState = { s.pages.toState with memory := memory } →
          memory.persistent = s.pages.memory.persistent →
          (∀ me, (memory.process me).dirtiedPagesList =
              (s.pages.memory.process me).dirtiedPagesList ∧
            (memory.process me).transient = (s.pages.memory.process me).transient ∧
            (memory.process me).written = (s.pages.memory.process me).written) →
          Inv s' ∧ s'.content = s.content := by
        intro memory after shared same
        have committing := congrArg PageSystem.State.committing after
        have memory' := congrArg PageSystem.State.memory after
        change s'.pages.committing = s.pages.committing at committing
        change s'.pages.memory = memory at memory'
        subst memory'
        exact ⟨inv.quiet pages committing gives shared same,
          content_congr (holder_of_same committing gives) shared fun me p offset _ =>
            congrFun (congrFun (view_congr shared (same me).2.1) p) offset⟩
      cases label with
      | readFault me p =>
        obtain ⟨-, after⟩ := guarded plain
        refine quiet _ after.symm rfl fun other => ?_
        by_cases here : other = me
        · subst here
          rw [Memory.handleRead, Memory.modify_process_self]
          exact ⟨rfl, rfl, rfl⟩
        · rw [Memory.handleRead, Memory.modify_process_of_ne here]
          exact ⟨rfl, rfl, rfl⟩
      | writeFault me p => exact inv.writeFault ok move
      | takeUnowned me p =>
        obtain ⟨-, after⟩ := guarded plain
        exact quiet _ after.symm Memory.setSharedPage_persistent fun _ => process_setSharedPage
      | store me p offset value => exact inv.store ok move
      | setSyncEntry me o entry => exact ok.1.1.elim
      | clearSyncEntry me o => exact ok.1.1.elim
      | setOwnedPage me p => exact ok.1.1.elim
      | commitOwnedPage me p setShared => exact ok.1.1.elim
      | checkandcommit me =>
        obtain ⟨idle, after⟩ := guarded plain
        have none : ended s.pages s'.pages = none := by
          rw [ended, idle]
          exact ite_self _
        rw [none, giveBack_none] at gives
        have memory : s'.pages.memory = s.pages.memory :=
          (congrArg PageSystem.State.memory after).symm
        refine ⟨⟨pages, fun other => ?_, fun other position at_position => ?_⟩,
          content_congr gives (by rw [memory]) fun _ _ _ _ => by rw [memory]⟩
        · rw [memory, gives]
          exact inv.uses other
        · rw [← after] at at_position
          obtain ⟨rfl, rfl⟩ := Prod.mk.inj (Option.some.inj at_position)
          exact fun i before => absurd before (Nat.not_lt_zero i)
      | commitPage => exact absurd rfl commit
      | updateAll me => exact inv.updateAll ok move
      | cleanup =>
        have after := Option.some.inj plain
        exact quiet _ after.symm rfl fun _ => ⟨rfl, rfl, rfl⟩

theorem initial_inv (content : PageId → Page) (allocated : ℕ) :
    Inv (initial content allocated) where
  pages := initial_mergeState content allocated
  uses _ :=
    { once := List.nodup_nil
      mine := fun _ member => absurd member List.not_mem_nil
      base := fun _ _ held => absurd held (Option.some_ne_none _).symm
      settled := fun _ _ held => absurd held (Option.some_ne_none _).symm }
  passed _ _ at_position := by cases at_position

/-! ## Runs -/

/-- A test for the condition, for runs without refreshes and clean-ups. -/
def exclusive (s : State) : Label → Bool
  | .page label => mergesCleanly s.pages label &&
      match label with
      | .store me p offset _ => s.holder p offset == some me &&
          (s.pages.memory.process me).dirtiedPagesList.all fun entry =>
            entry.pageNo != p || !entry.committed
      | .updateAll _ => false
      | _ => true
  | .take _ _ _ => true

theorem exclusive_sound {label : Label} (passes : exclusive s label = true) :
    Exclusive s label := by
  cases label with
  | take => trivial
  | page label =>
    obtain ⟨clean, holds⟩ := Bool.and_eq_true_iff.mp passes
    refine ⟨mergesCleanly_sound clean, ?_⟩
    cases label with
    | store me p offset value =>
      simp only [Bool.and_eq_true, beq_iff_eq, List.all_eq_true, Bool.or_eq_true, bne_iff_ne,
        Bool.not_eq_true'] at holds
      exact ⟨holds.1, fun entry member here =>
        (holds.2 entry member).resolve_left (not_not.mpr here)⟩
    | updateAll => cases holds
    | _ => trivial

/-- Two processes store to neighbouring bytes, the second one while the first one commits. -/
def neighbours : List Label :=
  [.take 1 (globalsPage 0) 0, .take 2 (globalsPage 0) 1,
    .page (.writeFault 1 (globalsPage 0)), .page (.store 1 (globalsPage 0) 0 1),
    .page (.writeFault 2 (globalsPage 0)), .page (.checkandcommit 1), .page .commitPage,
    .page .commitPage, .page (.store 2 (globalsPage 0) 1 2)] ++
  List.replicate 17 (.page .commitPage) ++ [.page (.checkandcommit 2)] ++
  List.replicate 16 (.page .commitPage)

end Tthread.OneMemory
