/-
# A commit access by access

Commits hold each other off, but write faults, stores and clean-ups of other processes take no
lock: they come between any two accesses to shared memory that an iteration of the loop of
`checkandcommit` makes. A position says which access is the next one. With nothing in
between, the accesses of an iteration amount to `commitPage`. A `memcpy` is one access, and so
is the write of the differences.
-/

import Mathlib.Logic.Relation
import Tthread.PageSystem

open Transition

namespace Tthread

/-- The next access of an iteration of `checkandcommit`. -/
inductive VisitPos
  /-- `users > 1` -/
  | users
  /-- `bitmapIndex == 0` -/
  | bitmapIndex
  /-- `xbitmap::get`: the test -/
  | room
  /-- `index = *_cur` -/
  | take
  /-- `(*_cur)++` -/
  | advance (index : ℕ)
  | setIndex (index : ℕ)
  | copyTwin (index : ℕ)
  | setVersion (index : ℕ)
  /-- `users != 1` -/
  | sole
  | owner
  | version
  /-- the whole copy goes out -/
  | copy
  /-- the index of the twin is read -/
  | twin
  | share (index : ℕ)
  /-- the differences to the twin go out -/
  | diffs (index : ℕ)
  /-- `users == 1` -/
  | last
  | clear
  /-- `users--` reads -/
  | load
  /-- and writes -/
  | store (users : ℕ)
  | loadVersion
  | storeVersion (version : ℕ)
  | done
  deriving DecidableEq

/-- The twin has an index but is not written yet. -/
def VisitPos.making : VisitPos → Bool
  | .copyTwin _ | .setVersion _ => true
  | _ => false

/-- `xbitmap::get` has begun, and its index is not stored yet. -/
def VisitPos.allocating : VisitPos → Bool
  | .take | .advance _ | .setIndex _ => true
  | _ => false

/-- The differences to the twin are to go out. -/
def VisitPos.slow : VisitPos → Bool
  | .twin | .share _ | .diffs _ => true
  | _ => false

/-- The index of the twin, once it is read. -/
def VisitPos.twinIndex : VisitPos → Option ℕ
  | .share index | .diffs index => some index
  | _ => none

/-- The page has been carried over, and its version not yet counted up. -/
def VisitPos.carried : VisitPos → Bool
  | .last | .clear | .load | .store _ | .loadVersion | .storeVersion _ => true
  | _ => false

/-- The access takes a user away. -/
def VisitPos.releases : VisitPos → Bool
  | .store _ => true
  | _ => false

/-- The page has one user less than when the iteration began. -/
def VisitPos.released : VisitPos → Bool
  | .loadVersion | .storeVersion _ | .done => true
  | _ => false

/-- The page has been carried over, and its users are not counted down yet. -/
def VisitPos.owes : VisitPos → Bool
  | .last | .clear | .load | .store _ => true
  | _ => false

/-- The iteration has yet to see whether the page needs a twin or is about to make it, or is
through. -/
def VisitPos.ahead : VisitPos → Bool
  | .users | .bitmapIndex | .room | .take | .advance _ | .setIndex _ | .done => true
  | _ => false

/-- The iteration goes on with what it has read of the users. -/
def VisitPos.counting : VisitPos → Bool
  | .clear | .store _ => true
  | _ => false

namespace Memory

def setUsers (m : Memory) (p : PageId) (users : ℕ) : Memory :=
  { m with pageUsers := Function.update m.pageUsers p { m.pageUsers p with users := users } }

/-- An unsigned short. -/
def setBitmapIndex (m : Memory) (p : PageId) (index : ℕ) : Memory :=
  { m with
    pageUsers := Function.update m.pageUsers p
      { m.pageUsers p with bitmapIndex := index % 2 ^ 16 } }

/-- One access, with what becomes of the entry and the next position. -/
def commitAccess (m : Memory) (me : ℕ) (entry : Xpageinfo) :
    VisitPos → Memory × Xpageinfo × VisitPos
  | .users => (m, entry, if 1 < (m.pageUsers entry.pageNo).users then .bitmapIndex else .sole)
  | .bitmapIndex =>
      (m, entry, if (m.pageUsers entry.pageNo).bitmapIndex = 0 then .room else .sole)
  -- `createTwinPage`; where the storage is full the index is 0
  | .room => (m, entry, if m.bitmap.cur + 1 < Xbitmap.total then .take else .setIndex 0)
  | .take => (m, entry, .advance m.bitmap.cur)
  | .advance index =>
      ({ m with bitmap := { m.bitmap with cur := m.bitmap.cur + 1 } }, entry, .setIndex index)
  | .setIndex index => (m.setBitmapIndex entry.pageNo index, entry, .copyTwin index)
  | .copyTwin index =>
      ({ m with bitmap := m.bitmap.setPage index (m.persistent entry.pageNo) }, entry,
        .setVersion index)
  | .setVersion index =>
      ({ m with bitmap := m.bitmap.setVersion index (m.versions entry.pageNo) }, entry, .sole)
  -- a page that the process owns by itself stays as it is
  | .sole =>
      if (m.pageUsers entry.pageNo).users ≠ 1 then (m, { entry with release := true }, .version)
      else (m, entry, .owner)
  | .owner =>
      if m.pageOwner entry.pageNo ≠ .process me then
        (m, { entry with release := true }, .version)
      else (m, { entry with release := false }, .done)
  -- `memcpy`, or the slow commit by way of the twin
  | .version =>
      (m, entry, if entry.version = m.versions entry.pageNo then .copy else .twin)
  | .copy =>
      (m.setPersistent entry.pageNo (m.view me entry.pageNo), { entry with committed := true },
        .last)
  | .twin => (m, entry, .share (m.pageUsers entry.pageNo).bitmapIndex)
  | .share index => (m.setSharedPage me entry.pageNo, entry, .diffs index)
  | .diffs index =>
      (m.setPersistent entry.pageNo
        (PageDiffs.writePageDiffs (m.view me entry.pageNo) (m.bitmap.page index)
          (m.persistent entry.pageNo)), { entry with committed := true }, .last)
  -- the only user gives the twin back
  | .last => (m, entry, if (m.pageUsers entry.pageNo).users = 1 then .clear else .load)
  | .clear => (m.setBitmapIndex entry.pageNo 0, entry, .load)
  -- neither the decrement of the users nor that of the version is atomic
  | .load => (m, entry, .store (m.pageUsers entry.pageNo).users)
  | .store users =>
      (m.setUsers entry.pageNo ((users + (2 ^ 16 - 1)) % 2 ^ 16), entry, .loadVersion)
  | .loadVersion => (m, entry, .storeVersion (m.versions entry.pageNo))
  | .storeVersion version =>
      ({ m with
        versions := Function.update m.versions entry.pageNo ((version + 1) % 2 ^ 64) }, entry,
        .done)
  | .done => (m, entry, .done)

/-- The entry that is visited changes apart from the lists. -/
theorem commitAccess_dirtiedPagesList (m : Memory) (me : ℕ) (entry : Xpageinfo) (pos : VisitPos)
    (other : ℕ) :
    ((m.commitAccess me entry pos).1.process other).dirtiedPagesList =
      (m.process other).dirtiedPagesList := by
  cases pos with
  | share index => exact setSharedPage_dirtiedPagesList
  | sole | owner =>
    simp only [commitAccess]
    split <;> rfl
  | _ => rfl

/-- It stays the entry of the same page. -/
theorem commitAccess_pageNo (m : Memory) (me : ℕ) (entry : Xpageinfo) (pos : VisitPos) :
    (m.commitAccess me entry pos).2.1.pageNo = entry.pageNo := by
  cases pos with
  | sole | owner =>
    simp only [commitAccess]
    split <;> rfl
  | _ => rfl

/-! ## Iterations under way -/

/-- An access of the process whose iterator is at the position: the entry on its list changes. -/
def accessed (m : Memory) (me position : ℕ) (entry : Xpageinfo) (pos : VisitPos) : Memory :=
  (m.commitAccess me entry pos).1.modify me fun q =>
    { q with
      dirtiedPagesList := q.dirtiedPagesList.set position (m.commitAccess me entry pos).2.1 }

/-- The entry of the iteration under way, and where it is. -/
def visit (m : Memory) : Option (ℕ × ℕ) → Option VisitPos → Option (Xpageinfo × VisitPos)
  | some (me, position), some pos =>
      (m.process me).dirtiedPagesList[position]?.map fun entry => (entry, pos)
  | _, _ => none

section

variable {m m' : Memory} {me position : ℕ} {entry : Xpageinfo} {pos : VisitPos}
  {committing : Option (ℕ × ℕ)} {access : Option VisitPos}

theorem accessed_found (found : (m.process me).dirtiedPagesList[position]? = some entry) :
    ((m.accessed me position entry pos).process me).dirtiedPagesList[position]? =
      some (m.commitAccess me entry pos).2.1 := by
  have inside : position < (m.process me).dirtiedPagesList.length :=
    (List.getElem?_eq_some_iff.mp found).1
  rw [accessed, modify_process_self, commitAccess_dirtiedPagesList]
  exact List.getElem?_set_self inside

theorem visit_eq (found : (m.process me).dirtiedPagesList[position]? = some entry) :
    m.visit (some (me, position)) access = access.map fun pos => (entry, pos) := by
  cases access <;> simp [visit, found]

@[simp] theorem visit_idle : m.visit none access = none := rfl

@[simp] theorem visit_between : m.visit committing none = none := by
  cases committing <;> rfl

theorem visit_of_ended (found : (m.process me).dirtiedPagesList[position]? = none) :
    m.visit (some (me, position)) access = none := by
  cases access <;> simp [visit, found]

theorem visit_some (visiting : m.visit committing access = some (entry, pos)) :
    ∃ me position, committing = some (me, position) ∧
      (m.process me).dirtiedPagesList[position]? = some entry ∧ access = some pos := by
  cases committing with
  | none => simp [visit] at visiting
  | some it =>
    cases access with
    | none => simp [visit] at visiting
    | some pos' =>
      obtain ⟨entry', found, same⟩ := Option.map_eq_some_iff.mp visiting
      obtain ⟨rfl, rfl⟩ := Prod.mk.inj same
      exact ⟨it.1, it.2, rfl, found, rfl⟩

/-- Only the entry that the iterator is at matters. -/
theorem visit_congr (same : ∀ me position, committing = some (me, position) →
    (m'.process me).dirtiedPagesList = (m.process me).dirtiedPagesList) :
    m'.visit committing access = m.visit committing access := by
  cases committing with
  | none => rfl
  | some it =>
    cases access with
    | none => rfl
    | some pos => simp only [visit, same it.1 it.2 rfl]

end

/-! ## With nothing in between -/

/-- Accesses one after the other. -/
def Accesses (me : ℕ) : Memory × Xpageinfo × VisitPos → Memory × Xpageinfo × VisitPos → Prop :=
  Relation.ReflTransGen fun a b => a.1.commitAccess me a.2.1 a.2.2 = b

variable {m m' : Memory} {me : ℕ} {entry entry' : Xpageinfo} {pos pos' : VisitPos}
  {last : Memory × Xpageinfo × VisitPos}

theorem Accesses.head (pos' : VisitPos)
    (first : m.commitAccess me entry pos = (m', entry', pos'))
    (rest : Accesses me (m', entry', pos') last) : Accesses me (m, entry, pos) last :=
  Relation.ReflTransGen.head first rest

theorem accesses_withTwin :
    Accesses me (m, entry, .users) (m.withTwin entry.pageNo, entry, .sole) := by
  by_cases several : 1 < (m.pageUsers entry.pageNo).users
  · refine .head .bitmapIndex (by rw [commitAccess, if_pos several]) ?_
    by_cases none : (m.pageUsers entry.pageNo).bitmapIndex = 0
    · refine .head .room (by rw [commitAccess, if_pos none]) ?_
      have made : m.withTwin entry.pageNo = m.createTwinPage entry.pageNo := if_pos ⟨several, none⟩
      rw [made]
      by_cases room : m.bitmap.cur + 1 < Xbitmap.total
      · refine .head .take (by rw [commitAccess, if_pos room]) ?_
        refine .head _ rfl (.head _ rfl (.head _ rfl (.head _ rfl (.head _ rfl ?_))))
        simp only [createTwinPage, Xbitmap.get, if_pos room]
        exact .refl
      · refine .head (.setIndex 0) (by rw [commitAccess, if_neg room]) ?_
        refine .head _ rfl (.head _ rfl (.head _ rfl ?_))
        simp only [createTwinPage, Xbitmap.get, if_neg room]
        exact .refl
    · refine .head .sole (by rw [commitAccess, if_neg none]) ?_
      rw [withTwin, if_neg fun needs => none needs.2]
      exact .refl
  · refine .head .sole (by rw [commitAccess, if_neg several]) ?_
    rw [withTwin, if_neg fun needs => several needs.1]
    exact .refl

theorem accesses_copyOut :
    Accesses me (m, entry, .version)
    (m.copyOut me entry, { entry with committed := true }, .last) := by
  by_cases current : entry.version = m.versions entry.pageNo
  · refine .head .copy (by rw [commitAccess, if_pos current]) (.head _ rfl ?_)
    rw [copyOut, if_pos current]
    exact .refl
  · refine .head .twin (by rw [commitAccess, if_neg current]) ?_
    refine .head _ rfl (.head _ rfl (.head _ rfl ?_))
    rw [copyOut, if_neg current, setSharedPage_bitmap]
    exact .refl

theorem accesses_finishCommit :
    Accesses me (m, entry, .last) (m.finishCommit entry.pageNo, entry, .done) := by
  by_cases sole : (m.pageUsers entry.pageNo).users = 1
  · refine .head .clear (by rw [commitAccess, if_pos sole]) ?_
    refine .head _ rfl (.head _ rfl (.head _ rfl (.head _ rfl (.head _ rfl ?_))))
    simp [finishCommit, Shareinfo.release, incrementVersion, setBitmapIndex, setUsers, sole]
    exact .refl
  · refine .head .load (by rw [commitAccess, if_neg sole]) ?_
    refine .head _ rfl (.head _ rfl (.head _ rfl (.head _ rfl ?_)))
    simp only [finishCommit, Shareinfo.release, if_neg sole]
    exact .refl

/-- The accesses of an iteration amount to the body of the loop. -/
theorem accesses_commitPage :
    Accesses me (m, entry, .users)
    ((m.commitPage me entry).1, (m.commitPage me entry).2, .done) := by
  refine accesses_withTwin.trans ?_
  simp only [commitPage]
  by_cases several : ((m.withTwin entry.pageNo).pageUsers entry.pageNo).users ≠ 1
  · rw [if_pos (.inl several)]
    refine .head (by rw [commitAccess, if_pos several]) (accesses_copyOut.trans ?_)
    exact accesses_finishCommit
  · refine .head (by rw [commitAccess, if_neg several]) ?_
    by_cases unowned : (m.withTwin entry.pageNo).pageOwner entry.pageNo ≠ .process me
    · rw [if_pos (.inr unowned)]
      refine .head (by rw [commitAccess, if_pos unowned]) (accesses_copyOut.trans ?_)
      exact accesses_finishCommit
    · rw [if_neg (not_or.mpr ⟨several, unowned⟩)]
      refine .head (by rw [commitAccess, if_neg unowned]) .refl

end Memory

namespace PageSystem

/-- Processes on shared pages, with the access that the process in `checkandcommit` makes next,
if it is inside an iteration. -/
structure AccessState extends State where
  access : Option VisitPos

/-- Ghost: the content of a twin is the page as it is copied. -/
def twinContentAfter (m : Memory) (content : PageId → Page) (p : PageId) :
    VisitPos → PageId → Page
  | .copyTwin _ => Function.update content p (m.persistent p)
  | _ => content

/-- The next access of an iteration. -/
def accessed (s : AccessState) (me position : ℕ) (entry : Xpageinfo) (pos : VisitPos) :
    AccessState :=
  { s with
    memory := s.memory.accessed me position entry pos
    access := some (s.memory.commitAccess me entry pos).2.2
    twinContent := twinContentAfter s.memory s.twinContent entry.pageNo pos }

/-- An iteration begins, makes an access or ends. -/
def visitStep (s : AccessState) (me position : ℕ) (entry : Xpageinfo) :
    Option VisitPos → AccessState
  | none => { s with access := some .users }
  | some .done => { s with committing := some (me, position + 1), access := none }
  | some pos => accessed s me position entry pos

/-- A commit begins with no iteration under way. -/
def accessAfter (access : Option VisitPos) : Label → Option VisitPos
  | .checkandcommit _ => none
  | _ => access

/-- The label of a commit stands for one access; the others are as before. -/
def accessStep (s : AccessState) : Label → Option AccessState
  | .commitPage =>
      match s.committing with
      | some (me, position) =>
          match (s.memory.process me).dirtiedPagesList[position]? with
          | some entry => some (visitStep s me position entry s.access)
          | none => some { s with committing := none }
      | none => none
  | label => (step s.toState label).map fun s' => ⟨s', accessAfter s.access label⟩

def accessSystem : Transition.System AccessState Label where
  Init s := ∃ content allocated, s = ⟨initial content allocated, none⟩
  step := accessStep

/-- The entry of the iteration under way, and where it is. -/
def AccessState.visit (s : AccessState) : Option (Xpageinfo × VisitPos) :=
  s.memory.visit s.committing s.access

/-- The page that is newer than its version. -/
def AccessState.carried (s : AccessState) : Option PageId :=
  s.visit.bind fun visit => if visit.2.carried then some visit.1.pageNo else none

/-- The page whose twin has an index and is not written yet. -/
def AccessState.making (s : AccessState) : Option PageId :=
  s.visit.bind fun visit => if visit.2.making then some visit.1.pageNo else none

/-! ## Which step does what -/

variable {s s' : AccessState} {label : Label} {me position : ℕ} {entry : Xpageinfo}
  {pos : VisitPos}

theorem visit_eq (at_position : s.committing = some (me, position))
    (found : (s.memory.process me).dirtiedPagesList[position]? = some entry) :
    s.visit = s.access.map fun pos => (entry, pos) := by
  rw [AccessState.visit, at_position, Memory.visit_eq found]

theorem visit_of_ended (at_position : s.committing = some (me, position))
    (found : (s.memory.process me).dirtiedPagesList[position]? = none) : s.visit = none := by
  rw [AccessState.visit, at_position, Memory.visit_of_ended found]

/-- What a commit does next. -/
inductive CommitMove (s : AccessState) (me position : ℕ) : AccessState → Prop
  | ended (found : (s.memory.process me).dirtiedPagesList[position]? = none) :
      CommitMove s me position { s with committing := none }
  | begun (entry : Xpageinfo)
      (found : (s.memory.process me).dirtiedPagesList[position]? = some entry)
      (idle : s.access = none) : CommitMove s me position { s with access := some .users }
  | accessed (entry : Xpageinfo) (pos : VisitPos)
      (found : (s.memory.process me).dirtiedPagesList[position]? = some entry)
      (access : s.access = some pos) (goes : pos ≠ .done) :
      CommitMove s me position (accessed s me position entry pos)
  | passed (entry : Xpageinfo)
      (found : (s.memory.process me).dirtiedPagesList[position]? = some entry)
      (done : s.access = some .done) :
      CommitMove s me position { s with committing := some (me, position + 1), access := none }

theorem accessStep_commitPage (move : accessStep s .commitPage = some s') :
    ∃ me position, s.committing = some (me, position) ∧ CommitMove s me position s' := by
  simp only [accessStep] at move
  split at move
  · next me position at_position =>
    refine ⟨me, position, at_position, ?_⟩
    split at move
    · next entry found =>
      obtain rfl := Option.some.inj move
      cases access : s.access with
      | none => exact .begun entry found access
      | some pos =>
        cases pos with
        | done => exact .passed entry found access
        | _ => exact .accessed entry _ found access nofun
    · next found =>
      obtain rfl := Option.some.inj move
      exact .ended found
  · cases move

/-- The visit goes on with the next access. -/
theorem accessed_visit (pos : VisitPos) (at_position : s.committing = some (me, position))
    (found : (s.memory.process me).dirtiedPagesList[position]? = some entry) :
    (accessed s me position entry pos).visit =
      some ((s.memory.commitAccess me entry pos).2.1,
        (s.memory.commitAccess me entry pos).2.2) := by
  have going : (accessed s me position entry pos).committing = some (me, position) := at_position
  rw [visit_eq going (Memory.accessed_found found)]
  rfl

/-- The other steps are those of whole iterations. -/
theorem accessStep_of_ne (move : accessStep s label = some s') (other : label ≠ .commitPage) :
    step s.toState label = some s'.toState ∧ s'.access = accessAfter s.access label := by
  have same : accessStep s label =
      (step s.toState label).map fun s' => ⟨s', accessAfter s.access label⟩ := by
    cases label <;> first | rfl | contradiction
  rw [same] at move
  obtain ⟨t, moved, rfl⟩ := Option.map_eq_some_iff.mp move
  exact ⟨moved, rfl⟩

/-- Faults, stores and refreshes of other processes leave the list of a process in a commit. -/
theorem step_list {s s' : State} (move : step s label = some s') (other : label ≠ .commitPage)
    (at_position : s.committing = some (me, position)) :
    s'.committing = some (me, position) ∧
      (s'.memory.process me).dirtiedPagesList = (s.memory.process me).dirtiedPagesList := by
  have apart : ∀ me', s.Outside me' → me ≠ me' := fun me' outside same =>
    outside position (same ▸ at_position)
  cases label with
  | readFault me' p =>
    obtain ⟨-, rfl⟩ := guarded move
    exact ⟨at_position, Memory.handleRead_dirtiedPagesList⟩
  | writeFault me' p =>
    obtain ⟨⟨outside, -⟩, rfl⟩ := guarded move
    refine ⟨at_position, ?_⟩
    have opened : ((s.memory.openPage me' p).process me).dirtiedPagesList =
        (s.memory.process me).dirtiedPagesList := Memory.openPage_dirtiedPagesList
    show ((s.memory.handleWrite me' p).process me).dirtiedPagesList = _
    simp only [Memory.handleWrite]
    split
    · exact opened
    · rw [Memory.recordUser, Memory.modify_process_of_ne (apart me' outside)]
      exact opened
  | takeUnowned me' p =>
    obtain ⟨-, rfl⟩ := guarded move
    exact ⟨at_position, Memory.setSharedPage_dirtiedPagesList⟩
  | store me' p offset value =>
    obtain ⟨-, rfl⟩ := guarded move
    exact ⟨at_position, Memory.store_dirtiedPagesList⟩
  | setSyncEntry me' o value =>
    obtain ⟨-, rfl⟩ := guarded move
    exact ⟨at_position, setWord_dirtiedPagesList⟩
  | clearSyncEntry me' o =>
    obtain ⟨-, rfl⟩ := guarded move
    exact ⟨at_position, setWord_dirtiedPagesList⟩
  | setOwnedPage me' p =>
    obtain ⟨-, rfl⟩ := guarded move
    exact ⟨at_position, Memory.setOwnedPage_dirtiedPagesList⟩
  | commitOwnedPage me' p setShared =>
    obtain rfl := Option.some.inj move
    exact ⟨at_position, Memory.commitOwnedPage_dirtiedPagesList⟩
  | checkandcommit me' =>
    obtain ⟨idle, -⟩ := guarded move
    rw [idle] at at_position
    cases at_position
  | commitPage => exact absurd rfl other
  | updateAll me' =>
    obtain ⟨outside, rfl⟩ := guarded move
    refine ⟨at_position, ?_⟩
    show ((s.memory.updateAll me').process me).dirtiedPagesList = _
    rw [Memory.updateAll, Memory.modify_process_of_ne (apart me' outside)]
  | cleanup =>
    obtain rfl := Option.some.inj move
    exact ⟨at_position, rfl⟩

/-- Only the commit goes on with an iteration. -/
theorem accessStep_visit (move : accessStep s label = some s') (other : label ≠ .commitPage) :
    s'.visit = s.visit := by
  obtain ⟨moved, access⟩ := accessStep_of_ne move other
  cases committing : s.committing with
  | some it =>
    obtain ⟨me, position⟩ := it
    obtain ⟨at_position, list⟩ := step_list moved other committing
    have same : s'.access = s.access := by
      cases label with
      | checkandcommit me' =>
        obtain ⟨idle, -⟩ := guarded moved
        rw [idle] at committing
        cases committing
      | _ => exact access
    rw [AccessState.visit, AccessState.visit, at_position, committing, same]
    refine Memory.visit_congr fun me' position' here => ?_
    obtain ⟨rfl, rfl⟩ := Prod.mk.inj (Option.some.inj here)
    exact list
  | none =>
    have before : s.visit = none := by rw [AccessState.visit, committing, Memory.visit_idle]
    rw [before]
    cases label with
    | checkandcommit me =>
      have stopped : s'.access = none := access
      rw [AccessState.visit, stopped, Memory.visit_between]
    | commitPage => exact absurd rfl other
    | _ =>
      have idle : s'.committing = none := by
        first
          | (obtain ⟨-, after⟩ := guarded moved
             rw [← after]
             exact committing)
          | (obtain after := Option.some.inj moved
             rw [← after]
             exact committing)
      rw [AccessState.visit, idle, Memory.visit_idle]

end PageSystem

end Tthread
