/-
# Twins of slow commits

`checkandcommit` copies a page as a whole if the version is still the one of the entry, and else
carries the differences to the twin over, which had better exist. The version is old only once
somebody else has counted it up, and somebody else who commits makes the twin. But an owner who
hands a page over counts the version up after it has shared the page, when the process that has
asked for the page may have made its entry already, as its single user. And a process that makes
an entry for a page while its only user commits it has an old version as soon as that commit
counts up.
-/

import Tthread.CommitAccesses
import Tthread.Library.Counting
import Tthread.Sharing

namespace Tthread.Sharing

open Transition Handoff PageSystem Counting

/-! ## Commits access by access -/

/-- Commits among handoffs, with the access that the process in `checkandcommit` makes next, if
it is inside an iteration. -/
structure AccessState extends toSharing : State where
  access : Option VisitPos

/-- An iteration begins, makes an access or ends. -/
def visitStep (s : AccessState) (me position : ℕ) (entry : Xpageinfo) :
    Option VisitPos → AccessState
  | none => { s with access := some .users }
  | some .done => { s with committing := some (me, position + 1), access := none }
  | some pos =>
      { s with
        memory := s.memory.accessed me position entry pos
        access := some (s.memory.commitAccess me entry pos).2.2 }

/-- A commit begins with no iteration under way. -/
def accessAfter (access : Option VisitPos) : Label → Option VisitPos
  | .checkandcommit _ => none
  | _ => access

/-- The label of a commit stands for one access; the others are as before. -/
def accessStep (s : AccessState) : Label → Option AccessState
  | .commitPage =>
      match s.committing with
      | some (me, position) =>
          if s.InProgram me then
            match (s.memory.process me).dirtiedPagesList[position]? with
            | some entry => some (visitStep s me position entry s.access)
            | none => some { s with committing := none }
          else none
      | none => none
  | label => (step s.toSharing label).map fun s' => ⟨s', accessAfter s.access label⟩

def accessSystem : Transition.System AccessState Label where
  Init s := ∃ content allocated, s = ⟨initial content allocated, none⟩
  step := accessStep

/-- The entry of the iteration under way, and where it is. -/
def AccessState.visit (s : AccessState) : Option (Xpageinfo × VisitPos) :=
  s.memory.visit s.committing s.access

variable {s s' : AccessState} {m m' : Memory} {me other position : ℕ} {p r : PageId}
  {label : Label} {entry entry' : Xpageinfo} {pos : VisitPos}

/-- What a commit does next. -/
inductive CommitMove (s : AccessState) (me position : ℕ) : AccessState → Prop
  | ended (found : (s.memory.process me).dirtiedPagesList[position]? = none) :
      CommitMove s me position { s with committing := none }
  | begun (entry : Xpageinfo)
      (found : (s.memory.process me).dirtiedPagesList[position]? = some entry)
      (idle : s.access = none) : CommitMove s me position { s with access := some .users }
  | accessed (entry : Xpageinfo) (pos : VisitPos)
      (found : (s.memory.process me).dirtiedPagesList[position]? = some entry)
      (access : s.access = some pos) (goes : pos ≠ .done) :
      CommitMove s me position (visitStep s me position entry (some pos))
  | passed (entry : Xpageinfo)
      (found : (s.memory.process me).dirtiedPagesList[position]? = some entry)
      (done : s.access = some .done) :
      CommitMove s me position { s with committing := some (me, position + 1), access := none }

theorem accessStep_commitPage (move : accessStep s .commitPage = some s') :
    ∃ me position, s.committing = some (me, position) ∧ CommitMove s me position s' := by
  simp only [accessStep] at move
  split at move
  · next me position at_position =>
    refine ⟨me, position, at_position, ?_⟩
    obtain ⟨-, move⟩ := Option.ite_none_right_eq_some.mp move
    split at move
    · next entry found =>
      obtain rfl := Option.some.inj move
      cases access : s.access with
      | none => exact .begun entry found access
      | some pos =>
        by_cases done : pos = .done
        · subst done
          exact .passed entry found access
        · exact .accessed entry pos found access done
    · next found =>
      obtain rfl := Option.some.inj move
      exact .ended found
  · cases move

theorem visitStep_some (goes : pos ≠ .done) :
    visitStep s me position entry (some pos) =
      { s with
        memory := s.memory.accessed me position entry pos
        access := some (s.memory.commitAccess me entry pos).2.2 } := by
  cases pos <;> first | rfl | contradiction

/-- The other steps are those of whole iterations. -/
theorem accessStep_of_ne (move : accessStep s label = some s') (other : label ≠ .commitPage) :
    step s.toSharing label = some s'.toSharing ∧ s'.access = accessAfter s.access label := by
  have same : accessStep s label =
      (step s.toSharing label).map fun s' => ⟨s', accessAfter s.access label⟩ := by
    cases label <;> first | rfl | contradiction
  rw [same] at move
  obtain ⟨t, moved, rfl⟩ := Option.map_eq_some_iff.mp move
  exact ⟨moved, rfl⟩

/-! ## Entries still to be committed -/

def Pending (p : PageId) (entry : Xpageinfo) : Bool := entry.pageNo = p && !entry.committed

theorem pending_iff : Pending p entry = true ↔ entry.pageNo = p ∧ entry.committed = false := by
  simp only [Pending, Bool.and_eq_true, decide_eq_true_eq, Bool.not_eq_true']

/-- How many entries for the page the process still has to commit. -/
def pending (q : Process) (p : PageId) : ℕ := q.dirtiedPagesList.countP (Pending p)

theorem pending_pos {q : Process} (member : entry ∈ q.dirtiedPagesList)
    (waits : entry.committed = false) : 0 < pending q entry.pageNo :=
  List.countP_pos_iff.mpr ⟨entry, member, pending_iff.mpr ⟨rfl, waits⟩⟩

/-- The users of the page that the iteration has still to count down. -/
def owedAt (p : PageId) (pos : VisitPos) (r : PageId) : ℕ := if r = p ∧ pos.owes then 1 else 0

def AccessState.owed (s : AccessState) : PageId → ℕ :=
  match s.visit with
  | some (entry, pos) => owedAt entry.pageNo pos
  | none => fun _ => 0

/-- Every entry still to be committed is counted among the users, and an entry with an old
version is not alone or has a twin. -/
structure TwinsKept (m : Memory) (owed : PageId → ℕ) : Prop where
  owing : ∀ p, owed p ≤ (m.pageUsers p).users
  counted : ∀ p, SumsUpTo (fun me => pending (m.process me) p) ((m.pageUsers p).users - owed p)
  small : ∀ p, (m.pageUsers p).users < 2 ^ 16 ∧ (m.pageUsers p).bitmapIndex < 2 ^ 16
  slow : ∀ me, ∀ entry ∈ (m.process me).dirtiedPagesList, entry.committed = false →
    entry.version ≠ m.versions entry.pageNo →
      1 < (m.pageUsers entry.pageNo).users ∨ (m.pageUsers entry.pageNo).bitmapIndex ≠ 0

/-- What is known before each access: once an iteration has seen to the twin, a page with several
users has one. -/
def VisitKept (info : Shareinfo) (entry : Xpageinfo) : VisitPos → Prop
  | .users | .bitmapIndex | .room | .take => entry.committed = false
  | .advance index | .setIndex index => entry.committed = false ∧ index % 2 ^ 16 ≠ 0
  | .copyTwin _ | .setVersion _ | .twin => entry.committed = false ∧ info.bitmapIndex ≠ 0
  | .sole | .owner | .version | .copy =>
      entry.committed = false ∧ (1 < info.users → info.bitmapIndex ≠ 0)
  | .share index | .diffs index =>
      entry.committed = false ∧ info.bitmapIndex ≠ 0 ∧ index ≠ 0
  | .last | .load => 1 < info.users → info.bitmapIndex ≠ 0
  | .clear => info.users = 1
  | .store users => users = info.users ∧ (1 < info.users → info.bitmapIndex ≠ 0)
  | .loadVersion | .storeVersion _ => 0 < info.users → info.bitmapIndex ≠ 0
  | .done => True

/-! ## The condition -/

/-- The page whose version the step counts up outside `checkandcommit`. -/
def State.bumps (s : State) : Label → Option PageId
  | .handoff (.fault me p isWrite) | .globalsFault me p isWrite =>
      if Bumps s.memory me p isWrite then some p else none
  | .handoff (.exec me) =>
      match (s.control me).handler, (s.control me).task with
      | some call, _ | none, .commit call _ =>
          if call.pos = .version then some call.page else none
      | none, _ => none
  | _ => none

/-- The process that makes an entry in the step, and the page. -/
def State.records (s : State) : Label → Option (ℕ × PageId)
  | .handoff (.fault me p isWrite) =>
      if (s.memory.process me).pageInfo p ≠ .unused ∧ Records s.memory me p isWrite then
        some (me, p)
      else none
  | .globalsFault me p isWrite => if Records s.memory me p isWrite then some (me, p) else none
  | .handoff (.exec me) =>
      match (s.control me).handler, (s.control me).task with
      | none, .notify isWrite p .done =>
          if Records s.memory me p isWrite then some (me, p) else none
      | _, _ => none
  | _ => none

/-- The memory when the step makes its entry. -/
def State.bumped (s : State) (label : Label) : Memory :=
  (s.bumps label).elim s.memory s.memory.incrementVersion

/-- The version can be counted up: an entry still to be committed is not alone or has a twin. -/
def MayBump (m : Memory) (p : PageId) : Prop :=
  (∃ me, 0 < pending (m.process me) p) →
    (m.pageUsers p).users ≠ 1 ∨ (m.pageUsers p).bitmapIndex ≠ 0

/-- The number of users fits, and so does the version, unless the entry is not alone or has a
twin. -/
def MayRecord (m : Memory) (p : PageId) : Prop :=
  (m.pageUsers p).users < 2 ^ 16 - 1 ∧
    (m.versions p < 2 ^ 32 ∨ (m.pageUsers p).users ≠ 0 ∨ (m.pageUsers p).bitmapIndex ≠ 0)

instance (m : Memory) (p : PageId) : Decidable (MayRecord m p) :=
  inferInstanceAs (Decidable (_ ∧ _))

/-- Somebody may make an entry for the page that is visited. -/
def MayJoin (info : Shareinfo) (pos : VisitPos) : Prop :=
  pos.ahead = true ∨ pos.counting = false ∧ info.bitmapIndex ≠ 0

instance (info : Shareinfo) (pos : VisitPos) : Decidable (MayJoin info pos) :=
  inferInstanceAs (Decidable (_ ∨ _ ∧ _))

/-- The entry has not been committed since it was made, and a twin gets an index. -/
def MayVisit (m : Memory) (entry : Xpageinfo) (access : Option VisitPos) : Prop :=
  (access = none → entry.committed = false) ∧
    (access = some .room → m.bitmap.cur + 1 < Xbitmap.total) ∧
    (access = some .take → m.bitmap.cur % 2 ^ 16 ≠ 0)

instance (m : Memory) (entry : Xpageinfo) (access : Option VisitPos) :
    Decidable (MayVisit m entry access) := inferInstanceAs (Decidable (_ ∧ _ ∧ _))

/-- The condition on a step. -/
structure KeepsTwins (s : AccessState) (label : Label) : Prop where
  bumps : ∀ p ∈ s.bumps label, MayBump s.memory p
  records : ∀ it ∈ s.records label, MayRecord (s.bumped label) it.2
  joins : ∀ it ∈ s.records label, ∀ visit ∈ s.visit, visit.1.pageNo = it.2 →
    MayJoin (s.memory.pageUsers it.2) visit.2
  commits : label = .commitPage → ∀ it ∈ s.current, MayVisit s.memory it.2.2 s.access

/-! ## What the operations do -/

variable {owed : PageId → ℕ} {info : Shareinfo} {index version : ℕ}

/-- Only the lists, users and versions matter. -/
theorem TwinsKept.congr (kept : TwinsKept m owed)
    (lists : ∀ q, (m'.process q).dirtiedPagesList = (m.process q).dirtiedPagesList)
    (users : m'.pageUsers = m.pageUsers) (versions : m'.versions = m.versions) :
    TwinsKept m' owed := by
  have counts : ∀ me p, pending (m'.process me) p = pending (m.process me) p :=
    fun me p => congrArg (List.countP (Pending p)) (lists me)
  constructor
  · rw [users]
    exact kept.owing
  · intro p
    rw [users]
    exact (kept.counted p).mono fun me => (counts me p).le
  · rw [users]
    exact kept.small
  · intro me entry member waits
    rw [users, versions]
    exact kept.slow me entry (lists me ▸ member) waits

/-- An entry that waits has a user that is not counted down yet. -/
theorem TwinsKept.pending_le (kept : TwinsKept m owed) (me : ℕ) (p : PageId) :
    pending (m.process me) p + owed p ≤ (m.pageUsers p).users := by
  have counted : pending (m.process me) p ≤ (m.pageUsers p).users - owed p := (kept.counted p).le me
  have owing := kept.owing p
  omega

theorem TwinsKept.setVersion (kept : TwinsKept m owed) (may : MayBump m p) :
    TwinsKept { m with versions := Function.update m.versions p version } owed := by
  refine ⟨kept.owing, kept.counted, kept.small, fun me entry member waits old => ?_⟩
  by_cases here : entry.pageNo = p
  · have mine : 0 < pending (m.process me) entry.pageNo := pending_pos member waits
    have counted := kept.pending_le me entry.pageNo
    subst here
    refine (may ⟨me, mine⟩).imp_left fun several => ?_
    show 1 < (m.pageUsers entry.pageNo).users
    omega
  · refine kept.slow me entry member waits fun same => old ?_
    show entry.version = Function.update m.versions p _ entry.pageNo
    rw [Function.update_of_ne here]
    exact same

theorem TwinsKept.incrementVersion (kept : TwinsKept m owed) (may : MayBump m p) :
    TwinsKept (m.incrementVersion p) owed := kept.setVersion may

theorem pending_recordUser_self :
    pending ((m.recordUser me p).process me) r =
      pending (m.process me) r + if r = p then 1 else 0 := by
  have list : ((m.recordUser me p).process me).dirtiedPagesList =
      Memory.insertEntry (m.newEntry p) (m.process me).dirtiedPagesList := by
    simp only [Memory.recordUser, Memory.modify, Function.update_self]
  have permuted : List.Perm (Memory.insertEntry (m.newEntry p) (m.process me).dirtiedPagesList)
      (m.newEntry p :: (m.process me).dirtiedPagesList) := List.perm_orderedInsert ..
  have new : Pending r (m.newEntry p) = true ↔ r = p := by
    rw [pending_iff]
    exact ⟨fun both => both.1.symm, fun same => ⟨same.symm, rfl⟩⟩
  rw [pending, list, permuted.countP_eq, List.countP_cons]
  simp only [new]
  rfl

theorem process_recordUser_of_ne (different : other ≠ me) :
    (m.recordUser me p).process other = m.process other :=
  Memory.modify_process_of_ne different

theorem mem_recordUser (member : entry ∈ ((m.recordUser me p).process other).dirtiedPagesList) :
    entry = m.newEntry p ∨ entry ∈ (m.process other).dirtiedPagesList := by
  by_cases here : other = me
  · subst here
    simp only [Memory.recordUser, Memory.modify, Function.update_self] at member
    exact (List.mem_orderedInsert _).mp member
  · rw [process_recordUser_of_ne here] at member
    exact .inr member

/-- `p` has one user more, and nothing else changes. -/
theorem recordUser_pageUsers_self (me : ℕ) (room : (m.pageUsers p).users < 2 ^ 16 - 1)
    (small : (m.pageUsers p).bitmapIndex < 2 ^ 16) :
    (m.recordUser me p).pageUsers p = ⟨(m.pageUsers p).users + 1, (m.pageUsers p).bitmapIndex⟩ := by
  rw [← increment_eq room small]
  exact Function.update_self ..

theorem recordUser_pageUsers_of_ne (different : r ≠ p) :
    (m.recordUser me p).pageUsers r = m.pageUsers r :=
  Function.update_of_ne different _ _

theorem TwinsKept.recordUser (kept : TwinsKept m owed) (may : MayRecord m p) :
    TwinsKept (m.recordUser me p) owed := by
  obtain ⟨room, version⟩ := may
  have self := recordUser_pageUsers_self me room (kept.small p).2
  -- The lists of the other processes do not grow.
  have elsewhere : ∀ r, ∀ other ≠ me, pending ((m.recordUser me p).process other) r ≤
      pending (m.process other) r := by
    intro r other different
    rw [process_recordUser_of_ne different]
  constructor
  · intro r
    have owing := kept.owing r
    by_cases here : r = p
    · subst here
      rw [self]
      exact owing.trans (Nat.le_succ _)
    · rwa [recordUser_pageUsers_of_ne here]
  · intro r
    by_cases here : r = p
    · subst here
      rw [self, Nat.sub_add_comm (kept.owing r)]
      refine (kept.counted r).gain (elsewhere r) ?_
      rw [pending_recordUser_self, if_pos rfl]
    · rw [recordUser_pageUsers_of_ne here]
      refine (kept.counted r).mono fun other => ?_
      by_cases mine : other = me
      · subst mine
        rw [pending_recordUser_self, if_neg here, Nat.add_zero]
      · exact elsewhere r other mine
  · intro r
    by_cases here : r = p
    · subst here
      rw [self]
      have small := kept.small r
      exact ⟨by show (m.pageUsers r).users + 1 < 2 ^ 16; omega, small.2⟩
    · rw [recordUser_pageUsers_of_ne here]
      exact kept.small r
  · intro other entry member waits old
    have old : entry.version ≠ m.versions entry.pageNo := old
    rcases mem_recordUser member with rfl | listed
    · -- The new entry carries the version of now, so it is old only if the version has outgrown it.
      have outgrown : ¬ m.versions p < 2 ^ 32 := fun fits => old (Nat.mod_eq_of_lt fits)
      show 1 < ((m.recordUser me p).pageUsers p).users ∨ _
      rw [show (m.newEntry p).pageNo = p from rfl, self]
      refine (version.resolve_left outgrown).imp_left fun several => ?_
      show 1 < (m.pageUsers p).users + 1
      omega
    · -- The entries that were there keep their twin, or have one user more to wait for.
      have before := kept.slow other entry listed waits old
      by_cases here : entry.pageNo = p
      · rw [here] at before ⊢
        rw [self]
        exact before.imp_left Nat.lt_succ_of_lt
      · rw [recordUser_pageUsers_of_ne here]
        exact before

theorem TwinsKept.updateAll (kept : TwinsKept m owed) : TwinsKept (m.updateAll me) owed := by
  have cleared : ((m.updateAll me).process me).dirtiedPagesList = [] := by
    simp [Memory.updateAll, Process.updateAll]
  have same : ∀ other ≠ me, (m.updateAll me).process other = m.process other :=
    fun other different => Memory.modify_process_of_ne different
  refine ⟨kept.owing, fun p => ?_, kept.small, fun other entry member => ?_⟩
  · refine (kept.counted p).mono fun other => ?_
    by_cases mine : other = me
    · subst mine
      rw [pending, cleared]
      exact Nat.zero_le _
    · rw [same other mine]
  · by_cases mine : other = me
    · subst mine
      rw [cleared] at member
      exact absurd member List.not_mem_nil
    · rw [same other mine] at member
      exact kept.slow other entry member

/-! ## Commits -/

theorem owedAt_of_not_owes (settled : pos.owes = false) : owedAt p pos = fun _ => 0 := by
  funext r
  simp [owedAt, settled]

theorem owedAt_self (owes : pos.owes = true) : owedAt p pos p = 1 := by simp [owedAt, owes]

theorem owedAt_of_ne (different : r ≠ p) : owedAt p pos r = 0 := by simp [owedAt, different]

/-- Another entry in the place of one. -/
theorem pending_set {q : Process} (r : PageId) (entry' : Xpageinfo)
    (found : q.dirtiedPagesList[position]? = some entry) :
    (q.dirtiedPagesList.set position entry').countP (Pending r) +
        (if Pending r entry = true then 1 else 0) =
      pending q r + if Pending r entry' = true then 1 else 0 := by
  obtain ⟨inside, here⟩ := List.getElem?_eq_some_iff.mp found
  rw [List.countP_set inside, here, pending]
  by_cases waits : Pending r entry = true
  · have positive : 0 < q.dirtiedPagesList.countP (Pending r) :=
      List.countP_pos_iff.mpr ⟨entry, List.mem_of_getElem? found, waits⟩
    rw [if_pos waits]
    omega
  · rw [if_neg waits]
    rfl

/-- The memory with another entry on the list of a process. -/
def setEntry (m : Memory) (me position : ℕ) (entry : Xpageinfo) : Memory :=
  m.modify me fun q => { q with dirtiedPagesList := q.dirtiedPagesList.set position entry }

theorem setEntry_process_self : ((setEntry m me position entry).process me).dirtiedPagesList =
    (m.process me).dirtiedPagesList.set position entry := by
  rw [setEntry, Memory.modify_process_self]

theorem setEntry_process_of_ne (different : other ≠ me) :
    (setEntry m me position entry).process other = m.process other :=
  Memory.modify_process_of_ne different

theorem mem_setEntry {e : Xpageinfo}
    (member : e ∈ ((setEntry m me position entry).process other).dirtiedPagesList) :
    e = entry ∨ e ∈ (m.process other).dirtiedPagesList := by
  by_cases here : other = me
  · subst here
    rw [setEntry_process_self] at member
    exact (List.mem_or_eq_of_mem_set member).symm
  · rw [setEntry_process_of_ne here] at member
    exact .inr member

/-- An entry for the same page with the same version that waits as the old one did. -/
theorem TwinsKept.replaceEntry (kept : TwinsKept m owed)
    (found : (m.process me).dirtiedPagesList[position]? = some entry)
    (page : entry'.pageNo = entry.pageNo) (version : entry'.version = entry.version)
    (flag : entry'.committed = entry.committed) :
    TwinsKept (setEntry m me position entry') owed := by
  refine ⟨kept.owing, fun r => ?_, kept.small, fun other e member waits => ?_⟩
  · refine (kept.counted r).mono fun other => ?_
    by_cases mine : other = me
    · subst mine
      have same : Pending r entry' = Pending r entry := by simp only [Pending, page, flag]
      have counts := pending_set r entry' found
      rw [same] at counts
      rw [pending, setEntry_process_self]
      exact (Nat.add_right_cancel counts).le
    · rw [setEntry_process_of_ne mine]
  · rcases mem_setEntry member with rfl | listed
    · have before := kept.slow me entry (List.mem_of_getElem? found) (flag ▸ waits)
      rw [page, version]
      exact before
    · exact kept.slow other e listed waits

/-- The entry is committed, and its user is still to be counted down. -/
theorem TwinsKept.commitEntry (kept : TwinsKept m fun _ => 0)
    (found : (m.process me).dirtiedPagesList[position]? = some entry)
    (waits : entry.committed = false) (page : entry'.pageNo = entry.pageNo)
    (done : entry'.committed = true) (owes : pos.owes = true) :
    TwinsKept (setEntry m me position entry') (owedAt entry.pageNo pos) := by
  have here : Pending entry.pageNo entry = true := pending_iff.mpr ⟨rfl, waits⟩
  have gone : ∀ r, ¬Pending r entry' = true := fun r pends => by
    rw [(pending_iff.mp pends).2] at done
    cases done
  have mine : ∀ r, pending ((setEntry m me position entry').process me) r +
      (if Pending r entry = true then 1 else 0) = pending (m.process me) r := by
    intro r
    rw [pending, setEntry_process_self, pending_set r entry' found, if_neg (gone r), Nat.add_zero]
  have others : ∀ r, ∀ other ≠ me, pending ((setEntry m me position entry').process other) r ≤
      pending (m.process other) r := by
    intro r other different
    rw [setEntry_process_of_ne different]
  have positive : 0 < (m.pageUsers entry.pageNo).users :=
    (pending_pos (List.mem_of_getElem? found) waits).trans_le (kept.pending_le me _)
  refine ⟨fun r => ?_, fun r => ?_, kept.small, fun other e member pends => ?_⟩
  · by_cases same : r = entry.pageNo
    · rw [same, owedAt_self owes]
      exact positive
    · rw [owedAt_of_ne same]
      exact Nat.zero_le _
  · by_cases same : r = entry.pageNo
    · subst same
      rw [owedAt_self owes]
      refine (kept.counted entry.pageNo).lose (others _) ?_
      rw [← mine entry.pageNo, if_pos here]
    · rw [owedAt_of_ne same]
      refine (kept.counted r).mono fun other => ?_
      by_cases self : other = me
      · subst self
        exact (mine r).le.trans' (Nat.le_add_right _ _)
      · exact others r other self
  · rcases mem_setEntry member with rfl | listed
    · exact absurd (pending_iff.mpr ⟨rfl, pends⟩) (gone _)
    · exact kept.slow other e listed pends

/-- A twin gets an index, or is given back by the last user. -/
theorem TwinsKept.setBitmapIndex (kept : TwinsKept m owed) (p : PageId) (index : ℕ)
    (may : ∀ me, 0 < pending (m.process me) p → index % 2 ^ 16 ≠ 0) :
    TwinsKept (m.setBitmapIndex p index) owed := by
  have users : ∀ r, ((m.setBitmapIndex p index).pageUsers r).users = (m.pageUsers r).users := by
    intro r
    show (Function.update m.pageUsers p _ r).users = _
    by_cases here : r = p
    · subst here
      rw [Function.update_self]
    · rw [Function.update_of_ne here]
  have self : ((m.setBitmapIndex p index).pageUsers p).bitmapIndex = index % 2 ^ 16 := by
    show (Function.update m.pageUsers p _ p).bitmapIndex = _
    rw [Function.update_self]
  have others : ∀ r ≠ p, (m.setBitmapIndex p index).pageUsers r = m.pageUsers r :=
    fun r different => Function.update_of_ne different _ _
  refine ⟨fun r => ?_, fun r => ?_, fun r => ?_, fun other e member pends old => ?_⟩
  · rw [users]
    exact kept.owing r
  · rw [users]
    exact kept.counted r
  · refine ⟨by rw [users]; exact (kept.small r).1, ?_⟩
    by_cases here : r = p
    · rw [here, self]
      exact Nat.mod_lt _ (Nat.two_pow_pos 16)
    · rw [others r here]
      exact (kept.small r).2
  · by_cases here : e.pageNo = p
    · rw [here, self]
      exact .inr (may other (here ▸ pending_pos member pends))
    · rw [others _ here]
      exact kept.slow other e member pends old

/-- A user is counted down. Whoever is left has a twin. -/
theorem TwinsKept.countDown (kept : TwinsKept m (owedAt p pos)) (owes : pos.owes = true)
    (twin : 1 < (m.pageUsers p).users → (m.pageUsers p).bitmapIndex ≠ 0) :
    TwinsKept (m.setUsers p ((m.pageUsers p).users - 1)) fun _ => 0 := by
  have positive := kept.owing p
  rw [owedAt_self owes] at positive
  have self : (m.setUsers p ((m.pageUsers p).users - 1)).pageUsers p =
      ⟨(m.pageUsers p).users - 1, (m.pageUsers p).bitmapIndex⟩ := Function.update_self ..
  have others : ∀ r ≠ p, (m.setUsers p ((m.pageUsers p).users - 1)).pageUsers r = m.pageUsers r :=
    fun r different => Function.update_of_ne different _ _
  refine ⟨fun _ => Nat.zero_le _, fun r => ?_, fun r => ?_, fun other e member pends old => ?_⟩
  · have counted := kept.counted r
    by_cases here : r = p
    · subst here
      rw [owedAt_self owes] at counted
      rw [self]
      exact counted
    · rw [owedAt_of_ne here] at counted
      rw [others r here]
      exact counted
  · have small := kept.small r
    by_cases here : r = p
    · subst here
      rw [self]
      exact ⟨(Nat.sub_le _ _).trans_lt small.1, small.2⟩
    · rwa [others r here]
  · by_cases here : e.pageNo = p
    · -- somebody else waits, so the page has had several users
      have mine : 0 < pending (m.process other) p := here ▸ pending_pos member pends
      have counted := kept.pending_le other p
      rw [owedAt_self owes] at counted
      rw [here, self]
      exact .inr (twin (by omega))
    · rw [others _ here]
      exact kept.slow other e member pends old

/-- An access that leaves the users and versions alone. -/
theorem TwinsKept.quiet {pos' : VisitPos} (kept : TwinsKept m (owedAt entry.pageNo pos))
    (found : (m.process me).dirtiedPagesList[position]? = some entry)
    (lists : ∀ q, (m'.process q).dirtiedPagesList = (m.process q).dirtiedPagesList)
    (users : m'.pageUsers = m.pageUsers) (versions : m'.versions = m.versions)
    (same : entry'.pageNo = entry.pageNo ∧ entry'.version = entry.version ∧
      entry'.committed = entry.committed) (owes : pos'.owes = pos.owes) :
    TwinsKept (setEntry m' me position entry') (owedAt entry.pageNo pos') := by
  have owed : owedAt entry.pageNo pos' = owedAt entry.pageNo pos := by
    funext r
    rw [owedAt, owedAt, owes]
  rw [owed]
  exact (kept.congr lists users versions).replaceEntry (lists me ▸ found) same.1 same.2.1 same.2.2

/-- **Access lemma**, one case for each access of an iteration. -/
theorem TwinsKept.access (kept : TwinsKept m (owedAt entry.pageNo pos))
    (visit : VisitKept (m.pageUsers entry.pageNo) entry pos) (may : MayVisit m entry (some pos))
    (found : (m.process me).dirtiedPagesList[position]? = some entry) :
    TwinsKept (m.accessed me position entry pos)
        (owedAt entry.pageNo (m.commitAccess me entry pos).2.2) ∧
      VisitKept ((m.commitAccess me entry pos).1.pageUsers entry.pageNo)
        (m.commitAccess me entry pos).2.1 (m.commitAccess me entry pos).2.2 := by
  have member : entry ∈ (m.process me).dirtiedPagesList := List.mem_of_getElem? found
  have unchanged : entry.pageNo = entry.pageNo ∧ entry.version = entry.version ∧
      entry.committed = entry.committed := ⟨rfl, rfl, rfl⟩
  -- the page goes out, and the entry is committed
  have carryOver : ∀ m' : Memory, entry.committed = false → pos.owes = false →
      (∀ q, (m'.process q).dirtiedPagesList = (m.process q).dirtiedPagesList) →
      m'.pageUsers = m.pageUsers → m'.versions = m.versions →
      TwinsKept (setEntry m' me position { entry with committed := true })
        (owedAt entry.pageNo .last) := by
    intro m' waits settled lists users versions
    rw [owedAt_of_not_owes settled] at kept
    exact (kept.congr lists users versions).commitEntry (lists me ▸ found) waits rfl rfl rfl
  cases pos with
  | users =>
    refine ⟨?_, ?_⟩
    · refine kept.quiet found (fun _ => rfl) rfl rfl unchanged ?_
      simp only [Memory.commitAccess]
      split <;> rfl
    · simp only [Memory.commitAccess]
      split
      · exact visit
      · next alone => exact ⟨visit, fun several => absurd several alone⟩
  | bitmapIndex =>
    refine ⟨?_, ?_⟩
    · refine kept.quiet found (fun _ => rfl) rfl rfl unchanged ?_
      simp only [Memory.commitAccess]
      split <;> rfl
    · simp only [Memory.commitAccess]
      split
      · exact visit
      · next twin => exact ⟨visit, fun _ => twin⟩
  | room =>
    have room : m.bitmap.cur + 1 < Xbitmap.total := may.2.1 rfl
    simp only [Memory.accessed, Memory.commitAccess, if_pos room]
    exact ⟨kept.quiet found (fun _ => rfl) rfl rfl unchanged rfl, visit⟩
  | take =>
    exact ⟨kept.quiet found (fun _ => rfl) rfl rfl unchanged rfl, visit, may.2.2 rfl⟩
  | advance index => exact ⟨kept.quiet found (fun _ => rfl) rfl rfl unchanged rfl, visit⟩
  | setIndex index =>
    have set := kept.setBitmapIndex entry.pageNo index fun _ _ => visit.2
    refine ⟨set.quiet found (fun _ => rfl) rfl rfl unchanged rfl,
      visit.1, ?_⟩
    show (Function.update m.pageUsers entry.pageNo _ entry.pageNo).bitmapIndex ≠ 0
    rw [Function.update_self]
    exact visit.2
  | copyTwin index => exact ⟨kept.quiet found (fun _ => rfl) rfl rfl unchanged rfl, visit⟩
  | setVersion index =>
    exact ⟨kept.quiet found (fun _ => rfl) rfl rfl unchanged rfl, visit.1, fun _ => visit.2⟩
  | sole =>
    simp only [Memory.accessed, Memory.commitAccess]
    split
    · exact ⟨kept.quiet found (fun _ => rfl) rfl rfl ⟨rfl, rfl, rfl⟩ rfl, visit⟩
    · exact ⟨kept.quiet found (fun _ => rfl) rfl rfl unchanged rfl, visit⟩
  | owner =>
    simp only [Memory.accessed, Memory.commitAccess]
    split
    · exact ⟨kept.quiet found (fun _ => rfl) rfl rfl ⟨rfl, rfl, rfl⟩ rfl, visit⟩
    · exact ⟨kept.quiet found (fun _ => rfl) rfl rfl ⟨rfl, rfl, rfl⟩ rfl, trivial⟩
  | version =>
    refine ⟨?_, ?_⟩
    · refine kept.quiet found (fun _ => rfl) rfl rfl unchanged ?_
      simp only [Memory.commitAccess]
      split <;> rfl
    · simp only [Memory.commitAccess]
      split
      · exact visit
      · next old =>
        -- the version is old, so the page has or had several users
        exact ⟨visit.1, (kept.slow me entry member visit.1 old).elim visit.2 id⟩
  | copy => exact ⟨carryOver _ visit.1 rfl (fun _ => rfl) rfl rfl, visit.2⟩
  | twin => exact ⟨kept.quiet found (fun _ => rfl) rfl rfl unchanged rfl, visit.1, visit.2, visit.2⟩
  | share index =>
    have users : (m.setSharedPage me entry.pageNo).pageUsers = m.pageUsers :=
      Memory.setSharedPage_pageUsers
    refine ⟨kept.quiet found (fun _ => Memory.setSharedPage_dirtiedPagesList) users
      Memory.setSharedPage_versions unchanged rfl, ?_⟩
    show VisitKept ((m.setSharedPage me entry.pageNo).pageUsers entry.pageNo) entry _
    rw [users]
    exact visit
  | diffs index => exact ⟨carryOver _ visit.1 rfl (fun _ => rfl) rfl rfl, fun _ => visit.2.1⟩
  | last =>
    have owing : 0 < (m.pageUsers entry.pageNo).users := by
      have owing := kept.owing entry.pageNo
      rwa [owedAt_self rfl] at owing
    refine ⟨?_, ?_⟩
    · refine kept.quiet found (fun _ => rfl) rfl rfl unchanged ?_
      simp only [Memory.commitAccess]
      split <;> rfl
    · simp only [Memory.commitAccess]
      split
      · next alone => exact alone
      · exact visit
  | clear =>
    have alone : (m.pageUsers entry.pageNo).users = 1 := visit
    -- nobody else waits
    have cleared := kept.setBitmapIndex entry.pageNo 0 fun other waits => by
      have counted := kept.pending_le other entry.pageNo
      rw [owedAt_self rfl, alone] at counted
      omega
    refine ⟨cleared.quiet found (fun _ => rfl) rfl rfl unchanged rfl, ?_⟩
    show 1 < (Function.update m.pageUsers entry.pageNo _ entry.pageNo).users → _
    rw [Function.update_self]
    exact fun several => absurd several (by rw [alone]; exact lt_irrefl 1)
  | load => exact ⟨kept.quiet found (fun _ => rfl) rfl rfl unchanged rfl, rfl, visit⟩
  | store users =>
    obtain ⟨rfl, twin⟩ := visit
    have owing := kept.owing entry.pageNo
    rw [owedAt_self rfl] at owing
    have small := (kept.small entry.pageNo).1
    have less : ((m.pageUsers entry.pageNo).users + (2 ^ 16 - 1)) % 2 ^ 16 =
        (m.pageUsers entry.pageNo).users - 1 := by omega
    have counted := kept.countDown rfl twin
    rw [← owedAt_of_not_owes (show VisitPos.done.owes = false from rfl)] at counted
    simp only [Memory.accessed, Memory.commitAccess, less]
    refine ⟨counted.quiet found (fun _ => rfl) rfl rfl unchanged rfl, ?_⟩
    show 0 < (Function.update m.pageUsers entry.pageNo _ entry.pageNo).users →
      (Function.update m.pageUsers entry.pageNo _ entry.pageNo).bitmapIndex ≠ 0
    rw [Function.update_self]
    exact fun left => twin (by dsimp only at left; omega)
  | loadVersion => exact ⟨kept.quiet found (fun _ => rfl) rfl rfl unchanged rfl, visit⟩
  | storeVersion version =>
    have may : MayBump m entry.pageNo := by
      rintro ⟨other, waits⟩
      exact .inr (visit (waits.trans_le ((Nat.le_add_right _ _).trans (kept.pending_le ..))))
    exact ⟨(kept.setVersion may).quiet found (fun _ => rfl) rfl rfl unchanged rfl, trivial⟩
  | done => exact ⟨kept.quiet found (fun _ => rfl) rfl rfl unchanged rfl, trivial⟩

/-! ## Runs -/

variable {t t' : State}

/-- A step that neither counts a version up nor makes an entry. -/
theorem books_of_same (same : SameBooks t.memory m') (noBump : t.bumps label = none)
    (noRecord : t.records label = none) : ∃ m₁, SameBooks (t.bumped label) m₁ ∧
      SameBooks ((t.records label).elim m₁ fun it => m₁.recordUser it.1 it.2) m' := by
  refine ⟨t.memory, ?_, ?_⟩
  · rw [State.bumped, noBump]
    exact .refl _
  · rw [noRecord]
    exact same

/-- The handler of a fault counts up and makes an entry. -/
theorem books_of_handleAccess {isWrite : Bool}
    (bumps : t.bumps label = if Bumps t.memory me p isWrite then some p else none)
    (records : t.records label = if Records t.memory me p isWrite then some (me, p) else none) :
    ∃ m₁, SameBooks (t.bumped label) m₁ ∧
      SameBooks ((t.records label).elim m₁ fun it => m₁.recordUser it.1 it.2)
        (Handoff.handleAccess t.memory me p isWrite) := by
  have books : ∃ m₁,
      SameBooks (if Bumps t.memory me p isWrite then t.memory.incrementVersion p else t.memory) m₁ ∧
        m₁.pageOwner = t.memory.pageOwner ∧
        SameBooks (recorded m₁ me p isWrite) (Handoff.handleAccess t.memory me p isWrite) :=
    handleAccess_books
  obtain ⟨m₁, first, owner, second⟩ := books
  refine ⟨m₁, ?_, ?_⟩
  · rw [State.bumped, bumps]
    by_cases here : Bumps t.memory me p isWrite
    · rw [if_pos here] at first ⊢
      exact first
    · rw [if_neg here] at first ⊢
      exact first
  · rw [records]
    have same : Records m₁ me p isWrite ↔ Records t.memory me p isWrite := by
      rw [Records, Records, owner]
    unfold recorded at second
    by_cases here : Records t.memory me p isWrite
    · rw [if_pos (same.mpr here)] at second
      rw [if_pos here]
      exact second
    · rw [if_neg (same.not.mpr here)] at second
      rw [if_neg here]
      exact second

/-- An access outside the program does one or the other. -/
theorem exec_bumps_records (books : SameBooks (booksAfter t.toState me) m') :
    ∃ m₁, SameBooks (t.bumped (.handoff (.exec me))) m₁ ∧
      SameBooks ((t.records (.handoff (.exec me))).elim m₁ fun it => m₁.recordUser it.1 it.2)
        m' := by
  -- A call of `commitOwnedPage` counts the version up at its last access, and makes no entry.
  have calls : ∀ call : CommitCall,
      SameBooks (if call.pos = .version then t.memory.incrementVersion call.page else t.memory) m' →
      t.bumps (.handoff (.exec me)) = (if call.pos = .version then some call.page else none) →
      t.records (.handoff (.exec me)) = none →
      ∃ m₁, SameBooks (t.bumped (.handoff (.exec me))) m₁ ∧
        SameBooks ((t.records (.handoff (.exec me))).elim m₁ fun it => m₁.recordUser it.1 it.2)
          m' := by
    intro call books bumps records
    refine ⟨t.bumped (.handoff (.exec me)), .refl _, ?_⟩
    rw [records, State.bumped, bumps]
    by_cases last : call.pos = .version
    · rw [if_pos last] at books ⊢
      exact books
    · rw [if_neg last] at books ⊢
      exact books
  unfold booksAfter at books
  cases handler : (t.control me).handler with
  | some call =>
    rw [handler] at books
    refine calls call books ?_ ?_ <;> simp only [State.bumps, State.records, handler]
  | none =>
    cases task : (t.control me).task with
    | user | finalcommit release pages =>
      rw [handler, task] at books
      refine books_of_same books ?_ ?_ <;> simp only [State.bumps, State.records, handler, task]
    | commit call pages =>
      rw [handler, task] at books
      refine calls call books ?_ ?_ <;> simp only [State.bumps, State.records, handler, task]
    | notify isWrite p pos =>
      rw [handler, task] at books
      -- At its return `notifyOwnerToCommit` lets the fault handler make an entry.
      by_cases returns : pos = .done
      · subst returns
        refine ⟨t.memory, ?_, ?_⟩
        · simp only [State.bumped, State.bumps, handler, task]
          exact .refl _
        · simp only [State.records, handler, task]
          unfold recorded at books
          dsimp only at books
          split at books
          · next records =>
            rw [if_pos records]
            exact books
          · next keeps =>
            rw [if_neg keeps]
            exact books
      · -- Before that it only waits for the owner.
        have same : SameBooks t.memory m' := by
          cases pos with
          | done => exact absurd rfl returns
          | _ => exact books
        refine books_of_same same ?_ ?_
        · simp only [State.bumps, handler, task]
        · cases pos with
          | done => exact absurd rfl returns
          | _ => simp only [State.records, handler, task]

/-- What a step does to the entries, apart from commits, refreshes and clean-ups: it may count a
version up and then make an entry. -/
theorem step_books (stepped : Sharing.step t label = some t') (noCommit : label ≠ .commitPage)
    (noUpdate : ∀ me, label ≠ .updateAll me) (noCleanup : label ≠ .cleanup) :
    ∃ m₁, SameBooks (t.bumped label) m₁ ∧
      SameBooks ((t.records label).elim m₁ fun it => m₁.recordUser it.1 it.2) t'.memory := by
  cases label with
  | handoff label =>
    obtain ⟨-, stepped⟩ := Option.ite_none_right_eq_some.mp stepped
    obtain ⟨h, moved, rfl⟩ := Option.map_eq_some_iff.mp stepped
    cases label with
    | malloc me pages =>
      obtain ⟨-, rfl⟩ := guarded moved
      exact books_of_same (sameBooks_setOwnedPages _) rfl rfl
    | store me p offset value =>
      obtain ⟨-, rfl⟩ := guarded moved
      exact books_of_same ⟨fun _ => Memory.store_dirtiedPagesList, rfl, rfl, rfl⟩ rfl rfl
    | fault me p isWrite =>
      obtain ⟨-, rfl⟩ := guarded moved
      show ∃ m₁, _ ∧ SameBooks _ (t.toState.fault me p isWrite).memory
      unfold State.fault
      -- A fault on a page that is not used yet begins to wait for its owner: no entry is made.
      by_cases unused : (t.memory.process me).pageInfo p = .unused
      · rw [if_pos unused]
        refine books_of_same (.refl _) (if_neg fun bumps => ?_) (if_neg fun records => ?_)
        · cases unused.symm.trans bumps.2
        · exact records.1 unused
      · rw [if_neg unused]
        refine books_of_handleAccess rfl ?_
        show (if _ ∧ _ then _ else _) = _
        simp only [ne_eq, unused, not_false_eq_true, true_and]
    | exec me =>
      exact exec_bumps_records (exec_books moved)
    | finalcommit me release | exit me =>
      obtain ⟨-, rfl⟩ := guarded moved
      exact books_of_same (.refl _) rfl rfl
    | deliver me =>
      obtain ⟨pageNo, -, moved⟩ := Option.bind_eq_some_iff.mp moved
      obtain ⟨-, rfl⟩ := guarded moved
      exact books_of_same (.refl _) rfl rfl
  | globalsFault me p isWrite =>
    obtain ⟨-, rfl⟩ := guarded stepped
    exact books_of_handleAccess rfl rfl
  | checkandcommit me =>
    obtain ⟨-, rfl⟩ := guarded stepped
    exact books_of_same (.refl _) rfl rfl
  | commitPage => exact absurd rfl noCommit
  | updateAll me => exact absurd rfl (noUpdate me)
  | cleanup => exact absurd rfl noCleanup

/-- A process in a commit is in its program. -/
def Settled (t : State) : Prop :=
  ∀ me position, t.committing = some (me, position) → (t.control me).task = .user

/-- What a process outside its program does leaves one that is in its program there. -/
theorem exec_task {h h' : Handoff.State} (moved : h.exec other = some h')
    (idle : (h.control me).task = .user) : (h'.control me).task = .user := by
  have set : ∀ c : Control, (other = me → c.task = .user) →
      (Function.update h.control other c me).task = .user := by
    intro c here
    by_cases same : me = other
    · subst same
      rw [Function.update_self]
      exact here rfl
    · rwa [Function.update_of_ne same]
  rw [State.exec] at moved
  split at moved
  · cases moved
  · split at moved
    · -- A handler of a signal runs on top of the program.
      obtain rfl := Option.some.inj moved
      unfold State.handlerAccess
      split <;> exact set _ fun same => same ▸ idle
    · by_cases same : other = me
      · subst same
        rw [idle] at moved
        cases moved
      · have apart : ∀ c : Control, (Function.update h.control other c me).task = .user :=
          fun c => set c fun here => absurd here same
        cases task : (h.control other).task with
        | user =>
          rw [task] at moved
          cases moved
        | finalcommit release pages =>
          rw [task] at moved
          cases pages <;> (obtain rfl := Option.some.inj moved; exact apart _)
        | commit call pages =>
          rw [task] at moved
          simp only [State.taskAccess] at moved
          split at moved <;> obtain rfl := Option.some.inj moved
          · exact idle
          · exact apart _
        | notify isWrite p pos =>
          rw [task] at moved
          obtain rfl := Option.some.inj moved
          unfold State.notifyAccess
          split
          · exact apart _
          · rw [sigqueue_task]
            exact apart _

theorem handoff_task {h h' : Handoff.State} {label : Handoff.Label}
    (moved : h.step label = some h') (outside : ∀ other ∈ program label, other ≠ me)
    (idle : (h.control me).task = .user) : (h'.control me).task = .user := by
  have apart : ∀ other (c : Control), other ∈ program label →
      (Function.update h.control other c me).task = .user := by
    intro other c mine
    rwa [Function.update_of_ne (outside other mine).symm]
  cases label with
  | malloc other pages | finalcommit other release | exit other =>
    obtain ⟨-, rfl⟩ := guarded moved
    exact apart other _ rfl
  | store other p offset value =>
    obtain ⟨-, rfl⟩ := guarded moved
    exact idle
  | fault other p isWrite =>
    obtain ⟨-, rfl⟩ := guarded moved
    unfold State.fault
    split
    · exact apart other _ rfl
    · exact idle
  | exec other => exact exec_task moved idle
  | deliver other =>
    obtain ⟨pageNo, -, moved⟩ := Option.bind_eq_some_iff.mp moved
    obtain ⟨-, rfl⟩ := guarded moved
    show (Function.update h.control other _ me).task = .user
    by_cases same : me = other
    · subst same
      rwa [Function.update_self]
    · rwa [Function.update_of_ne same]

/-- A process in a commit makes no entry. -/
theorem records_outside (settled : Settled t) (stepped : Sharing.step t label = some t')
    (records : t.records label = some (other, p)) : t.Outside other := by
  cases label with
  | handoff label =>
    obtain ⟨outside, -⟩ := Option.ite_none_right_eq_some.mp stepped
    cases label with
    | fault me p' isWrite =>
      simp only [State.records, Option.ite_none_right_eq_some] at records
      obtain ⟨-, here⟩ := records
      obtain ⟨rfl, rfl⟩ := Prod.mk.inj (Option.some.inj here)
      exact outside me rfl
    | exec me =>
      simp only [State.records] at records
      split at records
      · next task =>
        obtain ⟨-, here⟩ := Option.ite_none_right_eq_some.mp records
        obtain ⟨rfl, rfl⟩ := Prod.mk.inj (Option.some.inj here)
        intro committing
        obtain ⟨it, at_position, rfl⟩ := Option.map_eq_some_iff.mp committing
        cases task.symm.trans (settled it.1 it.2 at_position)
      · cases records
    | _ => cases records
  | globalsFault me p' isWrite =>
    obtain ⟨⟨ready, -⟩, -⟩ := guarded stepped
    obtain ⟨-, here⟩ := Option.ite_none_right_eq_some.mp records
    obtain ⟨rfl, rfl⟩ := Prod.mk.inj (Option.some.inj here)
    exact ready.2
  | _ => cases records

/-- The steps besides the commit leave its place and the list of its process alone. -/
theorem step_list (settled : Settled t) (stepped : Sharing.step t label = some t')
    (noCommit : label ≠ .commitPage) (at_position : t.committing = some (me, position)) :
    t'.committing = some (me, position) ∧
      (t'.memory.process me).dirtiedPagesList = (t.memory.process me).dirtiedPagesList ∧
      (t'.control me).task = .user := by
  have apart : ∀ other, t.Outside other → me ≠ other := by
    intro other outside same
    rw [State.Outside, at_position] at outside
    exact outside (congrArg some same)
  have idle : (t.control me).task = .user := settled me position at_position
  -- other processes make entries, and only on their own lists
  have lists : (∀ me, label ≠ .updateAll me) → label ≠ .cleanup →
      (t'.memory.process me).dirtiedPagesList = (t.memory.process me).dirtiedPagesList := by
    intro noUpdate noCleanup
    obtain ⟨m₁, first, second⟩ := step_books stepped noCommit noUpdate noCleanup
    have counted : ((t.bumped label).process me).dirtiedPagesList =
        (t.memory.process me).dirtiedPagesList := by
      rw [State.bumped]
      cases t.bumps label <;> rfl
    rw [second.lists]
    cases records : t.records label with
    | none => exact (first.lists me).trans counted
    | some it =>
      have outside := records_outside settled stepped records
      show ((m₁.recordUser it.1 it.2).process me).dirtiedPagesList = _
      rw [process_recordUser_of_ne (apart it.1 outside)]
      exact (first.lists me).trans counted
  cases label with
  | handoff label =>
    have list := lists nofun nofun
    obtain ⟨outside, stepped⟩ := Option.ite_none_right_eq_some.mp stepped
    obtain ⟨h, moved, rfl⟩ := Option.map_eq_some_iff.mp stepped
    refine ⟨at_position, list, handoff_task moved (fun other mine => ?_) idle⟩
    exact (apart other (outside other mine)).symm
  | globalsFault other p isWrite =>
    have list := lists nofun nofun
    obtain ⟨-, rfl⟩ := guarded stepped
    exact ⟨at_position, list, idle⟩
  | checkandcommit other =>
    obtain ⟨⟨-, none⟩, -⟩ := guarded stepped
    cases none.symm.trans at_position
  | commitPage => exact absurd rfl noCommit
  | updateAll other =>
    obtain ⟨ready, rfl⟩ := guarded stepped
    refine ⟨at_position, ?_, idle⟩
    show ((t.memory.updateAll other).process me).dirtiedPagesList = _
    rw [Memory.updateAll, Memory.modify_process_of_ne (apart other ready.2)]
  | cleanup =>
    obtain rfl := Option.some.inj stepped
    exact ⟨at_position, rfl, idle⟩

/-! ## The invariant -/

structure AccessesKept (s : AccessState) : Prop where
  kept : TwinsKept s.memory s.owed
  settled : Settled s.toSharing
  visit : ∀ entry pos, s.visit = some (entry, pos) →
    VisitKept (s.memory.pageUsers entry.pageNo) entry pos

theorem owed_of_visit (visit : s.visit = some (entry, pos)) :
    s.owed = owedAt entry.pageNo pos := by
  rw [AccessState.owed, visit]

theorem owed_of_idle (visit : s.visit = none) : s.owed = fun _ => 0 := by
  rw [AccessState.owed, visit]

theorem visit_of_found (at_position : s.committing = some (me, position))
    (found : (s.memory.process me).dirtiedPagesList[position]? = some entry) :
    s.visit = s.access.map fun pos => (entry, pos) := by
  rw [AccessState.visit, at_position, Memory.visit_eq found]

/-- Somebody who joins at such an access finds a twin, or the twin is still ahead. -/
theorem VisitKept.join (visit : VisitKept info entry pos) (may : MayJoin info pos) :
    VisitKept ⟨info.users + 1, info.bitmapIndex⟩ entry pos := by
  rcases may with ahead | ⟨counting, twin⟩
  · cases pos with
    | users | bitmapIndex | room | take | advance index | setIndex index | done => exact visit
    | _ => cases ahead
  · cases pos with
    | sole | owner | version | copy => exact ⟨visit.1, fun _ => twin⟩
    | last | load | loadVersion | storeVersion version => exact fun _ => twin
    | clear | store users => cases counting
    | _ => exact visit

/-- Only the commit goes on with an iteration. -/
theorem accessStep_visit (settled : Settled s.toSharing) (move : accessStep s label = some s')
    (noCommit : label ≠ .commitPage) : s'.visit = s.visit ∧ Settled s'.toSharing := by
  obtain ⟨moved, access⟩ := accessStep_of_ne move noCommit
  cases committing : s.committing with
  | some it =>
    obtain ⟨me, position⟩ := it
    obtain ⟨at_position, list, task⟩ := step_list settled moved noCommit committing
    have same : s'.access = s.access := by
      cases label with
      | checkandcommit other =>
        obtain ⟨⟨-, none⟩, -⟩ := guarded moved
        cases none.symm.trans committing
      | _ => exact access
    refine ⟨?_, fun me' position' here => ?_⟩
    · rw [AccessState.visit, AccessState.visit, at_position, committing, same]
      refine Memory.visit_congr fun me' position' here => ?_
      obtain ⟨rfl, rfl⟩ := Prod.mk.inj (Option.some.inj here)
      exact list
    · obtain ⟨rfl, rfl⟩ := Prod.mk.inj (Option.some.inj (at_position.symm.trans here))
      exact task
  | none =>
    have before : s.visit = none := by rw [AccessState.visit, committing, Memory.visit_idle]
    have idle : s'.committing = none → s'.visit = s.visit ∧ Settled s'.toSharing := by
      intro none
      refine ⟨by rw [before, AccessState.visit, none, Memory.visit_idle],
        fun me position here => ?_⟩
      cases none.symm.trans here
    cases label with
    | checkandcommit me =>
      obtain ⟨⟨program, -⟩, after⟩ := guarded moved
      refine ⟨?_, fun me' position here => ?_⟩
      · have stopped : s'.access = none := access
        rw [before, AccessState.visit, stopped, Memory.visit_between]
      · rw [← after] at here ⊢
        obtain ⟨rfl, rfl⟩ := Prod.mk.inj (Option.some.inj here)
        exact program.2.1
    | commitPage => exact absurd rfl noCommit
    | handoff label =>
      obtain ⟨-, moved⟩ := Option.ite_none_right_eq_some.mp moved
      obtain ⟨h, -, after⟩ := Option.map_eq_some_iff.mp moved
      exact idle (by rw [← after]; exact committing)
    | globalsFault | updateAll =>
      obtain ⟨-, after⟩ := guarded moved
      exact idle (by rw [← after]; exact committing)
    | cleanup =>
      have after := Option.some.inj moved
      exact idle (by rw [← after]; exact committing)

/-- What the other steps do to the page of the iteration under way. -/
theorem VisitKept.beside (kept : TwinsKept s.memory s.owed) (keeps : KeepsTwins s label)
    (moved : Sharing.step s.toSharing label = some s'.toSharing) (noCommit : label ≠ .commitPage)
    (visit : s.visit = some (entry, pos))
    (known : VisitKept (s.memory.pageUsers entry.pageNo) entry pos) :
    VisitKept (s'.memory.pageUsers entry.pageNo) entry pos := by
  have otherwise : (∀ me, label ≠ .updateAll me) → label ≠ .cleanup →
      VisitKept (s'.memory.pageUsers entry.pageNo) entry pos := by
    intro noUpdate noCleanup
    obtain ⟨m₁, first, second⟩ := step_books moved noCommit noUpdate noCleanup
    have counted : (s.bumped label).pageUsers = s.memory.pageUsers := by
      rw [State.bumped]
      cases s.bumps label <;> rfl
    have users : m₁.pageUsers = s.memory.pageUsers := first.users.trans counted
    rw [second.users]
    cases records : s.records label with
    | none =>
      show VisitKept (m₁.pageUsers entry.pageNo) entry pos
      rwa [users]
    | some it =>
      show VisitKept ((m₁.recordUser it.1 it.2).pageUsers entry.pageNo) entry pos
      by_cases here : entry.pageNo = it.2
      · have room := (keeps.records it records).1
        rw [counted] at room
        have may := keeps.joins it records (entry, pos) visit here
        have small := (kept.small it.2).2
        rw [here] at known ⊢
        rw [recordUser_pageUsers_self it.1 (by rwa [users]) (by rwa [users]), users]
        exact known.join may
      · rw [recordUser_pageUsers_of_ne here, users]
        exact known
  cases label with
  | commitPage => exact absurd rfl noCommit
  | updateAll other =>
    obtain ⟨-, after⟩ := guarded moved
    rw [← after]
    exact known
  | cleanup =>
    rw [← Option.some.inj moved]
    exact known
  | handoff label => exact otherwise nofun nofun
  | globalsFault other p isWrite => exact otherwise nofun nofun
  | checkandcommit other => exact otherwise nofun nofun

theorem TwinsKept.beside (kept : TwinsKept s.memory owed) (keeps : KeepsTwins s label)
    (moved : Sharing.step s.toSharing label = some t) (noCommit : label ≠ .commitPage) :
    TwinsKept t.memory owed := by
  have otherwise : (∀ me, label ≠ .updateAll me) → label ≠ .cleanup →
      TwinsKept t.memory owed := by
    intro noUpdate noCleanup
    obtain ⟨m₁, first, second⟩ := step_books moved noCommit noUpdate noCleanup
    have bumped : TwinsKept (s.bumped label) owed := by
      unfold State.bumped
      cases bumps : s.bumps label with
      | none => exact kept
      | some p => exact kept.incrementVersion (keeps.bumps p bumps)
    have counted := bumped.congr first.lists first.users first.versions
    refine TwinsKept.congr ?_ second.lists second.users second.versions
    cases records : s.records label with
    | none => exact counted
    | some it =>
      obtain ⟨room, version⟩ := keeps.records it records
      refine counted.recordUser ⟨?_, ?_⟩
      · rwa [first.users]
      · rwa [first.users, first.versions]
  cases label with
  | commitPage => exact absurd rfl noCommit
  | updateAll me =>
    obtain ⟨-, rfl⟩ := guarded moved
    exact kept.updateAll
  | cleanup =>
    obtain rfl := Option.some.inj moved
    exact kept.congr (fun _ => rfl) rfl rfl
  | handoff label => exact otherwise nofun nofun
  | globalsFault me p isWrite => exact otherwise nofun nofun
  | checkandcommit me => exact otherwise nofun nofun

/-- **Step lemma.** -/
theorem AccessesKept.step (inv : AccessesKept s) (keeps : KeepsTwins s label)
    (move : accessStep s label = some s') : AccessesKept s' := by
  by_cases commits : label = .commitPage
  · subst commits
    obtain ⟨me, position, at_position, move⟩ := accessStep_commitPage move
    have program : (s.control me).task = .user := inv.settled me position at_position
    have may : ∀ entry, (s.memory.process me).dirtiedPagesList[position]? = some entry →
        MayVisit s.memory entry s.access := by
      intro entry found
      refine keeps.commits rfl (me, position, entry) ?_
      simp only [State.current, at_position, Option.bind_some, found, Option.map_some]
      rfl
    -- between two iterations nothing is owed
    have idle : ∀ s' : AccessState, s.owed = (fun _ => 0) → s'.memory = s.memory →
        s'.visit = none → Settled s'.toSharing → AccessesKept s' := by
      intro s' settled memory none program
      refine ⟨?_, program, fun entry pos visit => ?_⟩
      · rw [owed_of_idle none, memory, ← settled]
        exact inv.kept
      · cases none.symm.trans visit
    cases move with
    | ended found =>
      have before : s.visit = none := by
        rw [AccessState.visit, at_position, Memory.visit_of_ended found]
      refine idle _ (owed_of_idle before) rfl ?_ fun me' position' here => ?_
      · simp only [AccessState.visit, Memory.visit_idle]
      · cases here
    | begun entry found stopped =>
      have before : s.visit = none := by rw [visit_of_found at_position found, stopped]; rfl
      have after : ({ s with access := some .users } : AccessState).visit =
          some (entry, .users) := visit_of_found at_position found
      refine ⟨?_, inv.settled, fun entry' pos' visit => ?_⟩
      · rw [owed_of_visit after, owedAt_of_not_owes rfl, ← owed_of_idle before]
        exact inv.kept
      · obtain ⟨rfl, rfl⟩ := Prod.mk.inj (Option.some.inj (after.symm.trans visit))
        exact (may entry found).1 stopped
    | accessed entry pos found access goes =>
      have before : s.visit = some (entry, pos) := by
        rw [visit_of_found at_position found, access]
        rfl
      have known := inv.visit entry pos before
      have kept := inv.kept
      have allowed := may entry found
      rw [owed_of_visit before] at kept
      rw [access] at allowed
      obtain ⟨kept, known⟩ := kept.access known allowed found
      rw [visitStep_some goes]
      have page := Memory.commitAccess_pageNo s.memory me entry pos
      have after : ({ s with
          memory := s.memory.accessed me position entry pos
          access := some (s.memory.commitAccess me entry pos).2.2 } : AccessState).visit =
          some ((s.memory.commitAccess me entry pos).2.1,
            (s.memory.commitAccess me entry pos).2.2) :=
        visit_of_found at_position (Memory.accessed_found found)
      refine ⟨?_, inv.settled, fun entry' pos' visit => ?_⟩
      · rw [owed_of_visit after, page]
        exact kept
      · obtain ⟨rfl, rfl⟩ := Prod.mk.inj (Option.some.inj (after.symm.trans visit))
        rw [page]
        exact known
    | passed entry found done =>
      have before : s.visit = some (entry, .done) := by
        rw [visit_of_found at_position found, done]
        rfl
      refine idle _ ?_ rfl ?_ ?_
      · rw [owed_of_visit before, owedAt_of_not_owes rfl]
      · simp only [AccessState.visit, Memory.visit_between]
      · intro me' position' here
        obtain ⟨rfl, -⟩ := Prod.mk.inj (Option.some.inj here)
        exact program
  · obtain ⟨moved, -⟩ := accessStep_of_ne move commits
    obtain ⟨same, settled⟩ := accessStep_visit inv.settled move commits
    refine ⟨?_, settled, fun entry pos visit => ?_⟩
    · have owed : s'.owed = s.owed := by rw [AccessState.owed, AccessState.owed, same]
      rw [owed]
      exact inv.kept.beside keeps moved commits
    · rw [same] at visit
      exact (inv.visit entry pos visit).beside inv.kept keeps moved commits visit

theorem initial_accessesKept (content : PageId → Page) (allocated : ℕ) :
    AccessesKept ⟨initial content allocated, none⟩ where
  kept :=
    { owing := fun _ => Nat.zero_le _
      counted := fun _ _ => (Finset.sum_eq_zero fun _ _ => rfl).le
      small := fun _ => ⟨Nat.two_pow_pos 16, Nat.two_pow_pos 16⟩
      slow := fun _ _ member => absurd member List.not_mem_nil }
  settled := nofun
  visit := nofun

theorem accessesKept_of_keepsTwins (reach : accessSystem.Reachable KeepsTwins s) :
    AccessesKept s := by
  refine reach.invariant AccessesKept ?_ fun _ _ _ inv keeps move => inv.step keeps move
  rintro _ ⟨content, allocated, rfl⟩
  exact initial_accessesKept content allocated

/-! ## Slow commits have twins -/

/-- `checkandcommit` is in the branch that takes the differences to the twin. -/
def SlowCommit (s : AccessState) (entry : Xpageinfo) (pos : VisitPos) : Prop :=
  s.visit = some (entry, pos) ∧ pos.slow = true

/-- There is a twin, and it is the one whose address is taken. -/
def HasTwin (info : Shareinfo) (pos : VisitPos) : Prop :=
  info.bitmapIndex ≠ 0 ∧ ∀ index ∈ pos.twinIndex, index ≠ 0

/-- **Slow commits have twins.** In every run whose steps all meet the condition, whenever a commit
takes the differences to the twin, there is a twin. -/
theorem hasTwin_of_keepsTwins (reach : accessSystem.Reachable KeepsTwins s)
    (slow : SlowCommit s entry pos) : HasTwin (s.memory.pageUsers entry.pageNo) pos := by
  obtain ⟨visit, slow⟩ := slow
  have known := (accessesKept_of_keepsTwins reach).visit entry pos visit
  cases pos with
  | twin => exact ⟨known.2, nofun⟩
  | share index | diffs index =>
    refine ⟨known.2.1, fun taken here => ?_⟩
    obtain rfl := Option.some.inj here
    exact known.2.2
  | _ => cases slow

/-- A test for the condition that looks at no other process. -/
def keepsTwins (s : AccessState) (label : Label) : Bool :=
  (s.bumps label).all (fun p => (s.memory.pageUsers p).users ≠ 1 ∨
      (s.memory.pageUsers p).bitmapIndex ≠ 0) &&
    (s.records label).all (fun it => MayRecord (s.bumped label) it.2 ∧
      s.visit.all fun visit => visit.1.pageNo = it.2 →
        MayJoin (s.memory.pageUsers it.2) visit.2) &&
    s.current.all (fun it => MayVisit s.memory it.2.2 s.access)

theorem keepsTwins_sound (passes : keepsTwins s label = true) : KeepsTwins s label := by
  simp only [keepsTwins, Bool.and_eq_true, Option.all_eq_true, decide_eq_true_eq] at passes
  obtain ⟨⟨bumps, records⟩, commits⟩ := passes
  exact ⟨fun p bumped _ => bumps p bumped, fun it record => (records it record).1,
    fun it record => (records it record).2, fun _ => commits⟩

/-- Two processes write to a shared page, and one commits. A third one writes to it when the twin
is made, before the version is counted up. The second one takes the differences to the twin. -/
theorem hasTwin_second : ∃ s entry pos, accessSystem.Reachable KeepsTwins s ∧
    SlowCommit s entry pos ∧ HasTwin (s.memory.pageUsers entry.pageNo) pos := by
  let labels : List Label :=
    [.handoff (.fault 1 (heapPage 0) true), .handoff (.fault 2 (heapPage 0) true),
      .checkandcommit 1] ++ List.replicate 13 .commitPage ++
    [.handoff (.fault 3 (heapPage 0) true)] ++ List.replicate 6 .commitPage ++
    [.checkandcommit 2] ++ List.replicate 7 .commitPage
  have run : (accessSystem.runIf keepsTwins ⟨initial (fun _ _ => 0) 1, none⟩ labels).any fun s =>
      s.visit.any fun visit => visit.2.slow := by decide +kernel
  obtain ⟨s, execution, visited⟩ := (Option.any_eq_true _ _).mp run
  obtain ⟨⟨entry, pos⟩, visit, slow⟩ := (Option.any_eq_true _ _).mp visited
  have start : accessSystem.Reachable KeepsTwins ⟨initial (fun _ _ => 0) 1, none⟩ :=
    .init ⟨_, _, rfl⟩
  have reach := start.runIf (fun _ _ => keepsTwins_sound) execution
  exact ⟨s, entry, pos, reach, ⟨visit, slow⟩, hasTwin_of_keepsTwins reach ⟨visit, slow⟩⟩

/-- Process 2 finds the page shared and makes its entry before the handler of its owner, process 1,
counts the version up. -/
def entersBeforeVersion : List Label := [.handoff (.malloc 1 1),
  .handoff (.fault 2 (heapPage 0) true), .handoff (.exec 2), .handoff (.exec 2),
  .handoff (.exec 2), .handoff (.deliver 1), .handoff (.exec 1), .handoff (.exec 1),
  .handoff (.exec 1), .handoff (.exec 2), .handoff (.exec 2), .handoff (.exec 1),
  .handoff (.exec 1), .handoff (.exec 1), .checkandcommit 2] ++ List.replicate 5 .commitPage

theorem not_hasTwin_handoff : ¬ ∀ s entry pos, accessSystem.Reachable AnyStep s →
    SlowCommit s entry pos → HasTwin (s.memory.pageUsers entry.pageNo) pos := by
  intro hasTwin
  have run : (accessSystem.run ⟨initial (fun _ _ => 0) 0, none⟩ entersBeforeVersion).any fun s =>
      s.visit.any fun visit => visit.2.slow &&
        (s.memory.pageUsers visit.1.pageNo).bitmapIndex = 0 := by
    decide +kernel
  obtain ⟨s, execution, visited⟩ := (Option.any_eq_true _ _).mp run
  obtain ⟨⟨entry, pos⟩, visit, facts⟩ := (Option.any_eq_true _ _).mp visited
  obtain ⟨slow, absent⟩ := Bool.and_eq_true_iff.mp facts
  have start : accessSystem.Reachable AnyStep ⟨initial (fun _ _ => 0) 0, none⟩ :=
    .init ⟨_, _, rfl⟩
  exact (hasTwin s entry pos (start.run execution) ⟨visit, slow⟩).1
    (of_decide_eq_true absent)

end Tthread.Sharing
