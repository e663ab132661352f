/-
# Twin pages

While a page has users and a twin, the twin is the shared page as it was when the
twin was made, and no other page uses its storage. The storage is handed out in
order, so both follow from the counter being ahead of every twin in use. A cleanup
that comes while a twin is in use breaks this, or between `xbitmap::get` and the store of
`bitmapIndex`, as do an index that an unsigned short cannot hold and a version number stored in
the page of a twin.
-/

import Tthread.CommitAccesses

open Transition

namespace Tthread.PageSystem

/-- The page has users and a twin. -/
def LiveTwin (m : Memory) (p : PageId) : Prop :=
  1 ≤ (m.pageUsers p).users ∧ (m.pageUsers p).bitmapIndex ≠ 0

instance (m : Memory) (p : PageId) : Decidable (LiveTwin m p) :=
  inferInstanceAs (Decidable (_ ∧ _))

/-- Twins in use hold what they held when they were made, in storage of their own. -/
structure TwinsIntact (s : AccessState) : Prop where
  /-- the one that `createTwinPage` is writing apart -/
  intact : ∀ p, LiveTwin s.memory p → s.making ≠ some p →
    s.memory.bitmap.page (s.memory.pageUsers p).bitmapIndex = s.twinContent p
  apart : ∀ p q, p ≠ q → LiveTwin s.memory p → LiveTwin s.memory q →
    let start := Xbitmap.getAddress (s.memory.pageUsers p).bitmapIndex
    let start' := Xbitmap.getAddress (s.memory.pageUsers q).bitmapIndex
    start + pageSize ≤ start' ∨ start' + pageSize ≤ start

/-- The index the next twin gets fits its field, and its version number is not stored in
the page of a twin in use. -/
def TwinFits (m : Memory) : Prop :=
  m.bitmap.get.1 < 2 ^ 16 ∧
    ∀ p, LiveTwin m p → ¬ Xbitmap.Overlays m.bitmap.get.1 (m.pageUsers p).bitmapIndex

/-- The condition on a step: a page has fewer than 65535 users before a write fault, a
twin that is made fits, and a cleanup finds no twin in use and no index on its way from
`xbitmap::get` to `bitmapIndex`. -/
def KeepsTwins (s : AccessState) : Label → Prop
  | .writeFault _ p => (s.memory.pageUsers p).users < 2 ^ 16 - 1
  | .commitPage => ∀ entry, s.visit = some (entry, .room) → TwinFits s.memory
  | .cleanup => (∀ p, ¬ LiveTwin s.memory p) ∧
      ∀ entry pos, s.visit = some (entry, pos) → pos.allocating = false
  | _ => True

/-! ## The invariant -/

/-- All twins are in order, and all but one hold their content. -/
structure TwinInv (m : Memory) (content : PageId → Page) (making : Option PageId) : Prop where
  positive : 0 < m.bitmap.cur
  small : ∀ p, (m.pageUsers p).users < 2 ^ 16 ∧ (m.pageUsers p).bitmapIndex < 2 ^ 16
  counted : ∀ p, (m.pageUsers p).users = 0 → (m.pageUsers p).bitmapIndex = 0
  fresh : ∀ p, (m.pageUsers p).bitmapIndex ≠ 0 → (m.pageUsers p).bitmapIndex < m.bitmap.cur
  intact : ∀ p, (m.pageUsers p).bitmapIndex ≠ 0 → making ≠ some p →
    m.bitmap.page (m.pageUsers p).bitmapIndex = content p
  distinct : ∀ p q, (m.pageUsers p).bitmapIndex ≠ 0 →
    (m.pageUsers p).bitmapIndex = (m.pageUsers q).bitmapIndex → p = q

/-- No other page uses the storage of the index, for a twin or for the number of its version. -/
structure FreshIndex (m : Memory) (p : PageId) (index : ℕ) : Prop where
  small : index < 2 ^ 16
  others : ∀ q, q ≠ p → (m.pageUsers q).bitmapIndex ≠ 0 →
    (m.pageUsers q).bitmapIndex ≠ index ∧
      ¬ Xbitmap.Overlays index (m.pageUsers q).bitmapIndex

/-- What is known of the page that an iteration visits, by the access that comes next. -/
def TwinPos (m : Memory) (content : PageId → Page) (p : PageId) : VisitPos → Prop
  | .bitmapIndex => 1 < (m.pageUsers p).users
  | .room => 1 < (m.pageUsers p).users ∧ (m.pageUsers p).bitmapIndex = 0
  | .take => 1 < (m.pageUsers p).users ∧ (m.pageUsers p).bitmapIndex = 0 ∧
      FreshIndex m p m.bitmap.cur
  | .advance index => 1 < (m.pageUsers p).users ∧ (m.pageUsers p).bitmapIndex = 0 ∧
      FreshIndex m p index ∧ index = m.bitmap.cur
  | .setIndex index => 1 < (m.pageUsers p).users ∧ (m.pageUsers p).bitmapIndex = 0 ∧
      FreshIndex m p index ∧ index < m.bitmap.cur
  | .copyTwin index => 1 < (m.pageUsers p).users ∧ (m.pageUsers p).bitmapIndex = index ∧
      FreshIndex m p index
  | .setVersion index => 1 < (m.pageUsers p).users ∧ (m.pageUsers p).bitmapIndex = index ∧
      FreshIndex m p index ∧ m.bitmap.page index = content p
  -- whoever is last gives the twin back, before it stops being a user
  | .load => (m.pageUsers p).bitmapIndex ≠ 0 → 1 < (m.pageUsers p).users
  | .store users => users < 2 ^ 16 ∧ ((m.pageUsers p).bitmapIndex ≠ 0 → 1 < users)
  | _ => True

variable {m m' : Memory} {content : PageId → Page} {making : Option PageId} {me : ℕ}
  {p : PageId} {pos : VisitPos} {index : ℕ}

theorem TwinInv.liveTwin (inv : TwinInv m content making)
    (twin : (m.pageUsers p).bitmapIndex ≠ 0) : LiveTwin m p :=
  ⟨Nat.one_le_iff_ne_zero.mpr fun none => twin (inv.counted p none), twin⟩

/-- Only the users, their twins and the storage matter. -/
theorem TwinInv.congr (inv : TwinInv m content making) (users : m'.pageUsers = m.pageUsers)
    (bitmap : m'.bitmap = m.bitmap) : TwinInv m' content making where
  positive := by rw [bitmap]; exact inv.positive
  small := by rw [users]; exact inv.small
  counted := by rw [users]; exact inv.counted
  fresh := by rw [users, bitmap]; exact inv.fresh
  intact := by rw [users, bitmap]; exact inv.intact
  distinct := by rw [users]; exact inv.distinct

/-- A page whose twin stays or goes. -/
theorem TwinInv.setShareinfo (inv : TwinInv m content making) (p : PageId) (info : Shareinfo)
    (twin : info.bitmapIndex = (m.pageUsers p).bitmapIndex ∨ info.bitmapIndex = 0)
    (small : info.users < 2 ^ 16) (counted : info.users = 0 → info.bitmapIndex = 0)
    (users : m'.pageUsers = Function.update m.pageUsers p info) (bitmap : m'.bitmap = m.bitmap) :
    TwinInv m' content making := by
  -- A page that has a twin now has had the same one.
  have old : ∀ q, (m'.pageUsers q).bitmapIndex ≠ 0 →
      (m'.pageUsers q).bitmapIndex = (m.pageUsers q).bitmapIndex := by
    intro q twinQ
    rw [users] at twinQ ⊢
    by_cases same : q = p
    · subst same
      rw [Function.update_self] at twinQ ⊢
      exact twin.resolve_right twinQ
    · rw [Function.update_of_ne same]
  refine ⟨bitmap ▸ inv.positive, ?_, ?_, ?_, ?_, ?_⟩
  · intro q
    rw [users]
    by_cases same : q = p
    · subst same
      rw [Function.update_self]
      refine ⟨small, ?_⟩
      rcases twin with kept | gone
      · exact kept ▸ (inv.small q).2
      · exact gone ▸ Nat.two_pow_pos 16
    · rw [Function.update_of_ne same]
      exact inv.small q
  · intro q
    rw [users]
    by_cases same : q = p
    · subst same
      rw [Function.update_self]
      exact counted
    · rw [Function.update_of_ne same]
      exact inv.counted q
  · intro q twinQ
    rw [old q twinQ, bitmap]
    exact inv.fresh q (old q twinQ ▸ twinQ)
  · intro q twinQ
    rw [old q twinQ, bitmap]
    exact inv.intact q (old q twinQ ▸ twinQ)
  · intro q r twinQ same
    have twinR : (m'.pageUsers r).bitmapIndex ≠ 0 := same ▸ twinQ
    rw [old q twinQ, old r twinR] at same
    exact inv.distinct q r (old q twinQ ▸ twinQ) same

theorem TwinInv.recordUser (inv : TwinInv m content making)
    (room : (m.pageUsers p).users < 2 ^ 16 - 1) : TwinInv (m.recordUser me p) content making := by
  have info := increment_eq room (inv.small p).2
  refine inv.setShareinfo p (m.pageUsers p).increment (.inl ?_) ?_ ?_ rfl rfl
  · rw [info]
  · rw [info]
    show (m.pageUsers p).users + 1 < 2 ^ 16
    omega
  · rw [info]
    exact fun none => absurd none (Nat.succ_ne_zero _)

theorem TwinInv.handleWrite (inv : TwinInv m content making)
    (room : (m.pageUsers p).users < 2 ^ 16 - 1) :
    TwinInv (m.handleWrite me p) content making := by
  have opened : TwinInv (m.openPage me p) content making :=
    inv.congr Memory.openPage_pageUsers Memory.openPage_bitmap
  simp only [Memory.handleWrite]
  split
  · exact opened
  · exact opened.recordUser (by rw [Memory.openPage_pageUsers]; exact room)

/-- A write fault adds at most a user. -/
theorem handleWrite_pageUsers (me : ℕ) (room : (m.pageUsers p).users < 2 ^ 16 - 1)
    (small : (m.pageUsers p).bitmapIndex < 2 ^ 16) (q : PageId) :
    (m.pageUsers q).users ≤ ((m.handleWrite me p).pageUsers q).users ∧
      ((m.handleWrite me p).pageUsers q).bitmapIndex = (m.pageUsers q).bitmapIndex := by
  simp only [Memory.handleWrite]
  split
  · rw [Memory.openPage_pageUsers]
    exact ⟨le_rfl, rfl⟩
  · show _ ≤ (Function.update (m.openPage me p).pageUsers p _ q).users ∧
      (Function.update (m.openPage me p).pageUsers p _ q).bitmapIndex = _
    rw [Memory.openPage_pageUsers, increment_eq room small]
    by_cases same : q = p
    · subst same
      rw [Function.update_self]
      exact ⟨Nat.le_succ _, rfl⟩
    · rw [Function.update_of_ne same]
      exact ⟨le_rfl, rfl⟩

theorem handleWrite_bitmap : (m.handleWrite me p).bitmap = m.bitmap := by
  simp only [Memory.handleWrite]
  split
  · exact Memory.openPage_bitmap
  · exact Memory.openPage_bitmap

/-- With no twin in use the counter can start again. -/
theorem TwinInv.cleanup (inv : TwinInv m content making) (unused : ∀ p, ¬ LiveTwin m p) :
    TwinInv { m with bitmap := m.bitmap.cleanup } content making := by
  have noTwin : ∀ p, (m.pageUsers p).bitmapIndex = 0 :=
    fun p => not_not.mp fun twin => unused p (inv.liveTwin twin)
  exact ⟨Nat.one_pos, inv.small, inv.counted, fun p twin => absurd (noTwin p) twin,
    fun p twin => absurd (noTwin p) twin, inv.distinct⟩

/-! ## The accesses of a commit -/

theorem FreshIndex.congr (fresh : FreshIndex m p index)
    (same : ∀ q, (m'.pageUsers q).bitmapIndex = (m.pageUsers q).bitmapIndex) :
    FreshIndex m' p index := by
  refine ⟨fresh.small, fun q other => ?_⟩
  rw [same q]
  exact fresh.others q other

/-- More users, and storage that stays, do not matter to a commit; nor does the counter, unless an
index is on its way. -/
theorem TwinPos.congr (at_ : TwinPos m content p pos)
    (users : ∀ q, (m.pageUsers q).users ≤ (m'.pageUsers q).users)
    (same : ∀ q, (m'.pageUsers q).bitmapIndex = (m.pageUsers q).bitmapIndex)
    (bytes : m'.bitmap.bytes = m.bitmap.bytes)
    (counter : pos.allocating → m'.bitmap.cur = m.bitmap.cur) :
    TwinPos m' content p pos := by
  have grown := users p
  have index := same p
  cases pos with
  | bitmapIndex => exact Nat.lt_of_lt_of_le at_ grown
  | room => exact ⟨at_.1.trans_le grown, index.trans at_.2⟩
  | take =>
    refine ⟨at_.1.trans_le grown, index.trans at_.2.1, ?_⟩
    rw [counter rfl]
    exact at_.2.2.congr same
  | advance i =>
    exact ⟨at_.1.trans_le grown, index.trans at_.2.1, at_.2.2.1.congr same,
      at_.2.2.2.trans (counter rfl).symm⟩
  | setIndex i =>
    exact ⟨at_.1.trans_le grown, index.trans at_.2.1, at_.2.2.1.congr same,
      at_.2.2.2.trans_eq (counter rfl).symm⟩
  | copyTwin i => exact ⟨at_.1.trans_le grown, index.trans at_.2.1, at_.2.2.congr same⟩
  | setVersion i =>
    exact ⟨at_.1.trans_le grown, index.trans at_.2.1, at_.2.2.1.congr same,
      (Xbitmap.page_congr bytes).trans at_.2.2.2⟩
  | load => exact fun twin => (at_ (index ▸ twin)).trans_le grown
  | store u => exact ⟨at_.1, fun twin => at_.2 (index ▸ twin)⟩
  | _ => trivial

/-- An index that `xbitmap::get` hands out is no one's. -/
theorem TwinInv.fresh_cur (inv : TwinInv m content making) (fits : TwinFits m)
    (room : m.bitmap.cur + 1 < Xbitmap.total) : FreshIndex m p m.bitmap.cur := by
  have index : m.bitmap.get.1 = m.bitmap.cur := by rw [Xbitmap.get, if_pos room]
  rw [TwinFits, index] at fits
  exact ⟨fits.1, fun q _ twin => ⟨(inv.fresh q twin).ne, fits.2 q (inv.liveTwin twin)⟩⟩

/-- Nor is index 0, which it returns when there is none left. -/
theorem TwinInv.fresh_zero (inv : TwinInv m content making) (fits : TwinFits m)
    (full : ¬ m.bitmap.cur + 1 < Xbitmap.total) : FreshIndex m p 0 := by
  have index : m.bitmap.get.1 = 0 := by rw [Xbitmap.get, if_neg full]
  rw [TwinFits, index] at fits
  exact ⟨fits.1, fun q _ twin => ⟨twin, fits.2 q (inv.liveTwin twin)⟩⟩

theorem TwinInv.advance (inv : TwinInv m content making) :
    TwinInv { m with bitmap := { m.bitmap with cur := m.bitmap.cur + 1 } } content making :=
  ⟨Nat.succ_pos _, inv.small, inv.counted,
    fun q twin => (inv.fresh q twin).trans (Nat.lt_succ_self _), inv.intact, inv.distinct⟩

theorem setBitmapIndex_bitmapIndex (small : index < 2 ^ 16) (q : PageId) :
    ((m.setBitmapIndex p index).pageUsers q).bitmapIndex =
      if q = p then index else (m.pageUsers q).bitmapIndex := by
  show (Function.update m.pageUsers p _ q).bitmapIndex = _
  by_cases same : q = p
  · subst same
    rw [Function.update_self, if_pos rfl]
    exact Nat.mod_eq_of_lt small
  · rw [Function.update_of_ne same, if_neg same]

theorem setBitmapIndex_users (q : PageId) :
    ((m.setBitmapIndex p index).pageUsers q).users = (m.pageUsers q).users := by
  show (Function.update m.pageUsers p _ q).users = _
  by_cases same : q = p
  · subst same
    rw [Function.update_self]
  · rw [Function.update_of_ne same]

/-- The page gets the index of storage that no one uses. -/
theorem TwinInv.setIndex (inv : TwinInv m content none) (several : 1 < (m.pageUsers p).users)
    (fresh : FreshIndex m p index) (counter : index < m.bitmap.cur) :
    TwinInv (m.setBitmapIndex p index) content (some p) := by
  have indices := setBitmapIndex_bitmapIndex (m := m) (p := p) fresh.small
  refine ⟨inv.positive, ?_, ?_, ?_, ?_, ?_⟩
  · intro q
    rw [indices, setBitmapIndex_users]
    refine ⟨(inv.small q).1, ?_⟩
    split
    · exact fresh.small
    · exact (inv.small q).2
  · intro q none
    rw [setBitmapIndex_users] at none
    rw [indices]
    split
    -- The page has users: that is why it gets a twin.
    · next same =>
      rw [same] at none
      omega
    · exact inv.counted q none
  · intro q twin
    rw [indices] at twin ⊢
    split
    · exact counter
    · next other =>
      rw [if_neg other] at twin
      exact inv.fresh q twin
  · intro q twin ready
    have other : q ≠ p := fun same => ready (congrArg some same.symm)
    rw [indices, if_neg other] at twin ⊢
    exact inv.intact q twin (Option.some_ne_none q).symm
  · intro q r twin same
    rw [indices] at twin
    rw [indices, indices] at same
    by_cases isQ : q = p <;> by_cases isR : r = p
    · rw [isQ, isR]
    · -- An index handed out now is no older one.
      rw [if_pos isQ] at twin same
      rw [if_neg isR] at same
      exact absurd same.symm (fresh.others r isR (same ▸ twin)).1
    · rw [if_neg isQ] at twin same
      rw [if_pos isR] at same
      exact absurd same (fresh.others q isQ twin).1
    · rw [if_neg isQ] at twin same
      rw [if_neg isR] at same
      exact inv.distinct q r twin same

/-- The storage of the new twin is written. -/
theorem TwinInv.copyTwin (inv : TwinInv m content (some p)) (fresh : FreshIndex m p index)
    (page : Page) :
    TwinInv { m with bitmap := m.bitmap.setPage index page } (Function.update content p page)
      (some p) := by
  refine ⟨inv.positive, inv.small, inv.counted, inv.fresh, ?_, inv.distinct⟩
  intro q twin ready
  have other : q ≠ p := fun same => ready (congrArg some same.symm)
  show (m.bitmap.setPage index page).page _ = _
  rw [Function.update_of_ne other, Xbitmap.page_setPage_of_ne (fresh.others q other twin).1]
  exact inv.intact q twin ready

/-- With the number of its version the twin is made. -/
theorem TwinInv.setVersion (inv : TwinInv m content (some p)) (fresh : FreshIndex m p index)
    (here : (m.pageUsers p).bitmapIndex = index) (copied : m.bitmap.page index = content p)
    (version : ℕ) :
    TwinInv { m with bitmap := m.bitmap.setVersion index version } content none := by
  refine ⟨inv.positive, inv.small, inv.counted, inv.fresh, ?_, inv.distinct⟩
  intro q twin _
  show (m.bitmap.setVersion index version).page (m.pageUsers q).bitmapIndex = _
  by_cases same : q = p
  · subst same
    rw [here, Xbitmap.page_setVersion (Xbitmap.not_overlays_self _), copied]
  · rw [Xbitmap.page_setVersion (fresh.others q same twin).2]
    exact inv.intact q twin fun made => same (Option.some.inj made).symm

/-- One user less. -/
theorem TwinInv.setUsers (inv : TwinInv m content making) {users : ℕ} (small : users < 2 ^ 16)
    (twin : (m.pageUsers p).bitmapIndex ≠ 0 → 1 < users) :
    TwinInv (m.setUsers p ((users + (2 ^ 16 - 1)) % 2 ^ 16)) content making := by
  refine inv.setShareinfo p ⟨(users + (2 ^ 16 - 1)) % 2 ^ 16, (m.pageUsers p).bitmapIndex⟩
    (.inl rfl)
    (Nat.mod_lt _ (Nat.two_pow_pos 16)) ?_ rfl rfl
  intro none
  by_contra kept
  have several := twin kept
  dsimp only at none
  omega

/-- The page whose twin is not written yet, at an access. -/
def makingAt (p : PageId) (pos : VisitPos) : Option PageId := if pos.making then some p else none

/-- **One access of a commit** keeps the twins in order. -/
theorem TwinInv.commitAccess (me : ℕ) {entry : Xpageinfo}
    (inv : TwinInv m content (makingAt entry.pageNo pos))
    (at_ : TwinPos m content entry.pageNo pos) (fits : pos = .room → TwinFits m) :
    let result := m.commitAccess me entry pos
    let content' := twinContentAfter m content entry.pageNo pos
    TwinInv result.1 content' (makingAt entry.pageNo result.2.2) ∧
      TwinPos result.1 content' entry.pageNo result.2.2 := by
  intro result content'
  cases pos with
  | users =>
    by_cases several : 1 < (m.pageUsers entry.pageNo).users
    · simp only [result, Memory.commitAccess, if_pos several]
      exact ⟨inv, several⟩
    · simp only [result, Memory.commitAccess, if_neg several]
      exact ⟨inv, trivial⟩
  | bitmapIndex =>
    by_cases none : (m.pageUsers entry.pageNo).bitmapIndex = 0
    · simp only [result, Memory.commitAccess, if_pos none]
      exact ⟨inv, at_, none⟩
    · simp only [result, Memory.commitAccess, if_neg none]
      exact ⟨inv, trivial⟩
  | room =>
    by_cases room : m.bitmap.cur + 1 < Xbitmap.total
    · simp only [result, Memory.commitAccess, if_pos room]
      exact ⟨inv, at_.1, at_.2, inv.fresh_cur (fits rfl) room⟩
    · simp only [result, Memory.commitAccess, if_neg room]
      exact ⟨inv, at_.1, at_.2, inv.fresh_zero (fits rfl) room, inv.positive⟩
  | take => exact ⟨inv, at_.1, at_.2.1, at_.2.2, rfl⟩
  | advance index =>
    refine ⟨inv.advance, at_.1, at_.2.1, at_.2.2.1.congr fun _ => rfl, ?_⟩
    show index < m.bitmap.cur + 1
    rw [at_.2.2.2]
    exact Nat.lt_succ_self _
  | setIndex index =>
    have indices := setBitmapIndex_bitmapIndex (m := m) (p := entry.pageNo) at_.2.2.1.small
    refine ⟨inv.setIndex at_.1 at_.2.2.1 at_.2.2.2, ?_, ?_, at_.2.2.1.small, ?_⟩
    · show 1 < ((m.setBitmapIndex entry.pageNo index).pageUsers entry.pageNo).users
      rw [setBitmapIndex_users]
      exact at_.1
    · show ((m.setBitmapIndex entry.pageNo index).pageUsers entry.pageNo).bitmapIndex = index
      rw [indices, if_pos rfl]
    · intro q other twin
      change ((m.setBitmapIndex entry.pageNo index).pageUsers q).bitmapIndex ≠ 0 at twin
      show ((m.setBitmapIndex entry.pageNo index).pageUsers q).bitmapIndex ≠ index ∧
        ¬ Xbitmap.Overlays index ((m.setBitmapIndex entry.pageNo index).pageUsers q).bitmapIndex
      rw [indices, if_neg other] at twin ⊢
      exact at_.2.2.1.others q other twin
  | copyTwin index =>
    refine ⟨inv.copyTwin at_.2.2 _, at_.1, at_.2.1, at_.2.2.congr fun _ => rfl, ?_⟩
    show (m.bitmap.setPage index _).page index = Function.update content entry.pageNo _ entry.pageNo
    rw [Xbitmap.page_setPage_self, Function.update_self]
  | setVersion index => exact ⟨inv.setVersion at_.2.2.1 at_.2.1 at_.2.2.2 _, trivial⟩
  | sole =>
    by_cases several : (m.pageUsers entry.pageNo).users ≠ 1
    · simp only [result, Memory.commitAccess, if_pos several]
      exact ⟨inv, trivial⟩
    · simp only [result, Memory.commitAccess, if_neg several]
      exact ⟨inv, trivial⟩
  | owner =>
    by_cases unowned : m.pageOwner entry.pageNo ≠ .process me
    · simp only [result, Memory.commitAccess, if_pos unowned]
      exact ⟨inv, trivial⟩
    · simp only [result, Memory.commitAccess, if_neg unowned]
      exact ⟨inv, trivial⟩
  | version =>
    by_cases current : entry.version = m.versions entry.pageNo
    · simp only [result, Memory.commitAccess, if_pos current]
      exact ⟨inv, trivial⟩
    · simp only [result, Memory.commitAccess, if_neg current]
      exact ⟨inv, trivial⟩
  | copy => exact ⟨inv.congr rfl rfl, trivial⟩
  | twin => exact ⟨inv, trivial⟩
  | share index =>
    exact ⟨inv.congr Memory.setSharedPage_pageUsers Memory.setSharedPage_bitmap, trivial⟩
  | diffs index => exact ⟨inv.congr rfl rfl, trivial⟩
  | last =>
    by_cases sole : (m.pageUsers entry.pageNo).users = 1
    · simp only [result, Memory.commitAccess, if_pos sole]
      exact ⟨inv, trivial⟩
    · simp only [result, Memory.commitAccess, if_neg sole]
      refine ⟨inv, fun twin => ?_⟩
      have some := (inv.liveTwin twin).1
      show 1 < (m.pageUsers entry.pageNo).users
      omega
  | clear =>
    refine ⟨inv.setShareinfo entry.pageNo ⟨(m.pageUsers entry.pageNo).users, 0⟩ (.inr rfl)
      (inv.small _).1 (fun _ => rfl) rfl rfl, fun twin => absurd ?_ twin⟩
    show ((m.setBitmapIndex entry.pageNo 0).pageUsers entry.pageNo).bitmapIndex = 0
    rw [setBitmapIndex_bitmapIndex (Nat.two_pow_pos 16), if_pos rfl]
  | load => exact ⟨inv, (inv.small _).1, at_⟩
  | store users => exact ⟨inv.setUsers at_.1 at_.2, trivial⟩
  | loadVersion => exact ⟨inv, trivial⟩
  | storeVersion version => exact ⟨inv.congr rfl rfl, trivial⟩
  | done => exact ⟨inv, trivial⟩

/-! ## Twins over whole runs -/

/-- The invariant of the states of a run. -/
structure TwinState (s : AccessState) : Prop where
  twins : TwinInv s.memory s.twinContent s.making
  at_ : ∀ entry pos, s.visit = some (entry, pos) →
    TwinPos s.memory s.twinContent entry.pageNo pos

variable {s s' : AccessState} {label : Label} {entry : Xpageinfo}

theorem making_of_visit (visit : s.visit = some (entry, pos)) :
    s.making = makingAt entry.pageNo pos := by
  rw [AccessState.making, visit]
  rfl

theorem making_of_none (visit : s.visit = none) : s.making = none := by
  rw [AccessState.making, visit]
  rfl

/-- Steps other than those of the commit. -/
theorem TwinState.other (inv : TwinState s) (same : s'.visit = s.visit)
    (content : s'.twinContent = s.twinContent)
    (twins : TwinInv s'.memory s.twinContent s.making)
    (users : ∀ q, (s.memory.pageUsers q).users ≤ (s'.memory.pageUsers q).users)
    (index : ∀ q, (s'.memory.pageUsers q).bitmapIndex = (s.memory.pageUsers q).bitmapIndex)
    (bytes : s'.memory.bitmap.bytes = s.memory.bitmap.bytes)
    (counter : ∀ entry pos, s.visit = some (entry, pos) → pos.allocating →
      s'.memory.bitmap.cur = s.memory.bitmap.cur) : TwinState s' := by
  refine ⟨?_, fun entry pos visit => ?_⟩
  · rw [content, AccessState.making, same]
    exact twins
  · rw [same] at visit
    rw [content]
    exact (inv.at_ entry pos visit).congr users index bytes (counter entry pos visit)

/-- The next access of a commit, or the begin or end of an iteration or of the commit. -/
theorem TwinState.commit (inv : TwinState s)
    (fits : ∀ entry, s.visit = some (entry, .room) → TwinFits s.memory)
    (move : accessStep s .commitPage = some s') : TwinState s' := by
  obtain ⟨me, position, at_position, move⟩ := accessStep_commitPage move
  -- the invariant outside an iteration
  have idle : ∀ s' : AccessState, s'.visit = none → TwinInv s'.memory s'.twinContent none →
      TwinState s' := by
    intro s' none twins
    refine ⟨?_, fun entry pos visit => by cases none.symm.trans visit⟩
    rw [making_of_none none]
    exact twins
  have twins := inv.twins
  cases move with
  | ended found =>
    have before : s.visit = none := visit_of_ended at_position found
    rw [making_of_none before] at twins
    exact idle _ rfl twins
  | begun entry found stopped =>
    have before : s.visit = none := by rw [visit_eq at_position found, stopped]; rfl
    have after : ({ s with access := some .users } : AccessState).visit = some (entry, .users) :=
      visit_eq at_position found
    rw [making_of_none before] at twins
    refine ⟨?_, fun entry' pos' visit => ?_⟩
    · rw [making_of_visit after]
      exact twins
    · cases after.symm.trans visit
      trivial
  | accessed entry pos found access _ =>
    have before : s.visit = some (entry, pos) := by rw [visit_eq at_position found, access]; rfl
    have after := accessed_visit pos at_position found
    rw [making_of_visit before] at twins
    obtain ⟨kept, next⟩ := twins.commitAccess me (inv.at_ entry pos before)
      fun room => fits entry (room ▸ before)
    refine ⟨?_, fun entry' pos' visit => ?_⟩
    · rw [making_of_visit after, Memory.commitAccess_pageNo]
      exact kept.congr rfl rfl
    · cases after.symm.trans visit
      rw [Memory.commitAccess_pageNo]
      exact next.congr (fun _ => le_rfl) (fun _ => rfl) rfl fun _ => rfl
  | passed entry found done =>
    have before : s.visit = some (entry, .done) := by rw [visit_eq at_position found, done]; rfl
    rw [making_of_visit before] at twins
    exact idle _ (by simp only [AccessState.visit, Memory.visit_between]) twins

theorem TwinState.step (inv : TwinState s) (keeps : KeepsTwins s label)
    (move : accessStep s label = some s') : TwinState s' := by
  by_cases commit : label = .commitPage
  · subst commit
    exact inv.commit keeps move
  · obtain ⟨moved, -⟩ := accessStep_of_ne move commit
    have same := accessStep_visit move commit
    -- most steps leave users, indices and storage alone
    have quiet : s'.twinContent = s.twinContent → s'.memory.pageUsers = s.memory.pageUsers →
        s'.memory.bitmap = s.memory.bitmap → TwinState s' := by
      intro content users bitmap
      exact inv.other same content (inv.twins.congr users bitmap)
        (fun q => by rw [users]) (fun q => by rw [users]) (by rw [bitmap])
        (fun _ _ _ _ => by rw [bitmap])
    cases label with
    | commitPage => exact absurd rfl commit
    | writeFault me p =>
      obtain ⟨-, after⟩ := guarded moved
      have memory : s'.memory = s.memory.handleWrite me p :=
        (congrArg State.memory after).symm
      have content : s'.twinContent = s.twinContent := (congrArg State.twinContent after).symm
      have users := handleWrite_pageUsers me keeps (inv.twins.small p).2
      refine inv.other same content ?_ ?_ ?_ ?_ ?_
      · rw [memory]
        exact inv.twins.handleWrite keeps
      · rw [memory]
        exact fun q => (users q).1
      · rw [memory]
        exact fun q => (users q).2
      · rw [memory, handleWrite_bitmap]
      · rw [memory, handleWrite_bitmap]
        exact fun _ _ _ _ => rfl
    | cleanup =>
      have after := Option.some.inj moved
      have memory : s'.memory = { s.memory with bitmap := s.memory.bitmap.cleanup } :=
        (congrArg State.memory after).symm
      have content : s'.twinContent = s.twinContent := (congrArg State.twinContent after).symm
      refine inv.other same content ?_ ?_ ?_ ?_ ?_
      · rw [memory]
        exact inv.twins.cleanup keeps.1
      · rw [memory]
        exact fun _ => le_rfl
      · rw [memory]
        exact fun _ => rfl
      · rw [memory]
        rfl
      · intro entry pos visit allocating
        rw [keeps.2 entry pos visit] at allocating
        cases allocating
    | takeUnowned me p =>
      obtain ⟨-, after⟩ := guarded moved
      have memory := (congrArg State.memory after).symm
      exact quiet (congrArg State.twinContent after).symm
        (by rw [memory]; exact Memory.setSharedPage_pageUsers)
        (by rw [memory]; exact Memory.setSharedPage_bitmap)
    | commitOwnedPage me p setShared =>
      have after := Option.some.inj moved
      have memory := (congrArg State.memory after).symm
      exact quiet (congrArg State.twinContent after).symm
        (by rw [memory]; exact Memory.commitOwnedPage_pageUsers)
        (by rw [memory]; exact Memory.commitOwnedPage_bitmap)
    | _ =>
      obtain ⟨-, after⟩ := guarded moved
      have memory := (congrArg State.memory after).symm
      have users := congrArg Memory.pageUsers memory
      have bitmap := congrArg Memory.bitmap memory
      exact quiet (congrArg State.twinContent after).symm users bitmap

theorem initial_twinInv (contents : PageId → Page) (allocated : ℕ) :
    TwinInv (initial contents allocated).memory (initial contents allocated).twinContent none where
  positive := Nat.one_pos
  small _ := ⟨Nat.two_pow_pos 16, Nat.two_pow_pos 16⟩
  counted _ _ := rfl
  fresh _ twin := absurd rfl twin
  intact _ twin := absurd rfl twin
  distinct _ _ twin _ := absurd rfl twin

theorem initial_twinState (contents : PageId → Page) (allocated : ℕ) :
    TwinState ⟨initial contents allocated, none⟩ :=
  ⟨initial_twinInv contents allocated, fun _ _ visit => by cases visit⟩

theorem TwinState.twinsIntact (inv : TwinState s) : TwinsIntact s where
  intact p live ready := inv.twins.intact p live.2 ready
  apart p q different liveP _ := by
    have indices : (s.memory.pageUsers p).bitmapIndex ≠ (s.memory.pageUsers q).bitmapIndex :=
      fun same => different (inv.twins.distinct p q liveP.2 same)
    simp only [Xbitmap.getAddress, Xbitmap.pageStart, pageSize]
    omega

end Tthread.PageSystem
