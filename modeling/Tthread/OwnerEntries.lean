/-
# The array of owners

An entry of the array of owners is 0 until a process takes the page or somebody shares it, then
the process if there is one, and then `SHARED_PAGE` for good. The exchange that writes
`SHARED_PAGE` is 8 bytes wide and the entries have 4, so that it also writes 0 to the entry behind.
The entries go through their life in this order just as long as the entry behind is 0 already.
-/

import Tthread.CommitOrder
import Tthread.OwnedPages
import Tthread.Sharing

namespace Tthread.Sharing

open Transition Handoff PageSystem

variable {s s' : State} {m : Memory} {me : ℕ} {p q : PageId} {label : Label}

/-! ## The life of an entry -/

inductive Advances : Owner → Owner → Prop
  | owned (pid : ℕ) : Advances .unowned (.process pid)
  | never : Advances .unowned .shared
  | given (pid : ℕ) : Advances (.process pid) .shared

theorem Advances.ne_unowned {before after : Owner} (advances : Advances before after) :
    after ≠ .unowned := by
  cases advances <;> nofun

/-- The page of the access that the process is about to make. -/
def Targeted (s : State) (me : ℕ) (q : PageId) : Prop :=
  match (s.control me).handler, (s.control me).task with
  | some call, _ | none, .commit call _ => q = call.page
  | none, .notify _ p _ => q = p
  | none, _ => False

/-- The step is one of an operation on the page. -/
def IsTarget (s : State) (q : PageId) : Label → Prop
  | .handoff (.malloc _ pages) => s.Fresh pages q
  | .handoff (.exec me) => Targeted s me q
  | .commitPage => ∃ me position entry, s.current = some (me, position, entry) ∧ q = entry.pageNo
  | _ => False

/-- An entry changes only in an operation on its page, and only to what comes next. -/
def OwnersAdvance (s : State) (label : Label) : Prop :=
  ∀ s', system.step s label = some s' → ∀ q, s'.memory.pageOwner q = s.memory.pageOwner q ∨
    IsTarget s q label ∧ Advances (s.memory.pageOwner q) (s'.memory.pageOwner q)

/-- The page on whose entry the step makes the exchange. -/
def State.exchanges (s : State) : Label → Option PageId
  | .handoff (.exec me) => s.exchanging me
  | .commitPage => s.current.bind fun (me, _, entry) =>
      if TakesDiffs s.memory me entry ∧ s.memory.pageOwner entry.pageNo ≠ .shared then
        some entry.pageNo
      else none
  | _ => none

/-- The condition on a step: a page is shared only while the entry behind its own is 0. -/
def SharesBeforeUnowned (s : State) (label : Label) : Prop :=
  ∀ p ∈ s.exchanges label, s.memory.pageOwner p.next = .unowned

/-! ## What a step does to the array -/

/-- The array after a step. -/
def State.ownersAfter (s : State) : Label → PageId → Owner
  | .handoff (.malloc me pages) => fun q =>
      if s.Fresh pages q then .process me else s.memory.pageOwner q
  | label => (s.exchanges label).elim s.memory.pageOwner fun p => (exchange s.memory p).pageOwner

theorem handleAccess_pageOwner {isWrite : Bool} :
    (handleAccess m me p isWrite).pageOwner = m.pageOwner := by
  have written : (m.handleWrite me p).pageOwner = m.pageOwner := by
    simp only [Memory.handleWrite]
    split
    · exact Memory.openPage_pageOwner
    · exact Memory.openPage_pageOwner
  cases isWrite with
  | false => rfl
  | true => exact written

theorem afterNotify_pageOwner {isWrite : Bool} :
    (afterNotify m me p isWrite).pageOwner = m.pageOwner := by
  unfold afterNotify
  split
  · dsimp only
    split <;> rfl
  · rfl

theorem commitOwnedPage_owners (call : CommitCall) :
    (Handoff.commitOwnedPage m me call).1.pageOwner =
      if call.pos = .share .exchange then (exchange m call.page).pageOwner else m.pageOwner := by
  obtain ⟨page, setShared, pos⟩ := call
  cases pos with
  | test =>
    simp only [Handoff.commitOwnedPage]
    cases (m.process me).pageInfo page <;> rfl
  | share pos => cases pos <;> rfl
  | _ => rfl

theorem notifyOwnerToCommit_owners (pos : NotifyPos) :
    (Handoff.notifyOwnerToCommit m me p pos).1.pageOwner =
      match pos with
      | .share _ _ .exchange => (exchange m p).pageOwner
      | _ => m.pageOwner := by
  cases pos with
  | enter | signal owner =>
    simp only [Handoff.notifyOwnerToCommit]
    split <;> rfl
  | queue owner => cases owner <;> rfl
  | share owner failed pos => cases pos <;> rfl
  | spin owner i =>
    simp only [Handoff.notifyOwnerToCommit]
    split
    · rfl
    · split <;> rfl
  | done => rfl

/-- An access of a process outside its program. -/
theorem exec_pageOwner {t t' : Handoff.State} (moved : t.exec me = some t') :
    t'.memory.pageOwner =
      (t.exchanging me).elim t.memory.pageOwner fun p => (exchange t.memory p).pageOwner := by
  -- A call of `commitOwnedPage` changes the array at its exchange only.
  have shares : ∀ call : CommitCall, (Handoff.commitOwnedPage t.memory me call).1.pageOwner =
      (if call.pos = .share .exchange then some call.page else none).elim t.memory.pageOwner
        fun p => (exchange t.memory p).pageOwner := by
    intro call
    rw [commitOwnedPage_owners]
    split <;> rfl
  -- A call that faults is at its copy, which is not the exchange.
  have copies : ∀ call : CommitCall, t.Faults me call →
      t.memory.pageOwner = (if call.pos = .share .exchange then some call.page else none).elim
        t.memory.pageOwner fun p => (exchange t.memory p).pageOwner := by
    rintro call ⟨at_, -⟩
    rw [if_neg (by rw [at_]; nofun)]
    rfl
  rw [State.exec] at moved
  split at moved
  · cases moved
  · unfold State.exchanging
    cases handler : (t.control me).handler with
    | some call =>
      rw [handler] at moved
      obtain rfl := Option.some.inj moved
      simp only [State.handlerAccess]
      split
      · next faults => exact copies call faults
      · exact shares call
    | none =>
      rw [handler] at moved
      cases task : (t.control me).task with
      | user =>
        rw [task] at moved
        cases moved
      | finalcommit release pages =>
        rw [task] at moved
        cases pages <;> (obtain rfl := Option.some.inj moved; rfl)
      | commit call pages =>
        rw [task] at moved
        simp only [State.taskAccess] at moved
        split at moved
        · next faults =>
          obtain rfl := Option.some.inj moved
          exact copies call faults
        · obtain rfl := Option.some.inj moved
          exact shares call
      | notify isWrite p pos =>
        rw [task] at moved
        obtain rfl := Option.some.inj moved
        simp only [State.notifyAccess]
        split
        · next returns =>
          subst returns
          exact afterNotify_pageOwner
        · rw [sigqueue_memory]
          refine (notifyOwnerToCommit_owners pos).trans ?_
          -- A page without an owner, or whose owner has left, is exchanged by who faults.
          cases pos with
          | share owner failed share => cases share <;> rfl
          | _ => rfl

theorem withTwin_pageOwner : (m.withTwin p).pageOwner = m.pageOwner := by
  unfold Memory.withTwin
  split <;> rfl

theorem setSharedPage_pageOwner : (m.setSharedPage me p).pageOwner =
    if m.pageOwner p ≠ .shared then (exchange m p).pageOwner else m.pageOwner := by
  unfold Memory.setSharedPage
  split <;> rfl

theorem commitPage_pageOwner (entry : Xpageinfo) : (m.commitPage me entry).1.pageOwner =
    if TakesDiffs m me entry ∧ m.pageOwner entry.pageNo ≠ .shared then
      (exchange m entry.pageNo).pageOwner
    else m.pageOwner := by
  have owners := withTwin_pageOwner (m := m) (p := entry.pageNo)
  simp only [Memory.commitPage, withTwin_users, owners]
  by_cases carries : (m.pageUsers entry.pageNo).users ≠ 1 ∨ m.pageOwner entry.pageNo ≠ .process me
  · rw [if_pos carries]
    show ((m.withTwin entry.pageNo).copyOut me entry).pageOwner = _
    simp only [Memory.copyOut, withTwin_versions]
    by_cases same : entry.version = m.versions entry.pageNo
    · rw [if_pos same, if_neg (fun both => both.1.2 same)]
      exact owners
    · rw [if_neg same]
      refine setSharedPage_pageOwner.trans ?_
      rw [owners]
      have takes : TakesDiffs m me entry := ⟨carries, same⟩
      by_cases shared : m.pageOwner entry.pageNo = .shared
      · rw [if_neg (fun other => other shared), if_neg (fun both => both.2 shared)]
      · rw [if_pos shared, if_pos ⟨takes, shared⟩]
        show Function.update (Function.update (m.withTwin entry.pageNo).pageOwner _ _) _ _ = _
        rw [owners]
        rfl
  · rw [if_neg carries, if_neg (fun both => carries both.1.1)]
    exact owners

/-- What a step does to the array. -/
theorem step_pageOwner (stepped : Sharing.step s label = some s') :
    s'.memory.pageOwner = s.ownersAfter label := by
  cases label with
  | handoff label =>
    obtain ⟨-, stepped⟩ := Option.ite_none_right_eq_some.mp stepped
    obtain ⟨t, moved, rfl⟩ := Option.map_eq_some_iff.mp stepped
    cases label with
    | malloc me pages =>
      obtain ⟨-, rfl⟩ := guarded moved
      funext q
      show (setOwnedPages s.memory me _).pageOwner q = _
      simp only [setOwnedPages_pageOwner, numbered_block]
      rfl
    | store me p offset value =>
      obtain ⟨-, rfl⟩ := guarded moved
      rfl
    | fault me p isWrite =>
      obtain ⟨-, rfl⟩ := guarded moved
      show (s.toState.fault me p isWrite).memory.pageOwner = _
      unfold State.fault
      split
      · rfl
      · exact handleAccess_pageOwner
    | finalcommit me release | exit me =>
      obtain ⟨-, rfl⟩ := guarded moved
      rfl
    | exec me => exact exec_pageOwner moved
    | deliver me =>
      obtain ⟨pageNo, -, moved⟩ := Option.bind_eq_some_iff.mp moved
      obtain ⟨-, rfl⟩ := guarded moved
      rfl
  | globalsFault me p isWrite =>
    obtain ⟨-, rfl⟩ := guarded stepped
    exact handleAccess_pageOwner
  | checkandcommit me =>
    obtain ⟨-, rfl⟩ := guarded stepped
    rfl
  | commitPage =>
    -- The commit of an entry exchanges a page that is not shared yet.
    show _ = (s.exchanges .commitPage).elim _ _
    rcases commitPage_cases stepped with ⟨ended, rfl⟩ | ⟨me, position, entry, here, -, rfl⟩
    · rw [State.exchanges, ended]
      rfl
    · rw [State.exchanges, here]
      refine (commitPage_pageOwner entry).trans ?_
      simp only [Option.bind_some]
      split <;> rfl
  | updateAll me =>
    obtain ⟨-, rfl⟩ := guarded stepped
    rfl
  | cleanup =>
    obtain rfl := Option.some.inj stepped
    rfl

/-! ## Pages that are not allocated -/

/-- The pages that a task is about. -/
def Task.pages : Task → List PageId
  | .user => []
  | .finalcommit _ pages => pages
  | .commit call pages => call.page :: pages
  | .notify _ p _ => [p]

/-- The page is known to the process by its blocks, a signal, its task or its handler. -/
def Names (c : Control) (p : PageId) : Prop :=
  p ∈ ownedPages c.ownedblockinfo ∨ (∃ pageNo ∈ c.pending, p = heapPage pageNo) ∨
    p ∈ Task.pages c.task ∨ ∃ call ∈ c.handler, p = call.page

theorem Names.task {c : Control} {task : Task} (names : Names { c with task := task } p) :
    p ∈ Task.pages task ∨ Names c p := by
  rcases names with block | pending | mine | handler
  · exact .inr (.inl block)
  · exact .inr (.inr (.inl pending))
  · exact .inl mine
  · exact .inr (.inr (.inr (.inr handler)))

theorem Names.handler {c : Control} {handler : Option CommitCall}
    (names : Names { c with handler := handler } p) :
    (∃ call ∈ handler, p = call.page) ∨ Names c p := by
  rcases names with block | pending | task | mine
  · exact .inr (.inl block)
  · exact .inr (.inr (.inl pending))
  · exact .inr (.inr (.inr (.inl task)))
  · exact .inl mine

theorem Names.pending {c : Control} {pending : Option ℕ}
    (names : Names { c with pending := pending } p) :
    (∃ pageNo ∈ pending, p = heapPage pageNo) ∨ Names c p := by
  rcases names with block | mine | task | handler
  · exact .inr (.inl block)
  · exact .inl mine
  · exact .inr (.inr (.inr (.inl task)))
  · exact .inr (.inr (.inr (.inr handler)))

def Allocated (t : Handoff.State) (p : PageId) : Prop := p.region = .heap ∧ p.pageNo < t.position

/-- A process knows allocated pages only. -/
def KnowAllocated (t : Handoff.State) : Prop := ∀ q p, Names (t.control q) p → Allocated t p

variable {t t' : Handoff.State}

theorem KnowAllocated.setControl (known : KnowAllocated t) {c : Control}
    (mine : ∀ p, Names c p → Allocated t p) : KnowAllocated (t.setControl me c) := by
  intro q p names
  by_cases here : q = me
  · subst here
    rw [State.setControl] at names
    simp only [Function.update_self] at names
    exact mine p names
  · rw [State.setControl] at names
    simp only [Function.update_of_ne here] at names
    exact known q p names

theorem KnowAllocated.setTask (known : KnowAllocated t) {task : Task}
    (pages : ∀ p ∈ Task.pages task, Allocated t p) :
    KnowAllocated (t.setControl me { t.control me with task := task }) :=
  known.setControl fun p names => names.task.elim (pages p) (known me p)

theorem KnowAllocated.setHandler (known : KnowAllocated t) {handler : Option CommitCall}
    (pages : ∀ call ∈ handler, Allocated t call.page) :
    KnowAllocated (t.setControl me { t.control me with handler := handler }) := by
  refine known.setControl fun p names => names.handler.elim ?_ (known me p)
  rintro ⟨call, mine, rfl⟩
  exact pages call mine

/-- A signal that is sent while another one is pending is dropped. -/
theorem mem_or_some {pending : Option ℕ} {n k : ℕ} (mine : n ∈ pending.or (some k)) :
    n ∈ pending ∨ n = k := by
  cases pending with
  | none => exact .inr (Option.some.inj mine).symm
  | some earlier => exact .inl mine

/-- Calls stay with their page. -/
theorem nextCall_page {call next : CommitCall} (goes : t.nextCall me call = some next) :
    next.page = call.page := by
  obtain ⟨pos, -, rfl⟩ := Option.map_eq_some_iff.mp goes
  rfl

theorem KnowAllocated.exec (known : KnowAllocated t) (moved : t.exec me = some t') :
    KnowAllocated t' ∧ t'.position = t.position := by
  rw [State.exec] at moved
  split at moved
  · cases moved
  · cases handler : (t.control me).handler with
    | some call =>
      rw [handler] at moved
      obtain rfl := Option.some.inj moved
      -- A signal handler works on the page of its signal, and that is allocated.
      have page : Allocated t call.page := known me _ (.inr (.inr (.inr ⟨call, handler, rfl⟩)))
      simp only [State.handlerAccess]
      split
      · exact ⟨known.setControl fun p names => known me p names, rfl⟩
      · refine ⟨KnowAllocated.setHandler (t := t.commitAccess me call) known ?_, rfl⟩
        intro next goes
        rw [nextCall_page goes]
        exact page
    | none =>
      rw [handler] at moved
      -- The pages that a task is still to visit are allocated; it adds none.
      have pages : ∀ p ∈ Task.pages (t.control me).task, Allocated t p :=
        fun p mine => known me p (.inr (.inr (.inl mine)))
      cases task : (t.control me).task with
      | user =>
        rw [task] at moved
        cases moved
      | finalcommit release rest =>
        rw [task] at moved pages
        cases rest with
        | nil =>
          obtain rfl := Option.some.inj moved
          exact ⟨known.setTask fun _ mine => absurd mine List.not_mem_nil, rfl⟩
        | cons p rest =>
          obtain rfl := Option.some.inj moved
          refine ⟨known.setTask fun q mine => pages q ?_, rfl⟩
          split at mine
          · exact mine
          · exact List.mem_cons_of_mem _ mine
      | commit call rest =>
        rw [task] at moved pages
        simp only [State.taskAccess] at moved
        split at moved
        · obtain rfl := Option.some.inj moved
          exact ⟨known, rfl⟩
        · obtain rfl := Option.some.inj moved
          refine ⟨KnowAllocated.setTask (t := t.commitAccess me call) known fun q mine => ?_, rfl⟩
          cases goes : t.nextCall me call with
          | none =>
            rw [goes] at mine
            exact pages q (List.mem_cons_of_mem _ mine)
          | some next =>
            rw [goes] at mine
            rcases List.mem_cons.mp mine with rfl | later
            · rw [nextCall_page goes]
              exact pages _ List.mem_cons_self
            · exact pages q (List.mem_cons_of_mem _ later)
      | notify isWrite p pos =>
        rw [task] at moved pages
        obtain rfl := Option.some.inj moved
        have page := pages p List.mem_cons_self
        simp only [State.notifyAccess]
        split
        · exact ⟨KnowAllocated.setTask (t := { t with memory := _ }) known
            fun _ mine => absurd mine List.not_mem_nil, rfl⟩
        · have waits : KnowAllocated ({ t with
              memory := (Handoff.notifyOwnerToCommit t.memory me p pos).1 }.setControl me
              { t.control me with
                task := .notify isWrite p (Handoff.notifyOwnerToCommit t.memory me p pos).2.2 }) :=
            KnowAllocated.setTask (t := { t with memory := _ }) known fun q mine =>
              (List.mem_singleton.mp mine) ▸ page
          cases (Handoff.notifyOwnerToCommit t.memory me p pos).2.1 with
          | none => exact ⟨waits, rfl⟩
          | some pid =>
            refine ⟨waits.setControl fun q names => ?_, rfl⟩
            -- The page is pending at its owner now, beside what was pending there.
            rcases names.pending with ⟨pageNo, mine, rfl⟩ | old
            · rcases mem_or_some mine with earlier | rfl
              · exact waits pid _ (.inr (.inl ⟨pageNo, earlier, rfl⟩))
              · exact ⟨rfl, page.2⟩
            · exact waits pid q old

theorem Allocated.mono (allocated : Allocated t p) (grows : t.position ≤ t'.position) :
    Allocated t' p := ⟨allocated.1, allocated.2.trans_le grows⟩

/-- The pages of one more block. -/
theorem mem_ownedPages_append {blocks : List (ℕ × ℕ)} {first last : ℕ}
    (member : p ∈ ownedPages (blocks ++ [(first, last)])) :
    p ∈ ownedPages blocks ∨ p.region = .heap ∧ p.pageNo < last := by
  unfold ownedPages at member
  rw [List.flatMap_append, List.mem_append] at member
  refine member.imp_right fun new => ?_
  rw [List.flatMap_singleton, List.mem_map] at new
  obtain ⟨pageNo, inside, rfl⟩ := new
  rw [List.mem_range'_1] at inside
  refine ⟨rfl, ?_⟩
  show pageNo < last
  omega

theorem KnowAllocated.step (known : KnowAllocated t) {label : Handoff.Label}
    (moved : t.step label = some t') : KnowAllocated t' ∧ t.position ≤ t'.position := by
  cases label with
  | malloc me pages =>
    obtain ⟨-, rfl⟩ := guarded moved
    -- The position grows, and what was allocated stays allocated.
    have grows : t.position ≤ t.position + pages := Nat.le_add_right _ _
    let grown : Handoff.State := { t with
      memory := setOwnedPages t.memory me (List.range' t.position pages)
      position := t.position + pages
      allocator := fun p => if t.Fresh pages p then some me else t.allocator p }
    have known' : KnowAllocated grown := fun q p names => (known q p names).mono grows
    refine ⟨known'.setControl fun p names => ?_, grows⟩
    rcases names with block | other
    · rcases mem_ownedPages_append block with old | new
      · exact known' me p (.inl old)
      · exact new
    · exact known' me p (.inr other)
  | store me p offset value =>
    obtain ⟨-, rfl⟩ := guarded moved
    exact ⟨known, le_rfl⟩
  | fault me p isWrite =>
    obtain ⟨⟨-, inside, -⟩, rfl⟩ := guarded moved
    unfold State.fault
    split
    · exact ⟨known.setTask fun q mine => (List.mem_singleton.mp mine) ▸ inside, le_rfl⟩
    · exact ⟨known, le_rfl⟩
  | finalcommit me release =>
    obtain ⟨-, rfl⟩ := guarded moved
    exact ⟨known.setTask fun q mine => known me q (.inl mine), le_rfl⟩
  | exec me =>
    obtain ⟨known', same⟩ := known.exec moved
    exact ⟨known', same.ge⟩
  | deliver me =>
    obtain ⟨pageNo, waits, moved⟩ := Option.bind_eq_some_iff.mp moved
    obtain ⟨-, rfl⟩ := guarded moved
    refine ⟨known.setControl fun q names => ?_, le_rfl⟩
    rcases names with block | none | task | ⟨call, new, rfl⟩
    · exact known me q (.inl block)
    · obtain ⟨earlier, none, -⟩ := none
      cases none
    · exact known me q (.inr (.inr (.inl task)))
    · obtain rfl := Option.some.inj new
      -- The signal that is taken was pending before.
      exact known me _ (.inr (.inl ⟨pageNo, waits, rfl⟩))
  | exit me =>
    obtain ⟨-, rfl⟩ := guarded moved
    exact ⟨known.setControl fun q names => known me q names, le_rfl⟩

/-- The page is of the globals or allocated. -/
def InUse (t : Handoff.State) (p : PageId) : Prop := p.region = .heap → p.pageNo < t.position

theorem Allocated.inUse (allocated : Allocated t p) : InUse t p := fun _ => allocated.2

/-- Pages that are not allocated are in no list, and their entries are 0. -/
structure Unclaimed (s : State) : Prop where
  fresh : ∀ p, p.region = .heap → s.position ≤ p.pageNo → s.memory.pageOwner p = .unowned
  entries : ∀ me, ∀ entry ∈ (s.memory.process me).dirtiedPagesList, InUse s.toState entry.pageNo
  known : KnowAllocated s.toState

theorem current_mem {position : ℕ} {entry : Xpageinfo}
    (here : s.current = some (me, position, entry)) :
    entry ∈ (s.memory.process me).dirtiedPagesList := by
  obtain ⟨⟨me', position'⟩, -, found⟩ := Option.bind_eq_some_iff.mp here
  obtain ⟨entry', found, same⟩ := Option.map_eq_some_iff.mp found
  cases same
  exact List.mem_of_getElem? found

/-- A page whose entry is exchanged is the target of the step. -/
theorem isTarget_of_exchanges (exchanges : s.exchanges label = some p) : IsTarget s p label := by
  cases label with
  | handoff label =>
    cases label with
    | exec me =>
      show Targeted s me p
      have exchanging : s.exchanging me = some p := exchanges
      unfold State.exchanging at exchanging
      unfold Targeted
      cases handler : (s.control me).handler with
      | some call =>
        simp only [handler, Option.ite_none_right_eq_some, Option.some.injEq] at exchanging
        exact exchanging.2.symm
      | none =>
        cases task : (s.control me).task with
        | commit call pages =>
          simp only [handler, task, Option.ite_none_right_eq_some, Option.some.injEq] at exchanging
          exact exchanging.2.symm
        | notify isWrite q pos =>
          show p = q
          simp only [handler, task] at exchanging
          cases pos with
          | share owner failed share =>
            cases share with
            | exchange => exact (Option.some.inj exchanging).symm
            | check | record => cases exchanging
          | _ => cases exchanging
        | user | finalcommit release pages =>
          simp [handler, task] at exchanging
    | _ => cases exchanges
  | commitPage =>
    obtain ⟨⟨me, position, entry⟩, here, exchanges⟩ := Option.bind_eq_some_iff.mp exchanges
    obtain ⟨-, same⟩ := Option.ite_none_right_eq_some.mp exchanges
    exact ⟨me, position, entry, here, (Option.some.inj same).symm⟩
  | _ => cases exchanges

theorem Unclaimed.inUse_of_exchanges (inv : Unclaimed s) (exchanges : s.exchanges label = some p) :
    InUse s.toState p := by
  have target := isTarget_of_exchanges exchanges
  cases label with
  | handoff label =>
    cases label with
    | exec me =>
      refine (inv.known me p ?_).inUse
      have targeted : Targeted s me p := target
      unfold Targeted at targeted
      cases handler : (s.control me).handler with
      | some call =>
        simp only [handler] at targeted
        exact .inr (.inr (.inr ⟨call, handler, targeted⟩))
      | none =>
        refine .inr (.inr (.inl ?_))
        cases task : (s.control me).task with
        | commit call pages =>
          simp only [handler, task] at targeted
          rw [targeted]
          exact List.mem_cons_self
        | notify isWrite q pos =>
          simp only [handler, task] at targeted
          rw [targeted]
          exact List.mem_singleton_self q
        | user | finalcommit release pages => simp [handler, task] at targeted
    | _ => cases exchanges
  | commitPage =>
    obtain ⟨me, position, entry, here, rfl⟩ := target
    exact inv.entries me entry (current_mem here)
  | _ => cases exchanges

theorem exchange_self : (exchange m p).pageOwner p = .shared := Function.update_self ..

theorem next_ne (p : PageId) : p.next ≠ p := by
  intro same
  have number : p.pageNo + 1 = p.pageNo := congrArg PageId.pageNo same
  omega

theorem exchange_next : (exchange m p).pageOwner p.next = .unowned := by
  show Function.update (Function.update m.pageOwner p.next .unowned) p .shared p.next = _
  rw [Function.update_of_ne (next_ne p), Function.update_self]

theorem exchange_of_ne (here : q ≠ p) (behind : q ≠ p.next) :
    (exchange m p).pageOwner q = m.pageOwner q := by
  show Function.update (Function.update m.pageOwner p.next .unowned) p .shared q = _
  rw [Function.update_of_ne here, Function.update_of_ne behind]

/-- Pages that are not allocated stay unclaimed. -/
theorem Unclaimed.fresh_after (inv : Unclaimed s) (fresh : p.region = .heap)
    (beyond : s.position ≤ p.pageNo) (noMalloc : ∀ me pages, label ≠ .handoff (.malloc me pages)) :
    s.ownersAfter label p = .unowned := by
  have before := inv.fresh p fresh beyond
  have after : s.ownersAfter label p =
      (s.exchanges label).elim s.memory.pageOwner (fun p => (exchange s.memory p).pageOwner) p := by
    unfold State.ownersAfter
    split
    · next me pages => exact absurd rfl (noMalloc me pages)
    · rfl
  rw [after]
  cases exchanges : s.exchanges label with
  | none => exact before
  | some q =>
    have used := inv.inUse_of_exchanges exchanges
    have different : p ≠ q := by
      rintro rfl
      exact absurd (used fresh) (Nat.not_lt.mpr beyond)
    by_cases behind : p = q.next
    · subst behind
      exact exchange_next
    · exact (exchange_of_ne different behind).trans before

/-- The entries of a list are for pages in use. -/
def ListsInUse (t : Handoff.State) (m : Memory) : Prop :=
  ∀ q, ∀ entry ∈ (m.process q).dirtiedPagesList, InUse t entry.pageNo

theorem ListsInUse.congr {m' : Memory} (lists : ListsInUse t m) (same : SameBooks m m') :
    ListsInUse t m' := by
  intro q entry member
  rw [same.lists] at member
  exact lists q entry member

theorem ListsInUse.recordUser (lists : ListsInUse t m) (used : InUse t p) :
    ListsInUse t (m.recordUser me p) := by
  intro q entry member
  by_cases here : q = me
  · subst here
    simp only [Memory.recordUser, Memory.modify, Function.update_self] at member
    rcases (List.mem_orderedInsert _).mp member with rfl | old
    · exact used
    · exact lists q entry old
  · simp only [Memory.recordUser, Memory.modify, Function.update_of_ne here] at member
    exact lists q entry member

theorem ListsInUse.recorded (lists : ListsInUse t m) (used : InUse t p) {isWrite : Bool} :
    ListsInUse t (recorded m me p isWrite) := by
  unfold Sharing.recorded
  split
  · exact lists.recordUser used
  · exact lists

theorem ListsInUse.handleAccess (lists : ListsInUse t m) (used : InUse t p) {isWrite : Bool} :
    ListsInUse t (handleAccess m me p isWrite) := by
  have books : ∃ m₁, SameBooks (if Bumps m me p isWrite then m.incrementVersion p else m) m₁ ∧
      m₁.pageOwner = m.pageOwner ∧
      SameBooks (Sharing.recorded m₁ me p isWrite) (Handoff.handleAccess m me p isWrite) :=
    handleAccess_books
  obtain ⟨m₁, first, -, second⟩ := books
  have before : ListsInUse t (if Bumps m me p isWrite then m.incrementVersion p else m) := by
    split <;> exact lists
  exact (ListsInUse.recorded (before.congr first) used).congr second

theorem ListsInUse.exec (lists : ListsInUse t t.memory) (known : KnowAllocated t)
    (moved : t.exec me = some t') : ListsInUse t t'.memory := by
  refine ListsInUse.congr ?_ (exec_books moved)
  have bumped : ∀ call : CommitCall, ListsInUse t
      (if call.pos = .version then t.memory.incrementVersion call.page else t.memory) := by
    intro call
    split <;> exact lists
  unfold booksAfter
  split
  · exact bumped _
  · exact bumped _
  · next handler task =>
    refine lists.recorded (Allocated.inUse (known me _ (.inr (.inr (.inl ?_)))))
    rw [task]
    exact List.mem_singleton_self _
  · exact lists

theorem commitPage_entry (entry : Xpageinfo) : (m.commitPage me entry).2.pageNo = entry.pageNo := by
  simp only [Memory.commitPage]
  split <;> rfl

theorem ListsInUse.commitStep {position : ℕ} {entry : Xpageinfo}
    (lists : ListsInUse s.toState s.memory)
    (member : entry ∈ (s.memory.process me).dirtiedPagesList) :
    ListsInUse s.toState (s.commitStep me position entry).memory := by
  have kept : ∀ q, ((s.memory.commitPage me entry).1.process q).dirtiedPagesList =
      (s.memory.process q).dirtiedPagesList := fun q => Memory.commitPage_dirtiedPagesList
  intro q other found
  by_cases here : q = me
  · subst here
    simp only [State.commitStep, Memory.modify, Function.update_self, kept] at found
    rcases List.mem_or_eq_of_mem_set found with old | rfl
    · exact lists q other old
    · rw [commitPage_entry]
      exact lists q entry member
  · simp only [State.commitStep, Memory.modify, Function.update_of_ne here, kept] at found
    exact lists q other found

/-- **Step lemma.** No condition is needed. -/
theorem Unclaimed.step (inv : Unclaimed s) (stepped : system.step s label = some s') :
    Unclaimed s' := by
  have owners : s'.memory.pageOwner = s.ownersAfter label := step_pageOwner stepped
  -- Pages behind the position have no owner, unless `malloc` moves the position.
  have keeps : s'.position = s.position → (∀ me pages, label ≠ .handoff (.malloc me pages)) →
      ∀ p, p.region = .heap → s'.position ≤ p.pageNo → s'.memory.pageOwner p = .unowned := by
    intro same noMalloc p heap beyond
    rw [owners]
    exact inv.fresh_after heap (same ▸ beyond) noMalloc
  have lists : ListsInUse s.toState s.memory := inv.entries
  cases label with
  | handoff label =>
    obtain ⟨-, stepped⟩ := Option.ite_none_right_eq_some.mp stepped
    obtain ⟨t, moved, rfl⟩ := Option.map_eq_some_iff.mp stepped
    obtain ⟨known, grows⟩ := inv.known.step moved
    have later : ∀ m : Memory, ListsInUse s.toState m → ListsInUse t m :=
      fun m lists q entry member heap => (lists q entry member heap).trans_le grows
    cases label with
    | malloc me pages =>
      obtain ⟨-, rfl⟩ := guarded moved
      refine ⟨fun p heap beyond => ?_, ?_, known⟩
      · -- A page behind the new position is behind the old one and not fresh.
        have above : s.position + pages ≤ p.pageNo := beyond
        rw [owners]
        show (if s.Fresh pages p then _ else _) = _
        rw [if_neg (fun fresh => absurd fresh.2.2 (Nat.not_lt.mpr above))]
        exact inv.fresh p heap ((Nat.le_add_right _ _).trans above)
      · exact later _ (lists.congr (sameBooks_setOwnedPages _))
    | store me p offset value =>
      obtain ⟨-, rfl⟩ := guarded moved
      refine ⟨keeps rfl (by simp), later _ (lists.congr ?_), known⟩
      exact ⟨fun _ => Memory.store_dirtiedPagesList, rfl, rfl, rfl⟩
    | fault me p isWrite =>
      obtain ⟨⟨-, inside, -⟩, rfl⟩ := guarded moved
      have used : InUse s.toState p := Allocated.inUse inside
      refine ⟨keeps ?_ (by simp), later _ ?_, known⟩
      · -- The faulting process may be told to wait, but nothing is allocated.
        show (s.toState.fault me p isWrite).position = _
        unfold State.fault
        split <;> rfl
      · unfold State.fault
        split
        · exact lists
        · exact lists.handleAccess used
    | finalcommit me release | exit me =>
      obtain ⟨-, rfl⟩ := guarded moved
      exact ⟨keeps rfl (by simp), lists, known⟩
    | exec me =>
      exact ⟨keeps (inv.known.exec moved).2 (by simp), later _ (lists.exec inv.known moved), known⟩
    | deliver me =>
      obtain ⟨pageNo, -, moved⟩ := Option.bind_eq_some_iff.mp moved
      obtain ⟨-, rfl⟩ := guarded moved
      exact ⟨keeps rfl (by simp), lists, known⟩
  | globalsFault me p isWrite =>
    obtain ⟨⟨-, globals, -⟩, rfl⟩ := guarded stepped
    have used : InUse s.toState p := fun heap => by rw [globals] at heap; cases heap
    exact ⟨keeps rfl (by simp), lists.handleAccess used, inv.known⟩
  | checkandcommit me =>
    obtain ⟨-, rfl⟩ := guarded stepped
    exact ⟨keeps rfl (by simp), lists, inv.known⟩
  | commitPage =>
    rcases commitPage_cases stepped with ⟨-, rfl⟩ | ⟨me, position, entry, -, found, rfl⟩
    · exact ⟨keeps rfl (by simp), lists, inv.known⟩
    · exact ⟨keeps rfl (by simp), lists.commitStep (List.mem_of_getElem? found), inv.known⟩
  | updateAll me =>
    obtain ⟨-, rfl⟩ := guarded stepped
    refine ⟨keeps rfl (by simp), fun q entry member => ?_, inv.known⟩
    -- A begin drops entries, of its own list only.
    by_cases here : q = me
    · subst here
      simp [State.setMemory, Memory.updateAll, Process.updateAll] at member
    · have same : (s.memory.updateAll me).process q = s.memory.process q :=
        Memory.modify_process_of_ne here
      exact lists q entry (same ▸ member)
  | cleanup =>
    obtain rfl := Option.some.inj stepped
    exact ⟨keeps rfl (by simp), lists, inv.known⟩

theorem initial_unclaimed (content : PageId → Page) (allocated : ℕ) :
    Unclaimed (initial content allocated) where
  fresh _ heap beyond := if_pos ⟨heap, beyond⟩
  entries _ _ member := absurd member List.not_mem_nil
  known q p names := by
    rcases names with block | ⟨pageNo, none, -⟩ | task | ⟨call, none, -⟩
    · exact absurd block List.not_mem_nil
    · cases none
    · exact absurd task List.not_mem_nil
    · cases none

/-! ## When entries advance -/

/-- Without a malloc, only an exchange changes the array. -/
theorem ownersAfter_of_noMalloc (noMalloc : ∀ me pages, label ≠ .handoff (.malloc me pages)) :
    s.ownersAfter label =
      (s.exchanges label).elim s.memory.pageOwner fun p => (exchange s.memory p).pageOwner := by
  unfold State.ownersAfter
  split
  · next me pages => exact absurd rfl (noMalloc me pages)
  · rfl

/-- An exchange whose effect on the entry behind is seen by nobody. -/
theorem exchange_advances (unowned : m.pageOwner p.next = .unowned) (q : PageId) :
    (exchange m p).pageOwner q = m.pageOwner q ∨
      q = p ∧ Advances (m.pageOwner q) ((exchange m p).pageOwner q) := by
  by_cases here : q = p
  · subst here
    rw [exchange_self]
    cases m.pageOwner q with
    | unowned => exact .inr ⟨rfl, .never⟩
    | process pid => exact .inr ⟨rfl, .given pid⟩
    | shared => exact .inl rfl
  · left
    by_cases behind : q = p.next
    · rw [behind, exchange_next, unowned]
    · exact exchange_of_ne here behind

theorem Unclaimed.ownersAdvance (inv : Unclaimed s) (shares : SharesBeforeUnowned s label) :
    OwnersAdvance s label := by
  intro s' stepped q
  rw [step_pageOwner stepped]
  by_cases malloc : ∃ me pages, label = .handoff (.malloc me pages)
  · obtain ⟨me, pages, rfl⟩ := malloc
    show (if s.Fresh pages q then Owner.process me else s.memory.pageOwner q) = _ ∨
      s.Fresh pages q ∧ Advances _ (if s.Fresh pages q then _ else _)
    by_cases fresh : s.Fresh pages q
    · rw [if_pos fresh, inv.fresh q fresh.1 fresh.2.1]
      exact .inr ⟨fresh, .owned me⟩
    · exact .inl (if_neg fresh)
  · rw [ownersAfter_of_noMalloc fun me pages same => malloc ⟨me, pages, same⟩]
    cases exchanges : s.exchanges label with
    | none => exact .inl rfl
    | some p =>
      refine (exchange_advances (shares p exchanges) q).imp_right fun advances => ?_
      obtain ⟨rfl, advances⟩ := advances
      exact ⟨isTarget_of_exchanges exchanges, advances⟩

/-- No entry goes back to 0, so nothing may have been where the exchange writes 0. -/
theorem sharesBeforeUnowned_of_ownersAdvance (stepped : system.step s label = some s')
    (advance : OwnersAdvance s label) : SharesBeforeUnowned s label := by
  intro p exchanges
  have noMalloc : ∀ me pages, label ≠ .handoff (.malloc me pages) := by
    rintro me pages rfl
    cases exchanges
  have cleared : s'.memory.pageOwner p.next = .unowned := by
    rw [step_pageOwner stepped, ownersAfter_of_noMalloc noMalloc, Option.mem_def.mp exchanges]
    exact exchange_next
  rcases advance s' stepped p.next with same | ⟨-, advances⟩
  · rw [← same]
    exact cleared
  · exact absurd cleared advances.ne_unowned

/-- **The life of the entries.** In a run, every entry changes only in an operation on its page
and only in its order just when every page is shared while the entry behind its own is 0. -/
theorem ownersAdvance_iff (content : PageId → Page) (allocated : ℕ) {labels : List Label}
    (execution : system.run (initial content allocated) labels = some s) :
    system.Complies OwnersAdvance (initial content allocated) labels ↔
      system.Complies SharesBeforeUnowned (initial content allocated) labels :=
  System.complies_congr_of_run (fun _ _ _ inv stepped =>
      ⟨sharesBeforeUnowned_of_ownersAdvance stepped, inv.ownersAdvance⟩)
    (fun _ _ _ inv _ stepped => inv.step stepped) (initial_unclaimed content allocated) execution

instance (s : State) : DecidablePred (SharesBeforeUnowned s) := fun label =>
  inferInstanceAs (Decidable (∀ p ∈ s.exchanges label, _))

/-- Process 1 gets a block of some pages and writes to the first one, and then process 2 does: the
handler of process 1 is about to share the page. -/
def asksForFirst (pages : ℕ) : List Label := [.handoff (.malloc 1 pages),
  .handoff (.fault 1 (heapPage 0) true), .handoff (.fault 2 (heapPage 0) true), .handoff (.exec 2),
  .handoff (.exec 2), .handoff (.exec 2), .handoff (.deliver 1), .handoff (.exec 1),
  .handoff (.exec 1), .handoff (.exec 1), .handoff (.exec 1)]

/-- A block of one page. -/
theorem ownersAdvance_iff_single : ∃ labels s,
    system.run (initial (fun _ _ => 0) 0) labels = some s ∧
      s.memory.pageOwner (heapPage 0) = .shared ∧
      system.Complies OwnersAdvance (initial (fun _ _ => 0) 0) labels := by
  have run : (system.runIf (fun s label => decide (SharesBeforeUnowned s label))
      (initial (fun _ _ => 0) 0) (asksForFirst 1 ++ [.handoff (.exec 1)])).any fun s =>
        s.memory.pageOwner (heapPage 0) = .shared := by decide +kernel
  obtain ⟨s, execution, facts⟩ := (Option.any_eq_true _ _).mp run
  have shared := of_decide_eq_true facts
  obtain ⟨complies, execution⟩ := System.complies_of_runIf (fun _ _ => of_decide_eq_true) execution
  exact ⟨_, s, execution, shared, (ownersAdvance_iff (fun _ _ => 0) 0 execution).mpr complies⟩

/-- In a block of two pages, the second one looks unowned once the first one is shared. -/
theorem not_ownersAdvance_neighbour : ¬ ∀ content allocated labels s,
    system.run (initial content allocated) labels = some s →
      system.Complies OwnersAdvance (initial content allocated) labels := by
  intro advance
  have run : (system.run (initial (fun _ _ => 0) 0) (asksForFirst 2)).any fun s =>
      s.memory.pageOwner (heapPage 1) = .process 1 ∧
        (system.step s (.handoff (.exec 1))).any fun s' =>
          s'.memory.pageOwner (heapPage 1) = .unowned := by decide +kernel
  obtain ⟨s, execution, facts⟩ := (Option.any_eq_true _ _).mp run
  obtain ⟨owned, exchanged⟩ := of_decide_eq_true facts
  obtain ⟨s', stepped, facts⟩ := (Option.any_eq_true _ _).mp exchanged
  have cleared := of_decide_eq_true facts
  have whole : system.run (initial (fun _ _ => 0) 0) (asksForFirst 2 ++ [.handoff (.exec 1)]) =
      some s' := by
    rw [System.run_append, execution]
    exact (congrArg (Option.bind · some) stepped).trans rfl
  have complies := (advance _ _ _ _ whole).rest execution
  rcases complies.1 s' stepped (heapPage 1) with same | ⟨-, advances⟩
  · rw [owned, cleared] at same
    cases same
  · exact advances.ne_unowned cleared

end Tthread.Sharing
