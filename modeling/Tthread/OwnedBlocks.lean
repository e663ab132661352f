/-
# The table of owned blocks

A process notes the blocks it gets from `xheap::malloc` in a table of its own, and `finalcommit`
visits the pages of the blocks noted there. The table is one page, with two words for each block;
`setOwnedPage` checks for the number of blocks only once it has reached half the bytes of a page.
What is written behind the table belongs to somebody else.

As long as the blocks fit, the table is the list of blocks of `Handoff`, and every page of a
process is in it.
-/

import Tthread.OwnerEntries

namespace Tthread.OwnedBlocks

open Transition Handoff

variable {t t' : Handoff.State} {me q : ℕ} {p : PageId} {label : Handoff.Label}

/-! ## The pages that `finalcommit` still visits -/

/-- The page has not been shared yet by the call. -/
def CommitPos.Before : CommitPos → Prop
  | .test | .copy | .protect | .share .check | .share .exchange => True
  | .share .record | .release | .version => False

/-- A page that `finalcommit(true)` has still to share, if it is in it. -/
def Remains (p : PageId) : Task → Prop
  | .finalcommit true pages => p ∈ pages
  | .commit call pages => call.setShared = true →
      p ∈ pages ∨ p = call.page ∧ CommitPos.Before call.pos
  | .finalcommit false _ | .user | .notify _ _ _ => True

/-- The blocks of a process hold its pages, and `finalcommit` does not miss one. -/
structure Covering (t : Handoff.State) : Prop where
  covers : ∀ me p, t.memory.pageOwner p = .process me → p ∈ ownedPages (t.control me).ownedblockinfo
  remains : ∀ me p, t.memory.pageOwner p = .process me → Remains p (t.control me).task

/-- The array of owners in an access outside the programs: pages are given up only. -/
theorem exec_owner (moved : t.exec me = some t') (owner : t'.memory.pageOwner p = .process q) :
    t.memory.pageOwner p = .process q := by
  rw [Sharing.exec_pageOwner moved] at owner
  cases exchanging : t.exchanging me with
  | none =>
    rw [exchanging] at owner
    exact owner
  | some r =>
    rw [exchanging] at owner
    have owner : (exchange t.memory r).pageOwner p = .process q := owner
    by_cases here : p = r
    · rw [here, Sharing.exchange_self] at owner
      cases owner
    · by_cases behind : p = r.next
      · rw [behind, Sharing.exchange_next] at owner
        cases owner
      · rwa [Sharing.exchange_of_ne here behind] at owner

/-- The blocks stay, and the tasks of others too. -/
structure Steady (control control' : ℕ → Control) (me : ℕ) : Prop where
  blocks : ∀ q, (control' q).ownedblockinfo = (control q).ownedblockinfo
  tasks : ∀ q ≠ me, (control' q).task = (control q).task

theorem steady_update {control : ℕ → Control} {c : Control}
    (same : c.ownedblockinfo = (control me).ownedblockinfo) :
    Steady control (Function.update control me c) me := by
  constructor
  · intro q
    by_cases here : q = me
    · subst here
      rwa [Function.update_self]
    · rw [Function.update_of_ne here]
  · intro q different
    rw [Function.update_of_ne different]

theorem steady_sigqueue {control : ℕ → Control} {target : Option ℕ}
    (steady : Steady control t.control me) : Steady control (t.sigqueue p target).control me := by
  cases target with
  | none => exact steady
  | some pid =>
    constructor
    · intro q
      refine Eq.trans ?_ (steady.blocks q)
      by_cases here : q = pid
      · subst here
        simp only [State.sigqueue, State.setControl, Function.update_self]
      · simp only [State.sigqueue, State.setControl, Function.update_of_ne here]
    · intro q different
      exact sigqueue_task.trans (steady.tasks q different)

theorem steady_exec (moved : t.exec me = some t') : Steady t.control t'.control me := by
  rw [State.exec] at moved
  split at moved
  · cases moved
  · split at moved
    · next call handler =>
      obtain rfl := Option.some.inj moved
      unfold State.handlerAccess
      split <;> exact steady_update rfl
    · cases task : (t.control me).task with
      | user =>
        rw [task] at moved
        cases moved
      | finalcommit release pages =>
        rw [task] at moved
        cases pages <;> (obtain rfl := Option.some.inj moved; exact steady_update rfl)
      | commit call pages =>
        rw [task] at moved
        simp only [State.taskAccess] at moved
        split at moved <;> obtain rfl := Option.some.inj moved
        · exact ⟨fun _ => rfl, fun _ _ => rfl⟩
        · exact steady_update rfl
      | notify isWrite p pos =>
        rw [task] at moved
        obtain rfl := Option.some.inj moved
        unfold State.notifyAccess
        split
        · exact steady_update rfl
        · exact steady_sigqueue (steady_update rfl)

/-- A call does not return before it has shared the page. -/
theorem remains_nextCall {call : CommitCall} {pages : List PageId}
    (owner : (Handoff.commitOwnedPage t.memory me call).1.pageOwner p = .process me)
    (remains : Remains p (.commit call pages)) :
    Remains p ((t.nextCall me call).elim (.finalcommit call.setShared pages)
      (.commit · pages)) := by
  obtain ⟨page, setShared, pos⟩ := call
  -- The position moves on, and the exchange is still to come.
  have later : ∀ next, CommitPos.Before next ∨ p ≠ page ∨ ¬CommitPos.Before pos →
      Remains p (.commit ⟨page, setShared, next⟩ pages) := by
    intro next goes sharing
    rcases remains sharing with listed | ⟨here, before⟩
    · exact .inl listed
    · rcases goes with goes | other | done
      · exact .inr ⟨here, goes⟩
      · exact absurd here other
      · exact absurd before done
  cases pos with
  | test =>
    simp only [State.nextCall, Handoff.commitOwnedPage]
    cases (t.memory.process me).pageInfo page with
    | none | read =>
      cases setShared with
      | false => exact fun sharing => absurd sharing Bool.false_ne_true
      | true => exact later (.share .check) (.inl trivial)
    | readWrite | unused => exact later .copy (.inl trivial)
  | copy => exact later .protect (.inl trivial)
  | protect =>
    cases setShared with
    | false => exact fun sharing => absurd sharing Bool.false_ne_true
    | true => exact later (.share .check) (.inl trivial)
  | share pos =>
    cases pos with
    | check =>
      simp only [State.nextCall, Handoff.commitOwnedPage, Handoff.setSharedPage]
      -- A page that is shared already is skipped, but such a page has no owner.
      by_cases shared : t.memory.pageOwner page = .shared
      · simp only [shared, ne_eq, not_true_eq_false, if_false]
        refine later .release (.inr (.inl ?_))
        rintro rfl
        cases shared.symm.trans owner
      · simp only [shared, ne_eq, not_false_eq_true, if_true]
        exact later (.share .exchange) (.inl trivial)
    -- After the exchange the page has no owner.
    | exchange =>
      refine later (.share .record) (.inr (.inl ?_))
      rintro rfl
      cases Sharing.exchange_self.symm.trans owner
    | record => exact later .release (.inr (.inr id))
  | release => exact later .version (.inr (.inr id))
  | version =>
    cases setShared with
    | false => trivial
    | true =>
      rcases remains rfl with listed | ⟨-, before⟩
      · exact listed
      · exact before.elim

/-- An access of a process in `finalcommit`. -/
theorem remains_exec (remains : Remains p (t.control me).task) (moved : t.exec me = some t')
    (owner : t'.memory.pageOwner p = .process me) : Remains p (t'.control me).task := by
  -- Who owns the page after the access has owned it before.
  have before := exec_owner moved owner
  rw [State.exec] at moved
  split at moved
  · cases moved
  · split at moved
    · next call handler =>
      obtain rfl := Option.some.inj moved
      rw [handlerAccess_task]
      exact remains
    · cases task : (t.control me).task with
      | user =>
        rw [task] at moved
        cases moved
      | finalcommit release pages =>
        rw [task] at moved remains
        cases pages with
        | nil =>
          obtain rfl := Option.some.inj moved
          simp only [State.setControl, Function.update_self, Remains]
        | cons r pages =>
          obtain rfl := Option.some.inj moved
          simp only [State.setControl, Function.update_self]
          -- The walk over the blocks commits the pages that are still owned, and skips the others.
          by_cases mine : t.memory.pageOwner r = .process me
          · rw [if_pos mine]
            intro sharing
            obtain rfl : release = true := sharing
            rcases List.mem_cons.mp remains with here | listed
            · exact .inr ⟨here, trivial⟩
            · exact .inl listed
          · rw [if_neg mine]
            cases release with
            | false => trivial
            | true =>
              refine (List.mem_cons.mp remains).resolve_left ?_
              rintro rfl
              exact mine before
      | commit call pages =>
        rw [task] at moved remains
        simp only [State.taskAccess] at moved
        split at moved <;> obtain rfl := Option.some.inj moved
        · show Remains p (t.control me).task
          rw [task]
          exact remains
        · simp only [State.setControl, Function.update_self]
          exact remains_nextCall owner remains
      | notify isWrite p pos =>
        rw [task] at moved
        obtain rfl := Option.some.inj moved
        unfold State.notifyAccess
        split
        · simp only [State.setControl, Function.update_self, Remains]
        · rw [sigqueue_task]
          simp only [State.setControl, Function.update_self, Remains]

theorem mem_ownedPages_new {blocks : List (ℕ × ℕ)} {first last : ℕ} (heap : p.region = .heap)
    (above : first ≤ p.pageNo) (below : p.pageNo < last) :
    p ∈ ownedPages (blocks ++ [(first, last)]) := by
  unfold ownedPages
  rw [List.flatMap_append, List.mem_append, List.flatMap_singleton, List.mem_map]
  refine .inr ⟨p.pageNo, List.mem_range'_1.mpr ⟨above, ?_⟩, ?_⟩
  · show p.pageNo < first + (last - first)
    omega
  · rw [heapPage, ← heap]

theorem mem_ownedPages_old {blocks : List (ℕ × ℕ)} {block : ℕ × ℕ}
    (member : p ∈ ownedPages blocks) :
    p ∈ ownedPages (blocks ++ [block]) := by
  unfold ownedPages
  rw [List.flatMap_append]
  exact List.mem_append_left _ member

/-- A process goes on and the owners stay. -/
theorem Covering.setControl (inv : Covering t) {c : Control}
    (blocks : c.ownedblockinfo = (t.control me).ownedblockinfo)
    (remains : ∀ p, t.memory.pageOwner p = .process me → Remains p c.task) :
    Covering (t.setControl me c) := by
  have steady : Steady t.control (t.setControl me c).control me := steady_update blocks
  refine ⟨fun q p owner => ?_, fun q p owner => ?_⟩
  · rw [steady.blocks q]
    exact inv.covers q p owner
  · by_cases here : q = me
    · subst here
      simpa only [State.setControl, Function.update_self] using remains p owner
    · rw [steady.tasks q here]
      exact inv.remains q p owner

/-- **Step lemma.** -/
theorem Covering.step (inv : Covering t) (moved : t.step label = some t') : Covering t' := by
  cases label with
  | malloc me pages =>
    obtain ⟨inProgram, rfl⟩ := guarded moved
    -- `malloc` gives its caller the fresh pages and no others.
    have owners : ∀ p, (t.malloc me pages).memory.pageOwner p =
        if t.Fresh pages p then .process me else t.memory.pageOwner p := by
      intro p
      show (setOwnedPages t.memory me _).pageOwner p = _
      simp only [setOwnedPages_pageOwner, numbered_block]
    refine ⟨fun q p owner => ?_, fun q p owner => ?_⟩
    · rw [owners] at owner
      by_cases here : q = me
      · subst here
        simp only [State.malloc, State.setControl, Function.update_self]
        by_cases fresh : t.Fresh pages p
        · exact mem_ownedPages_new fresh.1 fresh.2.1 fresh.2.2
        · rw [if_neg fresh] at owner
          exact mem_ownedPages_old (inv.covers q p owner)
      · simp only [State.malloc, State.setControl, Function.update_of_ne here]
        by_cases fresh : t.Fresh pages p
        · rw [if_pos fresh] at owner
          exact absurd (Owner.process.inj owner).symm here
        · rw [if_neg fresh] at owner
          exact inv.covers q p owner
    · rw [owners] at owner
      by_cases here : q = me
      · subst here
        simp only [State.malloc, State.setControl, Function.update_self, inProgram.2.1, Remains]
      · simp only [State.malloc, State.setControl, Function.update_of_ne here]
        by_cases fresh : t.Fresh pages p
        · rw [if_pos fresh] at owner
          exact absurd (Owner.process.inj owner).symm here
        · rw [if_neg fresh] at owner
          exact inv.remains q p owner
  | store me p offset value =>
    obtain ⟨-, rfl⟩ := guarded moved
    exact ⟨inv.covers, inv.remains⟩
  | fault me p isWrite =>
    obtain ⟨-, rfl⟩ := guarded moved
    unfold State.fault
    split
    · -- On a page it has not used the process asks the owner first; else no owner changes.
      exact inv.setControl rfl fun _ _ => trivial
    · have owners : (Handoff.handleAccess t.memory me p isWrite).pageOwner = t.memory.pageOwner :=
        Sharing.handleAccess_pageOwner
      refine ⟨fun q r owner => inv.covers q r ?_, fun q r owner => inv.remains q r ?_⟩
      · exact (congrFun owners r).symm.trans owner
      · exact (congrFun owners r).symm.trans owner
  | finalcommit me release =>
    obtain ⟨-, rfl⟩ := guarded moved
    refine inv.setControl rfl fun p owner => ?_
    cases release with
    | false => trivial
    | true => exact inv.covers me p owner
  | exec me =>
    have moved : t.exec me = some t' := moved
    have steady := steady_exec moved
    refine ⟨fun q p owner => ?_, fun q p owner => ?_⟩
    · rw [steady.blocks q]
      exact inv.covers q p (exec_owner moved owner)
    · have before := inv.remains q p (exec_owner moved owner)
      by_cases here : q = me
      · subst here
        exact remains_exec before moved owner
      · rw [steady.tasks q here]
        exact before
  | deliver me =>
    obtain ⟨pageNo, -, moved⟩ := Option.bind_eq_some_iff.mp moved
    obtain ⟨-, rfl⟩ := guarded moved
    exact inv.setControl rfl (inv.remains me)
  | exit me =>
    obtain ⟨-, rfl⟩ := guarded moved
    exact inv.setControl rfl (inv.remains me)

/-! ## Processes that have ended -/

/-- The state in which no process has ended: those that have take no more steps. -/
def revive (t : Handoff.State) : Handoff.State :=
  { t with control := fun q => { t.control q with exited := false } }

theorem revive_setControl (t : Handoff.State) (me : ℕ) (c : Control) :
    revive (t.setControl me c) = (revive t).setControl me { c with exited := false } := by
  simp only [revive, State.setControl, Handoff.State.mk.injEq, true_and, and_true]
  funext q
  by_cases here : q = me
  · subst here
    simp only [Function.update_self]
  · simp only [Function.update_of_ne here]

theorem revive_exit (t : Handoff.State) (me : ℕ) :
    revive (t.setControl me { t.control me with exited := true }) = revive t := by
  rw [revive_setControl]
  show { revive t with control := Function.update (revive t).control me ((revive t).control me) } =
    _
  rw [Function.update_eq_self]

theorem revive_sigqueue (t : Handoff.State) (p : PageId) (target : Option ℕ) :
    revive (t.sigqueue p target) = (revive t).sigqueue p target := by
  cases target with
  | none => rfl
  | some pid => exact revive_setControl t pid _

/-- An access that does not kill its process. -/
theorem revive_exec (moved : t.exec me = some t') (lives : ¬t.Dies me) :
    (revive t).exec me = some (revive t') := by
  rw [State.exec] at moved
  have alive : (t.control me).exited = false := by
    cases exited : (t.control me).exited with
    | false => rfl
    | true =>
      rw [if_pos exited] at moved
      cases moved
  rw [if_neg (by rw [alive]; simp)] at moved
  have awake : ((revive t).control me).exited = false := rfl
  have handlers : ((revive t).control me).handler = (t.control me).handler := rfl
  have tasks : ((revive t).control me).task = (t.control me).task := rfl
  rw [State.exec, if_neg (by rw [awake]; simp), handlers, tasks]
  cases handler : (t.control me).handler with
  | some call =>
    rw [handler] at moved
    obtain rfl := Option.some.inj moved
    -- What the access reads is the same, whether or not some process has left.
    have reads : ¬t.Faults me call := fun faults => lives ⟨call, handler, faults⟩
    have reads' : ¬(revive t).Faults me call := reads
    refine congrArg some ?_
    rw [State.handlerAccess, State.handlerAccess, if_neg reads, if_neg reads', revive_setControl]
    rfl
  | none =>
    rw [handler] at moved
    cases task : (t.control me).task with
    | user =>
      rw [task] at moved
      cases moved
    | finalcommit release pages =>
      rw [task] at moved
      cases pages with
      | nil =>
        obtain rfl := Option.some.inj moved
        rw [revive_setControl]
        rfl
      | cons p pages =>
        obtain rfl := Option.some.inj moved
        rw [revive_setControl]
        rfl
    | commit call pages =>
      rw [task] at moved
      simp only [State.taskAccess] at moved ⊢
      by_cases faults : t.Faults me call
      · have faults' : (revive t).Faults me call := faults
        rw [if_pos faults] at moved
        obtain rfl := Option.some.inj moved
        rw [if_pos faults']
        rfl
      · have reads : ¬(revive t).Faults me call := faults
        rw [if_neg faults] at moved
        obtain rfl := Option.some.inj moved
        rw [if_neg reads, revive_setControl]
        rfl
    | notify isWrite p pos =>
      rw [task] at moved
      obtain rfl := Option.some.inj moved
      refine congrArg some ?_
      unfold State.notifyAccess
      split
      · rw [revive_setControl]
        rfl
      · rw [revive_sigqueue, revive_setControl]
        rfl

/-- The step shares a page only while nobody owns the page behind it. -/
def SharesApart (t : Handoff.State) : Handoff.Label → Prop
  | .exec me => ∀ p ∈ t.exchanging me, ∀ owner, t.memory.pageOwner p.next ≠ .process owner
  | _ => True

/-- A step is one of the system in which no process ends, or ends one. -/
theorem revive_step (moved : t.step label = some t') (apart : SharesApart t label) :
    revive t' = revive t ∨
      (revive t).step label = some (revive t') ∧ KeepsHandoff (revive t) label := by
  -- In the system without ends a process that was in the program still is.
  have runs : ∀ me, t.InProgram me → (revive t).InProgram me := fun me program =>
    ⟨rfl, program.2.1, program.2.2⟩
  cases label with
  | malloc me pages =>
    obtain ⟨program, rfl⟩ := guarded moved
    refine .inr ⟨(if_pos (runs me program)).trans ?_, trivial⟩
    unfold State.malloc
    rw [revive_setControl]
    rfl
  | store me p offset value =>
    obtain ⟨⟨program, writable⟩, rfl⟩ := guarded moved
    exact .inr ⟨if_pos ⟨runs me program, writable⟩, trivial⟩
  | fault me p isWrite =>
    obtain ⟨⟨program, inside, denied⟩, rfl⟩ := guarded moved
    refine .inr ⟨(if_pos ⟨runs me program, inside, denied⟩).trans ?_, trivial⟩
    unfold State.fault
    by_cases unused : (t.memory.process me).pageInfo p = .unused
    · have unused' : ((revive t).memory.process me).pageInfo p = .unused := unused
      rw [if_pos unused, if_pos unused', revive_setControl]
      rfl
    · have used : ¬((revive t).memory.process me).pageInfo p = .unused := unused
      rw [if_neg unused, if_neg used]
      rfl
  | finalcommit me release =>
    obtain ⟨program, rfl⟩ := guarded moved
    refine .inr ⟨(if_pos (runs me program)).trans ?_, trivial⟩
    rw [revive_setControl]
    rfl
  | exec me =>
    have moved : t.exec me = some t' := moved
    -- The death of a process is invisible there; every other access is the same.
    by_cases dies : t.Dies me
    · left
      obtain ⟨call, handler, faults⟩ := dies
      rw [State.exec] at moved
      split at moved
      · cases moved
      · rw [Option.mem_def.mp handler] at moved
        obtain rfl := Option.some.inj moved
        rw [State.handlerAccess, if_pos faults]
        exact revive_exit t me
    · exact .inr ⟨revive_exec moved dies, apart, fun dead => absurd dead dies⟩
  | deliver me =>
    obtain ⟨pageNo, waits, moved⟩ := Option.bind_eq_some_iff.mp moved
    obtain ⟨interruptible, rfl⟩ := guarded moved
    have interruptible' : (revive t).Interruptible me := ⟨rfl, interruptible.2⟩
    have waits' : ((revive t).control me).pending = some pageNo := waits
    refine .inr ⟨?_, trivial⟩
    show (((revive t).control me).pending.bind fun pageNo =>
      if (revive t).Interruptible me then some ((revive t).deliver me pageNo) else none) = _
    rw [waits', Option.bind_some, if_pos interruptible']
    unfold State.deliver
    rw [revive_setControl]
    rfl
  | exit me =>
    obtain ⟨-, rfl⟩ := guarded moved
    exact .inl (revive_exit t me)

/-! ## The table -/

/-- `_ownedblockinfo` and `_ownedblocks` of a process. -/
structure Table where
  /-- the words of the table, and of what is mapped behind it -/
  words : ℕ → ℕ
  ownedblocks : ℕ

namespace Table

/-- The words of one page. -/
def size : ℕ := pageSize / 8

/-- The number of blocks at which `setOwnedPage` gives up. -/
def limit : ℕ := pageSize / 2

/-- The end of `setOwnedPage`, before its check. -/
def note (table : Table) (first last : ℕ) : Table where
  words := Function.update (Function.update table.words (table.ownedblocks * 2) first)
    (table.ownedblocks * 2 + 1) last
  ownedblocks := table.ownedblocks + 1

/-- The blocks that `finalcommit` reads. -/
def blocks (table : Table) : List (ℕ × ℕ) :=
  (List.range table.ownedblocks).map fun i => (table.words (i * 2), table.words (i * 2 + 1))

theorem size_eq : size = 512 := rfl

theorem limit_eq : limit = 2048 := rfl

theorem blocks_note (table : Table) (first last : ℕ) :
    (table.note first last).blocks = table.blocks ++ [(first, last)] := by
  unfold blocks note
  rw [List.range_succ, List.map_append, List.map_singleton]
  congr 1
  · refine List.map_congr_left fun i member => ?_
    have before : i < table.ownedblocks := List.mem_range.mp member
    have even : ∀ k, k < table.ownedblocks * 2 → Function.update (Function.update table.words
        (table.ownedblocks * 2) first) (table.ownedblocks * 2 + 1) last k = table.words k := by
      intro k below
      rw [Function.update_of_ne (by omega), Function.update_of_ne (by omega)]
    exact Prod.ext (even (i * 2) (by omega)) (even (i * 2 + 1) (by omega))
  · simp only [Function.update_self, Function.update_of_ne (Nat.ne_of_lt (Nat.lt_succ_self _))]

/-- What is written behind the table is not in the blocks that fit. -/
theorem blocks_update (table : Table) {index value : ℕ} (behind : size ≤ index)
    (fits : table.ownedblocks * 2 ≤ size) :
    blocks { table with words := Function.update table.words index value } = table.blocks := by
  refine List.map_congr_left fun i member => ?_
  have before : i < table.ownedblocks := List.mem_range.mp member
  refine Prod.ext ?_ ?_
  · exact Function.update_of_ne (by omega) _ _
  · exact Function.update_of_ne (by omega) _ _

end Table

/-! ## The system -/

structure State extends toHandoff : Handoff.State where
  table : ℕ → Table

inductive Label
  | handoff (label : Handoff.Label)
  /-- `cleanupOwnedBlocks` in `childRegister`: the words are those of the parent -/
  | childRegister (parent child : ℕ)
  /-- a store to what is mapped behind the table -/
  | behind (me index value : ℕ)

/-- The pages of `PROTECTEDHEAP_SIZE`. -/
def heapPages : ℕ := 1048576 * 4096 / pageSize

def State.exits (s : Handoff.State) (me : ℕ) : Handoff.State :=
  s.setControl me { s.control me with exited := true }

/-- `xheap::malloc`: it exits if the heap is used up, and so does `setOwnedPage` if it finds too
many blocks. -/
def State.malloc (s : State) (me pages : ℕ) : State :=
  if heapPages < s.position + pages then { s with toHandoff := State.exits s.toHandoff me }
  else
    let table := (s.table me).note s.position (s.position + pages)
    let t := s.toHandoff.malloc me pages
    { toHandoff := if table.ownedblocks = Table.limit then State.exits t me else t
      table := Function.update s.table me table }

def step (s : State) : Label → Option State
  | .handoff (.malloc me pages) => if s.InProgram me then some (s.malloc me pages) else none
  | .handoff (.finalcommit me release) =>
      if s.InProgram me then
        some { s with
          toHandoff := s.setControl me
            { s.control me with
              task := .finalcommit release (ownedPages (s.table me).blocks) } }
      else none
  | .handoff label => (s.toHandoff.step label).map fun t => { s with toHandoff := t }
  | .childRegister parent child =>
      if s.InProgram child ∧ (s.control child).ownedblockinfo = [] ∧
          (s.table child).ownedblocks = 0 then
        some { s with table := Function.update s.table child ⟨(s.table parent).words, 0⟩ }
      else none
  | .behind me index value =>
      if Table.size ≤ index then
        some { s with
          table := Function.update s.table me
            { s.table me with words := Function.update (s.table me).words index value } }
      else none

def initial (content : PageId → Page) (allocated : ℕ) : State where
  toHandoff := Handoff.initial content allocated
  table _ := ⟨fun _ => 0, 0⟩

def system : Transition.System State Label where
  Init s := ∃ content allocated, s = initial content allocated
  step := step

/-! ## What `finalcommit` covers -/

/-- `finalcommit(true)` has visited all pages and is about to return. -/
def State.Returns (s : State) (me : ℕ) : Prop :=
  (s.control me).exited = false ∧ (s.control me).handler = none ∧
    (s.control me).task = .finalcommit true []

instance (s : State) : DecidablePred s.Returns := fun _ => inferInstanceAs (Decidable (_ ∧ _ ∧ _))

structure Covers (s : State) : Prop where
  /-- all words that have been written are in the table, or the process has exited -/
  inside : ∀ me, (s.table me).ownedblocks * 2 ≤ Table.size ∨ (s.control me).exited = true
  covers : ∀ me p, s.memory.pageOwner p = .process me → p ∈ ownedPages (s.table me).blocks
  released : ∀ me p, s.Returns me → s.memory.pageOwner p ≠ .process me
  /-- of every page that the process has got, which it may have handed over before -/
  saved : ∀ me p, s.Returns me → s.allocator p = some me → s.memory.persistent p = s.content p

/-- The condition on a step: a block is allocated only while it fits into the table, and a page is
shared only while nobody owns the page behind it. -/
def KeepsBlocks (s : State) : Label → Prop
  | .handoff (.malloc me pages) =>
      s.position + pages ≤ heapPages → (s.table me).ownedblocks < Table.size / 2
  | .handoff label => SharesApart s.toHandoff label
  | _ => True

/-! ## Refinement -/

variable {s s' : State}

/-- The table is the list of blocks. -/
structure TableInv (s : State) : Prop where
  same : ∀ me, (s.table me).blocks = (s.control me).ownedblockinfo
  fits : ∀ me, (s.table me).ownedblocks * 2 ≤ Table.size

/-- A block that fits. -/
theorem malloc_of_fits {pages : ℕ} (room : s.position + pages ≤ heapPages)
    (fits : (s.table me).ownedblocks < Table.size / 2) : s.malloc me pages =
      { toHandoff := s.toHandoff.malloc me pages
        table := Function.update s.table me
          ((s.table me).note s.position (s.position + pages)) } := by
  have few : ((s.table me).note s.position (s.position + pages)).ownedblocks ≠ Table.limit := by
    show (s.table me).ownedblocks + 1 ≠ Table.limit
    rw [Table.limit_eq]
    rw [Table.size_eq] at fits
    omega
  unfold State.malloc
  rw [if_neg (Nat.not_lt.mpr room)]
  simp only [if_neg few]

/-- **The table refines the list of blocks.** A step is one of `Handoff`, or none at all. -/
theorem step_refines (inv : TableInv s) {label : Label} (keeps : KeepsBlocks s label)
    (stepped : step s label = some s') : s'.toHandoff = s.toHandoff ∨
      ∃ l, s.toHandoff.step l = some s'.toHandoff ∧ SharesApart s.toHandoff l := by
  cases label with
  | handoff label =>
    right
    cases label with
    | malloc me pages =>
      obtain ⟨program, rfl⟩ := guarded stepped
      by_cases room : s.position + pages ≤ heapPages
      · rw [malloc_of_fits room (keeps room)]
        exact ⟨.malloc me pages, if_pos program, trivial⟩
      · refine ⟨.exit me, ?_, trivial⟩
        unfold State.malloc
        rw [if_pos (Nat.lt_of_not_le room)]
        exact if_pos program
    | finalcommit me release =>
      obtain ⟨program, rfl⟩ := guarded stepped
      refine ⟨.finalcommit me release, ?_, trivial⟩
      rw [inv.same me]
      exact if_pos program
    | store | fault | exec | deliver | exit =>
      obtain ⟨t, moved, rfl⟩ := Option.map_eq_some_iff.mp stepped
      exact ⟨_, moved, keeps⟩
  | childRegister parent child | behind me index value =>
    obtain ⟨-, rfl⟩ := guarded stepped
    exact .inl rfl

theorem setControl_blocks {c : Control} (same : c.ownedblockinfo = (t.control me).ownedblockinfo) :
    ((t.setControl me c).control q).ownedblockinfo = (t.control q).ownedblockinfo :=
  have steady : Steady t.control (t.setControl me c).control me := steady_update same
  steady.blocks q

/-- A step of `Handoff` other than a malloc leaves the blocks alone. -/
theorem step_blocks (moved : t.step label = some t')
    (noMalloc : ∀ me pages, label ≠ .malloc me pages)
    (q : ℕ) : (t'.control q).ownedblockinfo = (t.control q).ownedblockinfo := by
  cases label with
  | malloc me pages => exact absurd rfl (noMalloc me pages)
  | store me p offset value =>
    obtain ⟨-, rfl⟩ := guarded moved
    rfl
  | fault me p isWrite =>
    obtain ⟨-, rfl⟩ := guarded moved
    unfold State.fault
    split
    · exact setControl_blocks rfl
    · rfl
  | finalcommit me release | exit me =>
    obtain ⟨-, rfl⟩ := guarded moved
    exact setControl_blocks rfl
  | exec me =>
    have moved : t.exec me = some t' := moved
    exact (steady_exec moved).blocks q
  | deliver me =>
    obtain ⟨pageNo, -, moved⟩ := Option.bind_eq_some_iff.mp moved
    obtain ⟨-, rfl⟩ := guarded moved
    exact setControl_blocks rfl

theorem TableInv.step (inv : TableInv s) {label : Label} (keeps : KeepsBlocks s label)
    (stepped : OwnedBlocks.step s label = some s') : TableInv s' := by
  -- The labels that leave the table and the lists of blocks as they are.
  have others : ∀ t, s'.toHandoff = t → s'.table = s.table →
      (∀ q, (t.control q).ownedblockinfo = (s.control q).ownedblockinfo) → TableInv s' := by
    rintro t rfl tables blocks
    refine ⟨fun q => ?_, fun q => tables ▸ inv.fits q⟩
    rw [tables, inv.same q]
    exact (blocks q).symm
  cases label with
  | handoff label =>
    cases label with
    | malloc me pages =>
      obtain ⟨-, rfl⟩ := guarded stepped
      -- The allocation fits into the heap: one more block is noted in the table.
      by_cases room : s.position + pages ≤ heapPages
      · have fits : (s.table me).ownedblocks < Table.size / 2 := keeps room
        rw [malloc_of_fits room fits]
        refine ⟨fun q => ?_, fun q => ?_⟩
        · by_cases here : q = me
          · subst here
            simp only [Function.update_self, Table.blocks_note, inv.same, Handoff.State.malloc,
              Handoff.State.setControl]
          · simp only [Function.update_of_ne here, inv.same, Handoff.State.malloc,
              Handoff.State.setControl]
        · by_cases here : q = me
          · subst here
            simp only [Function.update_self]
            show ((s.table q).ownedblocks + 1) * 2 ≤ Table.size
            rw [Table.size_eq] at fits ⊢
            omega
          · simp only [Function.update_of_ne here]
            exact inv.fits q
      · -- It does not: the process leaves, before anything is noted.
        unfold State.malloc
        rw [if_pos (Nat.lt_of_not_le room)]
        refine ⟨fun q => (inv.same q).trans ?_, inv.fits⟩
        exact (setControl_blocks (c := { s.control me with exited := true }) rfl).symm
    | finalcommit me release =>
      obtain ⟨-, rfl⟩ := guarded stepped
      exact others _ rfl rfl fun q => setControl_blocks rfl
    | store | fault | exec | deliver | exit =>
      obtain ⟨t, moved, rfl⟩ := Option.map_eq_some_iff.mp stepped
      exact others t rfl rfl fun q => step_blocks moved (by simp) q
  -- The table of a child is cleared.
  | childRegister parent child =>
    obtain ⟨⟨-, none, -⟩, rfl⟩ := guarded stepped
    refine ⟨fun q => ?_, fun q => ?_⟩
    · by_cases here : q = child
      · subst here
        simp only [Function.update_self]
        exact none.symm
      · simp only [Function.update_of_ne here]
        exact inv.same q
    · by_cases here : q = child
      · subst here
        simp only [Function.update_self, Nat.zero_mul, Nat.zero_le]
      · simp only [Function.update_of_ne here]
        exact inv.fits q
  -- A write behind the blocks in use is not seen by those who read the table.
  | behind me index value =>
    obtain ⟨outside, rfl⟩ := guarded stepped
    refine ⟨fun q => ?_, fun q => ?_⟩
    · by_cases here : q = me
      · subst here
        simp only [Function.update_self, Table.blocks_update _ outside (inv.fits q)]
        exact inv.same q
      · simp only [Function.update_of_ne here]
        exact inv.same q
    · by_cases here : q = me
      · subst here
        simp only [Function.update_self]
        exact inv.fits q
      · simp only [Function.update_of_ne here]
        exact inv.fits q

/-! ## Runs -/

theorem initial_tableInv (content : PageId → Page) (allocated : ℕ) :
    TableInv (initial content allocated) := ⟨fun _ => rfl, fun _ => Nat.zero_le _⟩

theorem initial_covering (content : PageId → Page) (allocated : ℕ) :
    Covering (Handoff.initial content allocated) := by
  have nobody : ∀ p q, (Handoff.initial content allocated).memory.pageOwner p ≠ .process q := by
    intro p q
    simp only [Handoff.initial, PageSystem.initial]
    split <;> simp
  exact ⟨fun me p owner => absurd owner (nobody p me), fun me p owner => absurd owner (nobody p me)⟩

theorem covering_of_reachable {Ok : Handoff.State → Handoff.Label → Prop}
    (reach : Handoff.system.Reachable Ok t) : Covering t := by
  refine reach.invariant Covering ?_ fun _ _ _ inv _ moved => inv.step moved
  rintro _ ⟨content, allocated, rfl⟩
  exact initial_covering content allocated

/-- The stores of all processes are kept as if none had ended. -/
theorem inv_of_sharesApart (reach : Handoff.system.Reachable SharesApart t) :
    Handoff.Inv (revive t) := by
  have revived : Handoff.system.Reachable KeepsHandoff (revive t) := by
    refine reach.simulate revive ?_ fun t label t' _ apart moved => ?_
    · rintro _ ⟨content, allocated, rfl⟩
      exact ⟨content, allocated, rfl⟩
    · exact (revive_step moved apart).imp_right fun both => ⟨label, both.2, both.1⟩
  exact inv_of_keepsHandoff revived

theorem tableInv_of_keepsBlocks (reach : system.Reachable KeepsBlocks s) : TableInv s := by
  refine reach.invariant TableInv ?_ fun _ _ _ inv keeps stepped => inv.step keeps stepped
  rintro _ ⟨content, allocated, rfl⟩
  exact initial_tableInv content allocated

theorem sharesApart_of_keepsBlocks (reach : system.Reachable KeepsBlocks s) :
    Handoff.system.Reachable SharesApart s.toHandoff := by
  refine reach.simulate State.toHandoff ?_ fun s label s' prior keeps stepped => ?_
  · rintro _ ⟨content, allocated, rfl⟩
    exact ⟨content, allocated, rfl⟩
  · refine (step_refines (tableInv_of_keepsBlocks prior) keeps stepped).imp_right ?_
    rintro ⟨label', moved, apart⟩
    exact ⟨label', apart, moved⟩

/-- Once `finalcommit(true)` has visited its pages, nothing is left. -/
theorem Covering.released (inv : Covering t)
    (returns : (t.control me).task = .finalcommit true []) :
    t.memory.pageOwner p ≠ .process me := by
  intro owner
  have remains := inv.remains me p owner
  rw [returns] at remains
  exact List.not_mem_nil remains

/-- **`finalcommit` covers everything.** In every run whose steps all meet the condition, the table
holds the blocks, the blocks hold the pages of their process, and after `finalcommit(true)` the
process owns nothing and all its stores are in the shared mapping. -/
theorem covers_of_keepsBlocks (reach : system.Reachable KeepsBlocks s) : Covers s := by
  have table := tableInv_of_keepsBlocks reach
  have below := sharesApart_of_keepsBlocks reach
  have covering := covering_of_reachable below
  have released : ∀ me p, s.Returns me → s.memory.pageOwner p ≠ .process me :=
    fun me p returns => covering.released returns.2.2
  refine ⟨fun me => .inl (table.fits me), fun me p owner => ?_, released,
    fun me p returns allocated => ?_⟩
  · rw [table.same me]
    exact covering.covers me p owner
  · have known := (inv_of_sharesApart below).page p me allocated
    cases given : s.given p with
    | false => exact absurd (known.held given).owner (released me p returns)
    | true => exact (known.handed given).saved

/-- A test for the condition. -/
def keepsBlocks (s : State) : Label → Bool
  | .handoff (.malloc me _) => (s.table me).ownedblocks < Table.size / 2
  | .handoff label => keepsHandoff s.toHandoff label
  | _ => true

theorem keepsBlocks_sound {label : Label} (passes : keepsBlocks s label = true) :
    KeepsBlocks s label := by
  cases label with
  | handoff label =>
    cases label with
    | malloc me pages => exact fun _ => of_decide_eq_true passes
    | exec me =>
      have passes : keepsHandoff s.toHandoff (.exec me) = true := passes
      exact (keepsHandoff_sound passes).1
    | _ => trivial
  | _ => trivial

/-- Process 1 stores to its only page, and ends with `finalcommit(true)`. -/
theorem covers_onePage : ∃ s, system.Reachable KeepsBlocks s ∧ s.Returns 1 ∧
    s.allocator (heapPage 0) = some 1 ∧ Covers s := by
  let labels : List Label := [.handoff (.malloc 1 1), .handoff (.fault 1 (heapPage 0) true),
    .handoff (.store 1 (heapPage 0) 0 7), .handoff (.finalcommit 1 true)] ++
      List.replicate 9 (.handoff (.exec 1))
  have run : (system.runIf keepsBlocks (initial (fun _ _ => 0) 0) labels).any fun s =>
      s.Returns 1 ∧ s.allocator (heapPage 0) = some 1 := by decide +kernel
  obtain ⟨s, execution, facts⟩ := (Option.any_eq_true _ _).mp run
  obtain ⟨returns, allocated⟩ := of_decide_eq_true facts
  have start : system.Reachable KeepsBlocks (initial (fun _ _ => 0) 0) := .init ⟨_, _, rfl⟩
  have reach := start.runIf (fun _ _ => keepsBlocks_sound) execution
  exact ⟨s, reach, returns, allocated, covers_of_keepsBlocks reach⟩

/-- A process can get blocks up to the limit, of one page each. -/
theorem exists_blocks (n : ℕ) (few : n < Table.limit) : ∃ s, system.Reachable AnyStep s ∧
    s.InProgram 1 ∧ (s.table 1).ownedblocks = n ∧ s.position = n := by
  induction n with
  | zero => exact ⟨initial (fun _ _ => 0) 0, .init ⟨_, _, rfl⟩, ⟨rfl, rfl, rfl⟩, rfl, rfl⟩
  | succ n ih =>
    obtain ⟨s, reach, program, blocks, position⟩ := ih (Nat.lt_of_succ_lt few)
    have room : ¬heapPages < s.position + 1 := by
      have below : n + 1 < 2048 := few
      have enough : heapPages = 1048576 := rfl
      omega
    have fits : ((s.table 1).note s.position (s.position + 1)).ownedblocks ≠ Table.limit := by
      show (s.table 1).ownedblocks + 1 ≠ Table.limit
      omega
    have result : s.malloc 1 1 =
        { toHandoff := s.toHandoff.malloc 1 1
          table := Function.update s.table 1 ((s.table 1).note s.position (s.position + 1)) } := by
      unfold State.malloc
      rw [if_neg room]
      simp only [if_neg fits]
    have reach : system.Reachable AnyStep (s.malloc 1 1) :=
      .step (.handoff (.malloc 1 1)) reach trivial (if_pos program)
    rw [result] at reach
    refine ⟨_, reach, ?_, ?_, ?_⟩
    · simpa only [Handoff.State.InProgram, Handoff.State.malloc, Handoff.State.setControl,
        Function.update_self] using program
    · simp only [Function.update_self]
      exact congrArg (· + 1) blocks
    · exact congrArg (· + 1) position

/-- The 257th block is noted behind the table; and sharing the first page of a block in
`finalcommit(true)` clears the owner of the second one, which is left out. -/
theorem not_covers : (¬ ∀ s, system.Reachable AnyStep s →
      ∀ me, (s.table me).ownedblocks * 2 ≤ Table.size ∨ (s.control me).exited = true) ∧
    ¬ ∀ s s₁ s₂ labels, system.Reachable AnyStep s →
      system.step s (.handoff (.finalcommit 1 true)) = some s₁ → system.run s₁ labels = some s₂ →
      s₂.Returns 1 → ∀ p, s.memory.pageOwner p = .process 1 →
        s₂.memory.persistent p = s₂.content p := by
  constructor
  · intro inside
    obtain ⟨s, reach, program, blocks, -⟩ := exists_blocks 257 (by decide)
    rcases inside s reach 1 with fits | exited
    · rw [blocks] at fits
      exact absurd fits (by decide)
    · cases program.1.symm.trans exited
  · intro saved
    let stores : List Label := [.handoff (.malloc 1 2), .handoff (.fault 1 (heapPage 1) true),
      .handoff (.store 1 (heapPage 1) 0 7)]
    let visits : List Label := List.replicate 8 (.handoff (.exec 1))
    have run : (system.run (initial (fun _ _ => 0) 0) stores).any fun s =>
        s.memory.pageOwner (heapPage 1) = .process 1 ∧
          ((system.step s (.handoff (.finalcommit 1 true))).any fun s₁ =>
            (system.run s₁ visits).any fun s₂ => s₂.Returns 1 ∧
              s₂.memory.persistent (heapPage 1) 0 ≠ s₂.content (heapPage 1) 0) := by
      decide +kernel
    obtain ⟨s, execution, facts⟩ := (Option.any_eq_true _ _).mp run
    obtain ⟨owner, facts⟩ := of_decide_eq_true facts
    obtain ⟨s₁, called, facts⟩ := (Option.any_eq_true _ _).mp facts
    obtain ⟨s₂, visited, facts⟩ := (Option.any_eq_true _ _).mp facts
    obtain ⟨returns, lost⟩ := of_decide_eq_true facts
    have start : system.Reachable AnyStep (initial (fun _ _ => 0) 0) := .init ⟨_, _, rfl⟩
    have same :=
      saved s s₁ s₂ visits (start.run execution) called visited returns (heapPage 1) owner
    exact lost (congrFun same 0)

end Tthread.OwnedBlocks
