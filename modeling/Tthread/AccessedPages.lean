/-
# Accessed pages of mappings

The first access to a page of a mapping faults, is logged, and opens the page. A commit is to
close every page that was opened since the last one, so that the first access in the next thunk
is logged again. It closes the pages at the addresses that have faulted, as they are: the kernel
refuses an address that is not the first byte of a page.
-/

import Tthread.Xmmap

namespace Tthread.AccessedPages

open Transition SortedVector Xmmap

/-- What the process may do with a page. A page that may be written may be read. -/
inductive Protection
  | none
  | read
  | write
  deriving DecidableEq

/-- The access does not fault. -/
def Protection.Allows (protection : Protection) (isWrite : Bool) : Prop :=
  protection = .write ∨ protection = .read ∧ isWrite = false

instance (protection : Protection) (isWrite : Bool) : Decidable (protection.Allows isWrite) :=
  inferInstanceAs (Decidable (_ ∨ _))

/-- `mprotect` of one page. It refuses an address that is not aligned. -/
def mprotect (space : ℕ → Protection) (addr : ℕ) (protection : Protection) : ℕ → Protection :=
  if addr % pageSize = 0 then Function.update space (addr / pageSize) protection else space

/-- `PROT_READ` and `PROT_WRITE` in the protection that the program has asked for. -/
def readable (page : Mmappage) : Prop := page.protection % 2 = 1

def writable (page : Mmappage) : Prop := page.protection / 2 % 2 = 1

instance : DecidablePred readable := fun _ => inferInstanceAs (Decidable (_ = _))

instance : DecidablePred writable := fun _ => inferInstanceAs (Decidable (_ = _))

structure State where
  /-- the vector of `xmmap` -/
  mmaps : List Mmappage
  /-- the protection of each page -/
  space : ℕ → Protection
  /-- the addresses in `accessedmmappages` -/
  pages : List ℕ
  /-- the events of this thunk: pages, and whether they were written -/
  log : List (ℕ × Bool)
  /-- ghost: the pages accessed since the last commit -/
  touched : List ℕ

inductive Label
  | access (addr : ℕ) (isWrite : Bool)
  | commit
  deriving DecidableEq

/-- `mmappage::handleAccess`; `none` for an access that the program has not asked for. -/
def handlePage (page : Mmappage) (space : ℕ → Protection) (addr : ℕ) (isWrite : Bool) :
    Option (ℕ → Protection) :=
  if isWrite then
    if writable page then some (mprotect space page.addr .write) else none
  else
    if readable page then some (mprotect space (pageAlignDown addr) .read) else none

/-- `xmemory::handleAccess` for an address outside the heaps. -/
def handleAccess (s : State) (addr : ℕ) (isWrite : Bool) : Option State :=
  match find s.mmaps addr with
  | none => none
  | some page => (handlePage page s.space addr isWrite).map fun space =>
      { s with
        space
        pages := s.pages ++ [addr]
        log := s.log ++ [(addr / pageSize, isWrite)] }

/-- `accessedmmappages::reset` -/
def reset (space : ℕ → Protection) (pages : List ℕ) : ℕ → Protection :=
  pages.foldl (fun space addr => mprotect space addr .none) space

def step (s : State) : Label → Option State
  | .access addr isWrite =>
      let s := { s with touched := addr / pageSize :: s.touched }
      if (s.space (addr / pageSize)).Allows isWrite then some s else handleAccess s addr isWrite
  | .commit => some { s with space := reset s.space s.pages, pages := [], log := [], touched := [] }

/-- The vector is sorted and its pages are closed. -/
def system : System State Label where
  Init s := Sorted Mmappage.addr s.mmaps ∧ (∀ page ∈ s.mmaps, page.addr % pageSize = 0) ∧
    s.space = (fun _ => .none) ∧ s.pages = [] ∧ s.log = [] ∧ s.touched = []
  step := step

/-- Every page that has not been accessed since the last commit is closed, so that its first
access is going to fault, and every page that has been accessed is in the log. -/
structure Armed (s : State) : Prop where
  closed : ∀ page, page ∉ s.touched → s.space page = .none
  logged : ∀ page ∈ s.touched, ∃ isWrite, (page, isWrite) ∈ s.log

/-- At a commit every page that was accessed has faulted at its first byte. -/
def FaultsAligned (s : State) : Label → Prop
  | .commit => ∀ page ∈ s.touched, page * pageSize ∈ s.pages
  | _ => True

instance (s : State) : DecidablePred (FaultsAligned s) := fun label => by
  unfold FaultsAligned
  split <;> infer_instance

/-! ## What `mprotect` does -/

section

variable {space : ℕ → Protection} {addr page : ℕ} {protection : Protection}

theorem mprotect_page (page : ℕ) :
    mprotect space (page * pageSize) protection page = protection := by
  unfold mprotect
  rw [if_pos (Nat.mul_mod_left _ _), Nat.mul_div_cancel _ (by decide), Function.update_self]

theorem mprotect_of_ne (other : addr ≠ page * pageSize) :
    mprotect space addr protection page = space page := by
  unfold mprotect
  split
  · next aligned =>
    refine Function.update_of_ne (fun same => other ?_) ..
    rw [same, Nat.div_mul_cancel (Nat.dvd_of_mod_eq_zero aligned)]
  · rfl

/-- A commit closes the pages whose first byte is among the addresses, and no others. -/
theorem reset_apply (space : ℕ → Protection) (pages : List ℕ) (page : ℕ) :
    reset space pages page = if page * pageSize ∈ pages then .none else space page := by
  induction pages generalizing space with
  | nil => rfl
  | cons addr rest ih =>
    show reset (mprotect space addr .none) rest page = _
    rw [ih]
    by_cases here : addr = page * pageSize
    · subst here
      simp [mprotect_page]
    · simp [mprotect_of_ne here, Ne.symm here]

end

/-! ## Runs -/

variable {s s' : State}

/-- What every run keeps: a page is open if it has been accessed since the last commit, and
what has been closed since then is in order. -/
structure Inv (s : State) : Prop where
  sorted : Sorted Mmappage.addr s.mmaps
  aligned : ∀ page ∈ s.mmaps, page.addr % pageSize = 0
  opened : ∀ page ∈ s.touched, s.space page ≠ .none
  armed : Armed s

/-- A fault opens the page of its address, and is logged. -/
theorem handleAccess_eq {addr : ℕ} {isWrite : Bool} (sorted : Sorted Mmappage.addr s.mmaps)
    (aligned : ∀ page ∈ s.mmaps, page.addr % pageSize = 0)
    (handled : handleAccess s addr isWrite = some s') :
    s' = { s with
      space := Function.update s.space (addr / pageSize) (if isWrite then .write else .read)
      pages := s.pages ++ [addr]
      log := s.log ++ [(addr / pageSize, isWrite)] } := by
  unfold handleAccess at handled
  cases found : find s.mmaps addr with
  | none =>
    rw [found] at handled
    cases handled
  | some page =>
    simp only [found] at handled
    obtain ⟨space, opened, rfl⟩ := Option.map_eq_some_iff.mp handled
    have tracked : find (⟨s.mmaps, fun _ => none⟩ : Process).pages addr = some page := found
    obtain ⟨member, same⟩ := (find_eq_some_iff sorted aligned).mp tracked
    suffices space = Function.update s.space (addr / pageSize)
        (if isWrite then .write else .read) by rw [this]
    unfold handlePage at opened
    split at opened
    · next write =>
      obtain ⟨-, rfl⟩ := guarded opened
      unfold mprotect
      rw [if_pos (aligned page member), same, if_pos write]
    · next read =>
      obtain ⟨-, rfl⟩ := guarded opened
      unfold mprotect
      rw [if_pos (pageAlignDown_mod addr), pageAlignDown, Nat.mul_div_cancel _ (by decide),
        if_neg read]

theorem Inv.access {addr : ℕ} {isWrite : Bool} (inv : Inv s)
    (move : step s (.access addr isWrite) = some s') : Inv s' := by
  simp only [step] at move
  split at move
  · next allowed =>
    obtain rfl := Option.some.inj move
    have opened : s.space (addr / pageSize) ≠ .none := by
      rcases allowed with write | ⟨read, -⟩
      · rw [write]
        nofun
      · rw [read]
        nofun
    -- a page that is open has been accessed before
    have before : addr / pageSize ∈ s.touched := by
      by_contra untouched
      exact opened (inv.armed.closed _ untouched)
    refine ⟨inv.sorted, inv.aligned, ?_, ?_, ?_⟩
    · intro page touched
      rcases List.mem_cons.mp touched with rfl | touched
      · exact opened
      · exact inv.opened page touched
    · exact fun page untouched =>
        inv.armed.closed page fun touched => untouched (List.mem_cons_of_mem _ touched)
    · intro page touched
      rcases List.mem_cons.mp touched with rfl | touched
      · exact inv.armed.logged _ before
      · exact inv.armed.logged page touched
  · obtain rfl := handleAccess_eq (s := { s with touched := addr / pageSize :: s.touched })
      inv.sorted inv.aligned move
    refine ⟨inv.sorted, inv.aligned, ?_, ?_, ?_⟩
    · intro page touched
      by_cases here : page = addr / pageSize
      · subst here
        simp only [Function.update_self]
        cases isWrite <;> nofun
      · simp only [Function.update_of_ne here]
        exact inv.opened page ((List.mem_cons.mp touched).resolve_left here)
    · intro page untouched
      have other : page ≠ addr / pageSize := fun same => untouched (same ▸ List.mem_cons_self)
      have before : page ∉ s.touched := fun touched =>
        untouched (List.mem_cons_of_mem _ touched)
      simp only [Function.update_of_ne other]
      exact inv.armed.closed page before
    · intro page touched
      rcases List.mem_cons.mp touched with rfl | touched
      · exact ⟨isWrite, List.mem_append_right _ List.mem_cons_self⟩
      · obtain ⟨other, logged⟩ := inv.armed.logged page touched
        exact ⟨other, List.mem_append_left _ logged⟩

theorem Inv.commit (inv : Inv s) (faults : FaultsAligned s .commit)
    (move : step s .commit = some s') : Inv s' := by
  obtain rfl := Option.some.inj move
  refine ⟨inv.sorted, inv.aligned, nofun, fun page _ => ?_, nofun⟩
  show reset s.space s.pages page = .none
  rw [reset_apply]
  by_cases touched : page ∈ s.touched
  · rw [if_pos (faults page touched)]
  · rw [inv.armed.closed page touched, ite_self]

theorem Inv.step {label : Label} (inv : Inv s) (faults : FaultsAligned s label)
    (move : AccessedPages.step s label = some s') : Inv s' := by
  cases label with
  | access addr isWrite => exact inv.access move
  | commit => exact inv.commit faults move

/-- A commit that leaves all pages closed finds them at the addresses that have faulted. -/
theorem Inv.faultsAligned {label : Label} (inv : Inv s)
    (move : AccessedPages.step s label = some s') (armed : Armed s') : FaultsAligned s label := by
  cases label with
  | access => trivial
  | commit =>
    obtain rfl := Option.some.inj move
    intro page touched
    have closed : reset s.space s.pages page = .none := armed.closed page List.not_mem_nil
    rw [reset_apply] at closed
    by_contra other
    rw [if_neg other] at closed
    exact inv.opened page touched closed

theorem inv_of_init (init : system.Init s) : Inv s := by
  obtain ⟨sorted, aligned, space, -, -, touched⟩ := init
  refine ⟨sorted, aligned, ?_, ?_, ?_⟩
  · simp [touched]
  · simp [space]
  · simp [touched]

/-- **Re-arming.** The pages of mappings are closed again at each commit of a run just when each
page that was accessed has faulted at its first byte by then. -/
theorem armed_iff_faultsAligned {labels : List Label} (init : system.Init s)
    (execution : system.run s labels = some s') :
    system.Throughout Armed s labels ↔ system.Complies FaultsAligned s labels :=
  System.throughout_iff_complies (fun _ inv => inv.armed)
    (fun _ _ _ inv faults move => inv.step faults move)
    (fun _ _ _ inv move armed => inv.faultsAligned move armed) (inv_of_init init) execution

/-- A process with one page that it may read and write. -/
def onePage : State where
  mmaps := [⟨4 * pageSize, -1, 3⟩]
  space _ := .none
  pages := []
  log := []
  touched := []

theorem init_onePage : system.Init onePage :=
  ⟨List.pairwise_singleton .., by decide, rfl, rfl, rfl, rfl⟩

/-- Reads in the middle of the page, and writes of its first byte. -/
def firstByte : List Label :=
  [.access (4 * pageSize + 8) false, .access (4 * pageSize) true, .commit,
    .access (4 * pageSize) true, .commit]

theorem armed_firstByte : system.Throughout Armed onePage firstByte := by
  have run : (system.runIf (fun s label => decide (FaultsAligned s label)) onePage
      firstByte).isSome := by decide +kernel
  obtain ⟨s, execution⟩ := Option.isSome_iff_exists.mp run
  obtain ⟨faults, execution⟩ :=
    System.complies_of_runIf (fun _ _ passes => of_decide_eq_true passes) execution
  exact (armed_iff_faultsAligned init_onePage execution).mpr faults

/-- The page is written at its second byte only, and stays open behind the commit. -/
theorem not_armed_secondByte : ¬∀ s s' labels, system.Init s → system.run s labels = some s' →
    system.Throughout Armed s labels := by
  intro armed
  have run : (system.run onePage [.access (4 * pageSize + 1) true, .commit]).any fun s =>
      s.space 4 = .write ∧ 4 ∉ s.touched := by decide +kernel
  obtain ⟨s, execution, facts⟩ := (Option.any_eq_true _ _).mp run
  obtain ⟨opened, untouched⟩ := of_decide_eq_true facts
  have throughout := armed onePage s _ init_onePage execution
  obtain ⟨middle, first, second⟩ := Option.bind_eq_some_iff.mp execution
  obtain ⟨last, second, rest⟩ := Option.bind_eq_some_iff.mp second
  obtain rfl := Option.some.inj rest
  have closed := ((throughout.2 middle first).2 last second).closed 4 untouched
  exact absurd (opened.symm.trans closed) nofun

end Tthread.AccessedPages
