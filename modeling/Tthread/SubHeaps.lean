/-
# Sub-heaps of threads

A thread gets its index from a counter that only goes up. The index is the slot of the thread
in the table of `determ`, and modulo the number of sub-heaps it is the sub-heap that the thread
allocates from and frees to, without a lock. Nothing compares an index with the length of the
table or with the threads that are alive, so two threads that live long enough apart from each
other in the count share a sub-heap.
-/

import Tthread.Pheap
import Tthread.Xrun

namespace Tthread.SubHeaps

open Transition Pheap Xrun

/-- The threads, the heap, and `_heapid` in the process of each thread. -/
structure State where
  run : Xrun.State
  pheap : Pheap.State
  heapid : ℕ → Fin numHeaps

inductive Label
  /-- a step of the runtime -/
  | thread (label : Xrun.Label)
  | malloc (me : ℕ) (request : Request)
  /-- a request that ends the process -/
  | outOfMemory (me : ℕ) (request : Request)
  | free (me ptr : ℕ)

/-- The thread got its index and its slot in `childRegister`, or is the first one. -/
def Registered (s : Xrun.State) (thread : ℕ) : Prop := thread < s.threadIndex

/-- The thread is registered, has not left and was not killed. -/
def Alive (s : Xrun.State) (thread : ℕ) : Prop :=
  Registered s thread ∧ (s.thread thread).pc ≠ .exited ∧ (s.thread thread).killed = false

/-- The thread is in the program, not in a call of the runtime. -/
def InProgram (s : Xrun.State) (thread : ℕ) : Prop :=
  Registered s thread ∧ (s.thread thread).pc = .user ∧ (s.thread thread).killed = false

instance (s : Xrun.State) (thread : ℕ) : Decidable (Registered s thread) :=
  inferInstanceAs (Decidable (_ < _))

instance (s : Xrun.State) (thread : ℕ) : Decidable (Alive s thread) :=
  inferInstanceAs (Decidable (_ ∧ _))

instance (s : Xrun.State) (thread : ℕ) : Decidable (InProgram s thread) :=
  inferInstanceAs (Decidable (_ ∧ _))

/-- `xmemory::setThreadIndex`. -/
def setThreadIndex (id : ℕ) : Fin numHeaps := Fin.ofNat numHeaps id

/-- The heap numbers after a step of the runtime. A child sets its own in `childRegister`. -/
def State.heapids (s : State) : Xrun.Label → ℕ → Fin numHeaps
  | .childRegister _ =>
      Function.update s.heapid s.run.threadIndex (setThreadIndex s.run.threadIndex)
  | _ => s.heapid

/-- The process exits between two of its steps. -/
def exits (s : Xrun.State) (me : ℕ) : Xrun.State :=
  { s with thread := Function.update s.thread me { s.thread me with killed := true } }

def step (s : State) : Label → Option State
  | .thread label =>
      (Xrun.step s.run label).map fun run => { s with run, heapid := s.heapids label }
  | .malloc me request =>
      if InProgram s.run me then
        (Pheap.step s.pheap (.malloc (s.heapid me) request)).map fun pheap => { s with pheap }
      else none
  | .outOfMemory me request =>
      -- a request that finds the lock taken waits for ever and does not exit
      if InProgram s.run me ∧ s.pheap.xheap.locked = false then
        (Pheap.step s.pheap (.fails (s.heapid me) request)).map fun pheap =>
          { s with pheap, run := exits s.run me }
      else none
  | .free me ptr =>
      if InProgram s.run me then
        (Pheap.step s.pheap (.free (s.heapid me) ptr)).map fun pheap => { s with pheap }
      else none

/-- The first thread has index 0. -/
def system : System State Label where
  Init s := Xrun.system.Init s.run ∧ Pheap.system.Init s.pheap ∧
    s.heapid = fun _ => setThreadIndex 0
  step := step

/-- The thread that a request or a free is from. -/
def Label.caller : Label → Option ℕ
  | .thread _ => none
  | .malloc me _ | .outOfMemory me _ | .free me _ => some me

/-- Slots are in the table, threads that are alive have different sub-heaps, and what a thread
allocates and frees leaves the sub-heaps of all others as they are. -/
structure Exclusive (s : State) : Prop where
  slots : ∀ thread, Registered s.run thread → thread < maxThreads
  heaps : ∀ thread other, Alive s.run thread → Alive s.run other →
    s.heapid thread = s.heapid other → thread = other
  lists : ∀ me label s', Label.caller label = some me → step s label = some s' →
    ∀ other ≠ me, Alive s.run other → s'.pheap.heap (s.heapid other) = s.pheap.heap (s.heapid other)

/-- A thread that registers finds its slot in the table and its sub-heap free. -/
def Vacant (s : State) : Label → Prop
  | .thread (.childRegister _) => s.run.threadIndex < maxThreads ∧
      ∀ thread < s.run.threadIndex, Alive s.run thread →
        thread % numHeaps ≠ s.run.threadIndex % numHeaps
  | _ => True

instance (s : State) : DecidablePred (Vacant s) := fun label => by
  cases label with
  | thread label => cases label <;> unfold Vacant <;> infer_instance
  | malloc me request => unfold Vacant; infer_instance
  | outOfMemory me request => unfold Vacant; infer_instance
  | free me ptr => unfold Vacant; infer_instance

/-- At most `NUM_HEAPS` threads are alive. -/
def FewAlive (s : State) : Prop :=
  ((Finset.range s.run.threadIndex).filter fun thread => Alive s.run thread).card ≤ numHeaps

/-! ## Threads come and go -/

section Threads

variable {s s' : Xrun.State} {me thread : ℕ}

/-- What a step does to other threads does not bring one back to life. -/
theorem alive_others (alive : Alive (s.others me) thread) : Alive s thread := by
  refine ⟨alive.1.trans_eq (others_threadIndex s me), ?_⟩
  obtain ⟨-, stays, runs⟩ := alive
  rw [others_thread] at stays runs
  split at stays
  · next notifies =>
    rw [if_pos notifies] at runs
    by_cases waits : (s.thread thread).pc = .waitParentNotify
    · rw [wakeChild, if_pos waits] at runs
      exact ⟨by rw [waits]; decide, runs⟩
    · rw [wakeChild, if_neg waits] at stays runs
      exact ⟨stays, runs⟩
  · next quiet =>
    rw [if_neg quiet] at runs
    split at stays
    · next starts =>
      rw [if_pos starts] at runs
      unfold announce at stays runs
      split at stays
      · next counts =>
        rw [if_pos counts] at runs
        exact ⟨stays, runs⟩
      · next other =>
        rw [if_neg other] at runs
        exact ⟨stays, runs⟩
    · next quiet =>
      rw [if_neg quiet] at runs
      split at stays
      · next cancels =>
        rw [if_pos cancels] at runs
        cases runs
      · next spared =>
        rw [if_neg spared] at runs
        exact ⟨stays, runs⟩

/-- **Only `childRegister` gives out an index**, and no other step brings a thread to life. -/
theorem alive_of_step {label : Xrun.Label} (stepped : Xrun.step s label = some s')
    (other : ∀ parent, label ≠ .childRegister parent) :
    s'.threadIndex = s.threadIndex ∧ ∀ thread, Alive s' thread → Alive s thread := by
  have move := move_of_step stepped
  -- the record of the thread that moves is the only one that changes, but for `others`
  have mine : ∀ {me : ℕ} {s₁ : Xrun.State} {result : Determ × Xrun.Thread},
      label.thread = some me → (s.thread me).pc ≠ .exited → s₁.threadIndex = s.threadIndex →
      (∀ thread, Alive s₁ thread → Alive s thread) →
      (∀ thread, s'.thread thread = (s₁.update me result).thread thread) →
      s'.threadIndex = s₁.threadIndex →
      s'.threadIndex = s.threadIndex ∧ ∀ thread, Alive s' thread → Alive s thread := by
    intro me s₁ result by_me moves index before records same
    refine ⟨same.trans index, fun thread alive => ?_⟩
    have known : thread < s.threadIndex := by
      rw [← index, ← same]
      exact alive.1
    by_cases here : thread = me
    · subst here
      exact ⟨known, moves, Xrun.alive_of_step stepped by_me⟩
    · apply before thread
      obtain ⟨-, stays, runs⟩ := alive
      have record : s'.thread thread = s₁.thread thread :=
        (records thread).trans (Function.update_of_ne here _ _)
      rw [record] at stays runs
      exact ⟨known.trans_eq index.symm, stays, runs⟩
  cases label with
  | call me c =>
    obtain ⟨⟨user, -⟩, move⟩ := Option.ite_none_right_eq_some.mp move
    obtain ⟨result, -, rfl⟩ := Option.map_eq_some_iff.mp move
    exact mine rfl (by rw [user]; decide) rfl (fun _ => id) (fun _ => rfl) rfl
  | exec me =>
    obtain ⟨result, executed, rfl⟩ := Option.map_eq_some_iff.mp move
    have moves : (s.thread me).pc ≠ .exited := by
      intro gone
      rw [Xrun.exec, gone] at executed
      cases executed
    exact mine rfl moves (others_threadIndex s me) (fun _ => alive_others) (fun _ => rfl) rfl
  | childRegister parent => exact absurd rfl (other parent)
  | cloneFails me =>
    obtain ⟨at_, rfl⟩ := guarded move
    exact mine rfl (by rw [at_]; decide) rfl (fun _ => id) (fun _ => rfl) rfl
  | spuriousReturn me =>
    simp only [Xrun.move] at move
    split at move
    · next at_ =>
      obtain rfl := Option.some.inj move
      exact mine rfl (by rw [at_]; decide) rfl (fun _ => id) (fun _ => rfl) rfl
    · next at_ =>
      obtain rfl := Option.some.inj move
      exact mine rfl (by rw [at_]; decide) rfl (fun _ => id) (fun _ => rfl) rfl
    · cases move
  | sigwaitReturns me =>
    obtain ⟨at_, rfl⟩ := guarded move
    exact mine rfl (by rw [at_]; decide) rfl (fun _ => id) (fun _ => rfl) rfl
  | sigwaitFails me =>
    obtain ⟨at_, rfl⟩ := guarded move
    exact mine rfl (by rw [at_]; decide) rfl (fun _ => id) (fun _ => rfl) rfl

/-- What registering a child does. -/
theorem childRegister_step {parent : ℕ} (stepped : Xrun.step s (.childRegister parent) = some s') :
    s'.threadIndex = s.threadIndex + 1 ∧
      s'.thread = Function.update s.thread s.threadIndex (childRecord (s.thread parent)) := by
  obtain ⟨-, rfl⟩ := guarded (move_of_step stepped)
  exact ⟨rfl, rfl⟩

/-- A child is alive once it has registered, and the others are as before. -/
theorem alive_childRegister {parent : ℕ} (stepped : Xrun.step s (.childRegister parent) = some s') :
    Alive s' thread ↔ thread = s.threadIndex ∨ Alive s thread := by
  obtain ⟨index, records⟩ := childRegister_step stepped
  unfold Alive Registered
  rw [index, records]
  by_cases new : thread = s.threadIndex
  · subst new
    rw [Function.update_self]
    exact iff_of_true ⟨Nat.lt_succ_self _, nofun, rfl⟩ (.inl rfl)
  · rw [Function.update_of_ne new]
    constructor
    · rintro ⟨known, others⟩
      exact .inr ⟨by omega, others⟩
    · intro old
      obtain ⟨known, others⟩ := old.resolve_left new
      exact ⟨Nat.lt_succ_of_lt known, others⟩

end Threads

/-! ## Every run -/

variable {s s' : State} {label : Label}

/-- Indices are in the table, each thread has the sub-heap of its index, and those of threads
that are alive are different. -/
structure Inv (s : State) : Prop where
  slots : s.run.threadIndex ≤ maxThreads
  heapids : ∀ thread, Registered s.run thread → s.heapid thread = setThreadIndex thread
  apart : ∀ thread other, Alive s.run thread → Alive s.run other →
    thread % numHeaps = other % numHeaps → thread = other

theorem setThreadIndex_inj {id id' : ℕ} :
    setThreadIndex id = setThreadIndex id' ↔ id % numHeaps = id' % numHeaps := Fin.ext_iff

/-- A request or a free is one of the sub-heap of its thread. -/
theorem request_step {me : ℕ} (by_me : Label.caller label = some me)
    (move : step s label = some s') : Alive s.run me ∧ ∃ label', label'.ind = s.heapid me ∧
      Pheap.step s.pheap label' = some s'.pheap := by
  have alive : InProgram s.run me → Alive s.run me :=
    fun inside => ⟨inside.1, by rw [inside.2.1]; decide, inside.2.2⟩
  cases label with
  | thread label => cases by_me
  | malloc caller request =>
    obtain rfl := Option.some.inj by_me
    obtain ⟨inside, move⟩ := Option.ite_none_right_eq_some.mp move
    obtain ⟨pheap, returned, rfl⟩ := Option.map_eq_some_iff.mp move
    exact ⟨alive inside, _, rfl, returned⟩
  | outOfMemory caller request =>
    obtain rfl := Option.some.inj by_me
    obtain ⟨inside, move⟩ := Option.ite_none_right_eq_some.mp move
    obtain ⟨pheap, returned, rfl⟩ := Option.map_eq_some_iff.mp move
    exact ⟨alive inside.1, _, rfl, returned⟩
  | free caller ptr =>
    obtain rfl := Option.some.inj by_me
    obtain ⟨inside, move⟩ := Option.ite_none_right_eq_some.mp move
    obtain ⟨pheap, returned, rfl⟩ := Option.map_eq_some_iff.mp move
    exact ⟨alive inside, _, rfl, returned⟩

theorem Inv.exclusive (inv : Inv s) : Exclusive s where
  slots thread known := Nat.lt_of_lt_of_le known inv.slots
  heaps thread other alive alive' same := by
    rw [inv.heapids thread alive.1, inv.heapids other alive'.1] at same
    exact inv.apart thread other alive alive' (setThreadIndex_inj.mp same)
  lists me label s' by_me move other different alive := by
    obtain ⟨mine, label', ind, stepped⟩ := request_step by_me move
    apply Pheap.step_heap_of_ne _ ind stepped
    intro same
    rw [inv.heapids other alive.1, inv.heapids me mine.1] at same
    exact different (inv.apart other me alive mine (setThreadIndex_inj.mp same))

/-- Without a new thread nothing is left to show but that nobody came to life. -/
theorem Inv.keep (inv : Inv s) (index : s'.run.threadIndex = s.run.threadIndex)
    (alive : ∀ thread, Alive s'.run thread → Alive s.run thread) (heapid : s'.heapid = s.heapid) :
    Inv s' where
  slots := index.trans_le inv.slots
  heapids thread known := by
    rw [heapid]
    exact inv.heapids thread (Nat.lt_of_lt_of_eq known index)
  apart thread other left right := inv.apart thread other (alive thread left) (alive other right)

/-- **One step.** A thread that registers gets a free slot and a free sub-heap. -/
theorem Inv.step (inv : Inv s) (vacant : Vacant s label)
    (move : system.step s label = some s') : Inv s' := by
  change SubHeaps.step s label = some s' at move
  cases label with
  | malloc me request =>
    obtain ⟨-, move⟩ := Option.ite_none_right_eq_some.mp move
    obtain ⟨pheap, -, rfl⟩ := Option.map_eq_some_iff.mp move
    exact inv.keep rfl (fun _ => id) rfl
  | free me ptr =>
    obtain ⟨-, move⟩ := Option.ite_none_right_eq_some.mp move
    obtain ⟨pheap, -, rfl⟩ := Option.map_eq_some_iff.mp move
    exact inv.keep rfl (fun _ => id) rfl
  | outOfMemory me request =>
    obtain ⟨-, move⟩ := Option.ite_none_right_eq_some.mp move
    obtain ⟨pheap, -, rfl⟩ := Option.map_eq_some_iff.mp move
    -- The thread that runs out of memory exits, so fewer are alive.
    refine inv.keep rfl (fun thread alive => ?_) rfl
    obtain ⟨known, stays, runs⟩ := alive
    by_cases here : thread = me
    · subst here
      simp [exits] at runs
    · simp only [exits, Function.update_of_ne here] at stays runs
      exact ⟨known, stays, runs⟩
  | thread label =>
    obtain ⟨run, stepped, rfl⟩ := Option.map_eq_some_iff.mp move
    by_cases registers : ∃ parent, label = .childRegister parent
    · obtain ⟨parent, rfl⟩ := registers
      -- By the condition there is a slot left, and its sub-heap is nobody's.
      obtain ⟨room, free⟩ := vacant
      obtain ⟨index, -⟩ := childRegister_step stepped
      refine ⟨index.trans_le (Nat.succ_le_of_lt room), ?_, ?_⟩
      · intro thread known
        by_cases new : thread = s.run.threadIndex
        · simp only [State.heapids, new, Function.update_self]
        · have before : thread < s.run.threadIndex := by
            have after : thread < s.run.threadIndex + 1 := known.trans_eq index
            omega
          simp only [State.heapids, Function.update_of_ne new]
          exact inv.heapids thread before
      · -- Two threads with one sub-heap: neither is the new one, whose sub-heap was free.
        intro thread other alive alive' same
        rcases (alive_childRegister stepped).mp alive with rfl | old
        · rcases (alive_childRegister stepped).mp alive' with rfl | old'
          · rfl
          · exact absurd same.symm (free other old'.1 old')
        · rcases (alive_childRegister stepped).mp alive' with rfl | old'
          · exact absurd same (free thread old.1 old)
          · exact inv.apart thread other old old' same
    · obtain ⟨index, alive⟩ := alive_of_step stepped fun parent same => registers ⟨parent, same⟩
      refine inv.keep index alive ?_
      cases label with
      | childRegister parent => exact absurd ⟨parent, rfl⟩ registers
      | _ => rfl

theorem inv_of_init (init : system.Init s) : Inv s := by
  obtain ⟨⟨cores, counts, -, start⟩, -, heapid⟩ := init
  have index : s.run.threadIndex = 1 := by rw [start]; rfl
  have first : ∀ thread, Registered s.run thread → thread = 0 := by
    intro thread known
    rw [Registered, index] at known
    omega
  refine ⟨?_, ?_, ?_⟩
  · rw [index]
    decide
  · intro thread known
    rw [heapid, first thread known]
  · intro thread other alive alive' _
    rw [first thread alive.1, first other alive'.1]

/-- **Sub-heaps are exclusive just as long as new threads find them free.** In every run, all
threads have slots of the table and all threads that are alive have sub-heaps of their own in
all states, if and only if every thread that registers does so with an index below the length
of the table that no thread alive has modulo the number of sub-heaps. -/
theorem exclusive_iff_vacant (s s' : State) (labels : List Label) (init : system.Init s)
    (execution : system.run s labels = some s') :
    system.Throughout Exclusive s labels ↔ system.Complies Vacant s labels := by
  apply System.throughout_iff_complies (fun _ inv => inv.exclusive)
    (fun _ _ _ inv vacant move => inv.step vacant move) _ (inv_of_init init) execution
  intro s label s' inv move exclusive
  change step s label = some s' at move
  cases label with
  | malloc me request => trivial
  | outOfMemory me request => trivial
  | free me ptr => trivial
  | thread label =>
    by_cases registers : ∃ parent, label = .childRegister parent
    · obtain ⟨parent, rfl⟩ := registers
      obtain ⟨run, stepped, rfl⟩ := Option.map_eq_some_iff.mp move
      obtain ⟨index, -⟩ := childRegister_step stepped
      have slot : s.run.threadIndex < run.threadIndex := index ▸ Nat.lt_succ_self _
      refine ⟨exclusive.slots s.run.threadIndex slot, fun thread _ alive same => ?_⟩
      have older : thread ≠ s.run.threadIndex := Nat.ne_of_lt alive.1
      -- both are alive now, and have the heaps that their indices give
      apply older
      apply exclusive.heaps thread s.run.threadIndex
      · exact (alive_childRegister stepped).mpr (.inr alive)
      · exact (alive_childRegister stepped).mpr (.inl rfl)
      · simp only [State.heapids, Function.update_of_ne older, Function.update_self]
        rw [inv.heapids thread alive.1]
        exact setThreadIndex_inj.mpr same
    · unfold Vacant
      split
      · next parent same => exact absurd ⟨parent, Label.thread.inj same⟩ registers
      · trivial

/-- The first thread creates a thread and waits until it has registered. -/
def creates (child : ℕ) : List Xrun.Label :=
  [.call 0 .spawn, .exec 0, .childRegister 0, .exec child, .exec 0]

/-- It waits for the thread. -/
def waits (child : ℕ) : List Xrun.Label := [.call 0 (.join child), .exec 0, .exec 0]

/-- The thread exits, and the first one returns from `join`. -/
def leaves (child : ℕ) : List Xrun.Label :=
  [.call child .exit, .exec child, .exec child, .exec child] ++ List.replicate 5 (.exec 0)

def initial : State where
  run := Xrun.start 2 fun _ => 2
  pheap := Pheap.initial Pheap.pageSize
  heapid _ := setThreadIndex 0

theorem init_initial : system.Init initial :=
  ⟨⟨2, _, Nat.two_pos, rfl⟩, ⟨Pheap.pageSize, by decide, dvd_rfl, by decide, rfl⟩, rfl⟩

/-- A thread that is created, allocates and is joined. -/
def oneThread : List Label :=
  (creates 1 ++ waits 1).map .thread ++ [.malloc 1 (.malloc 100)] ++ (leaves 1).map .thread

theorem exclusive_oneThread : system.Throughout Exclusive initial oneThread := by
  have run : (system.runIf (fun s label => Vacant s label) initial oneThread).isSome = true := by
    decide +kernel
  obtain ⟨s', execution⟩ := Option.isSome_iff_exists.mp run
  have sound : ∀ s label, decide (Vacant s label) = true → Vacant s label :=
    fun _ _ => of_decide_eq_true
  obtain ⟨complies, execution⟩ := System.complies_of_runIf sound execution
  exact (exclusive_iff_vacant _ s' _ init_initial execution).mpr complies

/-- One thread is created and joined, and then thirty-one that stay. -/
def longLived : List Label :=
  (creates 1 ++ waits 1 ++ leaves 1 ++ (List.range 31).flatMap fun k => creates (k + 2)).map .thread

/-- A test for `FewAlive` that does not count. -/
def fewAlive (s : State) : Bool :=
  s.run.threadIndex ≤ 32 || s.run.threadIndex = 33 && (s.run.thread 1).pc = .exited

theorem fewAlive_sound (s : State) (few : fewAlive s = true) : FewAlive s := by
  rw [FewAlive]
  rcases Bool.or_eq_true_iff.mp few with small | both
  · have most := Finset.card_filter_le (Finset.range s.run.threadIndex) fun t => Alive s.run t
    rw [Finset.card_range] at most
    exact most.trans (of_decide_eq_true small)
  · obtain ⟨index, gone⟩ := Bool.and_eq_true_iff.mp both
    have index := of_decide_eq_true index
    -- the thread that has left is not counted
    have fewer : (Finset.range s.run.threadIndex).filter (fun t => Alive s.run t) ⊆
        (Finset.range s.run.threadIndex).erase 1 := by
      intro thread member
      obtain ⟨known, alive⟩ := Finset.mem_filter.mp member
      refine Finset.mem_erase.mpr ⟨fun same => ?_, known⟩
      exact alive.2.1 (same ▸ of_decide_eq_true gone)
    have most := Finset.card_le_card fewer
    rw [Finset.card_erase_of_mem (by rw [index]; decide), Finset.card_range] at most
    unfold numHeaps
    omega

/-- The last thread has the sub-heap of the first one. -/
theorem not_exclusive_longLived : ¬ ∀ s, system.Reachable (fun s _ => FewAlive s) s →
    FewAlive s → Exclusive s := by
  intro exclusive
  have run : (system.runIf (fun s _ => fewAlive s) initial longLived).any fun s =>
      fewAlive s = true ∧ Alive s.run 0 ∧ Alive s.run 32 ∧ s.heapid 0 = s.heapid 32 := by
    decide +kernel
  obtain ⟨s, execution, facts⟩ := (Option.any_eq_true _ _).mp run
  obtain ⟨few, first, last, same⟩ := of_decide_eq_true facts
  have start : system.Reachable (fun s _ => FewAlive s) initial := .init init_initial
  have reach := start.runIf (fun s _ => fewAlive_sound s) execution
  cases (exclusive s reach (fewAlive_sound s few)).heaps 0 32 first last same

end Tthread.SubHeaps
