/-
# The mutex at the end of a wait

`cond_wait` ends with `lock_acquire`, and does not look at the answer. What makes the answer
right is that a marked mutex has one holder: marks are set and cleared in pairs, except by a
waiter that wakes up for nothing, which clears the mark of whoever has the mutex by now, and by
a thread that is alone, which locks without a mark.
-/

import Tthread.Handshake

namespace Tthread.Xrun

open Transition

/-- `lock_acquire` gives the mutex to nobody: it is marked, or the budget of its only user runs
out while other threads work. -/
def Refuses (d : Determ) (mutex me : ℕ) : Prop :=
  d.lockIsacquired mutex = true ∨
    (d.locks mutex).any (fun entry => entry.totalUsers = 1 ∧ entry.lastThread = me ∧
      entry.lockBudget - 1 = 0) = true ∧ d.isSingleWorkingThread = false

instance (d : Determ) (mutex me : ℕ) : Decidable (Refuses d mutex me) :=
  inferInstanceAs (Decidable (_ ∨ _))

/-- What a step of a thread does to the mutexes and to those it has. -/
inductive MutexStep (d : Determ) (t : Thread) (me : ℕ) (d' : Determ) (t' : Thread) : Prop
  | keeps (marks : ∀ word, d'.lockIsacquired word = d.lockIsacquired word)
      (holding : t'.holding = t.holding)
  | takes (mutex : ℕ) (free : d.lockIsacquired mutex = false)
      (mark : d'.lockIsacquired mutex = true)
      (marks : ∀ word ≠ mutex, d'.lockIsacquired word = d.lockIsacquired word)
      (holding : t'.holding = insert mutex t.holding) (returned : t'.pc = .user)
  /-- `cond_wait` without the mutex -/
  | ignores (mutex : ℕ) (at_ : t.pc = .condAcquire mutex) (refused : Refuses d mutex me)
  /-- a wait goes on, and clears the mark -/
  | reopens (cond mutex : ℕ) (at_ : t.pc = .condWaiting cond mutex)
      (asleep : d.status me ≠ .ready)
      (marks : ∀ word ≠ mutex, d'.lockIsacquired word = d.lockIsacquired word)
      (holding : t'.holding = t.holding)

section

variable {d d' : Determ} {t : Thread} {me mutex : ℕ} {result : Determ × Thread}

theorem lockIsacquired_of_locks (locks : d'.locks = d.locks) (word : ℕ) :
    d'.lockIsacquired word = d.lockIsacquired word := by
  unfold Determ.lockIsacquired
  rw [locks]

/-- The entry of one mutex changes. -/
theorem lockIsacquired_update {entry : LockEntry}
    (locks : d'.locks = Function.update d.locks mutex (some entry)) :
    d'.lockIsacquired mutex = entry.isAcquired ∧
      ∀ word ≠ mutex, d'.lockIsacquired word = d.lockIsacquired word := by
  unfold Determ.lockIsacquired
  rw [locks]
  refine ⟨by rw [Function.update_self]; rfl, fun word different => ?_⟩
  rw [Function.update_of_ne different]

/-- The answer of `lock_acquire`, and what it does to the mark. -/
theorem acquire_spec (entry : LockEntry) (pid : ℕ) (single : Bool) :
    ((entry.acquire pid single).2 = true ↔ ¬(entry.isAcquired = true ∨
      (entry.totalUsers = 1 ∧ entry.lastThread = pid ∧ entry.lockBudget - 1 = 0) ∧
        single = false)) ∧
      (entry.acquire pid single).1.isAcquired =
        (entry.isAcquired || (entry.acquire pid single).2) := by
  unfold LockEntry.acquire
  split
  · next marked => simp [marked]
  · next free =>
    split
    · next unused => simp [free, unused]
    · next used =>
      split
      · next one =>
        split
        · next other => simp [free, other]
        · next own =>
          split
          · next spent =>
            split
            · next alone => simp [free, alone]
            · next others =>
              simp only [Bool.not_eq_true] at others free
              simp [free, one, spent, others, not_not.mp own]
          · next left => simp [free, left]
      · next several => simp [free, several]

theorem lockAcquire_spec (d : Determ) (mutex me : ℕ) :
    ((d.lockAcquire mutex me).2 = true ↔ ¬Refuses d mutex me) ∧
      (d.lockAcquire mutex me).1.lockIsacquired mutex =
        (d.lockIsacquired mutex || (d.lockAcquire mutex me).2) ∧
      ∀ word ≠ mutex, (d.lockAcquire mutex me).1.lockIsacquired word = d.lockIsacquired word := by
  obtain ⟨answer, mark⟩ := acquire_spec ((d.locks mutex).getD .init) me d.isSingleWorkingThread
  obtain ⟨here, elsewhere⟩ : (d.lockAcquire mutex me).1.lockIsacquired mutex =
      (((d.locks mutex).getD .init).acquire me d.isSingleWorkingThread).1.isAcquired ∧
      ∀ word ≠ mutex, (d.lockAcquire mutex me).1.lockIsacquired word = d.lockIsacquired word :=
    lockIsacquired_update rfl
  refine ⟨?_, ?_, elsewhere⟩
  · show (((d.locks mutex).getD .init).acquire me d.isSingleWorkingThread).2 = true ↔ _
    rw [answer]
    unfold Refuses Determ.lockIsacquired
    cases d.locks mutex with
    | none => simp [LockEntry.init]
    | some entry => simp
  · have before : ((d.locks mutex).getD .init).isAcquired = d.lockIsacquired mutex := by
      unfold Determ.lockIsacquired
      cases d.locks mutex <;> rfl
    rw [here, mark, before]
    rfl

theorem MutexStep.of_calm {t' : Thread} (calm : Calm d d') (holding : t'.holding = t.holding) :
    MutexStep d t me d' t' := .keeps (lockIsacquired_of_locks calm.locks) holding

theorem holding_ite {p : Prop} [Decidable p] {yes no : Thread} {mutexes : Finset ℕ}
    (first : yes.holding = mutexes) (second : no.holding = mutexes) :
    (if p then yes else no).holding = mutexes := by
  split <;> assumption

theorem getLockAgain_holding : (t.getLockAgain mutex).holding = t.holding := holding_ite rfl rfl

theorem signalled_holding : t.signalled.holding = t.holding := holding_ite rfl rfl

theorem passed_holding {after : After} : (t.passed after).holding = t.holding := by
  cases after with
  | relock mutex => exact getLockAgain_holding
  | _ => rfl

/-- `lock_acquire` and what follows it. -/
theorem lockAcquire_step {no : Thread} (same : no.holding = t.holding) :
    MutexStep d t me (d.lockAcquire mutex me).1
      (if (d.lockAcquire mutex me).2 then t.acquired mutex else no) := by
  obtain ⟨answer, here, elsewhere⟩ := lockAcquire_spec d mutex me
  split
  · next taken =>
    have free : d.lockIsacquired mutex = false := by
      rw [Bool.eq_false_iff]
      exact fun marked => answer.mp taken (.inl marked)
    exact .takes mutex free (by rw [here, taken, Bool.or_true]) elsewhere rfl rfl
  · next refused =>
    refine .keeps (fun word => ?_) same
    by_cases there : word = mutex
    · rw [there, here, Bool.eq_false_iff.mpr refused, Bool.or_false]
    · exact elsewhere word there

theorem perform_mutex {work : Work} :
    MutexStep d t me (perform d t me work).1 (perform d t me work).2 := by
  cases work with
  | spawn => exact .of_calm (.refl d) rfl
  | join guest =>
    simp only [perform]
    split
    · exact .of_calm (calm_join guest) rfl
    · exact .of_calm (.of_entries rfl rfl rfl) rfl
  | lock mutex => exact lockAcquire_step rfl
  | signal cond => exact .of_calm (calm_condSignal cond) signalled_holding
  | broadcast cond => exact .of_calm (calm_condBroadcast cond) signalled_holding
  | barrier bar => exact .of_calm (calm_barrierWait bar) rfl
  | sigWait => exact .of_calm calm_sigWait rfl
  | cancel target =>
    simp only [perform]
    split
    · exact .of_calm (.refl d) rfl
    · exact .of_calm (calm_cancel target) signalled_holding
  | exit => exact .of_calm calm_deregisterThread rfl

/-- A second user of a mutex is noted without a look at its mark. -/
theorem lockIsowner_marks (word : ℕ) :
    (d.lockIsowner mutex me).1.lockIsacquired word = d.lockIsacquired word := by
  unfold Determ.lockIsowner
  split
  · rfl
  · next entry found =>
    split
    · split
      · dsimp only
        unfold Determ.lockIsacquired
        dsimp only
        by_cases here : word = mutex
        · rw [here, Function.update_self, found]
          rfl
        · rw [Function.update_of_ne here]
      · rfl
    · rfl

theorem lockRelease_marks (released : d.lockRelease mutex = some d') :
    d'.lockIsacquired mutex = false ∧
      ∀ word ≠ mutex, d'.lockIsacquired word = d.lockIsacquired word := by
  obtain ⟨entry, -, rfl⟩ := Option.map_eq_some_iff.mp released
  let free : LockEntry := { entry with isAcquired := false }
  let d' : Determ := { d with locks := Function.update d.locks mutex (some free) }
  have changed : d'.lockIsacquired mutex = free.isAcquired ∧
      ∀ word ≠ mutex, d'.lockIsacquired word = d.lockIsacquired word := lockIsacquired_update rfl
  exact changed

theorem exec_mutex (moved : exec d t me = some result) : MutexStep d t me result.1 result.2 := by
  unfold exec at moved
  cases at_ : t.pc <;> rw [at_] at moved
  -- No step of its own: a thread that is not there, sleeps or waits for a label of the environment.
  case absent | waitParentNotify | user | sigWaiting | exited => cases moved
  case work work =>
    obtain rfl := Option.some.inj (Option.ite_none_left_eq_some.mp moved).2
    exact perform_mutex
  case notify work =>
    obtain rfl := Option.some.inj moved
    refine .of_calm (.refl d) ?_
    cases work <;> rfl
  case lockIsowner mutex =>
    obtain rfl := Option.some.inj moved
    exact .keeps lockIsowner_marks rfl
  case lockSingle mutex =>
    obtain rfl := Option.some.inj moved
    exact .of_calm (.refl d) (holding_ite rfl getLockAgain_holding)
  case lockFast mutex =>
    obtain rfl := Option.some.inj moved
    exact lockAcquire_step getLockAgain_holding
  case fence pos after =>
    obtain ⟨⟨d', next⟩, waits, rfl⟩ := Option.map_eq_some_iff.mp moved
    have calm : Calm d d' := .of_fenceOnly (Determ.waitFence_only waits)
    cases next with
    | some pos => exact .of_calm calm rfl
    | none => exact .of_calm calm passed_holding
  case getToken work =>
    simp only [Option.ite_none_right_eq_some, Option.some.injEq] at moved
    obtain ⟨-, rfl⟩ := moved
    refine .of_calm (.refl d) ?_
    cases work <;> rfl
  case joinEnter guest =>
    obtain rfl := Option.some.inj moved
    exact .of_calm (calm_join guest) rfl
  case joinWait guest =>
    obtain rfl := Option.some.inj moved
    exact .of_calm (calm_joinWoken guest) rfl
  case closeFence =>
    obtain rfl := Option.some.inj moved
    exact .of_calm (.refl d) (holding_ite rfl rfl)
  case condWaiting cond mutex =>
    simp only at moved
    split at moved
    · -- `cond_wait` is woken only when it has been signalled; it then asks for the mutex again.
      obtain rfl := Option.some.inj moved
      exact .of_calm (.refl d) rfl
    -- Not signalled yet: the mutex is released for others, and the caller goes on sleeping.
    · next asleep =>
      obtain ⟨d', released, rfl⟩ := Option.map_eq_some_iff.mp moved
      exact .reopens cond mutex at_ asleep (lockRelease_marks released).2 rfl
  -- The answer of `lockAcquire` is not looked at: a refusal leaves the caller without the mutex.
  case condAcquire mutex =>
    obtain rfl := Option.some.inj moved
    by_cases refused : Refuses d mutex me
    · exact .ignores mutex at_ refused
    · have taken := (lockAcquire_spec d mutex me).1.mpr refused
      have step : MutexStep d t me (d.lockAcquire mutex me).1
          (if (d.lockAcquire mutex me).2 then t.acquired mutex else t) := lockAcquire_step rfl
      rwa [if_pos taken] at step
  case waitChildRegistered =>
    simp only at moved
    split at moved
    · obtain rfl := Option.some.inj moved
      exact .keeps (fun _ => rfl) rfl
    · obtain rfl := Option.some.inj moved
      exact .keeps (fun _ => rfl) rfl
  case barrierEnter bar round =>
    obtain rfl := Option.some.inj moved
    refine .keeps (lockIsacquired_of_locks ?_) rfl
    simp only [Determ.realBarrierWait]
    split <;> rfl
  case parentSleeping | joinToken | condToken | barrierBlocked =>
    simp only [Option.ite_none_right_eq_some, Option.some.injEq] at moved
    obtain ⟨-, rfl⟩ := moved
    exact .keeps (fun _ => rfl) rfl
  case registered | startFence | putToken =>
    obtain rfl := Option.some.inj moved
    exact .keeps (fun _ => rfl) rfl

/-- What a call does to them before its first step. -/
inductive MutexCall (d : Determ) (t : Thread) (d' : Determ) (t' : Thread) : Call → Prop
  | keeps {c : Call} (marks : ∀ word, d'.lockIsacquired word = d.lockIsacquired word)
      (holding : t'.holding = t.holding) (noWait : ∀ cond mutex, c ≠ .condWait cond mutex) :
      MutexCall d t d' t' c
  /-- `mutex_lock` of a thread without other threads -/
  | unmarked (mutex : ℕ) (off : t.fenceEnabled = false) (none : t.childrenThreadsCount = 0)
      (marks : ∀ word, d'.lockIsacquired word = d.lockIsacquired word)
      (holding : t'.holding = insert mutex t.holding) : MutexCall d t d' t' (.mutexLock mutex)
  | drops {c : Call} (mutex : ℕ) (drop : c = .mutexUnlock mutex ∨ ∃ cond, c = .condWait cond mutex)
      (marks : ∀ word ≠ mutex, d'.lockIsacquired word = d.lockIsacquired word)
      (holding : t'.holding = t.holding.erase mutex) : MutexCall d t d' t' c

theorem call_mutex {c : Call} (called : call d t me c = some result) :
    MutexCall d t result.1 result.2 c := by
  cases c with
  | mutexLock mutex =>
    obtain rfl := Option.some.inj called
    dsimp only
    split
    · exact .keeps (fun _ => rfl) rfl (by simp)
    · next off =>
      split
      · next none => exact .unmarked mutex (Bool.eq_false_iff.mpr off) none (fun _ => rfl) rfl
      · exact .keeps (fun _ => rfl) rfl (by simp)
  | mutexUnlock mutex =>
    simp only [call] at called
    split at called
    · obtain ⟨d', released, rfl⟩ := Option.map_eq_some_iff.mp called
      exact .drops mutex (.inl rfl) (lockRelease_marks released).2 (holding_ite rfl rfl)
    · obtain rfl := Option.some.inj called
      exact .drops mutex (.inl rfl) (fun _ _ => rfl) rfl
  | condWait cond mutex =>
    obtain ⟨d', released, rfl⟩ := Option.map_eq_some_iff.mp called
    refine .drops mutex (.inr ⟨cond, rfl⟩) (fun word different => ?_) rfl
    rw [(lockRelease_marks released).2 word different]
    refine lockIsacquired_of_locks ?_ word
    unfold Determ.condWait
    exact (Calm.of_fenceOnly (Determ.decrFence_only _)).locks
  | sigWait | exit =>
    obtain rfl := Option.some.inj called
    exact .keeps (fun _ => rfl) rfl (by simp)
  | spawn | join guest | cancel target =>
    obtain rfl := Option.some.inj called
    exact .keeps (fun _ => rfl) (holding_ite rfl rfl) (by simp)
  | barrierWait bar =>
    obtain rfl := Option.some.inj called
    exact .keeps (fun _ => rfl) (holding_ite rfl (holding_ite rfl rfl)) (by simp)
  | condSignal cond | condBroadcast cond =>
    obtain rfl := Option.some.inj called
    exact .keeps (fun _ => rfl) (holding_ite (holding_ite rfl rfl) rfl) (by simp)

theorem Pc.Plain.awake {at_ : Pc} (plain : at_.Plain) : ¬at_.InCondWait := by
  cases at_ <;> first | exact id | exact fun _ => plain

theorem awake_ite {p : Prop} [Decidable p] {yes no : Pc} (first : ¬yes.InCondWait)
    (second : ¬no.InCondWait) : ¬(if p then yes else no).InCondWait := by
  split <;> assumption

/-- The sections that need the token do not lead to that wait. -/
theorem perform_awake {work : Work} (at_ : t.pc = .work work) :
    ¬(perform d t me work).2.pc.InCondWait := by
  cases work with
  | join guest =>
    simp only [perform]
    split
    · exact awake_ite id id
    · exact id
  | lock mutex => exact Pc.Plain.awake (pc_ite_plain trivial trivial)
  | signal cond | broadcast cond => exact signalled_plain.awake
  | cancel target =>
    simp only [perform]
    split
    · show ¬t.pc.InCondWait
      rw [at_]
      exact id
    · exact signalled_plain.awake
  | spawn | barrier bar | sigWait | exit => exact id

/-- A thread gets to the wait of `cond_wait` by the call alone. -/
theorem exec_condWaiting (moved : exec d t me = some result) (waits : result.2.pc.InCondWait) :
    result.2.pc = t.pc := by
  have awake : ¬result.2.pc.InCondWait → result.2.pc = t.pc := fun awake => absurd waits awake
  unfold exec at moved
  cases at_ : t.pc <;> rw [at_] at moved awake
  case absent | waitParentNotify | user | sigWaiting | exited => cases moved
  case condWaiting cond mutex =>
    simp only at moved
    split at moved
    · obtain rfl := Option.some.inj moved
      exact awake id
    · obtain ⟨d', -, rfl⟩ := Option.map_eq_some_iff.mp moved
      exact at_
  -- The other steps leave the counter outside the wait.
  all_goals apply awake
  case work work =>
    obtain rfl := Option.some.inj (Option.ite_none_left_eq_some.mp moved).2
    exact perform_awake at_
  case notify work =>
    obtain rfl := Option.some.inj moved
    exact notified_plain.awake
  case lockIsowner mutex | joinEnter guest | joinWait guest | barrierEnter bar round =>
    obtain rfl := Option.some.inj moved
    exact awake_ite id id
  case lockSingle mutex | lockFast mutex =>
    obtain rfl := Option.some.inj moved
    exact Pc.Plain.awake (pc_ite_plain trivial getLockAgain_plain)
  case closeFence =>
    obtain rfl := Option.some.inj moved
    exact Pc.Plain.awake (pc_ite_plain trivial trivial)
  case fence pos after =>
    obtain ⟨⟨d', next⟩, -, rfl⟩ := Option.map_eq_some_iff.mp moved
    cases next with
    | some pos => exact id
    | none => exact passed_plain.awake
  case getToken work =>
    simp only [Option.ite_none_right_eq_some, Option.some.injEq] at moved
    obtain ⟨-, rfl⟩ := moved
    exact gotToken_plain.awake
  case waitChildRegistered =>
    simp only at moved
    split at moved
    · obtain rfl := Option.some.inj moved
      exact id
    · obtain rfl := Option.some.inj moved
      exact id
  case parentSleeping | joinToken | condToken | barrierBlocked =>
    simp only [Option.ite_none_right_eq_some, Option.some.injEq] at moved
    obtain ⟨-, rfl⟩ := moved
    exact id
  case registered | startFence | putToken | condAcquire =>
    obtain rfl := Option.some.inj moved
    exact id

/-- A call other than `cond_wait` does not lead there. -/
theorem call_condWaiting {c : Call} {cond : ℕ} (user : t.pc = .user)
    (called : call d t me c = some result) (waits : result.2.pc = .condWaiting cond mutex) :
    c = .condWait cond mutex := by
  have awake : ¬result.2.pc.InCondWait → c = .condWait cond mutex :=
    fun awake => absurd (by rw [waits]; trivial) awake
  have here : t.pc.Plain := by
    rw [user]
    trivial
  cases c with
  | condWait cond' mutex' =>
    obtain ⟨d', -, rfl⟩ := Option.map_eq_some_iff.mp called
    cases waits
    rfl
  | mutexUnlock mutex =>
    simp only [call] at called
    split at called
    · obtain ⟨d', -, rfl⟩ := Option.map_eq_some_iff.mp called
      exact awake (Pc.Plain.awake (pc_ite_plain trivial here))
    · obtain rfl := Option.some.inj called
      exact awake here.awake
  | sigWait | exit =>
    obtain rfl := Option.some.inj called
    exact awake id
  | spawn | join guest | cancel target =>
    obtain rfl := Option.some.inj called
    exact awake (Pc.Plain.awake (pc_ite_plain trivial trivial))
  | mutexLock mutex =>
    obtain rfl := Option.some.inj called
    exact awake (Pc.Plain.awake (pc_ite_plain trivial (pc_ite_plain trivial trivial)))
  | barrierWait bar =>
    obtain rfl := Option.some.inj called
    exact awake (Pc.Plain.awake (pc_ite_plain trivial (pc_ite_plain here trivial)))
  | condSignal cond | condBroadcast cond =>
    obtain rfl := Option.some.inj called
    exact awake (Pc.Plain.awake (pc_ite_plain (pc_ite_plain trivial trivial) here))

end

/-! ## Marks and holders -/

variable {s s' : State} {me mutex : ℕ} {result : Determ × Thread}

/-- The thread will take no more steps. -/
def Gone (s : State) (thread : ℕ) : Prop :=
  s.pc thread = .absent ∨ s.pc thread = .exited ∨ s.killed thread = true

/-- There is no other thread, and none is on its way. -/
def Alone (s : State) (me : ℕ) : Prop :=
  s.forks = [] ∧ ∀ other < s.threadIndex, other ≠ me → Gone s other

instance (s : State) : DecidablePred (Gone s) := fun _ => inferInstanceAs (Decidable (_ ∨ _))

instance (s : State) : DecidablePred (Alone s) := fun _ => inferInstanceAs (Decidable (_ ∧ _))

def State.holding (s : State) (thread : ℕ) : Finset ℕ := (s.thread thread).holding

/-- A thread unlocks and waits with a mutex that it has, locks without a mark only where it is
alone, and creates no other thread with such a mutex on hand; a wait that goes on clears no mark
of somebody else; and the mutex at the end of a wait is free, and within the budget. -/
def KeepsMutexes (s : State) : Label → Prop
  | .call me (.mutexLock _) =>
      (s.thread me).fenceEnabled = false → (s.thread me).childrenThreadsCount = 0 → Alone s me
  | .call me (.mutexUnlock mutex) | .call me (.condWait _ mutex) => mutex ∈ s.holding me
  | .exec me =>
      match s.pc me with
      | .work .spawn => ∀ mutex ∈ s.holding me, s.determ.lockIsacquired mutex = true
      | .condWaiting _ mutex => s.determ.status me ≠ .ready →
          ∀ other < s.threadIndex, other ≠ me → ¬Gone s other → mutex ∉ s.holding other
      | .condAcquire mutex => ¬Refuses s.determ mutex me
      | _ => True
  | _ => True

instance (s : State) : DecidablePred (KeepsMutexes s) := fun label => by
  induction label using Label.casesOn with
  | call me call =>
      induction call using Call.casesOn <;> dsimp only [KeepsMutexes] <;> infer_instance
  | exec me =>
    dsimp only [KeepsMutexes]
    induction s.pc me using Pc.casesOn with
    | work work => induction work using Work.casesOn <;> dsimp only <;> infer_instance
    | _ => dsimp only; infer_instance
  | _ => dsimp only [KeepsMutexes]; infer_instance

/-- A mutex has one holder, which has marked it unless it is alone. Threads that are gone do not
count. -/
structure MutexInv (s : State) : Prop where
  waiting : ∀ thread cond mutex, s.pc thread = .condWaiting cond mutex → mutex ∉ s.holding thread
  marked : ∀ thread, ¬Gone s thread → ∀ mutex ∈ s.holding thread,
    s.determ.lockIsacquired mutex = true ∨ Alone s thread
  unique : ∀ thread other mutex, ¬Gone s thread → ¬Gone s other → mutex ∈ s.holding thread →
    mutex ∈ s.holding other → thread = other

/-- The thread has marked the mutex in this step, and is its only holder. -/
structure Owns (s s' : State) (thread mutex : ℕ) : Prop where
  free : s.determ.lockIsacquired mutex = false
  marked : s'.determ.lockIsacquired mutex = true
  returned : s'.pc thread = .user
  holds : mutex ∈ s'.holding thread
  nobody : ∀ other ≠ thread, ¬Gone s' other → mutex ∉ s'.holding other

/-- Nobody else is alone beside a thread that takes steps. -/
theorem not_alone {other : ℕ} (known : me < s.threadIndex) (awake : ¬Gone s me)
    (different : other ≠ me) : ¬Alone s other :=
  fun alone => awake (alone.2 me known different.symm)

/-- What a step does to threads other than its own. -/
structure Aside (s s' : State) (me : ℕ) : Prop where
  holding : ∀ other ≠ me, s'.holding other = s.holding other
  waits : ∀ other ≠ me, ∀ cond mutex, s'.pc other = .condWaiting cond mutex →
    s.pc other = .condWaiting cond mutex
  gone : ∀ other ≠ me, Gone s other → Gone s' other

theorem Alone.step (alone : Alone s me) (aside : Aside s s' me) (forks : s'.forks = s.forks)
    (index : s'.threadIndex = s.threadIndex) : Alone s' me := by
  refine ⟨forks.trans alone.1, fun other below different => ?_⟩
  exact aside.gone other different (alone.2 other (index ▸ below) different)

/-- What a step of one thread has to show. -/
theorem MutexInv.change (inv : MutexInv s) (known : me < s.threadIndex) (awake : ¬Gone s me)
    (aside : Aside s s' me)
    (marks : ∀ other ≠ me, ¬Gone s other → ∀ word ∈ s.holding other,
      s.determ.lockIsacquired word = true → s'.determ.lockIsacquired word = true)
    (mine : ∀ word ∈ s'.holding me, s'.determ.lockIsacquired word = true ∨ Alone s' me)
    (only : ∀ word ∈ s'.holding me, ∀ other ≠ me, ¬Gone s other → word ∉ s.holding other)
    (waiting : ∀ cond mutex, s'.pc me = .condWaiting cond mutex → mutex ∉ s'.holding me) :
    MutexInv s' := by
  have before : ∀ other ≠ me, ¬Gone s' other → ¬Gone s other := fun other different here there =>
    here (aside.gone other different there)
  constructor
  · intro thread cond mutex waits
    by_cases here : thread = me
    · subst here
      exact waiting cond mutex waits
    · rw [aside.holding thread here]
      exact inv.waiting thread cond mutex (aside.waits thread here cond mutex waits)
  · intro thread alive word held
    by_cases here : thread = me
    · subst here
      exact mine word held
    · rw [aside.holding thread here] at held
      rcases inv.marked thread (before thread here alive) word held with marked | alone
      · exact .inl (marks thread here (before thread here alive) word held marked)
      · exact absurd alone (not_alone known awake here)
  · intro thread other word alive alive' held held'
    by_cases here : thread = me
    · subst here
      by_contra different
      have there : other ≠ thread := Ne.symm different
      rw [aside.holding other there] at held'
      exact only word held other there (before other there alive') held'
    · rw [aside.holding thread here] at held
      by_cases there : other = me
      · subst there
        exact absurd held (only word held' thread here (before thread here alive))
      · rw [aside.holding other there] at held'
        exact inv.unique thread other word (before thread here alive) (before other there alive')
          held held'

/-- A mutex without a mark has no holder beside a thread that takes steps. -/
theorem MutexInv.nobody_of_free (inv : MutexInv s) (known : me < s.threadIndex)
    (awake : ¬Gone s me) (free : s.determ.lockIsacquired mutex = false) {other : ℕ}
    (different : other ≠ me) (alive : ¬Gone s other) : mutex ∉ s.holding other := by
  intro held
  rcases inv.marked other alive mutex held with marked | alone
  · rw [free] at marked
    cases marked
  · exact not_alone known awake different alone

/-- What a thread has is still marked, or the thread is still alone. -/
theorem MutexInv.held_after (inv : MutexInv s) (aside : Aside s s' me)
    (index : s'.threadIndex = s.threadIndex)
    (forks : s'.forks = s.forks ∨ ∀ word ∈ s.holding me, s.determ.lockIsacquired word = true)
    (marks : ∀ word, s.determ.lockIsacquired word = true → s'.determ.lockIsacquired word = true)
    (awake : ¬Gone s me) {word : ℕ} (held : word ∈ s.holding me) :
    s'.determ.lockIsacquired word = true ∨ Alone s' me := by
  rcases forks with same | all
  · rcases inv.marked me awake word held with marked | alone
    · exact .inl (marks word marked)
    · exact .inr (alone.step aside same index)
  · exact .inl (marks word (all word held))

/-- A step that leaves all mutexes alone. -/
theorem MutexInv.keeps (inv : MutexInv s) (known : me < s.threadIndex) (awake : ¬Gone s me)
    (aside : Aside s s' me) (index : s'.threadIndex = s.threadIndex)
    (forks : s'.forks = s.forks ∨ ∀ word ∈ s.holding me, s.determ.lockIsacquired word = true)
    (marks : ∀ word, s'.determ.lockIsacquired word = s.determ.lockIsacquired word)
    (holding : s'.holding me = s.holding me)
    (waits : ∀ cond mutex, s'.pc me = .condWaiting cond mutex → s.pc me = .condWaiting cond mutex) :
    MutexInv s' := by
  refine inv.change known awake aside (fun _ _ _ word _ marked => (marks word).trans marked)
    (fun word held => ?_) (fun word held other different alive held' => ?_)
    fun cond mutex there => ?_
  · rw [holding] at held
    exact inv.held_after aside index forks (fun word marked => (marks word).trans marked) awake held
  · rw [holding] at held
    exact different (inv.unique other me word alive awake held' held)
  · rw [holding]
    exact inv.waiting me cond mutex (waits cond mutex there)

theorem aside_update : Aside s (s.update me result) me := by
  have same : ∀ other ≠ me, (s.update me result).thread other = s.thread other :=
    fun other different => Function.update_of_ne different ..
  constructor
  · exact fun other different => congrArg Thread.holding (same other different)
  · intro other different cond mutex waits
    exact (congrArg Thread.pc (same other different)).symm.trans waits
  · intro other different gone
    unfold Gone State.pc State.killed
    rw [same other different]
    exact gone

/-- What the step of a thread does to the records of others. -/
theorem aside_others (forks : List ℕ) :
    Aside s { (s.others me).update me result with forks } me := by
  -- A thread other than `me` is woken, told of a mutex or killed; none of it touches its mutexes.
  have theirs : ∀ other ≠ me, Thread.holding ((s.others me).thread other) = s.holding other ∧
      ((∀ cond mutex, ((s.others me).thread other).pc = .condWaiting cond mutex →
        s.pc other = .condWaiting cond mutex) ∧
        (Gone s other → ((s.others me).thread other).pc = .absent ∨
          ((s.others me).thread other).pc = .exited ∨
          ((s.others me).thread other).killed = true)) := by
    intro other _
    rw [others_thread]
    split
    · unfold wakeChild
      split
      -- The child that slept for its parent was neither gone nor killed before.
      · next waits =>
        refine ⟨rfl, nofun, ?_⟩
        rintro (gone | gone | killed)
        · cases waits.symm.trans gone
        · cases waits.symm.trans gone
        · exact .inr (.inr killed)
      · exact ⟨rfl, fun _ _ => id, id⟩
    · split
      · unfold announce
        split <;> exact ⟨rfl, fun _ _ => id, id⟩
      · split
        · refine ⟨rfl, fun cond mutex => ?_, fun _ => .inr (.inr rfl)⟩
          unfold kill
          dsimp only
          split
          · nofun
          · exact id
        · exact ⟨rfl, fun _ _ => id, id⟩
  have same : ∀ other ≠ me, ({ (s.others me).update me result with forks } : State).thread other =
      (s.others me).thread other := fun other different => Function.update_of_ne different ..
  constructor
  · exact fun other different =>
      (congrArg Thread.holding (same other different)).trans (theirs other different).1
  · intro other different cond mutex waits
    exact (theirs other different).2.1 cond mutex
      ((congrArg Thread.pc (same other different)).symm.trans waits)
  · intro other different gone
    unfold Gone State.pc State.killed
    rw [same other different]
    exact (theirs other different).2.2 gone

theorem MutexInv.exec (inv : MutexInv s) (kept : WellKept s) (keeps : KeepsMutexes s (.exec me))
    (awake : ¬Gone s me) (executed : Xrun.exec s.determ (s.thread me) me = some result) :
    MutexInv { (s.others me).update me result with
      forks := if (s.thread me).pc = .work .spawn then me :: s.forks else s.forks } := by
  have known : me < s.threadIndex := kept.known (exec_known executed)
  let forks := if (s.thread me).pc = .work .spawn then me :: s.forks else s.forks
  let s' : State := { (s.others me).update me result with forks }
  have aside : Aside s s' me := aside_others forks
  have index : s'.threadIndex = s.threadIndex := others_threadIndex s me
  have mine : s'.thread me = result.2 := Function.update_self ..
  have holding : s'.holding me = result.2.holding := congrArg Thread.holding mine
  have pc : s'.pc me = result.2.pc := congrArg Thread.pc mine
  have waits : ∀ cond mutex, s'.pc me = .condWaiting cond mutex →
      s.pc me = .condWaiting cond mutex := by
    intro cond mutex there
    rw [pc] at there
    rw [← there]
    exact (exec_condWaiting executed (by rw [there]; trivial)).symm
  -- Either no fork begins here, or by the condition whatever `me` holds is marked.
  have clones : forks = s.forks ∨ ∀ word ∈ s.holding me, s.determ.lockIsacquired word = true := by
    by_cases at_ : s.pc me = .work .spawn
    · simp only [KeepsMutexes, at_] at keeps
      exact .inr keeps
    · exact .inl (if_neg at_)
  show MutexInv s'
  cases exec_mutex executed with
  | keeps marks same =>
    exact inv.keeps known awake aside index clones marks (holding.trans same) waits
  | takes mutex free mark marks same returned =>
    have inserted : ∀ word ∈ s'.holding me, word = mutex ∨ word ∈ s.holding me := by
      intro word held
      rw [holding, same] at held
      exact Finset.mem_insert.mp held
    -- A word that was marked stays so, and `mutex` is marked now.
    have still : ∀ word, s.determ.lockIsacquired word = true →
        s'.determ.lockIsacquired word = true := by
      intro word marked
      by_cases here : word = mutex
      · rw [here]
        exact mark
      · exact (marks word here).trans marked
    refine inv.change known awake aside (fun _ _ _ word _ => still word) (fun word held => ?_)
      (fun word held other different alive held' => ?_) fun cond mutex there => ?_
    · rcases inserted word held with rfl | before
      · exact .inl mark
      · exact inv.held_after aside index clones still awake before
    · rcases inserted word held with rfl | before
      · exact inv.nobody_of_free known awake free different alive held'
      · exact different (inv.unique other me word alive awake held' before)
    · rw [pc, returned] at there
      cases there
  | ignores mutex at_ refused =>
    -- The condition on the run excludes a refusal.
    have here : s.pc me = .condAcquire mutex := at_
    simp only [KeepsMutexes, here] at keeps
    exact absurd refused keeps
  | reopens cond mutex at_ asleep marks same =>
    have here : s.pc me = .condWaiting cond mutex := at_
    simp only [KeepsMutexes, here] at keeps
    -- By the condition nobody else holds the mutex that is given up here.
    have unheld : ∀ other ≠ me, ¬Gone s other → mutex ∉ s.holding other := by
      intro other different alive held
      have present : other < s.threadIndex := by
        by_contra unknown
        apply alive
        unfold Gone State.pc
        rw [kept.fresh other (not_lt.mp unknown)]
        exact .inl rfl
      exact keeps asleep other present different alive held
    have other_word : ∀ word ∈ s.holding me, word ≠ mutex := by
      rintro word held rfl
      exact inv.waiting me cond word here held
    refine inv.change known awake aside (fun other different alive word held marked => ?_)
      (fun word held => ?_) (fun word held other different alive held' => ?_)
      fun cond mutex there => ?_
    · have apart : word ≠ mutex := by
        rintro rfl
        exact unheld other different alive held
      exact (marks word apart).trans marked
    · rw [holding, same] at held
      rcases inv.marked me awake word held with marked | alone
      · exact .inl ((marks word (other_word word held)).trans marked)
      · exact .inr (alone.step aside (if_neg (by rw [at_]; nofun)) index)
    · rw [holding, same] at held
      exact different (inv.unique other me word alive awake held' held)
    · rw [holding, same]
      exact inv.waiting me cond mutex (waits cond mutex there)

theorem MutexInv.call (inv : MutexInv s) (kept : WellKept s) {c : Call}
    (keeps : KeepsMutexes s (.call me c)) (awake : ¬Gone s me) (user : (s.thread me).pc = .user)
    (called : Xrun.call s.determ (s.thread me) me c = some result) :
    MutexInv (s.update me result) := by
  have here : s.pc me = .user := user
  have known : me < s.threadIndex := kept.known (by rw [here]; nofun)
  have aside : Aside s (s.update me result) me := aside_update
  have mine : (s.update me result).thread me = result.2 := Function.update_self ..
  have holding : (s.update me result).holding me = result.2.holding := congrArg Thread.holding mine
  have waits : ∀ cond mutex, (s.update me result).pc me = .condWaiting cond mutex →
      c = .condWait cond mutex := fun cond mutex there =>
    call_condWaiting user called ((congrArg Thread.pc mine).symm.trans there)
  cases call_mutex called with
  | keeps marks same noWait =>
    exact inv.keeps known awake aside rfl (.inl rfl) marks (holding.trans same)
      fun cond mutex there => absurd (waits cond mutex there) (noWait cond mutex)
  | unmarked mutex off none marks same =>
    -- whoever else has the mutex is gone
    have alone : Alone s me := keeps off none
    have nobody : ∀ other ≠ me, ¬Gone s other → ∀ word, word ∉ s.holding other := by
      intro other different alive word held
      by_cases below : other < s.threadIndex
      · exact alive (alone.2 other below different)
      · apply alive
        unfold Gone State.pc
        rw [kept.fresh other (not_lt.mp below)]
        exact .inl rfl
    refine inv.change known awake aside (fun _ _ _ word _ marked => (marks word).trans marked)
      (fun word _ => .inr (alone.step aside rfl rfl)) (fun word _ other different alive =>
        nobody other different alive word) fun cond mutex there => ?_
    cases waits cond mutex there
  | drops mutex drop marks same =>
    have held : mutex ∈ s.holding me := by
      rcases drop with rfl | ⟨cond, rfl⟩
      · exact keeps
      · exact keeps
    have left : ∀ word ∈ (s.update me result).holding me, word ≠ mutex ∧ word ∈ s.holding me := by
      intro word member
      rw [holding, same] at member
      exact Finset.mem_erase.mp member
    refine inv.change known awake aside (fun other different alive word held' marked => ?_)
      (fun word member => ?_) (fun word member other different alive held' => ?_)
      fun cond mutex' there => ?_
    · have apart : word ≠ mutex := by
        rintro rfl
        exact different (inv.unique other me word alive awake held' held)
      exact (marks word apart).trans marked
    · obtain ⟨apart, before⟩ := left word member
      rcases inv.marked me awake word before with marked | alone
      · exact .inl ((marks word apart).trans marked)
      · exact .inr (alone.step aside rfl rfl)
    · exact different (inv.unique other me word alive awake held' (left word member).2)
    · intro member
      have call := waits cond mutex' there
      rcases drop with rfl | ⟨cond', rfl⟩
      · cases call
      · cases call
        exact (left mutex member).1 rfl

/-- A new thread has no mutex, and with one on its way nobody was alone. -/
theorem MutexInv.childRegister (inv : MutexInv s) {parent : ℕ} (forked : parent ∈ s.forks)
    (record : Thread) (new : record.pc = .registered ∧ record.holding = ∅) : MutexInv {
      determ := s.determ.registerThread s.threadIndex parent
      thread := Function.update s.thread s.threadIndex record
      threadIndex := s.threadIndex + 1
      forks := s.forks.erase parent } := by
  let s' : State := {
    determ := s.determ.registerThread s.threadIndex parent
    thread := Function.update s.thread s.threadIndex record
    threadIndex := s.threadIndex + 1
    forks := s.forks.erase parent }
  have mine : s'.thread s.threadIndex = record := Function.update_self ..
  have theirs : ∀ thread ≠ s.threadIndex, s'.thread thread = s.thread thread :=
    fun thread different => Function.update_of_ne different ..
  have empty : s'.holding s.threadIndex = ∅ := (congrArg Thread.holding mine).trans new.2
  -- The child holds nothing, so whoever holds a word is one of the old threads.
  have old : ∀ thread word, word ∈ s'.holding thread →
      thread ≠ s.threadIndex ∧ word ∈ s.holding thread := by
    intro thread word held
    by_cases here : thread = s.threadIndex
    · rw [here, empty] at held
      exact absurd held (Finset.notMem_empty word)
    · rw [show s'.holding thread = s.holding thread from
        congrArg Thread.holding (theirs thread here)] at held
      exact ⟨here, held⟩
  have gone : ∀ thread ≠ s.threadIndex, ¬Gone s' thread → ¬Gone s thread := by
    intro thread different alive
    unfold Gone State.pc State.killed at alive
    rwa [theirs thread different] at alive
  show MutexInv s'
  constructor
  · intro thread cond mutex waits held
    obtain ⟨different, before⟩ := old thread mutex held
    refine inv.waiting thread cond mutex ?_ before
    exact (congrArg Thread.pc (theirs thread different)).symm.trans waits
  · intro thread alive word held
    obtain ⟨different, before⟩ := old thread word held
    rcases inv.marked thread (gone thread different alive) word before with marked | alone
    · exact .inl marked
    · -- With a fork on its way nobody was alone.
      rw [alone.1] at forked
      cases forked
  · intro thread other word alive alive' held held'
    obtain ⟨different, before⟩ := old thread word held
    obtain ⟨different', before'⟩ := old other word held'
    exact inv.unique thread other word (gone thread different alive) (gone other different' alive')
      before before'

/-- A step, seen from what it may do to the mutexes: a call, the next step of one, a new thread,
or a thread that goes on by itself. -/
inductive StepKind (s : State) : Label → State → Prop
  | call {me : ℕ} {c : Call} {result : Determ × Thread} (awake : ¬Gone s me)
      (user : (s.thread me).pc = .user) (called : Xrun.call s.determ (s.thread me) me c =
        some result) :
      StepKind s (.call me c) (s.update me result)
  | exec {me : ℕ} {result : Determ × Thread} (awake : ¬Gone s me)
      (executed : Xrun.exec s.determ (s.thread me) me = some result) :
      StepKind s (.exec me) { (s.others me).update me result with
        forks := if (s.thread me).pc = .work .spawn then me :: s.forks else s.forks }
  | childRegister {parent : ℕ} (forked : parent ∈ s.forks) : StepKind s (.childRegister parent) {
      determ := s.determ.registerThread s.threadIndex parent
      thread := Function.update s.thread s.threadIndex (childRecord (s.thread parent))
      threadIndex := s.threadIndex + 1
      forks := s.forks.erase parent }
  | goes {label : Label} {me : ℕ} {result : Determ × Thread} (awake : ¬Gone s me)
      (present : s.pc me ≠ .absent) (locks : result.1.locks = s.determ.locks)
      (holding : result.2.holding = s.holding me) (noWait : ¬result.2.pc.InCondWait) :
      StepKind s label (s.update me result)

theorem stepKind {label : Label} (stepped : Xrun.step s label = some s') :
    StepKind s label s' := by
  have move := move_of_step stepped
  -- A step of `me` is taken by a thread that is alive.
  have awake : ∀ {me}, label.thread = some me → s.pc me ≠ .absent → s.pc me ≠ .exited →
      ¬Gone s me := by
    rintro me mine present here (absent | exited | killed)
    · exact present absent
    · exact here exited
    · have alive := alive_of_step stepped mine
      exact absurd (alive.symm.trans killed) (by simp)
  -- The steps that move the counter only, away from `cond_wait`.
  have goes : ∀ {me} {at_ : Pc} {result : Determ × Thread}, label.thread = some me →
      (s.thread me).pc = at_ → at_ ≠ .absent → at_ ≠ .exited → result.1.locks = s.determ.locks →
      result.2.holding = s.holding me → ¬result.2.pc.InCondWait →
      StepKind s label (s.update me result) := by
    intro me at_ result mine here present gone locks holding noWait
    have there : s.pc me = at_ := here
    exact .goes (awake mine (there ▸ present) (there ▸ gone)) (there ▸ present) locks holding noWait
  cases label with
  | call me c =>
    obtain ⟨⟨user, -⟩, move⟩ := Option.ite_none_right_eq_some.mp move
    obtain ⟨result, called, rfl⟩ := Option.map_eq_some_iff.mp move
    have here : s.pc me = .user := user
    exact .call (awake rfl (by rw [here]; simp) (by rw [here]; simp)) user called
  | exec me =>
    obtain ⟨result, executed, rfl⟩ := Option.map_eq_some_iff.mp move
    refine .exec (awake rfl (exec_known executed) fun exited => ?_) executed
    have gone : (s.thread me).pc = .exited := exited
    simp only [Xrun.exec, gone] at executed
    cases executed
  | childRegister parent =>
    obtain ⟨forked, rfl⟩ := guarded move
    exact .childRegister forked
  | cloneFails me =>
    obtain ⟨at_, rfl⟩ := guarded move
    exact goes rfl at_ (by simp) (by simp) rfl rfl id
  | spuriousReturn me =>
    simp only [Xrun.move] at move
    split at move
    · next at_ =>
      obtain rfl := Option.some.inj move
      exact goes rfl at_ (by simp) (by simp) rfl rfl id
    · next at_ =>
      obtain rfl := Option.some.inj move
      exact goes rfl at_ (by simp) (by simp) rfl rfl id
    · cases move
  | sigwaitReturns me =>
    obtain ⟨at_, rfl⟩ := guarded move
    exact goes rfl at_ (by simp) (by simp) calm_sigWaitWoken.locks rfl id
  | sigwaitFails me =>
    obtain ⟨at_, rfl⟩ := guarded move
    exact goes rfl at_ (by simp) (by simp) rfl rfl id

theorem MutexInv.step (inv : MutexInv s) (kept : WellKept s) {label : Label}
    (keeps : KeepsMutexes s label) (stepped : Xrun.step s label = some s') : MutexInv s' := by
  cases stepKind stepped with
  | call awake user called => exact inv.call kept keeps awake user called
  | exec awake executed => exact inv.exec kept keeps awake executed
  | childRegister forked => exact inv.childRegister forked _ ⟨rfl, rfl⟩
  | @goes _ me result awake present locks holding noWait =>
    have self : (s.update me result).thread me = result.2 := Function.update_self ..
    refine inv.keeps (kept.known present) awake aside_update rfl (.inl rfl)
      (lockIsacquired_of_locks locks) ((congrArg Thread.holding self).trans holding)
      fun cond mutex waits => absurd ?_ noWait
    rw [← self, show ((s.update me result).thread me).pc = _ from waits]
    trivial

theorem start_mutexInv (cores : ℕ) (counts : ℕ → ℕ) : MutexInv (start cores counts) := by
  have nothing : ∀ thread, (start cores counts).holding thread = ∅ := by
    intro thread
    by_cases here : thread = 0
    · subst here
      rfl
    · have absent := (start_wellKept cores counts).fresh thread (Nat.one_le_iff_ne_zero.mpr here)
      exact congrArg Thread.holding absent
  constructor
  · intro thread _ mutex _
    rw [nothing]
    exact Finset.notMem_empty mutex
  · intro thread _ mutex held
    rw [nothing] at held
    exact absurd held (Finset.notMem_empty mutex)
  · intro thread _ mutex _ _ held
    rw [nothing] at held
    exact absurd held (Finset.notMem_empty mutex)

/-- In every run whose steps all meet the condition, a mutex has one holder. -/
theorem mutexInv_of_keepsMutexes (reach : system.Reachable KeepsMutexes s) : MutexInv s := by
  induction reach with
  | init initial =>
    obtain ⟨cores, counts, -, rfl⟩ := initial
    exact start_mutexInv cores counts
  | step label prior keeps move ih => exact ih.step (wellKept_of_reachable prior) keeps move

/-- **The end of a wait.** In every run whose steps all meet the condition, `cond_wait` returns
with the mutex, for its caller and for nobody else. -/
theorem owns_of_mutexes (reach : system.Reachable KeepsMutexes s)
    (at_ : s.pc me = .condAcquire mutex) (keeps : KeepsMutexes s (.exec me))
    (move : system.step s (.exec me) = some s') : Owns s s' me mutex := by
  have inv := mutexInv_of_keepsMutexes reach
  have kept := wellKept_of_reachable reach
  have known : me < s.threadIndex := kept.known (by rw [at_]; nofun)
  have alive := alive_of_step move rfl
  have awake : ¬Gone s me := by
    rintro (absent | exited | killed)
    · cases at_.symm.trans absent
    · cases at_.symm.trans exited
    · exact absurd (alive.symm.trans killed) nofun
  have granted : ¬Refuses s.determ mutex me := by
    simpa only [KeepsMutexes, at_] using keeps
  obtain ⟨result, executed, rfl⟩ := Option.map_eq_some_iff.mp (move_of_step move)
  have here : (s.thread me).pc = .condAcquire mutex := at_
  simp only [Xrun.exec, here, Option.some.injEq] at executed
  obtain rfl := executed
  obtain ⟨answer, mark, -⟩ := lockAcquire_spec s.determ mutex me
  -- A mutex that is not refused is free, so by the invariant nobody holds it.
  have free : s.determ.lockIsacquired mutex = false := by
    rw [Bool.eq_false_iff]
    exact fun marked => granted (.inl marked)
  have aside : Aside s { (s.others me).update me
      ((s.determ.lockAcquire mutex me).1, (s.thread me).acquired mutex) with
        forks := if (s.thread me).pc = .work .spawn then me :: s.forks else s.forks } me :=
    aside_others _
  have self : Function.update (s.others me).thread me ((s.thread me).acquired mutex) me =
      (s.thread me).acquired mutex := Function.update_self ..
  constructor
  · exact free
  · exact mark.trans (by rw [answer.mpr granted, Bool.or_true])
  · show (Function.update (s.others me).thread me _ me).pc = .user
    rw [self]
    rfl
  · show mutex ∈ (Function.update (s.others me).thread me _ me).holding
    rw [self]
    exact Finset.mem_insert_self ..
  · intro other different there
    rw [aside.holding other different]
    refine inv.nobody_of_free known awake free different fun gone => ?_
    exact there (aside.gone other different gone)

/-- A thread unlocks and waits with a mutex that it has. -/
def HasMutex (s : State) : Label → Prop
  | .call me (.mutexUnlock mutex) | .call me (.condWait _ mutex) => mutex ∈ s.holding me
  | _ => True

instance (s : State) : DecidablePred (HasMutex s) := fun label => by
  unfold HasMutex
  split <;> infer_instance

end Tthread.Xrun
