/-
# The creation handshake

A parent that has cloned a child waits until the child has registered, and the child waits
until its parent starts the fence and wakes it. One flag and two condition variables serve all
parents and children, and neither wait is a loop.

The handshake holds as long as nobody wakes up before what it waits for has happened, no clone
comes while the child of another one is on its way, and no parent wakes the children of another.
-/

import Tthread.FenceCounters

namespace Tthread.Xrun

open Transition

/-! ## What the rest of a call leaves alone -/

/-- The flag and the creators stay as they are, and nobody goes to sleep on a condition
variable. -/
structure Unrelated (d d' : Determ) : Prop where
  childregistered : d'.childregistered = d.childregistered
  tidParent : ∀ thread, (d'.entries thread).tidParent = (d.entries thread).tidParent
  asleep : ∀ thread, d'.status thread = .condWaiting → d.status thread = .condWaiting

section

variable {d d' d'' : Determ} {t : Thread} {me thread mutex : ℕ}

/-- Besides, the mutexes stay as they are. -/
structure Calm (d d' : Determ) : Prop extends Unrelated d d' where
  locks : d'.locks = d.locks

theorem Unrelated.refl (d : Determ) : Unrelated d d := ⟨rfl, fun _ => rfl, fun _ => id⟩

theorem Unrelated.of_entries (flag : d'.childregistered = d.childregistered)
    (entries : d'.entries = d.entries) : Unrelated d d' := by
  refine ⟨flag, fun thread => by rw [entries], fun thread sleeps => ?_⟩
  rwa [Determ.status, entries] at sleeps

theorem Calm.refl (d : Determ) : Calm d d := ⟨.refl d, rfl⟩

theorem Calm.trans (first : Calm d d') (second : Calm d' d'') : Calm d d'' where
  childregistered := second.childregistered.trans first.childregistered
  tidParent thread := (second.tidParent thread).trans (first.tidParent thread)
  asleep thread sleeps := first.asleep thread (second.asleep thread sleeps)
  locks := second.locks.trans first.locks

theorem Calm.of_entries (flag : d'.childregistered = d.childregistered)
    (entries : d'.entries = d.entries) (locks : d'.locks = d.locks) : Calm d d' :=
  ⟨.of_entries flag entries, locks⟩

/-- One entry changes. -/
theorem Calm.of_update {entry : ThreadEntry} (flag : d'.childregistered = d.childregistered)
    (entries : d'.entries = Function.update d.entries me entry)
    (parent : entry.tidParent = (d.entries me).tidParent) (awake : entry.status ≠ .condWaiting)
    (locks : d'.locks = d.locks) : Calm d d' := by
  refine ⟨⟨flag, fun thread => ?_, fun thread sleeps => ?_⟩, locks⟩
  · rw [entries]
    by_cases here : thread = me
    · subst here
      rw [Function.update_self, parent]
    · rw [Function.update_of_ne here]
  · rw [Determ.status, entries] at sleeps
    by_cases here : thread = me
    · subst here
      rw [Function.update_self] at sleeps
      exact absurd sleeps awake
    · rwa [Function.update_of_ne here] at sleeps

/-- A change that is only made in one case. -/
theorem Calm.ite {p : Prop} [Decidable p] (before : Calm d d') (change : Calm d' d'') :
    Calm d (if p then d'' else d') := by
  split
  · exact before.trans change
  · exact before

theorem calm_setStatus {status : Status} (awake : status ≠ .condWaiting) :
    Calm d (d.setStatus me status) := .of_update rfl rfl rfl awake rfl

theorem Calm.of_fenceOnly (only : Determ.FenceOnly d d') : Calm d d' := by
  rw [only.eq]
  exact .of_entries rfl rfl rfl

theorem calm_decrFence : Calm d d.decrFence := .of_fenceOnly (Determ.decrFence_only d)

theorem calm_insertBehindToken : Calm d (d.insertBehindToken me) := by
  unfold Determ.insertBehindToken
  split
  · exact .of_entries rfl rfl rfl
  · exact .refl d

theorem calm_joinBlock : Calm d (d.joinBlock me) := by
  unfold Determ.joinBlock
  dsimp only
  split
  · exact calm_decrFence.trans (.of_entries rfl rfl rfl)
  · exact calm_decrFence

theorem calm_join (guest : ℕ) : Calm d (d.join guest me).1 := by
  unfold Determ.join
  split
  · refine Calm.trans ?_ calm_joinBlock
    exact .of_update rfl rfl rfl nofun rfl
  · exact calm_setStatus nofun

theorem calm_joinWoken (guest : ℕ) : Calm d (d.joinWoken guest me).1 := by
  have grown : Calm d (d.incrFence 1) := .of_entries rfl rfl rfl
  simp only [Determ.joinWoken]
  split
  · exact grown.trans calm_joinBlock
  · exact grown.trans (calm_setStatus (by simp))

theorem calm_deregisterThread : Calm d (d.deregisterThread me) := by
  have woken : ∀ parent, Calm d (if d.status parent = .joining ∧
      (d.entries parent).joineeThreadIndex = me then d.insertBehindToken parent else d) := by
    intro parent
    split
    · exact calm_insertBehindToken
    · exact .refl d
  have left : ∀ d₁ : Determ, Calm d₁ (if 0 < d₁.alivethreads then
      Determ.decrFence { d₁ with alivethreads := d₁.alivethreads - 1 } else d₁) := by
    intro d₁
    split
    · refine Calm.trans ?_ calm_decrFence
      exact .of_entries rfl rfl rfl
    · exact .refl d₁
  refine ((woken (d.entries me).tidParent).trans (left _)).trans ?_
  exact .of_update rfl rfl rfl nofun rfl

theorem unrelated_lockIsowner : Unrelated d (d.lockIsowner mutex me).1 := by
  have same : Untouched d (d.lockIsowner mutex me).1 := lockIsowner_untouched
  refine .of_entries ?_ same.entries
  unfold Determ.lockIsowner
  split
  · rfl
  · split
    · split <;> rfl
    · rfl

theorem unrelated_lockRelease (released : d.lockRelease mutex = some d') : Unrelated d d' := by
  obtain ⟨entry, -, rfl⟩ := Option.map_eq_some_iff.mp released
  exact .of_entries rfl rfl

theorem calm_condSignal (cond : ℕ) : Calm d (d.condSignal cond) := by
  unfold Determ.condSignal
  dsimp only
  split
  · split
    · exact .refl d
    · next entry _ _ =>
      have ready : ∀ d : Determ, Calm d (d.setStatus entry .ready) := fun _ =>
        calm_setStatus nofun
      refine Calm.trans (Calm.trans ?_ calm_insertBehindToken)
        ((ready _).trans (.of_entries rfl rfl rfl))
      exact .of_entries rfl rfl rfl
  · exact .refl d

theorem calm_wakeWaiters (entry waiters : ℕ) :
    Calm d (d.wakeWaiters entry waiters) := by
  induction waiters generalizing d entry with
  | zero => exact .refl d
  | succ waiters ih =>
    have ready : Calm d (d.setStatus entry .ready) := calm_setStatus nofun
    exact ready.trans (ih _)

theorem calm_condBroadcast (cond : ℕ) : Calm d (d.condBroadcast cond) := by
  unfold Determ.condBroadcast
  dsimp only
  split
  · split
    · exact .refl d
    · exact (calm_wakeWaiters _ _).trans (.of_entries rfl rfl rfl)
  · exact .refl d

theorem calm_sigWait : Calm d (d.sigWait me) := by
  have left : Calm d (d.deactivate me) := .of_entries rfl rfl rfl
  exact (left.trans calm_decrFence).trans (.of_entries rfl rfl rfl)

theorem calm_sigWaitWoken : Calm d (d.sigWaitWoken me) := by
  unfold Determ.sigWaitWoken
  split
  · exact .of_entries rfl rfl rfl
  · exact calm_insertBehindToken.trans (.of_entries rfl rfl rfl)

theorem calm_barrierWait (bar : ℕ) : Calm d (d.barrierWait bar me) := by
  unfold Determ.barrierWait
  dsimp only
  split
  · split
    · exact .of_entries rfl rfl rfl
    · exact .refl d
  · refine Calm.trans (Calm.trans ?_ calm_decrFence) (.of_entries rfl rfl rfl)
    exact .of_update rfl rfl rfl nofun rfl

theorem calm_cancel (target : ℕ) : Calm d (d.cancel target) := by
  unfold Determ.cancel
  split
  · refine Calm.trans (Calm.ite (Calm.ite ?_ ?_) ?_) (calm_setStatus nofun)
    · exact .of_entries rfl rfl rfl
    · exact .of_entries rfl rfl rfl
    · exact .of_entries rfl rfl rfl
  · exact .refl d

/-! ## Positions -/

/-- The thread takes no part in the handshake. -/
def Pc.Outside : Pc → Prop
  | .absent | .registered | .waitParentNotify | .waitChildRegistered | .parentSleeping
  | .notify _ | .joinEnter _ => False
  | _ => True

/-- The step from this position leaves the handshake alone, or ends it. -/
def Pc.Steady (fenceEnabled : Bool) : Pc → Prop
  | .registered | .waitChildRegistered | .parentSleeping | .work .spawn | .startFence _ => False
  | .work (.join _) => fenceEnabled = true
  | _ => True

/-- The thread waits for a signal of a condition variable. -/
def Pc.InCondWait : Pc → Prop
  | .condWaiting _ _ => True
  | _ => False

theorem outside_goto_ite {p : Prop} [Decidable p] {yes no : Pc} (first : yes.Outside)
    (second : no.Outside) : (t.goto (if p then yes else no)).pc.Outside := by
  unfold Thread.goto
  split <;> assumption

theorem outside_ite {p : Prop} [Decidable p] {yes no : Thread} (first : yes.pc.Outside)
    (second : no.pc.Outside) : (if p then yes else no).pc.Outside := by
  split <;> assumption

theorem getLockAgain_outside : (t.getLockAgain mutex).pc.Outside := outside_ite trivial trivial

theorem passed_outside {after : After} : (t.passed after).pc.Outside := by
  cases after with
  | relock mutex => exact getLockAgain_outside
  | _ => trivial

theorem signalled_outside : t.signalled.pc.Outside := outside_ite trivial trivial

theorem notified_outside {work : Work} : (t.notified work).pc.Outside := by
  cases work <;> trivial

theorem gotToken_outside {work : Work} : (t.gotToken work).pc.Outside := by
  cases work <;> trivial

/-- The sections that need the token, save for `fork` and `startFence`. -/
theorem perform_steady {work : Work} (at_ : t.pc = .work work) (noFork : work ≠ .spawn)
    (fenced : ∀ guest, work = .join guest → t.fenceEnabled = true) :
    Unrelated d (perform d t me work).1 ∧ (perform d t me work).2.pc.Outside := by
  cases work with
  | spawn => exact absurd rfl noFork
  | join guest =>
    simp only [perform, if_pos (fenced guest rfl)]
    exact ⟨(calm_join guest).toUnrelated, outside_goto_ite trivial trivial⟩
  | lock mutex => exact ⟨.of_entries rfl rfl, outside_ite trivial trivial⟩
  | signal cond => exact ⟨(calm_condSignal cond).toUnrelated, signalled_outside⟩
  | broadcast cond => exact ⟨(calm_condBroadcast cond).toUnrelated, signalled_outside⟩
  | barrier bar => exact ⟨(calm_barrierWait bar).toUnrelated, trivial⟩
  | sigWait => exact ⟨calm_sigWait.toUnrelated, trivial⟩
  | cancel target =>
    simp only [perform]
    split
    · refine ⟨.refl d, ?_⟩
      rw [at_]
      trivial
    · exact ⟨(calm_cancel target).toUnrelated, signalled_outside⟩
  | exit => exact ⟨calm_deregisterThread.toUnrelated, trivial⟩

/-- A step that is no part of the handshake, or its last one. -/
theorem exec_steady {result : Determ × Thread} (moved : exec d t me = some result)
    (steady : t.pc.Steady t.fenceEnabled) : Unrelated d result.1 ∧ result.2.pc.Outside := by
  unfold exec at moved
  cases at_ : t.pc <;> rw [at_] at moved steady
  case absent | waitParentNotify | user | sigWaiting | exited => cases moved
  case registered | waitChildRegistered | parentSleeping | startFence => exact steady.elim
  -- the fence of the call is behind: the thread goes on to its work or back to the user
  case notify work =>
    obtain rfl := Option.some.inj moved
    exact ⟨.refl d, notified_outside⟩
  case lockIsowner mutex =>
    obtain rfl := Option.some.inj moved
    exact ⟨unrelated_lockIsowner, outside_goto_ite trivial trivial⟩
  case lockSingle mutex =>
    obtain rfl := Option.some.inj moved
    exact ⟨.refl d, outside_ite trivial getLockAgain_outside⟩
  case lockFast mutex =>
    obtain rfl := Option.some.inj moved
    exact ⟨.of_entries rfl rfl, outside_ite trivial getLockAgain_outside⟩
  -- the counters of the fence are no part of the handshake
  case fence pos after =>
    obtain ⟨⟨d', next⟩, waits, rfl⟩ := Option.map_eq_some_iff.mp moved
    have only : Unrelated d d' :=
      (Calm.of_fenceOnly (Determ.waitFence_only waits)).toUnrelated
    cases next with
    | some pos => exact ⟨only, trivial⟩
    | none => exact ⟨only, passed_outside⟩
  case getToken work =>
    simp only [Option.ite_none_right_eq_some, Option.some.injEq] at moved
    obtain ⟨-, rfl⟩ := moved
    exact ⟨.refl d, gotToken_outside⟩
  -- only a spawn, and a join before the first fence, are not steady
  case work work =>
    obtain rfl := Option.some.inj (Option.ite_none_left_eq_some.mp moved).2
    refine perform_steady at_ ?_ ?_
    · rintro rfl
      exact steady
    · rintro guest rfl
      exact steady
  -- only the token moves
  case putToken after =>
    obtain rfl := Option.some.inj moved
    exact ⟨.of_entries rfl rfl, trivial⟩
  case joinEnter guest =>
    obtain rfl := Option.some.inj moved
    exact ⟨(calm_join guest).toUnrelated, outside_goto_ite trivial trivial⟩
  case joinWait guest =>
    obtain rfl := Option.some.inj moved
    exact ⟨(calm_joinWoken guest).toUnrelated, outside_goto_ite trivial trivial⟩
  case closeFence =>
    obtain rfl := Option.some.inj moved
    exact ⟨.refl d, outside_ite trivial trivial⟩
  -- the waiter goes on when it has been woken, and releases the next lock otherwise
  case condWaiting cond mutex =>
    simp only at moved
    split at moved
    · obtain rfl := Option.some.inj moved
      exact ⟨.refl d, trivial⟩
    · obtain ⟨d', released, rfl⟩ := Option.map_eq_some_iff.mp moved
      refine ⟨unrelated_lockRelease released, ?_⟩
      rw [at_]
      trivial
  case condAcquire mutex =>
    obtain rfl := Option.some.inj moved
    exact ⟨.of_entries rfl rfl, trivial⟩
  case barrierEnter bar round =>
    obtain rfl := Option.some.inj moved
    refine ⟨.of_entries ?_ realBarrierWait_untouched.entries, outside_goto_ite trivial trivial⟩
    simp only [Determ.realBarrierWait]
    split <;> rfl
  case joinToken | condToken | barrierBlocked =>
    simp only [Option.ite_none_right_eq_some, Option.some.injEq] at moved
    obtain ⟨-, rfl⟩ := moved
    exact ⟨.refl d, trivial⟩

/-- Any step leaves the creators alone, and puts nobody to sleep. -/
theorem exec_unrelated {result : Determ × Thread} (moved : exec d t me = some result) :
    Unrelated { d with childregistered := result.1.childregistered } result.1 := by
  by_cases steady : t.pc.Steady t.fenceEnabled
  · obtain ⟨unrelated, -⟩ := exec_steady moved steady
    exact ⟨rfl, unrelated.tidParent, unrelated.asleep⟩
  · unfold exec at moved
    cases at_ : t.pc <;> rw [at_] at moved steady
    case registered | startFence =>
      obtain rfl := Option.some.inj moved
      exact .of_entries rfl rfl
    case waitChildRegistered =>
      simp only at moved
      split at moved
      · obtain rfl := Option.some.inj moved
        exact .of_entries rfl rfl
      · obtain rfl := Option.some.inj moved
        exact .of_entries rfl rfl
    case parentSleeping =>
      simp only [Option.ite_none_right_eq_some, Option.some.injEq] at moved
      obtain ⟨-, rfl⟩ := moved
      exact .of_entries rfl rfl
    case work work =>
      obtain rfl := Option.some.inj (Option.ite_none_left_eq_some.mp moved).2
      cases work with
      | spawn => exact .of_entries rfl rfl
      | join guest =>
        have off : ¬t.fenceEnabled = true := steady
        simp only [perform, if_neg off]
        exact .of_entries rfl rfl
      | _ => exact absurd trivial steady
    all_goals exact absurd trivial steady

/-- A thread that sleeps on a condition variable is in its wait. -/
theorem exec_asleep {result : Determ × Thread} (moved : exec d t me = some result)
    (before : d.status me = .condWaiting → t.pc.InCondWait)
    (sleeps : result.1.status me = .condWaiting) : result.2.pc.InCondWait := by
  have slept : d.status me = .condWaiting := (exec_unrelated moved).asleep me sleeps
  have waits := before slept
  cases at_ : t.pc with
  | condWaiting cond mutex =>
    have awake : ¬d.status me = .ready := by
      rw [slept]
      nofun
    simp only [exec, at_, if_neg awake] at moved
    obtain ⟨d', released, rfl⟩ := Option.map_eq_some_iff.mp moved
    rw [at_]
    trivial
  | _ =>
    rw [at_] at waits
    exact waits.elim

/-- A call takes no part in the handshake before its first step. -/
theorem call_outside {c : Call} {result : Determ × Thread} (user : t.pc = .user)
    (called : call d t me c = some result) : result.2.pc.Outside := by
  have here : t.pc.Outside := by
    rw [user]
    trivial
  cases c with
  | mutexUnlock mutex =>
    simp only [call] at called
    split at called
    · obtain ⟨d', -, rfl⟩ := Option.map_eq_some_iff.mp called
      exact outside_ite trivial here
    · obtain rfl := Option.some.inj called
      exact here
  | condWait cond mutex =>
    obtain ⟨d', -, rfl⟩ := Option.map_eq_some_iff.mp called
    trivial
  | spawn | join guest | cancel target =>
    obtain rfl := Option.some.inj called
    exact outside_ite trivial trivial
  | mutexLock mutex =>
    obtain rfl := Option.some.inj called
    exact outside_ite trivial (outside_ite trivial trivial)
  | barrierWait bar =>
    obtain rfl := Option.some.inj called
    exact outside_ite trivial (outside_ite here trivial)
  | condSignal cond | condBroadcast cond =>
    obtain rfl := Option.some.inj called
    exact outside_ite (outside_ite trivial trivial) here
  | sigWait | exit =>
    obtain rfl := Option.some.inj called
    trivial

/-- Only `cond_wait` puts its caller to sleep. -/
theorem call_asleep {c : Call} {result : Determ × Thread} (called : call d t me c = some result) :
    result.1.childregistered = d.childregistered ∧
      (∀ thread, (result.1.entries thread).tidParent = (d.entries thread).tidParent) ∧
      ∀ thread, result.1.status thread = .condWaiting →
        d.status thread = .condWaiting ∨ thread = me ∧ result.2.pc.InCondWait := by
  have unrelated : ∀ {d'}, Unrelated d d' → d'.childregistered = d.childregistered ∧
      (∀ thread, (d'.entries thread).tidParent = (d.entries thread).tidParent) ∧
      ∀ thread, d'.status thread = .condWaiting →
        d.status thread = .condWaiting ∨ thread = me ∧ result.2.pc.InCondWait :=
    fun same => ⟨same.childregistered, same.tidParent, fun thread sleeps =>
      .inl (same.asleep thread sleeps)⟩
  cases c with
  | mutexUnlock mutex =>
    simp only [call] at called
    split at called
    · obtain ⟨d', released, rfl⟩ := Option.map_eq_some_iff.mp called
      exact unrelated (unrelated_lockRelease released)
    · obtain rfl := Option.some.inj called
      exact unrelated (.refl d)
  | condWait cond mutex =>
    obtain ⟨d', released, rfl⟩ := Option.map_eq_some_iff.mp called
    have freed := unrelated_lockRelease released
    have counts : Untouched _ (d.condWait me cond) := condWait_counts cond
    -- the lock is given back before the caller leaves the fence and goes to sleep
    refine ⟨freed.childregistered.trans ?_, fun thread => ?_, fun thread sleeps => ?_⟩
    · unfold Determ.condWait
      exact (Calm.of_fenceOnly (Determ.decrFence_only _)).childregistered
    · rw [freed.tidParent, counts.entries]
      by_cases here : thread = me
      · subst here
        show (Function.update d.entries thread _ thread).tidParent = _
        rw [Function.update_self]
      · rw [setStatus_entries_of_ne here]
    · -- the caller is the one that sleeps now, all others slept before
      by_cases here : thread = me
      · exact .inr ⟨here, trivial⟩
      · have slept := freed.asleep thread sleeps
        rw [Determ.status, counts.entries, setStatus_entries_of_ne here] at slept
        exact .inl slept
  | _ =>
    obtain rfl := Option.some.inj called
    exact unrelated (.refl d)

end

/-! ## Threads that exist -/

variable {s s' : State} {me thread : ℕ} {result : Determ × Thread}

/-- The threads up to the next index exist, and a thread that sleeps on a condition variable is
in its wait. -/
structure WellKept (s : State) : Prop where
  fresh : ∀ thread, s.threadIndex ≤ thread → s.thread thread = absentThread
  present : ∀ thread, thread < s.threadIndex → s.pc thread ≠ .absent
  asleep : ∀ thread, thread < s.threadIndex → s.determ.status thread = .condWaiting →
    (s.pc thread).InCondWait

theorem WellKept.known (kept : WellKept s) (present : s.pc thread ≠ .absent) :
    thread < s.threadIndex := by
  by_contra unknown
  apply present
  unfold State.pc
  rw [kept.fresh thread (not_lt.mp unknown)]
  rfl

theorem cancel_status (d : Determ) (target : ℕ) :
    (d.cancel target).status target ≠ .condWaiting := by
  unfold Determ.cancel
  split
  · dsimp only
    rw [setStatus_status_self]
    nofun
  · next awake => exact awake

/-- What a step does to the records of others: a child may wake up or be counted, and a thread
may be killed. -/
theorem others_absent (absent : s.thread thread = absentThread)
    (target : ¬(s.pc me).Cancels thread) : (s.others me).thread thread = absentThread := by
  rw [others_thread, absent]
  have alive : ¬(s.thread me).pc.Cancels thread := target
  rw [if_neg alive]
  unfold wakeChild announce
  simp [absentThread]

theorem others_present (present : s.pc thread ≠ .absent) : (s.others me).pc thread ≠ .absent := by
  unfold State.pc at present ⊢
  rw [others_thread]
  split
  · unfold wakeChild
    split
    · nofun
    · exact present
  · split
    · unfold announce
      split <;> exact present
    · split
      · unfold kill
        dsimp only
        split
        · nofun
        · exact present
      · exact present

theorem others_inCondWait (sleeps : (s.pc thread).InCondWait)
    (target : ¬(s.pc me).Cancels thread) : ((s.others me).pc thread).InCondWait := by
  have alive : ¬(s.thread me).pc.Cancels thread := target
  unfold State.pc at sleeps ⊢
  rw [others_thread, if_neg alive]
  split
  · unfold wakeChild
    split
    · next asleep =>
      rw [asleep] at sleeps
      exact sleeps.elim
    · exact sleeps
  · split
    · unfold announce
      split <;> exact sleeps
    · exact sleeps

/-- A step of one thread that exists. -/
theorem WellKept.update (kept : WellKept s) (known : me < s.threadIndex)
    (present : result.2.pc ≠ .absent)
    (mine : result.1.status me = .condWaiting → result.2.pc.InCondWait)
    (others : ∀ thread ≠ me, result.1.status thread = .condWaiting →
      s.determ.status thread = .condWaiting) : WellKept (s.update me result) := by
  constructor
  · intro thread unknown
    have different : thread ≠ me := fun here => absurd known (not_lt.mpr (here ▸ unknown))
    show Function.update s.thread me result.2 thread = _
    rw [Function.update_of_ne different]
    exact kept.fresh thread unknown
  · intro thread below
    rw [update_pc]
    by_cases here : thread = me
    · subst here
      rwa [Function.update_self]
    · rw [Function.update_of_ne here]
      exact kept.present thread below
  · intro thread below sleeps
    rw [update_pc]
    by_cases here : thread = me
    · subst here
      rw [Function.update_self]
      exact mine sleeps
    · rw [Function.update_of_ne here]
      exact kept.asleep thread below (others thread here sleeps)

/-- A thread that is not in that wait goes on. -/
theorem WellKept.updateAwake (kept : WellKept s) {at_ : Pc} (here : s.pc me = at_)
    (old : at_ ≠ .absent) (awake : ¬at_.InCondWait) (present : result.2.pc ≠ .absent)
    (asleep : ∀ thread, result.1.status thread = .condWaiting →
      s.determ.status thread = .condWaiting) : WellKept (s.update me result) := by
  have known : me < s.threadIndex := kept.known (here ▸ old)
  refine kept.update known present (fun sleeps => ?_) fun thread _ => asleep thread
  exact absurd (here ▸ kept.asleep me known (asleep me sleeps)) awake

theorem Pc.Outside.present {at_ : Pc} (outside : at_.Outside) : at_ ≠ .absent := by
  rintro rfl
  exact outside

/-- No step makes a thread absent. -/
theorem exec_present {d : Determ} {t : Thread} (moved : exec d t me = some result) :
    result.2.pc ≠ .absent := by
  by_cases steady : t.pc.Steady t.fenceEnabled
  · exact (exec_steady moved steady).2.present
  · unfold exec at moved
    cases at_ : t.pc <;> rw [at_] at moved steady
    case registered | startFence =>
      obtain rfl := Option.some.inj moved
      simp [Thread.goto]
    case waitChildRegistered =>
      simp only at moved
      split at moved
      · obtain rfl := Option.some.inj moved
        simp [Thread.goto]
      · obtain rfl := Option.some.inj moved
        simp [Thread.goto]
    case parentSleeping =>
      simp only [Option.ite_none_right_eq_some, Option.some.injEq] at moved
      obtain ⟨-, rfl⟩ := moved
      simp [Thread.goto]
    case work work =>
      obtain rfl := Option.some.inj (Option.ite_none_left_eq_some.mp moved).2
      cases work with
      | spawn => simp [perform]
      | join guest =>
        have off : ¬t.fenceEnabled = true := steady
        simp only [perform, if_neg off]
        simp
      | _ => exact absurd trivial steady
    all_goals exact absurd trivial steady

/-- A child that waits for its parent takes no step of its own. -/
theorem exec_awake {d : Determ} {t : Thread} (moved : exec d t me = some result) :
    match t.pc with
    | .absent | .waitParentNotify => False
    | _ => True := by
  cases at_ : t.pc with
  | absent | waitParentNotify =>
    simp only [exec, at_] at moved
    cases moved
  | _ => trivial

theorem exec_known {d : Determ} {t : Thread} (moved : exec d t me = some result) :
    t.pc ≠ .absent := by
  intro absent
  simp only [exec, absent] at moved
  cases moved

/-- The section of `cancel`. -/
theorem exec_cancel {d : Determ} {t : Thread} {target : ℕ} (moved : exec d t me = some result)
    (cancels : t.pc.Cancels target) (other : target ≠ me) : result.1 = d.cancel target := by
  have at_ : t.pc = .work (.cancel target) := cancels
  simp only [exec, at_, Option.ite_none_left_eq_some, Option.some.injEq, perform,
    if_neg other] at moved
  rw [← moved.2]

theorem WellKept.step (kept : WellKept s) (targets : Targets s) {label : Label}
    (stepped : Xrun.step s label = some s') : WellKept s' := by
  have move := move_of_step stepped
  cases label with
  | call me c =>
    obtain ⟨⟨user, -⟩, move⟩ := Option.ite_none_right_eq_some.mp move
    obtain ⟨result, called, rfl⟩ := Option.map_eq_some_iff.mp move
    have here : s.pc me = .user := user
    have known : me < s.threadIndex := kept.known (by rw [here]; simp)
    -- a thread that sleeps is inside cond_wait, and so not in the hands of the user
    have awake : s.determ.status me ≠ .condWaiting := by
      intro sleeps
      have inWait := kept.asleep me known sleeps
      rw [here] at inWait
      exact inWait
    obtain ⟨-, -, asleep⟩ := call_asleep called
    refine kept.update known (call_outside user called).present (fun sleeps => ?_)
      fun thread different sleeps => ?_
    · rcases asleep me sleeps with slept | ⟨-, inWait⟩
      · exact absurd slept awake
      · exact inWait
    · rcases asleep thread sleeps with slept | ⟨here, -⟩
      · exact slept
      · exact absurd here different
  | exec me =>
    obtain ⟨result, executed, rfl⟩ := Option.map_eq_some_iff.mp move
    have known : me < s.threadIndex := kept.known (exec_known executed)
    have mine : ((s.others me).update me result).thread me = result.2 := Function.update_self ..
    have theirs : ∀ thread ≠ me, ((s.others me).update me result).thread thread =
        (s.others me).thread thread := fun thread different => Function.update_of_ne different ..
    constructor
    · -- no step is about a thread that does not exist, as all targets are known
      intro thread unknown
      have old : s.threadIndex ≤ thread := others_threadIndex s me ▸ unknown
      have different : thread ≠ me := fun here => absurd known (not_lt.mpr (here ▸ old))
      show ((s.others me).update me result).thread thread = _
      rw [theirs thread different]
      refine others_absent (kept.fresh thread old) fun cancels => ?_
      have aimed : thread < s.threadIndex := targets me thread (by rw [cancels]; rfl)
      exact absurd aimed (not_lt.mpr old)
    · -- the step may kill or wake others, but it makes nobody absent
      intro thread below
      have old : thread < s.threadIndex := others_threadIndex s me ▸ below
      show (((s.others me).update me result).thread thread).pc ≠ .absent
      by_cases here : thread = me
      · subst here
        rw [mine]
        exact exec_present executed
      · rw [theirs thread here]
        exact others_present (kept.present thread old)
    · -- who sleeps after the step slept before it, and a cancel that ends the sleep shows
      intro thread below sleeps
      have old : thread < s.threadIndex := others_threadIndex s me ▸ below
      show (((s.others me).update me result).thread thread).pc.InCondWait
      have slept := (exec_unrelated executed).asleep thread sleeps
      by_cases here : thread = me
      · subst here
        rw [mine]
        exact exec_asleep executed (kept.asleep thread known) sleeps
      · rw [theirs thread here]
        refine others_inCondWait (kept.asleep thread old slept) fun cancels => ?_
        exact cancel_status s.determ thread (exec_cancel executed cancels here ▸ sleeps)
  | childRegister parent =>
    obtain ⟨-, rfl⟩ := guarded move
    constructor
    · -- the child takes the first number that is free
      intro thread unknown
      have different : thread ≠ s.threadIndex := (Nat.lt_of_succ_le unknown).ne'
      show Function.update s.thread _ _ thread = _
      rw [Function.update_of_ne different]
      exact kept.fresh thread (Nat.le_of_succ_le unknown)
    · -- its record is a copy of the one of its parent, which is awake
      intro thread below
      show (Function.update s.thread _ _ thread).pc ≠ .absent
      by_cases here : thread = s.threadIndex
      · rw [here, Function.update_self]
        simp [childRecord]
      · rw [Function.update_of_ne here]
        exact kept.present thread (Nat.lt_of_le_of_ne (Nat.le_of_lt_succ below) here)
    · intro thread below sleeps
      show (Function.update s.thread _ _ thread).pc.InCondWait
      change (Function.update s.determ.entries _ _ thread).status = _ at sleeps
      by_cases here : thread = s.threadIndex
      · rw [here, Function.update_self] at sleeps
        cases sleeps
      · rw [Function.update_of_ne here] at sleeps ⊢
        exact kept.asleep thread (Nat.lt_of_le_of_ne (Nat.le_of_lt_succ below) here) sleeps
  | cloneFails me =>
    obtain ⟨at_, rfl⟩ := guarded move
    exact kept.updateAwake at_ (by simp) id (by simp [Thread.goto]) fun _ => id
  | spuriousReturn me =>
    simp only [Xrun.move] at move
    split at move
    · next at_ =>
      obtain rfl := Option.some.inj move
      exact kept.updateAwake at_ (by simp) id (by simp [Thread.goto]) fun _ => id
    · next at_ =>
      obtain rfl := Option.some.inj move
      exact kept.updateAwake at_ (by simp) id (by simp [Thread.goto]) fun _ => id
    · cases move
  | sigwaitReturns me =>
    obtain ⟨at_, rfl⟩ := guarded move
    exact kept.updateAwake at_ (by simp) id (by simp [Thread.goto])
      calm_sigWaitWoken.toUnrelated.asleep
  | sigwaitFails me =>
    obtain ⟨at_, rfl⟩ := guarded move
    exact kept.updateAwake at_ (by simp) id (by simp [Thread.goto]) fun _ => id

theorem start_wellKept (cores : ℕ) (counts : ℕ → ℕ) : WellKept (start cores counts) := by
  constructor
  · intro thread unknown
    have different : thread ≠ 0 := Nat.one_le_iff_ne_zero.mp unknown
    show Function.update (fun _ => absentThread) 0 _ thread = _
    rw [Function.update_of_ne different]
  · intro thread below
    obtain rfl : thread = 0 := Nat.lt_one_iff.mp below
    nofun
  · intro thread below sleeps
    obtain rfl : thread = 0 := Nat.lt_one_iff.mp below
    cases sleeps

theorem wellKept_of_reachable {Ok : State → Label → Prop} (reach : system.Reachable Ok s) :
    WellKept s := by
  induction reach with
  | init initial =>
    obtain ⟨cores, counts, -, rfl⟩ := initial
    exact start_wellKept cores counts
  | step label prior _ move ih => exact ih.step (targets_of_reachable prior) move

/-! ## The handshake -/

/-- The parent waits for its child. -/
def Pc.AwaitsChild : Pc → Prop
  | .waitChildRegistered | .parentSleeping => True
  | _ => False

/-- The child waits for its parent, or is about to. -/
def Pc.AwaitsParent : Pc → Prop
  | .registered | .waitParentNotify => True
  | _ => False

/-- The thread has got into the program. -/
def Pc.Began (at_ : Pc) : Prop := at_ ≠ .absent ∧ ¬at_.AwaitsParent

instance : DecidablePred Pc.AwaitsChild := fun at_ => by
  unfold Pc.AwaitsChild
  split <;> infer_instance

instance : DecidablePred Pc.AwaitsParent := fun at_ => by
  unfold Pc.AwaitsParent
  split <;> infer_instance

theorem Pc.Outside.apart {at_ : Pc} (outside : at_.Outside) :
    ¬at_.AwaitsChild ∧ ¬at_.AwaitsParent ∧ ¬at_.Notifies = true := by
  cases at_ <;> first | exact outside.elim | exact ⟨id, id, nofun⟩

def State.killed (s : State) (thread : ℕ) : Bool := (s.thread thread).killed

def State.tidParent (s : State) (thread : ℕ) : ℕ := (s.determ.entries thread).tidParent

/-- A parent whose child has not registered still waits for it, a thread that has got into the
program was counted by its parent, and a child that waits after that has a parent that is about
to wake it. A killed thread does nothing. -/
structure Handshake (s : State) : Prop where
  registered : ∀ parent ∈ s.forks, s.killed parent = false → (s.pc parent).AwaitsChild
  counted : ∀ child, s.killed child = false → (s.pc child).Began → s.announced child = true
  notified : ∀ child, (s.pc child).AwaitsParent → s.announced child = true →
    s.killed (s.tidParent child) = false → (s.pc (s.tidParent child)).Notifies = true

/-- No child is cloned and not registered, or registered and not waiting, and no parent still has
to notice that its child waits. -/
structure NobodyComes (s : State) : Prop where
  forks : s.forks = []
  registered : ∀ child < s.threadIndex, s.pc child ≠ .registered
  flag : s.determ.childregistered = false

/-- A wait ends once what it waits for has happened, `clone` is called when no other child is on
its way, and a parent wakes children that are its own or counted. -/
def KeepsHandshake (s : State) : Label → Prop
  | .exec me =>
      (s.pc me = .work .spawn → NobodyComes s) ∧
        ((s.pc me).Notifies = true → ∀ child < s.threadIndex, s.pc child = .waitParentNotify →
          s.announced child = true ∨ s.tidParent child = me)
  | .spuriousReturn me =>
      (s.pc me = .parentSleeping → s.determ.childregistered = true) ∧
        (s.pc me = .waitParentNotify → s.announced me = true)
  | _ => True

instance (s : State) : Decidable (NobodyComes s) :=
  decidable_of_iff (s.forks = [] ∧ (∀ child < s.threadIndex, s.pc child ≠ .registered) ∧
    s.determ.childregistered = false)
    ⟨fun ⟨forks, registered, flag⟩ => ⟨forks, registered, flag⟩,
      fun ⟨forks, registered, flag⟩ => ⟨forks, registered, flag⟩⟩

instance (s : State) : DecidablePred (KeepsHandshake s) := fun label => by
  induction label using Label.casesOn <;> dsimp only [KeepsHandshake] <;> infer_instance

/-! ## How far the child on its way is -/

inductive Stage
  | nobody
  | cloned (parent : ℕ)
  | registered (parent child : ℕ)
  | waiting (parent : ℕ)

def Stage.parent : Stage → Option ℕ
  | .nobody => none
  | .cloned parent | .registered parent _ | .waiting parent => some parent

def Stage.forks : Stage → List ℕ
  | .cloned parent => [parent]
  | _ => []

def Stage.child : Stage → Option ℕ
  | .registered _ child => some child
  | _ => none

def Stage.flag : Stage → Bool
  | .waiting _ => true
  | _ => false

/-- The shared flag, the position of the parent and that of the child go together. -/
structure HandshakeInv (s : State) (stage : Stage) : Prop where
  forks : s.forks = stage.forks
  child : ∀ thread, s.pc thread = .registered ↔ stage.child = some thread
  flag : s.determ.childregistered = stage.flag
  creator : ∀ child, stage.child = some child →
    stage.parent = some (s.tidParent child) ∧ s.announced child = false
  parent : ∀ parent, s.killed parent = false →
    ((s.pc parent).AwaitsChild ↔ stage.parent = some parent)
  counted : ∀ child, s.killed child = false → (s.pc child).Began → s.announced child = true
  notified : ∀ child, s.pc child = .waitParentNotify → s.killed (s.tidParent child) = false →
    (s.announced child = true ↔ (s.pc (s.tidParent child)).Notifies = true)

variable {stage : Stage}

theorem HandshakeInv.handshake (inv : HandshakeInv s stage) : Handshake s := by
  refine ⟨fun parent forked alive => ?_, inv.counted, fun child waits known alive => ?_⟩
  · rw [inv.forks] at forked
    apply (inv.parent parent alive).mpr
    cases stage with
    | cloned other => rw [List.mem_singleton.mp forked]; rfl
    | nobody | registered | waiting => cases forked
  · cases at_ : s.pc child with
    | registered =>
      -- it has not been counted: its parent still waits for it
      obtain ⟨-, unknown⟩ := inv.creator child ((inv.child child).mp at_)
      rw [unknown] at known
      cases known
    | waitParentNotify => exact (inv.notified child at_ alive).mp known
    | _ =>
      rw [at_] at waits
      exact waits.elim

/-- Two positions have the same part in the handshake. -/
structure Pc.SameRole (old new : Pc) : Prop where
  registered : new = .registered ↔ old = .registered
  waiting : new = .waitParentNotify ↔ old = .waitParentNotify
  awaits : new.AwaitsChild ↔ old.AwaitsChild
  notifies : new.Notifies = true ↔ old.Notifies = true
  began : new.Began → old.Began

theorem Pc.SameRole.refl (at_ : Pc) : at_.SameRole at_ := ⟨.rfl, .rfl, .rfl, .rfl, id⟩

theorem Pc.SameRole.outside {old new : Pc} (before : old.Outside) (after : new.Outside) :
    old.SameRole new := by
  constructor
  · exact iff_of_false (by rintro rfl; exact after) (by rintro rfl; exact before)
  · exact iff_of_false (by rintro rfl; exact after) (by rintro rfl; exact before)
  · exact iff_of_false after.apart.1 before.apart.1
  · exact iff_of_false after.apart.2.2 before.apart.2.2
  · exact fun _ => ⟨before.present, before.apart.2.1⟩

/-- A thread keeps its part in the handshake. -/
structure Thread.Passes (t t' : Thread) : Prop where
  announced : t'.announced = t.announced
  killed : t'.killed = false → t.killed = false
  role : t.pc.SameRole t'.pc

theorem Thread.Passes.refl (t : Thread) : t.Passes t := ⟨rfl, id, .refl _⟩

theorem HandshakeInv.passes (inv : HandshakeInv s stage)
    (threads : ∀ thread, (s.thread thread).Passes (s'.thread thread)) (forks : s'.forks = s.forks)
    (flag : s'.determ.childregistered = s.determ.childregistered)
    (tidParent : ∀ thread, s'.tidParent thread = s.tidParent thread) : HandshakeInv s' stage := by
  have announced : ∀ thread, s'.announced thread = s.announced thread := fun thread =>
    (threads thread).announced
  have alive : ∀ thread, s'.killed thread = false → s.killed thread = false := fun thread =>
    (threads thread).killed
  have role : ∀ thread, (s.pc thread).SameRole (s'.pc thread) := fun thread => (threads thread).role
  constructor
  · rw [forks]
    exact inv.forks
  · exact fun thread => (role thread).registered.trans (inv.child thread)
  · rw [flag]
    exact inv.flag
  · intro child there
    rw [announced, tidParent]
    exact inv.creator child there
  · exact fun parent unharmed =>
      (role parent).awaits.trans (inv.parent parent (alive parent unharmed))
  · intro child unharmed began
    rw [announced]
    exact inv.counted child (alive child unharmed) ((role child).began began)
  · intro child waits unharmed
    rw [tidParent] at unharmed ⊢
    rw [announced, (role _).notifies]
    exact inv.notified child ((role child).waiting.mp waits) (alive _ unharmed)

/-! ## Its steps -/

/-- A thread that takes part in the handshake takes a step that no other thread sees. -/
theorem others_eq (noNotify : (s.pc me).Notifies = false)
    (noStart : (s.pc me).StartsFence (s.thread me).fenceEnabled = false)
    (noCancel : ∀ target, ¬(s.pc me).Cancels target) : s.others me = s := by
  have same : ∀ thread, (s.others me).thread thread = s.thread thread := by
    intro thread
    have quiet : ¬(s.thread me).pc.Notifies = true := Bool.eq_false_iff.mp noNotify
    have idle : ¬(s.thread me).pc.StartsFence (s.thread me).fenceEnabled = true :=
      Bool.eq_false_iff.mp noStart
    have alive : ¬(s.thread me).pc.Cancels thread := noCancel thread
    rw [others_thread, if_neg quiet, if_neg idle, if_neg alive]
  have forks : (s.others me).forks = s.forks ∧ (s.others me).determ = s.determ := by
    simp only [State.others]
    split
    · exact ⟨rfl, rfl⟩
    · split <;> exact ⟨rfl, rfl⟩
  have index := others_threadIndex s me
  have thread : (s.others me).thread = s.thread := funext same
  cases result : s.others me
  rw [result] at forks index thread
  obtain ⟨rfl, rfl⟩ := forks
  subst index thread
  rfl

/-- One thread goes on to a position of the handshake. -/
structure Goes (s s' : State) (me : ℕ) (new : Pc) : Prop where
  pc : s'.pc = Function.update s.pc me new
  announced : s'.announced = s.announced
  killed : s'.killed = s.killed
  tidParent : s'.tidParent = s.tidParent

theorem goes_update {new : Pc} (unrelated : result.1.entries = s.determ.entries)
    (thread : result.2.pc = new ∧ result.2.announced = s.announced me ∧
      result.2.killed = s.killed me) (forks : List ℕ) :
    Goes s { s.update me result with forks } me new := by
  constructor
  · rw [← thread.1]
    exact update_pc
  · exact update_announced_same thread.2.1
  · funext other
    show (Function.update s.thread me result.2 other).killed = _
    by_cases here : other = me
    · subst here
      rw [Function.update_self]
      exact thread.2.2
    · rw [Function.update_of_ne here]
      rfl
  · funext other
    show (result.1.entries other).tidParent = (s.determ.entries other).tidParent
    rw [unrelated]

theorem update_ne_registered (new : Pc) (different : new ≠ .registered)
    (gone : ∀ thread ≠ me, s.pc thread ≠ .registered) (thread : ℕ) :
    Function.update s.pc me new thread ≠ .registered := by
  by_cases here : thread = me
  · subst here
    rwa [Function.update_self]
  · rw [Function.update_of_ne here]
    exact gone thread here

/-- A step of one thread, to the next stage. -/
theorem HandshakeInv.goes (inv : HandshakeInv s stage) {new : Pc} (goes : Goes s s' me new)
    {stage' : Stage} (forks : s'.forks = stage'.forks)
    (flag : s'.determ.childregistered = stage'.flag)
    (registered : ∀ thread, Function.update s.pc me new thread = .registered ↔
      stage'.child = some thread)
    (creator : ∀ child, stage'.child = some child →
      stage'.parent = some (s.tidParent child) ∧ s.announced child = false)
    (silent : (s.pc me).Notifies = false)
    (parent : new.AwaitsChild ↔ stage'.parent = some me)
    (others : ∀ other ≠ me, stage'.parent = some other ↔ stage.parent = some other)
    (mine : new = .user ∧ s.announced me = true ∨ new = .waitChildRegistered ∧
      s.announced me = true ∨
      new = .waitParentNotify ∧ s.announced me = false ∧
        (s.killed (s.tidParent me) = false → (s.pc (s.tidParent me)).AwaitsChild)) :
    HandshakeInv s' stage' := by
  have quiet : ¬new.Notifies = true := by
    rcases mine with ⟨rfl, -⟩ | ⟨rfl, -⟩ | ⟨rfl, -⟩ <;> nofun
  have notifies : ∀ thread, (s'.pc thread).Notifies = true ↔ (s.pc thread).Notifies = true := by
    intro thread
    rw [goes.pc]
    by_cases here : thread = me
    · subst here
      rw [Function.update_self, silent]
      exact iff_of_false quiet nofun
    · rw [Function.update_of_ne here]
  constructor
  · exact forks
  · rw [goes.pc]
    exact registered
  · exact flag
  · rw [goes.tidParent, goes.announced]
    exact creator
  · intro other alive
    rw [goes.killed] at alive
    rw [goes.pc]
    by_cases here : other = me
    · subst here
      rw [Function.update_self]
      exact parent
    · rw [Function.update_of_ne here, others other here]
      exact inv.parent other alive
  · intro child alive began
    rw [goes.killed] at alive
    rw [goes.announced]
    rw [goes.pc] at began
    by_cases here : child = me
    · subst here
      rw [Function.update_self] at began
      rcases mine with ⟨-, known⟩ | ⟨-, known⟩ | ⟨rfl, -⟩
      · exact known
      · exact known
      · exact absurd trivial began.2
    · rw [Function.update_of_ne here] at began
      exact inv.counted child alive began
  · intro child waits alive
    rw [goes.tidParent, goes.killed] at alive
    rw [goes.announced, goes.tidParent, notifies]
    rw [goes.pc] at waits
    by_cases here : child = me
    · subst here
      rw [Function.update_self] at waits
      rcases mine with ⟨rfl, -⟩ | ⟨rfl, -⟩ | ⟨-, unknown, awaits⟩
      · cases waits
      · cases waits
      · -- the parent still waits, so it has not started the fence
        rw [unknown]
        refine iff_of_false nofun fun wakes => ?_
        have still := awaits alive
        cases at_ : s.pc (s.tidParent child) <;> rw [at_] at still wakes <;>
          first | exact still.elim | cases wakes
    · rw [Function.update_of_ne here] at waits
      exact inv.notified child waits alive

/-- The parent that waits is the one whose child is on its way. -/
theorem HandshakeInv.parent_eq (inv : HandshakeInv s stage) (alive : s.killed me = false)
    (awaits : (s.pc me).AwaitsChild) : stage.parent = some me := (inv.parent me alive).mp awaits

/-- No child is on its way if the flag is up. -/
theorem HandshakeInv.waits_of_flag (inv : HandshakeInv s stage)
    (flag : s.determ.childregistered = true) : ∃ parent, stage = .waiting parent := by
  rw [inv.flag] at flag
  cases stage with
  | waiting parent => exact ⟨parent, rfl⟩
  | _ => cases flag

/-- The parent notices that its child waits. -/
theorem HandshakeInv.notices (inv : HandshakeInv s stage) (alive : s.killed me = false)
    (awaits : (s.pc me).AwaitsChild) (flag : s.determ.childregistered = true) :
    HandshakeInv { s.update me ({ s.determ with childregistered := false },
      (s.thread me).goto .user) with forks := s.forks } .nobody := by
  obtain ⟨parent, rfl⟩ := inv.waits_of_flag flag
  obtain rfl := Option.some.inj (inv.parent_eq alive awaits)
  have known : s.announced parent = true := by
    refine inv.counted parent alive ?_
    constructor <;> intro there
    · rw [there] at awaits
      exact awaits
    · cases at_ : s.pc parent <;> rw [at_] at awaits there <;> first | exact awaits | exact there
  have silent : (s.pc parent).Notifies = false := by
    cases at_ : s.pc parent <;> rw [at_] at awaits <;> first | exact awaits.elim | rfl
  have nobody : ∀ thread, s.pc thread ≠ .registered := fun thread there =>
    nomatch (inv.child thread).mp there
  refine inv.goes (goes_update rfl ⟨rfl, rfl, rfl⟩ s.forks) inv.forks rfl ?_ nofun silent
    (iff_of_false id nofun) (fun other different => ?_) (.inl ⟨rfl, known⟩)
  · exact fun thread => iff_of_false
      (update_ne_registered .user nofun (fun thread _ => nobody thread) thread) nofun
  · exact iff_of_false nofun fun same => different (Option.some.inj same).symm

/-- The parent finds the flag down. -/
theorem HandshakeInv.sleeps (inv : HandshakeInv s stage) (at_ : s.pc me = .waitChildRegistered) :
    HandshakeInv { s.update me (s.determ, (s.thread me).goto .parentSleeping) with
      forks := s.forks } stage := by
  refine inv.passes (fun other => ?_) rfl rfl fun _ => rfl
  show (s.thread other).Passes (Function.update s.thread me _ other)
  by_cases here : other = me
  · subst here
    rw [Function.update_self]
    refine ⟨rfl, id, ?_⟩
    show (s.pc other).SameRole _
    rw [at_]
    exact ⟨iff_of_false nofun nofun, iff_of_false nofun nofun, .rfl, .rfl, fun _ => ⟨nofun, id⟩⟩
  · rw [Function.update_of_ne here]
    exact .refl _

/-- The child waits for its parent. -/
theorem HandshakeInv.registers (inv : HandshakeInv s stage) (alive : s.killed me = false)
    (at_ : s.pc me = .registered) :
    HandshakeInv { s.update me ({ s.determ with childregistered := true },
      (s.thread me).goto .waitParentNotify) with forks := s.forks }
      (.waiting (s.tidParent me)) := by
  have there := (inv.child me).mp at_
  obtain ⟨parent, unknown⟩ := inv.creator me there
  have forks : s.forks = [] := by
    rw [inv.forks]
    cases stage with
    | registered => rfl
    | _ => cases there
  have gone : ∀ thread ≠ me, s.pc thread ≠ .registered := by
    intro thread different other
    have both := there.symm.trans ((inv.child thread).mp other)
    exact different (Option.some.inj both).symm
  refine inv.goes (goes_update rfl ⟨rfl, rfl, rfl⟩ s.forks) forks rfl ?_ nofun (by rw [at_]; rfl)
    ?_ ?_ (.inr (.inr ⟨rfl, unknown, fun alive => (inv.parent _ alive).mpr parent⟩))
  · exact fun thread => iff_of_false
      (update_ne_registered .waitParentNotify nofun gone thread) nofun
  · refine iff_of_false id fun self => ?_
    have awaits := (inv.parent me alive).mpr (parent.trans self)
    rw [at_] at awaits
    exact awaits
  · intro other _
    rw [parent]
    rfl

/-- A child that is counted wakes up by itself. -/
theorem HandshakeInv.returns (inv : HandshakeInv s stage) (alive : s.killed me = false)
    (at_ : s.pc me = .waitParentNotify) (known : s.announced me = true) :
    HandshakeInv { s.update me (s.determ, (s.thread me).goto .user) with
      forks := s.forks } stage := by
  have noParent : ¬stage.parent = some me := by
    intro same
    have awaits := (inv.parent me alive).mpr same
    rw [at_] at awaits
    exact awaits
  refine inv.goes (goes_update rfl ⟨rfl, rfl, rfl⟩ s.forks) inv.forks inv.flag (fun thread => ?_)
    inv.creator (by rw [at_]; rfl) (iff_of_false id noParent) (fun _ _ => .rfl) (.inl ⟨rfl, known⟩)
  rw [← inv.child]
  by_cases here : thread = me
  · subst here
    rw [Function.update_self, at_]
    exact iff_of_false nofun nofun
  · rw [Function.update_of_ne here]

/-- The parent clones a child. -/
theorem HandshakeInv.clones (inv : HandshakeInv s stage) (kept : WellKept s)
    (nobody : NobodyComes s) (alive : s.killed me = false) (at_ : s.pc me = .work .spawn)
    {t : Thread}
    (thread : t.pc = .waitChildRegistered ∧ t.announced = s.announced me ∧ t.killed = s.killed me) :
    HandshakeInv { s.update me (s.determ, t) with forks := me :: s.forks } (.cloned me) := by
  have idle : stage = .nobody := by
    cases stage with
    | nobody => rfl
    | cloned parent => cases nobody.forks.symm.trans inv.forks
    | registered parent child =>
      have there := (inv.child child).mpr rfl
      have known : child < s.threadIndex := kept.known (by rw [there]; nofun)
      exact absurd there (nobody.registered child known)
    | waiting parent => cases nobody.flag.symm.trans inv.flag
  subst idle
  have known : s.announced me = true := by
    refine inv.counted me alive ?_
    rw [at_]
    exact ⟨nofun, id⟩
  have none_registered : ∀ thread, s.pc thread ≠ .registered := fun thread there =>
    nomatch (inv.child thread).mp there
  refine inv.goes (goes_update rfl thread _) ?_ inv.flag ?_ nofun (by rw [at_]; rfl)
    ?_ (fun other different => ?_) (.inr (.inl ⟨rfl, known⟩))
  · show me :: s.forks = [me]
    rw [nobody.forks]
  · exact fun thread => iff_of_false
      (update_ne_registered .waitChildRegistered nofun
        (fun thread _ => none_registered thread) thread) nofun
  · exact iff_of_true trivial rfl
  · exact iff_of_false (fun same => different (Option.some.inj same).symm) nofun

/-- Only a cancelled thread is killed. -/
theorem others_killed (target : ¬(s.pc me).Cancels thread) :
    (s.others me).killed thread = s.killed thread := by
  have alive : ¬(s.thread me).pc.Cancels thread := target
  unfold State.killed
  rw [others_thread, if_neg alive]
  split
  · unfold wakeChild
    split <;> rfl
  · split
    · unfold announce
      split <;> rfl
    · rfl

theorem Pc.StartsFence.apart {at_ : Pc} {fenceEnabled : Bool}
    (starts : at_.StartsFence fenceEnabled = true) :
    at_.Notifies = false ∧ ¬at_.AwaitsChild ∧ ¬at_.AwaitsParent ∧
      (∀ target, ¬at_.Cancels target) := by
  cases at_ with
  | startFence work => exact ⟨rfl, id, id, nofun⟩
  | work work =>
    cases work with
    | join guest => exact ⟨rfl, id, id, nofun⟩
    | _ => cases starts
  | _ => cases starts

theorem Pc.Notifies.apart {at_ : Pc} (notifies : at_.Notifies = true) :
    at_ ≠ .absent ∧ ¬at_.AwaitsChild ∧ ¬at_.AwaitsParent ∧ (∀ target, ¬at_.Cancels target) := by
  cases at_ with
  | notify | joinEnter => exact ⟨nofun, id, id, nofun⟩
  | _ => cases notifies

/-- The children of the caller are counted. -/
theorem HandshakeInv.starts (inv : HandshakeInv s stage) (alive : s.killed me = false)
    (starts : (s.pc me).StartsFence (s.thread me).fenceEnabled = true) {threads : ℕ} {t : Thread}
    (notifies : t.pc.Notifies = true)
    (thread : t.announced = s.announced me ∧ t.killed = s.killed me) :
    HandshakeInv { (s.others me).update me (s.determ.startFence threads, t) with
      forks := s.forks } stage := by
  obtain ⟨quiet, noWait, noChild, noCancel⟩ := Pc.StartsFence.apart starts
  obtain ⟨present, noWait', noChild', -⟩ := Pc.Notifies.apart notifies
  let s' : State :=
    { (s.others me).update me (s.determ.startFence threads, t) with forks := s.forks }
  have mine : s'.thread me = t := Function.update_self ..
  have theirs : ∀ other ≠ me, s'.thread other = (s.others me).thread other :=
    fun other different => Function.update_of_ne different ..
  have pc : ∀ other ≠ me, s'.pc other = s.pc other := by
    intro other different
    unfold State.pc
    rw [theirs other different]
    exact (others_announced_start quiet starts other).2
  have killed : ∀ other, s'.killed other = s.killed other := by
    intro other
    by_cases here : other = me
    · subst here
      unfold State.killed
      rw [mine]
      exact thread.2
    · unfold State.killed
      rw [theirs other here]
      exact others_killed (noCancel other)
  have announced : ∀ other ≠ me, s'.announced other = true ↔ s.announced other = true ∨
      Unannounced s.determ s.pc s.announced me other := by
    intro other different
    unfold State.announced
    rw [theirs other different]
    exact (others_announced_start quiet starts other).1
  show HandshakeInv s' stage
  constructor
  · exact inv.forks
  · intro other
    by_cases here : other = me
    · subst here
      rw [← inv.child]
      refine iff_of_false (fun there => ?_) fun there => noChild (by rw [there]; trivial)
      unfold State.pc at there
      rw [mine] at there
      exact noChild' (by rw [there]; trivial)
    · rw [pc other here]
      exact inv.child other
  · exact inv.flag
  · intro child there
    obtain ⟨parent, unknown⟩ := inv.creator child there
    refine ⟨parent, Bool.eq_false_iff.mpr fun known => ?_⟩
    have different : child ≠ me := by
      rintro rfl
      exact noChild (by rw [(inv.child child).mpr there]; trivial)
    -- the parent of the child on its way waits for it, and cannot be the caller
    rcases (announced child different).mp known with old | ⟨-, own, -⟩
    · rw [unknown] at old
      cases old
    · have caller : stage.parent = some me := parent.trans (congrArg some own)
      exact noWait ((inv.parent me alive).mpr caller)
  · intro parent unharmed
    rw [killed] at unharmed
    rw [← inv.parent parent unharmed]
    by_cases here : parent = me
    · subst here
      unfold State.pc at noWait ⊢
      rw [mine]
      exact iff_of_false noWait' noWait
    · rw [pc parent here]
  · intro child unharmed began
    rw [killed] at unharmed
    by_cases here : child = me
    · subst here
      show (s'.thread child).announced = true
      rw [mine, thread.1]
      refine inv.counted child alive ⟨?_, noChild⟩
      rintro absent
      rw [absent] at starts
      cases starts
    · rw [pc child here] at began
      exact (announced child here).mpr (.inl (inv.counted child unharmed began))
  · intro child waits unharmed
    have different : child ≠ me := by
      rintro rfl
      unfold State.pc at waits
      rw [mine] at waits
      exact noChild' (by rw [waits]; trivial)
    rw [pc child different] at waits
    change s'.killed (s.tidParent child) = false at unharmed
    rw [killed] at unharmed
    show s'.announced child = true ↔ (s'.pc (s.tidParent child)).Notifies = true
    have before := inv.notified child waits unharmed
    rw [announced child different]
    by_cases own : s.tidParent child = me
    · have wakes : (s'.pc (s.tidParent child)).Notifies = true := by
        unfold State.pc
        rw [own, mine]
        exact notifies
      refine iff_of_true ?_ wakes
      by_cases known : s.announced child = true
      · exact .inl known
      · exact .inr ⟨Bool.eq_false_iff.mpr known, own, by rw [waits]; nofun⟩
    · rw [pc _ own, ← before]
      exact ⟨fun either => either.elim id fun unknown => absurd unknown.2.1 own, .inl⟩

/-- The children that wait are woken. -/
theorem HandshakeInv.wakes (inv : HandshakeInv s stage) (kept : WellKept s)
    (alive : s.killed me = false) (notifies : (s.pc me).Notifies = true)
    (own : ∀ child < s.threadIndex, s.pc child = .waitParentNotify →
      s.announced child = true ∨ s.tidParent child = me)
    (unrelated : Unrelated s.determ result.1) (outside : result.2.pc.Outside)
    (thread : result.2.announced = s.announced me ∧ result.2.killed = s.killed me) :
    HandshakeInv { (s.others me).update me result with forks := s.forks } stage := by
  obtain ⟨present, noWait, noChild, noCancel⟩ := Pc.Notifies.apart notifies
  let s' : State := { (s.others me).update me result with forks := s.forks }
  have mine : s'.thread me = result.2 := Function.update_self ..
  have theirs : ∀ other ≠ me, s'.thread other = wakeChild (s.thread other) := by
    intro other different
    have woken : (s.others me).thread other = wakeChild (s.thread other) := by
      rw [others_thread]
      exact if_pos notifies
    exact (Function.update_of_ne different ..).trans woken
  have killed : ∀ other, s'.killed other = s.killed other := by
    intro other
    unfold State.killed
    by_cases here : other = me
    · subst here
      rw [mine]
      exact thread.2
    · rw [theirs other here]
      unfold wakeChild
      split <;> rfl
  have announced : ∀ other, s'.announced other = s.announced other := by
    intro other
    unfold State.announced
    by_cases here : other = me
    · subst here
      rw [mine]
      exact thread.1
    · rw [theirs other here]
      unfold wakeChild
      split <;> rfl
  have asleep : ∀ child, s.pc child = .waitParentNotify → s.announced child = true := by
    intro child waits
    have known : child < s.threadIndex := kept.known (by rw [waits]; nofun)
    rcases own child known waits with counted | mine
    · exact counted
    · exact (inv.notified child waits (mine ▸ alive)).mpr (mine ▸ notifies)
  have pc : ∀ other ≠ me, s'.pc other = s.pc other ∨
      s.pc other = .waitParentNotify ∧ s'.pc other = .user := by
    intro other different
    have same : s'.thread other = (s.others me).thread other := Function.update_of_ne different ..
    unfold State.pc
    rw [same]
    exact others_pc (fun target => noCancel target) other
  have here : s'.pc me = result.2.pc := congrArg Thread.pc mine
  show HandshakeInv s' stage
  constructor
  · exact inv.forks
  · intro other
    rw [← inv.child]
    by_cases self : other = me
    · subst self
      refine iff_of_false (fun there => ?_) fun there => noChild (by rw [there]; trivial)
      exact outside.apart.2.1 (by rw [← here, there]; trivial)
    · rcases pc other self with same | ⟨waits, woken⟩
      · rw [same]
      · rw [waits, woken]
        exact iff_of_false nofun nofun
  · exact unrelated.childregistered.trans inv.flag
  · intro child there
    rw [announced]
    show _ = some (result.1.entries child).tidParent ∧ _
    rw [unrelated.tidParent]
    exact inv.creator child there
  · intro parent unharmed
    rw [killed] at unharmed
    rw [← inv.parent parent unharmed]
    by_cases self : parent = me
    · subst self
      rw [here]
      exact iff_of_false outside.apart.1 noWait
    · rcases pc parent self with same | ⟨waits, woken⟩
      · rw [same]
      · rw [waits, woken]
        exact iff_of_false id id
  · intro child unharmed began
    rw [killed] at unharmed
    rw [announced]
    by_cases self : child = me
    · subst self
      exact inv.counted child alive ⟨present, noChild⟩
    · rcases pc child self with same | ⟨waits, -⟩
      · rw [same] at began
        exact inv.counted child unharmed began
      · -- the caller has counted it
        have known : child < s.threadIndex := kept.known (by rw [waits]; nofun)
        rcases own child known waits with counted | mine
        · exact counted
        · exact (inv.notified child waits (mine ▸ alive)).mpr (mine ▸ notifies)
  · intro child waits
    by_cases self : child = me
    · subst self
      exact absurd (by rw [← here, waits]; trivial) outside.apart.2.1
    · have still := theirs child self
      have awake : (wakeChild (s.thread child)).pc ≠ .waitParentNotify := by
        unfold wakeChild
        split
        · nofun
        · next awake => exact awake
      exact absurd ((congrArg Thread.pc still).symm.trans waits) awake

/-- Any other step. -/
theorem HandshakeInv.execSteady (inv : HandshakeInv s stage) (kept : WellKept s)
    (targets : Targets s) (alive : s.killed me = false) (silent : (s.pc me).Notifies = false)
    (steady : (s.pc me).Steady (s.thread me).fenceEnabled)
    (executed : Xrun.exec s.determ (s.thread me) me = some result) :
    HandshakeInv { (s.others me).update me result with forks := s.forks } stage := by
  obtain ⟨unrelated, outside⟩ := exec_steady executed steady
  -- the step begins outside of the handshake, too
  have before : (s.pc me).Outside := by
    have taken := exec_awake executed
    unfold State.pc at silent
    change (s.thread me).pc.Steady _ at steady
    show (s.thread me).pc.Outside
    cases at_ : (s.thread me).pc <;> rw [at_] at steady silent taken <;> trivial
  -- only a join without a fence starts the fences of the others, and it is not steady
  have idle : (s.pc me).StartsFence (s.thread me).fenceEnabled = false := by
    rw [Bool.eq_false_iff]
    intro starts
    cases at_ : s.pc me with
    | startFence work =>
      rw [at_] at steady
      exact steady
    | work work =>
      cases work with
      | join guest =>
        rw [at_] at steady starts
        have on : (s.thread me).fenceEnabled = true := steady
        rw [on] at starts
        cases starts
      | _ =>
        rw [at_] at starts
        cases starts
    | _ =>
      rw [at_] at starts
      cases starts
  refine inv.passes (fun other => ?_) rfl unrelated.childregistered unrelated.tidParent
  show (s.thread other).Passes (((s.others me).update me result).thread other)
  by_cases here : other = me
  · subst here
    -- the thread itself stays outside
    have mine : ((s.others other).update other result).thread other = result.2 :=
      Function.update_self ..
    rw [mine]
    exact ⟨exec_announced executed, fun _ => alive, .outside before outside⟩
  · -- of the others only the target of a cancel changes, and not its part in the handshake
    have theirs : ((s.others me).update me result).thread other = (s.others me).thread other :=
      Function.update_of_ne here ..
    have quiet : ¬(s.thread me).pc.Notifies = true := Bool.eq_false_iff.mp silent
    have noStart : ¬(s.thread me).pc.StartsFence (s.thread me).fenceEnabled = true :=
      Bool.eq_false_iff.mp idle
    rw [theirs, others_thread, if_neg quiet, if_neg noStart]
    split
    · next cancels =>
      have known : other < s.threadIndex := targets me other (by
        have here : s.pc me = .work (.cancel other) := cancels
        rw [here]
        rfl)
      refine ⟨rfl, nofun, ?_⟩
      show (s.pc other).SameRole (if _ then _ else s.pc other)
      split
      · next sleeps =>
        have inWait := kept.asleep other known sleeps
        refine .outside ?_ trivial
        cases at_ : s.pc other <;> rw [at_] at inWait <;> trivial
      · exact .refl _
    · exact .refl _

/-- Only a thread that cancels itself is killed by its own step. -/
theorem exec_killed {d : Determ} {t : Thread} (notifies : t.pc.Notifies = true)
    (moved : Xrun.exec d t me = some result) : result.2.killed = t.killed := by
  cases at_ : t.pc with
  | notify work =>
    simp only [Xrun.exec, at_, Option.some.injEq] at moved
    obtain rfl := moved
    cases work <;> rfl
  | joinEnter guest =>
    simp only [Xrun.exec, at_, Option.some.injEq] at moved
    obtain rfl := moved
    rfl
  | _ =>
    rw [at_] at notifies
    cases notifies

theorem HandshakeInv.exec (inv : HandshakeInv s stage) (kept : WellKept s) (targets : Targets s)
    (keeps : KeepsHandshake s (.exec me)) (alive : s.killed me = false)
    (executed : Xrun.exec s.determ (s.thread me) me = some result) :
    ∃ stage', HandshakeInv { (s.others me).update me result with
      forks := if (s.thread me).pc = .work .spawn then me :: s.forks else s.forks } stage' := by
  -- a steady step is no part of the handshake, unless it wakes those that wait
  by_cases steady : (s.pc me).Steady (s.thread me).fenceEnabled
  · have noClone : (s.thread me).pc ≠ .work .spawn := by
      intro at_
      unfold State.pc at steady
      rw [at_] at steady
      exact steady
    rw [if_neg noClone]
    by_cases notifies : (s.pc me).Notifies = true
    · obtain ⟨unrelated, outside⟩ := exec_steady executed steady
      exact ⟨stage, inv.wakes kept alive notifies (keeps.2 notifies) unrelated outside
        ⟨exec_announced executed, exec_killed notifies executed⟩⟩
    · exact ⟨stage, inv.execSteady kept targets alive (Bool.eq_false_iff.mpr notifies) steady
        executed⟩
  · -- the steps of the handshake itself, one after the other
    cases at_ : (s.thread me).pc <;> rw [show s.pc me = _ from at_] at steady
    case registered =>
      have here : s.pc me = .registered := at_
      simp only [Xrun.exec, at_, Option.some.injEq] at executed
      obtain rfl := executed
      rw [if_neg (by simp), others_eq (by rw [here]; rfl) (by rw [here]; rfl)
        (by rw [here]; rintro target ⟨⟩)]
      exact ⟨_, inv.registers alive here⟩
    case waitChildRegistered =>
      have here : s.pc me = .waitChildRegistered := at_
      rw [if_neg (by simp), others_eq (by rw [here]; rfl) (by rw [here]; rfl)
        (by rw [here]; rintro target ⟨⟩)]
      simp only [Xrun.exec, at_] at executed
      split at executed
      · next flag =>
        obtain rfl := Option.some.inj executed
        exact ⟨_, inv.notices alive (by rw [here]; trivial) flag⟩
      · obtain rfl := Option.some.inj executed
        exact ⟨stage, inv.sleeps here⟩
    case parentSleeping =>
      have here : s.pc me = .parentSleeping := at_
      rw [if_neg (by simp), others_eq (by rw [here]; rfl) (by rw [here]; rfl)
        (by rw [here]; rintro target ⟨⟩)]
      simp only [Xrun.exec, at_, Option.ite_none_right_eq_some, Option.some.injEq] at executed
      obtain ⟨flag, rfl⟩ := executed
      exact ⟨_, inv.notices alive (by rw [here]; trivial) flag⟩
    case startFence work =>
      simp only [Xrun.exec, at_, Option.some.injEq] at executed
      obtain rfl := executed
      rw [if_neg (by simp)]
      exact ⟨stage, inv.starts alive (by rw [show s.pc me = _ from at_]; rfl) rfl ⟨rfl, rfl⟩⟩
    case work work =>
      have here : s.pc me = .work work := at_
      simp only [Xrun.exec, at_, Option.ite_none_left_eq_some, Option.some.injEq] at executed
      obtain ⟨-, rfl⟩ := executed
      cases work with
      | spawn =>
        rw [if_pos rfl, others_eq (by rw [here]; rfl) (by rw [here]; rfl)
          (by rw [here]; rintro target ⟨⟩)]
        exact ⟨_, inv.clones kept (keeps.1 here) alive here ⟨rfl, rfl, rfl⟩⟩
      | join guest =>
        -- the first join turns the fences of all threads on
        have off : ¬(s.thread me).fenceEnabled = true := steady
        have starts : (s.pc me).StartsFence (s.thread me).fenceEnabled = true := by
          rw [here, Bool.eq_false_iff.mpr off]
          rfl
        rw [if_neg (by simp)]
        simp only [perform, if_neg off]
        exact ⟨stage, inv.starts alive starts rfl ⟨rfl, rfl⟩⟩
      | _ => exact absurd trivial steady
    all_goals exact absurd trivial steady

/-- A thread goes on outside the handshake. -/
theorem HandshakeInv.goesOutside (inv : HandshakeInv s stage) (before : (s.pc me).Outside)
    (outside : result.2.pc.Outside) (thread : result.2.announced = s.announced me ∧
      (result.2.killed = false → s.killed me = false))
    (flag : result.1.childregistered = s.determ.childregistered)
    (tidParent : ∀ other, (result.1.entries other).tidParent = s.tidParent other) :
    HandshakeInv (s.update me result) stage := by
  refine inv.passes (fun other => ?_) rfl flag tidParent
  show (s.thread other).Passes (Function.update s.thread me _ other)
  by_cases here : other = me
  · subst here
    rw [Function.update_self]
    exact ⟨thread.1, thread.2, .outside before outside⟩
  · rw [Function.update_of_ne here]
    exact .refl _

/-- The child of the parent that waits has an entry. -/
theorem HandshakeInv.childRegister (inv : HandshakeInv s stage) (kept : WellKept s) {parent : ℕ}
    (forked : parent ∈ s.forks) (record : Thread) (new : record.pc = .registered ∧
      record.announced = false ∧ record.killed = false) :
    HandshakeInv {
      determ := s.determ.registerThread s.threadIndex parent
      thread := Function.update s.thread s.threadIndex record
      threadIndex := s.threadIndex + 1
      forks := s.forks.erase parent } (.registered parent s.threadIndex) := by
  obtain rfl : stage = .cloned parent := by
    rw [inv.forks] at forked
    cases stage with
    | cloned other => rw [List.mem_singleton.mp forked]
    | _ => cases forked
  let s' : State := {
      determ := s.determ.registerThread s.threadIndex parent
      thread := Function.update s.thread s.threadIndex record
      threadIndex := s.threadIndex + 1
      forks := s.forks.erase parent }
  have mine : s'.thread s.threadIndex = record := Function.update_self ..
  have theirs : ∀ thread ≠ s.threadIndex, s'.thread thread = s.thread thread :=
    fun thread different => Function.update_of_ne different ..
  have fresh : s.thread s.threadIndex = absentThread := kept.fresh _ le_rfl
  have killed : ∀ thread, s'.killed thread = s.killed thread := by
    intro thread
    unfold State.killed
    by_cases here : thread = s.threadIndex
    · rw [here, mine, fresh, new.2.2]
      rfl
    · rw [theirs thread here]
  have pc : ∀ thread ≠ s.threadIndex, s'.pc thread = s.pc thread := fun thread different =>
    congrArg Thread.pc (theirs thread different)
  have here : s'.pc s.threadIndex = .registered := (congrArg Thread.pc mine).trans new.1
  have absent : s.pc s.threadIndex = .absent := congrArg Thread.pc fresh
  have tidParent : ∀ thread ≠ s.threadIndex, s'.tidParent thread = s.tidParent thread := by
    intro thread different
    show (Function.update s.determ.entries s.threadIndex _ thread).tidParent = _
    rw [Function.update_of_ne different]
    rfl
  have own : s'.tidParent s.threadIndex = parent := by
    show (Function.update s.determ.entries s.threadIndex _ s.threadIndex).tidParent = _
    rw [Function.update_self]
  -- The new thread had no part in the handshake.
  have apart : ∀ (part : Pc → Prop), ¬part .absent → ¬part .registered → ∀ thread,
      part (s'.pc thread) ↔ part (s.pc thread) := by
    intro part before after thread
    by_cases there : thread = s.threadIndex
    · rw [there, here, absent]
      exact iff_of_false after before
    · rw [pc thread there]
  show HandshakeInv s' _
  constructor
  · show s.forks.erase parent = []
    rw [inv.forks]
    exact List.erase_cons_head ..
  · intro thread
    by_cases there : thread = s.threadIndex
    · rw [there, here]
      exact iff_of_true rfl rfl
    · rw [pc thread there, inv.child]
      exact iff_of_false nofun fun same => there (Option.some.inj same).symm
  · exact inv.flag
  · intro child same
    obtain rfl := Option.some.inj same
    refine ⟨congrArg some own.symm, ?_⟩
    show (s'.thread s.threadIndex).announced = false
    rw [mine]
    exact new.2.1
  · intro other alive
    rw [killed] at alive
    rw [apart Pc.AwaitsChild id id]
    exact inv.parent other alive
  · intro child alive began
    rw [killed] at alive
    have different : child ≠ s.threadIndex := by
      rintro rfl
      rw [here] at began
      exact began.2 trivial
    rw [pc child different] at began
    show (s'.thread child).announced = true
    rw [theirs child different]
    exact inv.counted child alive began
  · intro child waits alive
    have different : child ≠ s.threadIndex := by
      rintro rfl
      rw [here] at waits
      cases waits
    rw [pc child different] at waits
    rw [killed, tidParent child different] at alive
    show (s'.thread child).announced = true ↔ _
    rw [theirs child different, tidParent child different,
      apart (Pc.Notifies · = true) nofun nofun]
    exact inv.notified child waits alive

theorem HandshakeInv.step (inv : HandshakeInv s stage) (kept : WellKept s) (targets : Targets s)
    {label : Label} (keeps : KeepsHandshake s label) (stepped : Xrun.step s label = some s') :
    ∃ stage', HandshakeInv s' stage' := by
  have move := move_of_step stepped
  cases label with
  -- the flag is not touched by a call, and the caller was outside
  | call me c =>
    obtain ⟨⟨user, -⟩, move⟩ := Option.ite_none_right_eq_some.mp move
    obtain ⟨result, called, rfl⟩ := Option.map_eq_some_iff.mp move
    have here : s.pc me = .user := user
    obtain ⟨flag, tidParent, -⟩ := call_asleep called
    exact ⟨stage, inv.goesOutside (by rw [here]; trivial) (call_outside user called)
      ⟨call_announced called, fun _ => alive_of_step stepped rfl⟩ flag tidParent⟩
  | exec me =>
    obtain ⟨result, executed, rfl⟩ := Option.map_eq_some_iff.mp move
    exact inv.exec kept targets keeps (alive_of_step stepped rfl) executed
  | childRegister parent =>
    obtain ⟨forked, rfl⟩ := guarded move
    exact ⟨_, inv.childRegister kept forked _ ⟨rfl, rfl, rfl⟩⟩
  | cloneFails me =>
    obtain ⟨at_, rfl⟩ := guarded move
    have here : s.pc me = .work .spawn := at_
    exact ⟨stage, inv.goesOutside (by rw [here]; trivial) trivial ⟨rfl, id⟩ rfl fun _ => rfl⟩
  -- a wait that returns by itself is allowed only where the flag is set
  | spuriousReturn me =>
    have alive := alive_of_step stepped rfl
    simp only [Xrun.move] at move
    split at move
    · next at_ =>
      have here : s.pc me = .waitParentNotify := at_
      obtain rfl := Option.some.inj move
      exact ⟨stage, inv.returns alive here (keeps.2 here)⟩
    · next at_ =>
      have here : s.pc me = .parentSleeping := at_
      obtain rfl := Option.some.inj move
      exact ⟨_, inv.notices alive (by rw [here]; trivial) (keeps.1 here)⟩
    · cases move
  | sigwaitReturns me =>
    obtain ⟨at_, rfl⟩ := guarded move
    have here : s.pc me = .sigWaiting := at_
    have unrelated : Unrelated s.determ (s.determ.sigWaitWoken me) := calm_sigWaitWoken.toUnrelated
    exact ⟨stage, inv.goesOutside (by rw [here]; trivial) trivial ⟨rfl, id⟩
      unrelated.childregistered unrelated.tidParent⟩
  | sigwaitFails me =>
    obtain ⟨at_, rfl⟩ := guarded move
    have here : s.pc me = .sigWaiting := at_
    exact ⟨stage, inv.goesOutside (by rw [here]; trivial) trivial ⟨rfl, id⟩ rfl fun _ => rfl⟩

theorem start_handshakeInv (cores : ℕ) (counts : ℕ → ℕ) :
    HandshakeInv (start cores counts) .nobody := by
  have first : (start cores counts).pc 0 = .user := rfl
  have others : ∀ thread, thread ≠ 0 → (start cores counts).pc thread = .absent := by
    intro thread different
    show (Function.update (fun _ => absentThread) 0 _ thread).pc = _
    rw [Function.update_of_ne different]
    rfl
  have nobody : ∀ (part : Pc → Prop), ¬part .user → ¬part .absent → ∀ thread,
      ¬part ((start cores counts).pc thread) := by
    intro part user absent thread
    by_cases here : thread = 0
    · rw [here, first]
      exact user
    · rw [others thread here]
      exact absent
  constructor
  · rfl
  · exact fun thread => iff_of_false (nobody (· = .registered) nofun nofun thread) nofun
  · rfl
  · nofun
  · exact fun parent _ => iff_of_false (nobody Pc.AwaitsChild id id parent) nofun
  · intro child _ began
    by_cases here : child = 0
    · subst here
      rfl
    · rw [others child here] at began
      exact absurd rfl began.1
  · exact fun child waits => absurd waits (nobody (· = .waitParentNotify) nofun nofun child)

theorem handshakeInv_of_reachable (reach : system.Reachable KeepsHandshake s) :
    ∃ stage, HandshakeInv s stage := by
  induction reach with
  | init initial =>
    obtain ⟨cores, counts, -, rfl⟩ := initial
    exact ⟨.nobody, start_handshakeInv cores counts⟩
  | step label prior keeps move ih =>
    obtain ⟨stage, inv⟩ := ih
    exact inv.step (wellKept_of_reachable prior) (targets_of_reachable prior) keeps move

/-- **The creation handshake.** In every run whose steps all meet the condition, a parent waits
until its child has registered, a child until it is counted, and none misses its wake-up. -/
theorem handshake_of_keepsHandshake (reach : system.Reachable KeepsHandshake s) : Handshake s := by
  obtain ⟨stage, inv⟩ := handshakeInv_of_reachable reach
  exact inv.handshake

/-- The first thread creates two children and starts the fence. -/
def createsTwo : List Label :=
    [.call 0 .spawn, .exec 0, .exec 0, .childRegister 0, .exec 1, .exec 0,
  .call 0 .spawn, .exec 0, .childRegister 0, .exec 2, .exec 0, .call 0 (.join 1), .exec 0]

/-- Both children are counted and wait, and will be woken. -/
theorem handshake_twoChildren : ∃ s, system.Reachable KeepsHandshake s ∧
    (s.pc 0 = .joinEnter 1 ∧ (∀ child ∈ [1, 2], s.pc child = .waitParentNotify ∧
      s.announced child = true)) ∧ Handshake s := by
  have run : (system.runIf (fun s label => decide (KeepsHandshake s label)) (start 2 fun _ => 2)
      createsTwo).any fun s => s.pc 0 = .joinEnter 1 ∧
        ∀ child ∈ [1, 2], s.pc child = .waitParentNotify ∧ s.announced child = true := by
    decide +kernel
  obtain ⟨s, execution, facts⟩ := (Option.any_eq_true _ _).mp run
  have start : system.Reachable KeepsHandshake (start 2 fun _ => 2) :=
    .init ⟨2, _, Nat.two_pos, rfl⟩
  have reach := start.runIf (fun _ _ passes => of_decide_eq_true passes) execution
  exact ⟨s, reach, of_decide_eq_true facts, handshake_of_keepsHandshake reach⟩

/-- A parent that wakes up by itself goes on before its child has registered. -/
theorem not_handshake_spurious : ¬ ∀ s, system.Reachable AnyStep s → Handshake s := by
  intro holds
  have run : (system.run (start 2 fun _ => 2)
      [.call 0 .spawn, .exec 0, .exec 0, .spuriousReturn 0]).any fun s =>
        0 ∈ s.forks ∧ s.killed 0 = false ∧ ¬(s.pc 0).AwaitsChild := by decide +kernel
  obtain ⟨s, execution, facts⟩ := (Option.any_eq_true _ _).mp run
  obtain ⟨forked, alive, awake⟩ := of_decide_eq_true facts
  have start : system.Reachable AnyStep (start 2 fun _ => 2) := .init ⟨2, _, Nat.two_pos, rfl⟩
  exact awake ((holds s (start.run execution)).registered 0 forked alive)

end Tthread.Xrun
