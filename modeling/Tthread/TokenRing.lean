/-
# The token ring

In every run whose steps meet a condition on what happens while nobody is active, on
joiners and on the real barrier, the active threads form the ring and every other list has
the threads that wait in it.

A thread that comes back from `sigwait` when nobody is active, or without an answer, is
not put into the ring.
-/

import Tthread.RingMoves

namespace Tthread.Xrun

open Transition EntryList

/-- Every list is well formed, no thread is in two, and the ring has the active threads
and, if there are any, the token. -/
def TokenRing (s : State) : Prop :=
  ∃ lists : Place → List ℕ, Family s.determ.links (head s.determ) lists ∧
    (∀ thread, thread ∈ lists .ring ↔ Active s thread) ∧
    ((∃ thread, Active s thread) → ∃ token ∈ lists .ring, s.determ.tokenpos = some token)

/-- The condition on a step. A child registers, and a `sigwait` returns, while some thread is
active, and `sigwait` does not fail. Only its creator waits for a thread that exits, and
nobody for one that is cancelled. The real barrier lets a thread go after the last one of
its round has entered. -/
def KeepsRing (s : State) : Label → Prop
  | .childRegister _ => s.determ.activelist ≠ none ∧ s.threadIndex < maxThreads
  | .sigwaitReturns _ => s.determ.activelist ≠ none
  | .sigwaitFails _ => False
  | .exec me =>
      match s.pc me with
      | .work .exit => ∀ thread, s.pc thread = .joinWait me →
          thread = (s.determ.entries me).tidParent
      | .work (.cancel target) => s.determ.status target = .condWaiting →
          ∀ thread, s.pc thread ≠ .joinWait target
      | .barrierEnter bar round =>
          (s.determ.barriers bar).arrived + 1 = (s.determ.barriers bar).maxthreads →
            (s.determ.barriers bar).rounds ≠ round
      | .barrierBlocked bar round released =>
          released < (s.determ.barriers bar).released → (s.determ.barriers bar).rounds ≠ round
      | _ => True
  | _ => True

variable {s s' : State} {d d' : Determ} {pc pc' : ℕ → Pc} {bound me : ℕ}
  {lists : Place → List ℕ}

/-- A test for the condition: nobody exits, comes back from `sigwait`, is cancelled or waits
in the real barrier. -/
def keepsRing (s : State) : Label → Bool
  | .childRegister _ => s.determ.activelist ≠ none ∧ s.threadIndex < maxThreads
  | .sigwaitReturns _ | .sigwaitFails _ => false
  | .exec me =>
      match s.pc me with
      | .work .exit | .barrierEnter .. | .barrierBlocked .. => false
      | .work (.cancel target) => s.determ.status target ≠ .condWaiting
      | _ => true
  | _ => true

theorem keepsRing_sound (s : State) (label : Label) (keeps : keepsRing s label = true) :
    KeepsRing s label := by
  cases label with
  | childRegister parent =>
    have met : s.determ.activelist ≠ none ∧ s.threadIndex < maxThreads := of_decide_eq_true keeps
    exact met
  | sigwaitReturns me | sigwaitFails me => cases keeps
  | exec me =>
    cases at_ : s.pc me with
    | work w =>
      cases w with
      | exit => simp [keepsRing, at_] at keeps
      | cancel target =>
        have awake : s.determ.status target ≠ .condWaiting := by simpa [keepsRing, at_] using keeps
        simp [KeepsRing, at_, awake]
      | _ => simp [KeepsRing, at_]
    | barrierEnter bar round => simp [keepsRing, at_] at keeps
    | barrierBlocked bar round released => simp [keepsRing, at_] at keeps
    | _ => simp [KeepsRing, at_]
  | _ => trivial

theorem RingInv.tokenRing (inv : RingInv s.determ s.pc s.threadIndex lists) : TokenRing s := by
  refine ⟨lists, inv.family, fun thread => inv.placed .ring thread, ?_⟩
  rintro ⟨thread, active⟩
  exact inv.token thread ((inv.placed .ring thread).mpr active)

/-! ## One step -/

section

variable {t : Thread} {mutex : ℕ}

theorem ite_plain {p : Prop} [Decidable p] {a b : Pc} (yes : a.Plain) (no : b.Plain) :
    (if p then a else b).Plain := by
  split <;> assumption

theorem pc_ite_plain {p : Prop} [Decidable p] {t' : Thread} (yes : t.pc.Plain)
    (no : t'.pc.Plain) : (if p then t else t').pc.Plain := by
  split <;> assumption

theorem getLockAgain_plain : (t.getLockAgain mutex).pc.Plain := by
  unfold Thread.getLockAgain
  split <;> exact trivial

theorem notified_plain {work : Work} : (t.notified work).pc.Plain := by
  cases work <;> exact trivial

theorem passed_plain {after : After} : (t.passed after).pc.Plain := by
  cases after with
  | relock mutex => exact getLockAgain_plain
  | _ => exact trivial

theorem gotToken_plain {work : Work} : (t.gotToken work).pc.Plain := by
  cases work <;> exact trivial

theorem signalled_plain : t.signalled.pc.Plain := by
  unfold Thread.signalled
  split <;> exact trivial

end

theorem RingInv.go (inv : RingInv d pc bound lists) (same : SameLists d d') {new : Pc}
    (moves : Moves d me (pc me) new) : RingInv d' (Function.update pc me new) bound lists := by
  refine inv.moved same fun thread => ?_
  by_cases here : thread = me
  · subst here
    rw [Function.update_self]
    exact .inr moves
  · exact .inl (Function.update_of_ne here _ _)

theorem RingInv.goPlain (inv : RingInv d pc bound lists) (same : SameLists d d') {new : Pc}
    (before : (pc me).Plain) (after : new.Plain) :
    RingInv d' (Function.update pc me new) bound lists := inv.go same (Moves.of_plain before after)

theorem SameLists.refl (d : Determ) : SameLists d d :=
  ⟨rfl, rfl, rfl, rfl, rfl, rfl, fun _ => rfl⟩

/-- The first section of `join`. -/
theorem RingInv.joinSection (inv : RingInv d pc bound lists) (plain : (pc me).Plain) {guest : ℕ} :
    ∃ lists', RingInv (d.join guest me).1 (Function.update pc me
      (if (d.join guest me).2 then .joinWait guest else .putToken .joined)) bound lists' := by
  by_cases gone : d.status guest = .exit
  · have passes : (d.join guest me).2 = false := by
      unfold Determ.join
      rw [if_neg (fun there => there gone)]
    rw [passes]
    exact ⟨lists, inv.joinPasses plain trivial gone⟩
  · have blocks : (d.join guest me).2 = true := by
      unfold Determ.join
      rw [if_pos gone]
    rw [blocks]
    exact inv.joinBlocks plain gone

/-- The section of `join` after its wait. -/
theorem RingInv.joinWokenSection (inv : RingInv d pc bound lists) {guest : ℕ}
    (waits : pc me = .joinWait guest) : RingInv (d.joinWoken guest me).1 (Function.update pc me
      (if (d.joinWoken guest me).2 then .joinWait guest else .joinToken)) bound lists := by
  by_cases gone : d.status guest = .exit
  · have wakes : (d.joinWoken guest me).2 = false := by
      have gone' : ¬(d.incrFence 1).status guest ≠ .exit := fun there => there gone
      simp only [Determ.joinWoken, if_neg gone']
    rw [wakes]
    exact inv.joinWakes waits gone
  · have sleeps : (d.joinWoken guest me).2 = true := by
      have there : (d.incrFence 1).status guest ≠ .exit := gone
      simp only [Determ.joinWoken, if_pos there]
    have unchanged : Function.update pc me (.joinWait guest) = pc := by
      rw [← waits, Function.update_eq_self]
    rw [sleeps, if_pos rfl, unchanged]
    exact inv.joinSleepsOn waits gone

/-- The section that needs the token. -/
theorem RingInv.perform (inv : RingInv d pc bound lists) {t : Thread} {work : Work}
    (at_ : pc me = .work work)
    (creator : work = .exit → ∀ thread, pc thread = .joinWait me →
      thread = (d.entries me).tidParent)
    (noCancel : ∀ target, work ≠ .cancel target) :
    ∃ lists', RingInv (Xrun.perform d t me work).1
      (Function.update pc me (Xrun.perform d t me work).2.pc) bound lists' := by
  have plain : (pc me).Plain := by
    rw [at_]
    trivial
  cases work with
  | spawn => exact ⟨lists, inv.goPlain (SameLists.refl d) plain trivial⟩
  | join guest =>
    simp only [Xrun.perform]
    split
    · exact inv.joinSection plain
    · exact ⟨lists, inv.goPlain (SameLists.of_fenceOnly (Determ.startFence_only d _)) plain trivial⟩
  | lock mutex =>
    exact ⟨lists, inv.goPlain lockAcquire_same plain (pc_ite_plain trivial trivial)⟩
  | signal cond =>
    obtain ⟨lists', inv'⟩ := inv.condSignal plain cond
    exact ⟨lists', inv'.goPlain (SameLists.refl _) plain signalled_plain⟩
  | broadcast cond =>
    obtain ⟨lists', inv'⟩ := inv.condBroadcast plain cond
    exact ⟨lists', inv'.goPlain (SameLists.refl _) plain signalled_plain⟩
  | barrier bar =>
    by_cases last : (d.barriers bar).threads + 1 = (d.barriers bar).maxthreads
    · exact inv.barrierLast plain last
    · exact inv.barrierEarly plain last
  | sigWait => exact inv.sigWait plain
  | cancel target => exact absurd rfl (noCancel target)
  | exit => exact inv.deregisterThread plain (creator rfl)

/-- A thread that leaves the barrier after its round is complete. -/
theorem moves_barrier {bar round : ℕ} {old : Pc} (inBarrier : old.InBarrier bar round)
    (complete : (d.barriers bar).rounds ≠ round) : Moves d me old .user := by
  have active : place d me old = some .ring := by
    rcases inBarrier with rfl | ⟨released, rfl⟩
    · exact if_neg complete
    · exact if_neg complete
  refine ⟨active.symm, ?_, ?_, ?_, ?_, ?_⟩
  · intro guest
    rcases inBarrier with rfl | ⟨released, rfl⟩ <;> exact iff_of_false nofun nofun
  · rintro b r (waits | ⟨released, waits⟩) <;> cases waits
  · rcases inBarrier with rfl | ⟨released, rfl⟩ <;> nofun
  · rcases inBarrier with rfl | ⟨released, rfl⟩ <;> nofun
  · rcases inBarrier with rfl | ⟨released, rfl⟩ <;> exact iff_of_false nofun nofun

/-- The next step of a call. -/
theorem RingInv.exec (inv : RingInv s.determ s.pc bound lists) {result : Determ × Thread}
    (keeps : KeepsRing s (.exec me)) (noCancel : ∀ target, s.pc me ≠ .work (.cancel target))
    (move : Xrun.exec s.determ (s.thread me) me = some result) :
    ∃ lists', RingInv result.1 (Function.update s.pc me result.2.pc) bound lists' := by
  -- The steps on which a thread stays in the ring, and the lists stay as they are.
  have stay : (s.pc me).Plain → SameLists s.determ result.1 → result.2.pc.Plain →
      ∃ lists', RingInv result.1 (Function.update s.pc me result.2.pc) bound lists' :=
    fun before same after => ⟨lists, inv.goPlain same before after⟩
  have idle := SameLists.refl s.determ
  unfold Xrun.exec at move
  unfold State.pc at stay
  cases at_ : (s.thread me).pc with
  | absent | waitParentNotify | user | sigWaiting | exited =>
    rw [at_] at move
    cases move
  | registered =>
    rw [at_] at move stay
    obtain rfl := Option.some.inj move
    exact stay trivial ⟨rfl, rfl, rfl, rfl, rfl, rfl, fun _ => rfl⟩ trivial
  | waitChildRegistered =>
    rw [at_] at move stay
    simp only at move
    split at move
    · obtain rfl := Option.some.inj move
      exact stay trivial ⟨rfl, rfl, rfl, rfl, rfl, rfl, fun _ => rfl⟩ trivial
    · obtain rfl := Option.some.inj move
      exact stay trivial idle trivial
  | parentSleeping =>
    rw [at_] at move stay
    simp only [Option.ite_none_right_eq_some, Option.some.injEq] at move
    obtain ⟨-, rfl⟩ := move
    exact stay trivial ⟨rfl, rfl, rfl, rfl, rfl, rfl, fun _ => rfl⟩ trivial
  | startFence work =>
    rw [at_] at move stay
    obtain rfl := Option.some.inj move
    exact stay trivial (SameLists.of_fenceOnly (Determ.startFence_only _ _)) trivial
  | notify work =>
    rw [at_] at move stay
    obtain rfl := Option.some.inj move
    exact stay trivial idle notified_plain
  | lockIsowner mutex =>
    rw [at_] at move stay
    obtain rfl := Option.some.inj move
    exact stay trivial lockIsowner_same (ite_plain trivial trivial)
  | lockSingle mutex =>
    rw [at_] at move stay
    obtain rfl := Option.some.inj move
    exact stay trivial idle (pc_ite_plain trivial getLockAgain_plain)
  | lockFast mutex =>
    rw [at_] at move stay
    obtain rfl := Option.some.inj move
    exact stay trivial lockAcquire_same (pc_ite_plain trivial getLockAgain_plain)
  | fence pos after =>
    rw [at_] at move stay
    obtain ⟨⟨d', next⟩, waits, rfl⟩ := Option.map_eq_some_iff.mp move
    have only := SameLists.of_fenceOnly (Determ.waitFence_only waits)
    cases next with
    | some pos => exact stay trivial only trivial
    | none => exact stay trivial only passed_plain
  | getToken work =>
    rw [at_] at move stay
    simp only [Option.ite_none_right_eq_some, Option.some.injEq] at move
    obtain ⟨-, rfl⟩ := move
    exact stay trivial idle gotToken_plain
  | work work =>
    rw [at_] at move
    obtain rfl := Option.some.inj (Option.ite_none_left_eq_some.mp move).2
    -- `exit` needs the condition on the run; a cancellation is excluded here.
    refine inv.perform at_ ?_ ?_
    · rintro rfl
      have here : s.pc me = .work .exit := at_
      simp only [KeepsRing, here] at keeps
      exact keeps
    · rintro target rfl
      exact noCancel target at_
  | putToken after =>
    rw [at_] at move
    obtain rfl := Option.some.inj move
    have plain : (s.pc me).Plain := by
      unfold State.pc
      rw [at_]
      trivial
    exact ⟨lists, inv.putToken.goPlain (SameLists.refl _) plain trivial⟩
  | joinEnter guest =>
    rw [at_] at move
    obtain rfl := Option.some.inj move
    have plain : (s.pc me).Plain := by
      unfold State.pc
      rw [at_]
      trivial
    exact inv.joinSection plain
  | joinWait guest =>
    rw [at_] at move
    obtain rfl := Option.some.inj move
    exact ⟨lists, inv.joinWokenSection at_⟩
  | joinToken =>
    rw [at_] at move stay
    simp only [Option.ite_none_right_eq_some, Option.some.injEq] at move
    obtain ⟨-, rfl⟩ := move
    exact stay trivial idle trivial
  | closeFence =>
    rw [at_] at move stay
    obtain rfl := Option.some.inj move
    exact stay trivial idle (pc_ite_plain trivial trivial)
  | condWaiting cond mutex =>
    rw [at_] at move
    simp only at move
    split at move
    -- The waiter has been put back into the ring by the one who woke it.
    · next ready =>
      obtain rfl := Option.some.inj move
      refine ⟨lists, inv.go idle ?_⟩
      unfold State.pc
      rw [at_]
      simp only [Thread.goto]
      refine ⟨(if_pos ready).symm, fun _ => iff_of_false (by simp) (by simp), ?_, by simp, ?_,
        iff_of_false (by simp) (by simp)⟩
      · rintro bar round (waits | ⟨released, waits⟩) <;> cases waits
      · intro asleep
        rw [ready] at asleep
        cases asleep
    · -- Nobody has woken it: only the mutex is released.
      obtain ⟨d', released, rfl⟩ := Option.map_eq_some_iff.mp move
      refine ⟨lists, ?_⟩
      have unchanged : Function.update s.pc me (s.thread me).pc = s.pc :=
        Function.update_eq_self me s.pc
      show RingInv d' (Function.update s.pc me (s.thread me).pc) bound lists
      rw [unchanged]
      exact inv.moved (lockRelease_same released) fun _ => .inl rfl
  | condToken mutex =>
    rw [at_] at move stay
    simp only [Option.ite_none_right_eq_some, Option.some.injEq] at move
    obtain ⟨-, rfl⟩ := move
    exact stay trivial idle trivial
  | condAcquire mutex =>
    rw [at_] at move stay
    obtain rfl := Option.some.inj move
    exact stay trivial lockAcquire_same trivial
  | barrierEnter bar round =>
    rw [at_] at move
    obtain rfl := Option.some.inj move
    have here : s.pc me = .barrierEnter bar round := at_
    simp only [KeepsRing, here] at keeps
    refine ⟨lists, inv.go realBarrierWait_same ?_⟩
    rw [here]
    simp only [Thread.goto]
    split
    -- Only the one that completes the round is let through at once.
    · next lets =>
      refine moves_barrier (.inl rfl) (keeps ?_)
      by_contra early
      simp only [Determ.realBarrierWait, if_neg early] at lets
      change _ < (Function.update s.determ.barriers bar _ bar).released at lets
      rw [Function.update_self] at lets
      exact lt_irrefl _ lets
    · refine ⟨rfl, fun _ => iff_of_false (by simp) (by simp), ?_, by simp, fun _ => by simp,
        iff_of_false (by simp) (by simp)⟩
      -- The others block in the round that they have entered.
      rintro b r (waits | ⟨released, waits⟩)
      · cases waits
      · cases waits
        exact inv.rounds me bar round (.inl here)
  | barrierBlocked bar round released =>
    rw [at_] at move
    simp only [Option.ite_none_right_eq_some, Option.some.injEq] at move
    obtain ⟨lets, rfl⟩ := move
    have here : s.pc me = .barrierBlocked bar round released := at_
    simp only [KeepsRing, here] at keeps
    refine ⟨lists, inv.go idle ?_⟩
    rw [here]
    exact moves_barrier (.inr ⟨released, rfl⟩) (keeps lets)

/-- A call, up to its first step. -/
theorem RingInv.call (inv : RingInv d pc bound lists) {t : Thread} {c : Call}
    {result : Determ × Thread} (user : t.pc = .user) (at_ : pc me = .user)
    (move : Xrun.call d t me c = some result) :
    ∃ lists', RingInv result.1 (Function.update pc me result.2.pc) bound lists' := by
  have plain : (pc me).Plain := by
    rw [at_]
    trivial
  have same : t.pc.Plain := by
    rw [user]
    trivial
  have idle := SameLists.refl d
  cases c with
  | mutexUnlock mutex =>
    simp only [Xrun.call] at move
    split at move
    · obtain ⟨d', released, rfl⟩ := Option.map_eq_some_iff.mp move
      exact ⟨lists, inv.goPlain (lockRelease_same released) plain (pc_ite_plain trivial same)⟩
    · obtain rfl := Option.some.inj move
      exact ⟨lists, inv.goPlain idle plain same⟩
  | condWait cond mutex =>
    obtain ⟨d', released, rfl⟩ := Option.map_eq_some_iff.mp move
    obtain ⟨lists', inv'⟩ := inv.condWait plain cond mutex
    exact ⟨lists', inv'.moved (lockRelease_same released) fun _ => .inl rfl⟩
  | spawn | join guest =>
    obtain rfl := Option.some.inj move
    exact ⟨lists, inv.goPlain idle plain (pc_ite_plain trivial trivial)⟩
  | mutexLock mutex =>
    obtain rfl := Option.some.inj move
    exact ⟨lists, inv.goPlain idle plain (pc_ite_plain trivial (pc_ite_plain trivial trivial))⟩
  | condSignal cond | condBroadcast cond =>
    obtain rfl := Option.some.inj move
    exact ⟨lists, inv.goPlain idle plain (pc_ite_plain (pc_ite_plain trivial trivial) same)⟩
  | cancel target =>
    obtain rfl := Option.some.inj move
    exact ⟨lists, inv.goPlain idle plain (pc_ite_plain trivial trivial)⟩
  | barrierWait bar =>
    obtain rfl := Option.some.inj move
    exact ⟨lists, inv.goPlain idle plain (pc_ite_plain trivial (pc_ite_plain same trivial))⟩
  | sigWait | exit =>
    obtain rfl := Option.some.inj move
    exact ⟨lists, inv.goPlain idle plain trivial⟩

theorem update_pc {result : Determ × Thread} :
    (s.update me result).pc = Function.update s.pc me result.2.pc := by
  funext thread
  show (Function.update s.thread me result.2 thread).pc = _
  by_cases here : thread = me
  · subst here
    rw [Function.update_self, Function.update_self]
  · rw [Function.update_of_ne here, Function.update_of_ne here]
    rfl

/-- The section that the thread is on its way to. -/
def Pc.pending : Pc → Option Work
  | .startFence w | .notify w | .fence _ (.getToken w) | .getToken w | .work w
  | .putToken (.getToken w) => some w
  | _ => none

/-- A cancelled thread has been created. -/
def Targets (s : State) : Prop :=
  ∀ me target, (s.pc me).pending = some (.cancel target) → target < s.threadIndex

/-- A thread goes on to the section it was on its way to, or to that of a mutex. -/
theorem pending_exec {t : Thread} {result : Determ × Thread} {target : ℕ}
    (moved : Xrun.exec d t me = some result)
    (pending : result.2.pc.pending = some (.cancel target)) :
    t.pc.pending = some (.cancel target) := by
  -- The way back to a mutex is pending on that mutex.
  have again : ∀ (t : Thread) mutex, (t.getLockAgain mutex).pc.pending = some (.lock mutex) := by
    intro t mutex
    unfold Thread.getLockAgain
    split <;> rfl
  -- By cases on where the thread was: only the steps before the section leave one pending.
  cases at_ : t.pc with
  | fence pos after =>
    simp only [Xrun.exec, at_] at moved
    obtain ⟨⟨d', next⟩, -, rfl⟩ := Option.map_eq_some_iff.mp moved
    cases after with
    | getToken work => cases next <;> exact pending
    | relock mutex =>
      cases next with
      | some pos => cases pending
      | none => exact absurd ((again _ mutex).symm.trans pending) nofun
    | joined | done => cases next <;> cases pending
  | getToken work =>
    simp only [Xrun.exec, at_, Option.ite_none_right_eq_some, Option.some.injEq] at moved
    rw [← moved.2] at pending
    cases work <;> exact pending
  | notify work =>
    simp only [Xrun.exec, at_, Option.some.injEq] at moved
    rw [← moved] at pending
    cases work with
    | lock mutex => cases pending
    | _ => exact pending
  | startFence work =>
    simp only [Xrun.exec, at_, Option.some.injEq] at moved
    rw [← moved] at pending
    exact pending
  | lockSingle mutex =>
    simp only [Xrun.exec, at_, Option.some.injEq] at moved
    rw [← moved] at pending
    dsimp only at pending
    split at pending
    · cases pending
    · exact absurd ((again t mutex).symm.trans pending) nofun
  | lockFast mutex =>
    simp only [Xrun.exec, at_, Option.some.injEq] at moved
    rw [← moved] at pending
    dsimp only at pending
    split at pending
    · cases pending
    · exact absurd ((again t mutex).symm.trans pending) nofun
  | work work =>
    simp only [Xrun.exec, at_, Option.ite_none_left_eq_some, Option.some.injEq] at moved
    rw [← moved.2] at pending
    cases work with
    | cancel other =>
      simp only [Xrun.perform] at pending
      split at pending
      · rwa [at_] at pending
      · unfold Thread.signalled at pending
        split at pending <;> cases pending
    | signal cond | broadcast cond =>
      simp only [Xrun.perform, Thread.signalled] at pending
      split at pending <;> cases pending
    | join guest =>
      simp only [Xrun.perform] at pending
      split at pending
      · simp only [Thread.goto] at pending
        split at pending <;> cases pending
      · cases pending
    | lock mutex =>
      simp only [Xrun.perform] at pending
      split at pending <;> cases pending
    | _ => cases pending
  | absent | waitParentNotify | user | sigWaiting | exited =>
    simp only [Xrun.exec, at_] at moved
    cases moved
  | putToken after =>
    simp only [Xrun.exec, at_, Option.some.injEq] at moved
    rw [← moved] at pending
    cases after <;> exact pending
  | registered | condAcquire mutex =>
    simp only [Xrun.exec, at_, Option.some.injEq] at moved
    rw [← moved] at pending
    cases pending
  | lockIsowner mutex | joinEnter guest | joinWait guest | barrierEnter bar round =>
    simp only [Xrun.exec, at_, Option.some.injEq] at moved
    rw [← moved] at pending
    simp only [Thread.goto] at pending
    split at pending <;> cases pending
  | closeFence =>
    simp only [Xrun.exec, at_, Option.some.injEq] at moved
    rw [← moved] at pending
    dsimp only at pending
    split at pending <;> cases pending
  | waitChildRegistered =>
    simp only [Xrun.exec, at_] at moved
    split at moved
    · obtain rfl := Option.some.inj moved
      cases pending
    · obtain rfl := Option.some.inj moved
      cases pending
  | parentSleeping | joinToken | condToken mutex | barrierBlocked bar round released =>
    simp only [Xrun.exec, at_, Option.ite_none_right_eq_some, Option.some.injEq] at moved
    rw [← moved.2] at pending
    cases pending
  | condWaiting cond mutex =>
    simp only [Xrun.exec, at_] at moved
    split at moved
    · obtain rfl := Option.some.inj moved
      cases pending
    · obtain ⟨d', -, rfl⟩ := Option.map_eq_some_iff.mp moved
      rwa [at_] at pending

/-- The step of another thread may wake a child or give up a cancelled waiter, and does
nothing else to it. -/
theorem others_pc (noCancel : ∀ target, s.pc me ≠ .work (.cancel target)) (thread : ℕ) :
    (s.others me).pc thread = s.pc thread ∨
      s.pc thread = .waitParentNotify ∧ (s.others me).pc thread = .user := by
  unfold State.pc
  rw [others_thread]
  split
  · unfold wakeChild
    split
    · next asleep => exact .inr ⟨asleep, rfl⟩
    · exact .inl rfl
  · split
    · unfold announce
      split <;> exact .inl rfl
    · have other : ¬(s.thread me).pc.Cancels thread := noCancel thread
      rw [if_neg other]
      exact .inl rfl

/-- `cancel` and what it does to its target. -/
theorem RingInv.execCancel (inv : RingInv s.determ s.pc s.threadIndex lists) {target : ℕ}
    (at_ : s.pc me = .work (.cancel target)) (known : target < s.threadIndex)
    (keeps : KeepsRing s (.exec me)) : ∃ lists', RingInv
      (Xrun.perform s.determ (s.thread me) me (.cancel target)).1
      ((s.others me).update me (Xrun.perform s.determ (s.thread me) me (.cancel target))).pc
      s.threadIndex lists' := by
  simp only [KeepsRing, at_] at keeps
  have here : (s.thread me).pc = .work (.cancel target) := at_
  have others : (s.others me).pc = Function.update s.pc target
      (if s.determ.status target = .condWaiting then .exited else s.pc target) := by
    funext thread
    show ((s.others me).thread thread).pc = _
    rw [others_thread, here]
    by_cases same : thread = target
    · subst same
      have cancels : Pc.Cancels (.work (.cancel thread)) thread := rfl
      rw [Function.update_self]
      simp only [Pc.Notifies, Pc.StartsFence, Bool.false_eq_true, if_false, if_pos cancels]
      rfl
    · have other : ¬Pc.Cancels (.work (.cancel target)) thread := fun cancels =>
        same (Work.cancel.inj (Pc.work.inj cancels)).symm
      rw [Function.update_of_ne same]
      simp only [Pc.Notifies, Pc.StartsFence, Bool.false_eq_true, if_false, if_neg other]
      rfl
  rw [update_pc]
  by_cases self : target = me
  · -- the process is gone before the entry is touched
    subst self
    have alone : Function.update (s.others target).pc target (.work (.cancel target)) = s.pc := by
      rw [others, Function.update_idem, ← at_, Function.update_eq_self]
    simp only [Xrun.perform, if_true, here, alone]
    exact ⟨lists, inv⟩
  · obtain ⟨lists', inv'⟩ := inv.cancel known keeps
    simp only [Xrun.perform, if_neg self, others]
    refine ⟨lists', inv'.goPlain (SameLists.refl _) ?_ signalled_plain⟩
    rw [Function.update_of_ne (Ne.symm self), at_]
    trivial

/-- Nobody else goes on to a section. -/
theorem others_pending (thread : ℕ) {w : Work}
    (pending : ((s.others me).pc thread).pending = some w) : (s.pc thread).pending = some w := by
  unfold State.pc at pending ⊢
  rw [others_thread] at pending
  split at pending
  · unfold wakeChild at pending
    split at pending
    · cases pending
    · exact pending
  · split at pending
    · unfold announce at pending
      split at pending <;> exact pending
    · split at pending
      · unfold kill at pending
        dsimp only at pending
        split at pending
        · cases pending
        · exact pending
      · exact pending

/-- What the step of one thread has to show. -/
theorem Targets.update (targets : Targets s) {result : Determ × Thread}
    (mine : ∀ target, result.2.pc.pending = some (.cancel target) → target < s.threadIndex) :
    ∀ thread target, ((s.update me result).pc thread).pending = some (.cancel target) →
      target < s.threadIndex := by
  intro thread target pending
  rw [update_pc] at pending
  by_cases here : thread = me
  · subst here
    rw [Function.update_self] at pending
    exact mine target pending
  · rw [Function.update_of_ne here] at pending
    exact targets thread target pending

theorem Targets.step (targets : Targets s) {label : Label}
    (stepped : Xrun.step s label = some s') : Targets s' := by
  have move := move_of_step stepped
  cases label with
  | call me c =>
    obtain ⟨⟨user, allowed⟩, move⟩ := Option.ite_none_right_eq_some.mp move
    obtain ⟨result, called, rfl⟩ := Option.map_eq_some_iff.mp move
    -- Of the calls only `cancel` has a target, and its guard says that the target exists.
    refine targets.update fun target pending => ?_
    cases c with
    | cancel other =>
      obtain rfl := Option.some.inj called
      have same : other = target := by
        dsimp only at pending
        split at pending <;> exact Work.cancel.inj (Option.some.inj pending)
      exact same ▸ allowed.2
    | mutexUnlock mutex =>
      simp only [Xrun.call] at called
      split at called
      · obtain ⟨d, -, rfl⟩ := Option.map_eq_some_iff.mp called
        dsimp only at pending
        split at pending
        · cases pending
        · rw [user] at pending
          cases pending
      · obtain rfl := Option.some.inj called
        rw [user] at pending
        cases pending
    | condWait cond mutex =>
      obtain ⟨d, -, rfl⟩ := Option.map_eq_some_iff.mp called
      cases pending
    | sigWait | exit =>
      obtain rfl := Option.some.inj called
      cases pending
    | spawn | join guest =>
      obtain rfl := Option.some.inj called
      dsimp only at pending
      split at pending <;> cases pending
    | mutexLock mutex | barrierWait bar =>
      obtain rfl := Option.some.inj called
      dsimp only at pending
      split at pending
      · cases pending
      · split at pending
        · first | cases pending | (rw [user] at pending; cases pending)
        · cases pending
    | condSignal cond | condBroadcast cond =>
      obtain rfl := Option.some.inj called
      dsimp only at pending
      split at pending
      · split at pending <;> cases pending
      · rw [user] at pending
        cases pending
  | exec me =>
    obtain ⟨result, executed, rfl⟩ := Option.map_eq_some_iff.mp move
    -- The others keep what they have pending, and `me` keeps its target.
    have before : Targets (s.others me) := by
      intro thread target pending
      rw [others_threadIndex]
      exact targets thread target (others_pending thread pending)
    have after : Targets ((s.others me).update me result) := before.update fun target pending => by
      rw [others_threadIndex]
      exact targets me target (pending_exec executed pending)
    exact after
  | childRegister parent =>
    obtain ⟨-, rfl⟩ := guarded move
    intro thread target pending
    -- There is one thread more, so the bound of the old ones still holds.
    refine Nat.lt_succ_of_lt ?_
    by_cases here : thread = s.threadIndex
    · subst here
      have new : Pc.registered.pending = some (.cancel target) := by
        simpa [State.pc, childRecord] using pending
      cases new
    · refine targets thread target ?_
      simpa [State.pc, Function.update_of_ne here] using pending
  | cloneFails me =>
    obtain ⟨at_, rfl⟩ := guarded move
    exact targets.update nofun
  | spuriousReturn me =>
    simp only [Xrun.move] at move
    split at move
    · obtain rfl := Option.some.inj move
      exact targets.update nofun
    · obtain rfl := Option.some.inj move
      exact targets.update nofun
    · cases move
  | sigwaitReturns me =>
    obtain ⟨at_, rfl⟩ := guarded move
    exact targets.update nofun
  | sigwaitFails me =>
    obtain ⟨at_, rfl⟩ := guarded move
    exact targets.update nofun

theorem RingInv.step (inv : RingInv s.determ s.pc s.threadIndex lists) (targets : Targets s)
    {label : Label} (keeps : KeepsRing s label) (stepped : Xrun.step s label = some s') :
    ∃ lists', RingInv s'.determ s'.pc s'.threadIndex lists' := by
  have move := move_of_step stepped
  cases label with
  | call me c =>
    obtain ⟨⟨user, -⟩, move⟩ := Option.ite_none_right_eq_some.mp move
    obtain ⟨result, called, rfl⟩ := Option.map_eq_some_iff.mp move
    rw [update_pc]
    exact inv.call user user called
  | exec me =>
    obtain ⟨result, executed, rfl⟩ := Option.map_eq_some_iff.mp move
    -- A cancellation writes the record of its target too, so it has a lemma of its own.
    by_cases cancels : ∃ target, s.pc me = .work (.cancel target)
    · obtain ⟨target, at_⟩ := cancels
      have here : (s.thread me).pc = .work (.cancel target) := at_
      have known := targets me target (by rw [at_]; rfl)
      simp only [Xrun.exec, here, Option.ite_none_left_eq_some, Option.some.injEq] at executed
      obtain ⟨lists', inv'⟩ := inv.execCancel at_ known keeps
      rw [executed.2] at inv'
      refine ⟨lists', ?_⟩
      show RingInv result.1 ((s.others me).update me result).pc (s.others me).threadIndex lists'
      rw [others_threadIndex]
      exact inv'
    · have noCancel : ∀ target, s.pc me ≠ .work (.cancel target) :=
        fun target at_ => cancels ⟨target, at_⟩
      obtain ⟨lists', inv'⟩ := inv.exec keeps noCancel executed
      refine ⟨lists', ?_⟩
      show RingInv result.1 ((s.others me).update me result).pc (s.others me).threadIndex lists'
      rw [update_pc, others_threadIndex]
      refine inv'.moved (SameLists.refl _) fun thread => ?_
      by_cases here : thread = me
      · subst here
        rw [Function.update_self, Function.update_self]
        exact .inl rfl
      · rw [Function.update_of_ne here, Function.update_of_ne here]
        -- Another thread is where it was, or it is a sleeping parent that is woken.
        rcases others_pc noCancel thread with unchanged | ⟨asleep, awake⟩
        · exact .inl unchanged
        · rw [asleep, awake]
          exact .inr (Moves.of_plain trivial trivial)
  | childRegister parent =>
    obtain ⟨-, rfl⟩ := guarded move
    have registered := inv.registerThread parent keeps.1
    have pcs : Function.update s.pc s.threadIndex .registered =
        (fun thread => (Function.update s.thread s.threadIndex
          (childRecord (s.thread parent)) thread).pc) := by
      have updated : (s.update s.threadIndex (s.determ, childRecord (s.thread parent))).pc = _ :=
        update_pc
      exact updated.symm
    rw [pcs] at registered
    exact registered
  | cloneFails me =>
    obtain ⟨at_, rfl⟩ := guarded move
    rw [update_pc]
    have plain : (s.pc me).Plain := by
      unfold State.pc
      rw [at_]
      trivial
    exact ⟨lists, inv.goPlain (SameLists.refl _) plain trivial⟩
  | spuriousReturn me =>
    simp only [Xrun.move] at move
    split at move
    · next at_ =>
      obtain rfl := Option.some.inj move
      have plain : (s.pc me).Plain := by
        unfold State.pc
        rw [at_]
        trivial
      rw [update_pc]
      exact ⟨lists, inv.goPlain (SameLists.refl _) plain trivial⟩
    · next at_ =>
      obtain rfl := Option.some.inj move
      have plain : (s.pc me).Plain := by
        unfold State.pc
        rw [at_]
        trivial
      rw [update_pc]
      show ∃ lists', RingInv { s.determ with childregistered := false }
        (Function.update s.pc me .user) s.threadIndex lists'
      have same : SameLists s.determ { s.determ with childregistered := false } :=
        ⟨rfl, rfl, rfl, rfl, rfl, rfl, fun _ => rfl⟩
      have awake : Pc.user.Plain := trivial
      exact ⟨lists, inv.goPlain same plain awake⟩
    · cases move
  | sigwaitReturns me =>
    obtain ⟨at_, rfl⟩ := guarded move
    rw [update_pc]
    exact inv.sigWaitWoken at_ keeps
  | sigwaitFails me => exact keeps.elim

theorem start_ringInv (cores : ℕ) (counts : ℕ → ℕ) :
    ∃ lists, RingInv (start cores counts).determ (start cores counts).pc
      (start cores counts).threadIndex lists := by
  -- At the start the ring holds the main thread, and all other lists are empty.
  let lists : Place → List ℕ := fun p => if p = .ring then [0] else []
  have nothing : ∀ p ≠ .ring, lists p = [] := fun p other => if_neg other
  have members : ∀ p thread, thread ∈ lists p ↔ p = .ring ∧ thread = 0 := by
    intro p thread
    by_cases here : p = .ring
    · subst here
      show thread ∈ [0] ↔ _
      simp
    · rw [nothing p here]
      simp [here]
  have absent : ∀ thread, thread ≠ 0 → (start cores counts).pc thread = .absent := by
    intro thread different
    show (Function.update (fun _ => absentThread) 0 _ thread).pc = _
    rw [Function.update_of_ne different]
    rfl
  have entries :
      ∀ thread, thread ≠ 0 → (start cores counts).determ.status thread = .condWaiting := by
    intro thread different
    show (Function.update (fun _ => (⟨.condWaiting, 0, 0⟩ : ThreadEntry)) 0 _ thread).status = _
    rw [Function.update_of_ne different]
  refine ⟨lists, ⟨⟨?_, ?_, ?_, ?_, ?_⟩, ⟨?_, ?_⟩, ?_, ?_, ?_⟩⟩
  · rintro thread bar round inBarrier
    by_cases here : thread = 0
    · subst here
      rcases inBarrier with waits | ⟨released, waits⟩ <;> cases waits
    · unfold Pc.InBarrier at inBarrier
      rw [absent thread here] at inBarrier
      rcases inBarrier with waits | ⟨released, waits⟩ <;> cases waits
  · intro thread guest
    by_cases here : thread = 0
    · subst here
      exact iff_of_false nofun nofun
    · rw [absent thread here, entries thread here]
      exact iff_of_false nofun nofun
  · intro thread gone
    by_cases here : thread = 0
    · subst here
      cases gone
    · rw [entries thread here] at gone
      cases gone
  · intro thread present asleep
    by_cases here : thread = 0
    · subst here
      cases asleep
    · exact absurd (absent thread here) present
  · intro thread
    show _ ↔ 1 ≤ thread
    by_cases here : thread = 0
    · subst here
      exact iff_of_false nofun (by omega)
    · exact iff_of_true (absent thread here) (by omega)
  · intro p
    by_cases here : p = .ring
    · subst here
      exact insertTail_isList IsList.nil List.not_mem_nil
    · rw [nothing p here]
      refine ⟨?_, DoublyLinked.Links.ring_nil⟩
      cases p with
      | ring => exact absurd rfl here
      | cond c => rfl
      | barrier bar => rfl
  · intro p q thread inP inQ
    rw [members] at inP inQ
    rw [inP.1, inQ.1]
  · intro p thread
    rw [members]
    by_cases here : thread = 0
    · subst here
      show _ ↔ some Place.ring = some p
      rw [Option.some_inj]
      exact ⟨fun both => both.1.symm, fun ring => ⟨ring.symm, rfl⟩⟩
    · rw [absent thread here]
      exact iff_of_false (fun both => here both.2) nofun
  · intro thread _
    exact ⟨0, (members .ring 0).mpr ⟨rfl, rfl⟩, rfl⟩
  · intro cond
    rw [nothing _ (by nofun)]
    rfl

/-! ## The ring over whole runs -/

/-- A cancelled thread has been created, at any time. -/
theorem targets_of_reachable {Ok : State → Label → Prop} (reach : system.Reachable Ok s) :
    Targets s := by
  refine reach.invariant Targets ?_ fun s label s' targets _ stepped => targets.step stepped
  rintro _ ⟨cores, counts, -, rfl⟩ me target pending
  by_cases here : me = 0
  · subst here
    cases pending
  · have absent : (start cores counts).pc me = .absent := by
      show (Function.update (fun _ => absentThread) 0 _ me).pc = _
      rw [Function.update_of_ne here]
      rfl
    rw [absent] at pending
    cases pending

/-- In every run whose steps all meet the condition, the invariant holds. -/
theorem ringInv_of_keepsRing (reach : system.Reachable KeepsRing s) :
    ∃ lists, RingInv s.determ s.pc s.threadIndex lists := by
  induction reach with
  | init initial =>
    obtain ⟨cores, counts, -, rfl⟩ := initial
    exact start_ringInv cores counts
  | step label prior keeps move ih =>
    obtain ⟨lists, inv⟩ := ih
    exact inv.step (targets_of_reachable prior) keeps move

/-- In every run whose steps all meet the condition, the ring is in order. -/
theorem tokenRing_of_keepsRing (reach : system.Reachable KeepsRing s) : TokenRing s := by
  obtain ⟨lists, inv⟩ := ringInv_of_keepsRing reach
  exact inv.tokenRing

/-- The first thread creates another one. -/
theorem tokenRing_oneChild : ∃ s, system.Reachable KeepsRing s ∧ s.threadIndex = 2 ∧
    TokenRing s := by
  have start : system.Reachable KeepsRing (start 1 fun _ => 2) := .init ⟨1, _, Nat.one_pos, rfl⟩
  have call := start.step (Label.call 0 .spawn) trivial rfl
  have clone := call.step (Label.exec 0) trivial rfl
  have child := clone.step (Label.childRegister 0) ⟨nofun, by decide⟩ rfl
  exact ⟨_, child, rfl, tokenRing_of_keepsRing child⟩

/-- The only active thread leaves the ring for `sigwait` and is not put back. -/
theorem not_tokenRing_sigwait : ¬ ∀ s, system.Reachable AnyStep s → TokenRing s := by
  intro inOrder
  let labels : List Label := [.call 0 .sigWait, .exec 0, .exec 0, .exec 0, .sigwaitReturns 0]
  have run : (system.run (start 1 fun _ => 2) labels).any fun s =>
      s.determ.activelist = none ∧ Active s 0 := by decide +kernel
  obtain ⟨s, execution, facts⟩ := (Option.any_eq_true _ _).mp run
  obtain ⟨empty, active⟩ := of_decide_eq_true facts
  have start : system.Reachable AnyStep (start 1 fun _ => 2) := .init ⟨1, _, Nat.one_pos, rfl⟩
  obtain ⟨lists, family, members, -⟩ := inOrder s (start.run execution)
  have none_there : lists .ring = [] :=
    List.head?_eq_none_iff.mp ((family.list .ring).head.symm.trans empty)
  have there := (members 0).mpr active
  rw [none_there] at there
  cases there

end Tthread.Xrun
