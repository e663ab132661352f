/-
# What a thread books about its mutexes

While the fence is on, `_lock_count` counts the mutexes that a thread holds or is taking, and
`_token_holding` is only set where it counts one. The books are kept as long as the fence is
not turned on with mutexes on hand that were not counted, and as long as no operation passes
the token on behind the back of `_token_holding`.
-/

import Mathlib.Algebra.Order.BigOperators.Group.Finset
import Mathlib.Order.Interval.Finset.Nat
import Tthread.TokenHolder

namespace Tthread.Xrun

open Transition

/-- The mutex that the thread asks for, as far as it is counted. -/
def Pc.taking : Pc → Option ℕ
  | .lockIsowner mutex | .lockSingle mutex | .lockFast mutex | .fence _ (.relock mutex)
  | .fence _ (.getToken (.lock mutex)) | .getToken (.lock mutex) | .work (.lock mutex)
  | .putToken (.relock mutex) | .putToken (.getToken (.lock mutex)) | .condWaiting _ mutex
  | .condToken mutex | .condAcquire mutex => some mutex
  | _ => none

/-- The mutex that the thread asks for. -/
def Pc.wants : Pc → Option ℕ
  | .startFence (.lock mutex) | .notify (.lock mutex) => some mutex
  | pc => pc.taking

/-- A pointer that is not null. -/
def IsAddress (word : ℕ) : Prop := 0 < word ∧ word < 2 ^ 64

instance (word : ℕ) : Decidable (IsAddress word) := inferInstanceAs (Decidable (_ ∧ _))

/-- The books of a thread are right. -/
structure Thread.Counted (t : Thread) : Prop where
  count : t.fenceEnabled = true → t.pc ≠ .exited →
    t.lockCount = t.holding.card + if t.pc.taking.isSome then 1 else 0
  token : t.fenceEnabled = true → t.tokenHolding = true → 0 < t.lockCount
  wants : ∀ mutex, t.pc.wants = some mutex → mutex ∉ t.holding ∧ IsAddress mutex
  holds : ∀ mutex ∈ t.holding, IsAddress mutex

/-- What a thread has counted when it turns its fence on. -/
def KeepsBooks (t : Thread) : Prop :=
  t.pc.StartsFence t.fenceEnabled = true →
    t.lockCount = t.holding.card ∧ (t.tokenHolding = true → 0 < t.lockCount)

instance : DecidablePred KeepsBooks := fun _ => inferInstanceAs (Decidable (_ → _))

/-- A thread locks a mutex that it does not hold, and unlocks and waits with one that it
holds. -/
def Call.Paired (t : Thread) : Call → Prop
  | .mutexLock mutex => mutex ∉ t.holding ∧ IsAddress mutex
  | .mutexUnlock mutex | .condWait _ mutex => mutex ∈ t.holding
  | _ => True

instance (t : Thread) : DecidablePred (Call.Paired t) := fun call => by
  induction call using Call.casesOn <;> dsimp only [Call.Paired] <;> infer_instance

/-- The condition on a step. Besides, locks and unlocks are paired, and a thread turns its
fence on with as many mutexes on hand as it has counted. -/
def KeepsLocks (s : State) (label : Label) : Prop :=
  KeepsToken s label ∧
    match label with
    | .call me c => c.Paired (s.thread me)
    | .exec me => KeepsBooks (s.thread me)
    | _ => True

instance (s : State) : DecidablePred (KeepsLocks s) := fun label => by
  induction label using Label.casesOn <;> dsimp only [KeepsLocks] <;> infer_instance

section

variable {d d' : Determ} {t t' : Thread} {me mutex : ℕ} {result : Determ × Thread}

/-- There are fewer mutexes than words. -/
theorem Thread.Counted.fits (counted : t.Counted) (new : mutex ∉ t.holding)
    (address : IsAddress mutex) : t.holding.card + 1 < 2 ^ 64 := by
  have inside : insert mutex t.holding ⊆ Finset.Ioo 0 (2 ^ 64) := by
    intro word member
    rw [Finset.mem_Ioo]
    rcases Finset.mem_insert.mp member with rfl | held
    · exact address
    · exact counted.holds word held
  have bound := Finset.card_le_card inside
  rw [Finset.card_insert_of_notMem new, Nat.card_Ioo] at bound
  omega

theorem Pc.wants_of_taking {pc : Pc} (taking : pc.taking = some mutex) :
    pc.wants = some mutex := by
  unfold Pc.wants
  split
  · cases taking
  · cases taking
  · exact taking

/-! ## What a thread does with its books -/

/-- The thread goes on to ask for the same mutex, or for none as before. -/
theorem Thread.Counted.goto (counted : t.Counted) {new : Pc} (alive : t.pc ≠ .exited)
    (taking : new.taking = t.pc.taking)
    (wants : ∀ mutex, new.wants = some mutex → t.pc.wants = some mutex) :
    (t.goto new).Counted where
  count on _ := by
    have before := counted.count on alive
    rwa [← taking] at before
  token := counted.token
  wants mutex asks := counted.wants mutex (wants mutex asks)
  holds := counted.holds

/-- The thread goes on with nothing to ask for. -/
theorem Thread.Counted.free (counted : t.Counted) {new : Pc} (alive : t.pc ≠ .exited)
    (before : t.pc.taking = none) (after : new.wants = none) : (t.goto new).Counted := by
  have nothing : new.taking = none := by
    cases taking : new.taking with
    | none => rfl
    | some mutex => rw [Pc.wants_of_taking taking] at after; cases after
  refine counted.goto alive (nothing.trans before.symm) fun mutex asks => ?_
  rw [after] at asks
  cases asks

/-- The fence is off. -/
theorem Thread.Counted.unfenced (off : t.fenceEnabled = false)
    (wants : ∀ mutex, t.pc.wants = some mutex → mutex ∉ t.holding ∧ IsAddress mutex)
    (holds : ∀ mutex ∈ t.holding, IsAddress mutex) : t.Counted where
  count on := absurd (off.symm.trans on) nofun
  token on := absurd (off.symm.trans on) nofun
  wants := wants
  holds := holds

theorem holds_insert (holds : ∀ mutex ∈ t.holding, IsAddress mutex) (address : IsAddress mutex) :
    ∀ word ∈ insert mutex t.holding, IsAddress word := by
  intro word member
  rcases Finset.mem_insert.mp member with rfl | held
  · exact address
  · exact holds word held

/-- `_lock_count++` -/
theorem Thread.Counted.startLock (counted : t.Counted) (alive : t.pc ≠ .exited)
    (before : t.pc.taking = none) (new : mutex ∉ t.holding) (address : IsAddress mutex) :
    (t.startLock mutex).Counted := by
  have increased : t.fenceEnabled = true →
      Determ.increased t.lockCount 1 = t.holding.card + 1 := by
    intro on
    have counts : t.lockCount = t.holding.card := by simpa [before] using counted.count on alive
    rw [counts, Determ.increased_of_lt (counted.fits new address)]
  refine ⟨fun on _ => increased on, fun on _ => ?_, ?_, counted.holds⟩
  · show 0 < Determ.increased t.lockCount 1
    rw [increased on]
    exact Nat.succ_pos _
  · rintro asked asks
    obtain rfl := Option.some.inj asks
    exact ⟨new, address⟩

/-- `mutex_lock` or `cond_wait` returns with the mutex. -/
theorem Thread.Counted.acquired (counted : t.Counted) (taking : t.pc.taking = some mutex) :
    (t.acquired mutex).Counted := by
  have alive : t.pc ≠ .exited := by
    intro exited
    rw [exited] at taking
    cases taking
  obtain ⟨new, address⟩ := counted.wants mutex (Pc.wants_of_taking taking)
  refine ⟨fun on _ => ?_, counted.token, nofun, holds_insert counted.holds address⟩
  have before := counted.count on alive
  rw [taking] at before
  show t.lockCount = (insert mutex t.holding).card
  rw [Finset.card_insert_of_notMem new]
  exact before

theorem Thread.Counted.getLockAgain (counted : t.Counted) (taking : t.pc.taking = some mutex) :
    (t.getLockAgain mutex).Counted := by
  have alive : t.pc ≠ .exited := by
    intro exited
    rw [exited] at taking
    cases taking
  have asks : t.pc.wants = some mutex := Pc.wants_of_taking taking
  unfold Thread.getLockAgain
  split
  · exact counted.goto alive taking.symm fun _ wants => asks.trans wants
  · exact counted.goto alive taking.symm fun _ wants => asks.trans wants

/-- On from `waitFence`. -/
theorem Thread.Counted.passed {pos : Determ.FencePos} {after : After} (counted : t.Counted)
    (at_ : t.pc = .fence pos after) : (t.passed after).Counted := by
  have alive : t.pc ≠ .exited := by simp [at_]
  cases after with
  | getToken w =>
    refine counted.goto alive ?_ fun mutex asks => ?_
    · rw [at_]
      cases w <;> rfl
    · rw [at_]
      cases w <;> exact asks
  | relock mutex =>
    have again : Thread.Counted { t with tokenHolding := false } :=
      ⟨counted.count, fun _ => nofun, counted.wants, counted.holds⟩
    apply again.getLockAgain
    show t.pc.taking = some mutex
    rw [at_]
    rfl
  | joined | done => exact counted.free alive (by rw [at_]; rfl) rfl

theorem Thread.Counted.signalled (counted : t.Counted) (alive : t.pc ≠ .exited)
    (before : t.pc.taking = none) : t.signalled.Counted := by
  unfold Thread.signalled
  split
  · exact counted.free alive before rfl
  · exact counted.free alive before rfl

/-- Two ways to go on without a mutex to ask for. -/
theorem Thread.Counted.gotoIte {p : Prop} [Decidable p] {yes no : Pc} (counted : t.Counted)
    (alive : t.pc ≠ .exited) (before : t.pc.taking = none) (first : yes.wants = none)
    (second : no.wants = none) : (t.goto (if p then yes else no)).Counted := by
  split
  · exact counted.free alive before first
  · exact counted.free alive before second

/-- The section that needs the token. -/
theorem Thread.Counted.perform {w : Work} (counted : t.Counted) (at_ : t.pc = .work w)
    (keeps : KeepsBooks t) : (perform d t me w).2.Counted := by
  have alive : t.pc ≠ .exited := by simp [at_]
  cases w with
  | spawn => exact .unfenced rfl (fun _ asked => by cases asked) counted.holds
  | join guest =>
    simp only [Xrun.perform]
    split
    · exact counted.gotoIte alive (by rw [at_]; rfl) rfl rfl
    · next off =>
      -- the fence is turned on
      obtain ⟨counts, holding⟩ := keeps (by rw [at_]; simp [Pc.StartsFence, off])
      exact ⟨fun _ _ => counts, fun _ => holding, fun _ asked => (by cases asked), counted.holds⟩
  | lock mutex =>
    have taking : t.pc.taking = some mutex := by rw [at_]; rfl
    simp only [Xrun.perform]
    split
    · exact counted.acquired taking
    · exact counted.goto alive taking.symm fun _ asks => (Pc.wants_of_taking taking).trans asks
  | signal cond | broadcast cond => exact counted.signalled alive (by rw [at_]; rfl)
  | barrier bar | sigWait | exit => exact counted.free alive (by rw [at_]; rfl) rfl
  | cancel target =>
    simp only [Xrun.perform]
    split
    · exact ⟨counted.count, counted.token, counted.wants, counted.holds⟩
    · exact counted.signalled alive (by rw [at_]; rfl)

/-- The next step of a call. -/
theorem Thread.Counted.exec (counted : t.Counted) (keeps : KeepsBooks t)
    (executed : exec d t me = some result) : result.2.Counted := by
  unfold Xrun.exec at executed
  -- for a thread at this position, which asks for `mutex` or for nothing
  have asks : ∀ {pc mutex}, t.pc = pc → pc.taking = some mutex → t.pc.taking = some mutex :=
    fun at_ taking => at_ ▸ taking
  have alive : ∀ {pc}, t.pc = pc → pc ≠ .exited → t.pc ≠ .exited := fun at_ other => at_ ▸ other
  have goes : ∀ {pc new}, t.pc = pc → pc ≠ .exited → new.taking = pc.taking →
      (∀ mutex, new.wants = some mutex → pc.wants = some mutex) → (t.goto new).Counted := by
    rintro pc new rfl
    exact counted.goto
  have frees : ∀ {pc new}, t.pc = pc → pc ≠ .exited → pc.taking = none → new.wants = none →
      (t.goto new).Counted := by
    rintro pc new rfl
    exact counted.free
  cases at_ : t.pc with
  | absent | waitParentNotify | user | sigWaiting | exited =>
    rw [at_] at executed
    cases executed
  | registered =>
    rw [at_] at executed
    obtain rfl := Option.some.inj executed
    exact frees at_ nofun rfl rfl
  | waitChildRegistered =>
    rw [at_] at executed
    simp only at executed
    split at executed
    · obtain rfl := Option.some.inj executed
      exact frees at_ nofun rfl rfl
    · obtain rfl := Option.some.inj executed
      exact frees at_ nofun rfl rfl
  | parentSleeping | barrierBlocked | joinToken =>
    rw [at_] at executed
    simp only [Option.ite_none_right_eq_some, Option.some.injEq] at executed
    obtain ⟨-, rfl⟩ := executed
    exact frees at_ nofun rfl rfl
  | startFence w =>
    rw [at_] at executed
    obtain rfl := Option.some.inj executed
    obtain ⟨counts, holding⟩ := keeps (by rw [at_]; rfl)
    refine ⟨fun _ _ => counts, fun _ => holding, fun mutex asks => ?_, counted.holds⟩
    apply counted.wants
    rw [at_]
    cases w <;> exact asks
  | notify w =>
    rw [at_] at executed
    obtain rfl := Option.some.inj executed
    cases w with
    | lock mutex =>
      obtain ⟨new, address⟩ := counted.wants mutex (by rw [at_]; rfl)
      exact counted.startLock (alive at_ nofun) (by rw [at_]; rfl) new address
    | _ => exact frees at_ nofun rfl rfl
  | lockIsowner mutex =>
    rw [at_] at executed
    obtain rfl := Option.some.inj executed
    show (t.goto
      (if (d.lockIsowner mutex me).2 then .lockFast mutex else .lockSingle mutex)).Counted
    split
    · exact goes at_ nofun rfl fun _ => id
    · exact goes at_ nofun rfl fun _ => id
  | lockSingle mutex =>
    rw [at_] at executed
    obtain rfl := Option.some.inj executed
    show (if d.isSingleWorkingThread then t.goto (.lockFast mutex)
      else t.getLockAgain mutex).Counted
    split
    · exact goes at_ nofun rfl fun _ => id
    · exact counted.getLockAgain (asks at_ rfl)
  | lockFast mutex =>
    rw [at_] at executed
    obtain rfl := Option.some.inj executed
    show (if (d.lockAcquire mutex me).2 then t.acquired mutex else t.getLockAgain mutex).Counted
    split
    · exact counted.acquired (asks at_ rfl)
    · exact counted.getLockAgain (asks at_ rfl)
  | fence pos after =>
    rw [at_] at executed
    obtain ⟨⟨d', next⟩, -, rfl⟩ := Option.map_eq_some_iff.mp executed
    cases next with
    | none => exact counted.passed at_
    | some pos' =>
      refine goes at_ nofun ?_ fun mutex asks => ?_
      · rcases after with (_ | _ | _ | _ | _ | _ | _ | _ | _) | _ | _ | _ <;> rfl
      · rcases after with (_ | _ | _ | _ | _ | _ | _ | _ | _) | _ | _ | _ <;> exact asks
  | getToken w =>
    rw [at_] at executed
    simp only [Option.ite_none_right_eq_some, Option.some.injEq] at executed
    obtain ⟨-, rfl⟩ := executed
    cases w with
    | lock mutex =>
      have counts : t.fenceEnabled = true → t.lockCount = t.holding.card + 1 := by
        intro on
        simpa [at_, Pc.taking] using counted.count on (alive at_ nofun)
      refine ⟨fun on _ => counts on, fun on _ => ?_, fun asked wants => ?_, counted.holds⟩
      · show 0 < t.lockCount
        rw [counts on]
        exact Nat.succ_pos _
      · apply counted.wants
        rw [at_]
        exact wants
    | _ => exact frees at_ nofun rfl rfl
  | work w =>
    rw [at_] at executed
    obtain rfl := Option.some.inj (Option.ite_none_left_eq_some.mp executed).2
    exact counted.perform at_ keeps
  | putToken after =>
    rw [at_] at executed
    obtain rfl := Option.some.inj executed
    refine goes at_ nofun ?_ fun mutex asks => ?_
    · rcases after with (_ | _ | _ | _ | _ | _ | _ | _ | _) | _ | _ | _ <;> rfl
    · rcases after with (_ | _ | _ | _ | _ | _ | _ | _ | _) | _ | _ | _ <;> exact asks
  | joinEnter guest =>
    rw [at_] at executed
    obtain rfl := Option.some.inj executed
    exact counted.gotoIte (alive at_ nofun) (by rw [at_]; rfl) rfl rfl
  | joinWait guest =>
    rw [at_] at executed
    obtain rfl := Option.some.inj executed
    exact counted.gotoIte (alive at_ nofun) (by rw [at_]; rfl) rfl rfl
  | closeFence =>
    rw [at_] at executed
    obtain rfl := Option.some.inj executed
    show (if d.isSingleAliveThread then
        { t with fenceEnabled := false, childrenThreadsCount := 0, pc := .user }
      else t.goto .user : Thread).Counted
    split
    · exact .unfenced rfl nofun counted.holds
    · exact frees at_ nofun rfl rfl
  | condWaiting cond mutex =>
    rw [at_] at executed
    simp only at executed
    split at executed
    · obtain rfl := Option.some.inj executed
      exact goes at_ nofun rfl fun _ => id
    · obtain ⟨d', -, rfl⟩ := Option.map_eq_some_iff.mp executed
      exact counted
  | condToken mutex =>
    rw [at_] at executed
    simp only [Option.ite_none_right_eq_some, Option.some.injEq] at executed
    obtain ⟨-, rfl⟩ := executed
    exact goes at_ nofun rfl fun _ => id
  | condAcquire mutex =>
    rw [at_] at executed
    obtain rfl := Option.some.inj executed
    exact counted.acquired (asks at_ rfl)
  | barrierEnter bar round =>
    rw [at_] at executed
    obtain rfl := Option.some.inj executed
    exact counted.gotoIte (alive at_ nofun) (by rw [at_]; rfl) rfl rfl

/-- A call, up to its first step. -/
theorem Thread.Counted.call {c : Call} (counted : t.Counted) (user : t.pc = .user)
    (paired : c.Paired t) (called : call d t me c = some result) : result.2.Counted := by
  -- In the program the thread takes no mutex, so its count is the number of those it holds.
  have alive : t.pc ≠ .exited := by simp [user]
  have nothing : t.pc.taking = none := by rw [user]; rfl
  have frees : ∀ {new : Pc}, new.wants = none → (t.goto new).Counted := counted.free alive nothing
  have ite : ∀ {p : Prop} [Decidable p] {yes no : Thread}, (p → yes.Counted) →
      (¬p → no.Counted) → (if p then yes else no : Thread).Counted := by
    intro p _ yes no first second
    split
    · next holds => exact first holds
    · next fails => exact second fails
  have counts : t.fenceEnabled = true → t.lockCount = t.holding.card := by
    intro on
    simpa [nothing] using counted.count on alive
  cases c with
  | spawn | join guest =>
    obtain rfl := Option.some.inj called
    exact ite (fun _ => frees rfl) fun _ => frees rfl
  | mutexLock mutex =>
    obtain ⟨new, address⟩ := paired
    obtain rfl := Option.some.inj called
    -- Outside the fence nothing is counted: only what the thread holds changes.
    refine ite (fun _ => counted.startLock alive nothing new address) fun off => ?_
    have unfenced := Bool.eq_false_iff.mpr off
    refine ite
      (fun _ => .unfenced unfenced (fun _ asked => by cases asked)
        (holds_insert counted.holds address))
      fun _ => .unfenced unfenced (fun asked wants => ?_) counted.holds
    obtain rfl := Option.some.inj wants
    exact ⟨new, address⟩
  | mutexUnlock mutex =>
    -- By the condition the mutex is held, and one fewer is held after it.
    have held : mutex ∈ t.holding := paired
    have fewer : (t.holding.erase mutex).card = t.holding.card - 1 := Finset.card_erase_of_mem held
    have some : 0 < t.holding.card := Finset.card_pos.mpr ⟨mutex, held⟩
    have holds : ∀ word ∈ t.holding.erase mutex, IsAddress word := fun word member =>
      counted.holds word (Finset.mem_of_mem_erase member)
    simp only [Xrun.call] at called
    split at called
    · next on =>
      obtain ⟨d', -, rfl⟩ := Option.map_eq_some_iff.mp called
      have decreased : Determ.decreased t.lockCount = (t.holding.erase mutex).card := by
        rw [Determ.decreased_of_pos (by rw [counts on]; exact some), counts on, fewer]
      -- With the last mutex the token goes; else the thread keeps it and stays in the program.
      refine ite (fun last => ?_) fun kept => ?_
      · exact ⟨fun _ _ => decreased, fun _ holding => (by cases holding),
          fun _ asked => (by cases asked), holds⟩
      · refine ⟨fun _ _ => ?_, fun _ holding => ?_, fun asked wants => ?_, holds⟩
        · simpa [nothing] using decreased
        · exact Nat.pos_of_ne_zero fun zero => kept ⟨zero, holding⟩
        · change t.pc.wants = _ at wants
          rw [user] at wants
          cases wants
    · next off =>
      obtain rfl := Option.some.inj called
      refine .unfenced (Bool.eq_false_iff.mpr off) (fun asked wants => ?_) holds
      change t.pc.wants = _ at wants
      rw [user] at wants
      cases wants
  | condWait cond mutex =>
    have held : mutex ∈ t.holding := paired
    have fewer : (t.holding.erase mutex).card + 1 = t.holding.card :=
      Finset.card_erase_add_one held
    obtain ⟨d', -, rfl⟩ := Option.map_eq_some_iff.mp called
    -- The count is not touched by `cond_wait`, which takes the mutex again at its end.
    refine ⟨fun on _ => (counts on).trans fewer.symm, counted.token, fun asked wants => ?_,
      fun word member => counted.holds word (Finset.mem_of_mem_erase member)⟩
    obtain rfl := Option.some.inj wants
    exact ⟨Finset.notMem_erase _ _, counted.holds _ held⟩
  | condSignal cond | condBroadcast cond =>
    obtain rfl := Option.some.inj called
    exact ite (fun _ => ite (fun _ => frees rfl) fun _ => frees rfl) fun _ => counted
  | barrierWait bar =>
    obtain rfl := Option.some.inj called
    exact ite (fun _ => frees rfl) fun _ => ite (fun _ => counted) fun _ => frees rfl
  | sigWait | exit =>
    obtain rfl := Option.some.inj called
    exact frees rfl
  | cancel target =>
    obtain rfl := Option.some.inj called
    exact ite (fun _ => frees rfl) fun _ => frees rfl

end

section

variable {s s' : State} {me : ℕ} {result : Determ × Thread}

/-- Another thread wakes, announces or kills this one. -/
theorem counted_others (counted : ∀ thread, (s.thread thread).Counted) (thread : ℕ) :
    ((s.others me).thread thread).Counted := by
  have mine := counted thread
  rw [others_thread]
  split
  · unfold wakeChild
    split
    · next asleep => exact mine.free (by simp [asleep]) (by rw [asleep]; rfl) rfl
    · exact mine
  · split
    · unfold announce
      split
      · exact ⟨mine.count, mine.token, mine.wants, mine.holds⟩
      · exact mine
    · split
      · unfold kill
        split
        · exact ⟨fun _ alive => absurd rfl alive, mine.token, nofun, mine.holds⟩
        · exact ⟨mine.count, mine.token, mine.wants, mine.holds⟩
      · exact mine

theorem childRecord_counted (parent : Thread) : (childRecord parent).Counted :=
  ⟨fun _ _ => rfl, fun _ => nofun, nofun, nofun⟩

theorem counted_update (counted : ∀ thread, (s.thread thread).Counted)
    (mine : result.2.Counted) (thread : ℕ) : ((s.update me result).thread thread).Counted := by
  show (Function.update s.thread me result.2 thread).Counted
  by_cases here : thread = me
  · rw [here, Function.update_self]
    exact mine
  · rw [Function.update_of_ne here]
    exact counted thread

/-- **Step.** -/
theorem counted_step (counted : ∀ thread, (s.thread thread).Counted) {label : Label}
    (keeps : KeepsLocks s label) (stepped : Xrun.step s label = some s') :
    ∀ thread, (s'.thread thread).Counted := by
  have move := move_of_step stepped
  -- Of the condition only the pairing of locks is needed here.
  obtain ⟨-, keeps⟩ := keeps
  cases label with
  | call me c =>
    obtain ⟨⟨user, -⟩, move⟩ := Option.ite_none_right_eq_some.mp move
    obtain ⟨result, called, rfl⟩ := Option.map_eq_some_iff.mp move
    exact counted_update counted ((counted me).call user keeps called)
  | exec me =>
    obtain ⟨result, executed, rfl⟩ := Option.map_eq_some_iff.mp move
    have mine : result.2.Counted := (counted me).exec keeps executed
    exact counted_update (s := s.others me) (counted_others counted) mine
  | childRegister parent =>
    obtain ⟨-, rfl⟩ := guarded move
    intro thread
    show (Function.update s.thread s.threadIndex _ thread).Counted
    by_cases here : thread = s.threadIndex
    · rw [here, Function.update_self]
      exact childRecord_counted _
    · rw [Function.update_of_ne here]
      exact counted thread
  | cloneFails me =>
    obtain ⟨-, rfl⟩ := guarded move
    exact counted_update counted (.unfenced rfl nofun (counted me).holds)
  | spuriousReturn me =>
    have mine := counted me
    simp only [Xrun.move] at move
    split at move
    · next at_ =>
      obtain rfl := Option.some.inj move
      exact counted_update counted (mine.free (by simp [at_]) (by rw [at_]; rfl) rfl)
    · next at_ =>
      obtain rfl := Option.some.inj move
      exact counted_update counted (mine.free (by simp [at_]) (by rw [at_]; rfl) rfl)
    · cases move
  | sigwaitReturns me | sigwaitFails me =>
    obtain ⟨at_, rfl⟩ := guarded move
    exact counted_update counted ((counted me).free (by simp [at_]) (by rw [at_]; rfl) rfl)

/-- **Run.** In every run whose steps all meet the condition, the books are right. -/
theorem counted_of_keepsLocks (reach : system.Reachable KeepsLocks s) :
    ∀ thread, (s.thread thread).Counted := by
  refine reach.invariant (fun s => ∀ thread, (s.thread thread).Counted) ?_
    fun s label s' counted keeps stepped => counted_step counted keeps stepped
  rintro _ ⟨cores, counts, -, rfl⟩ thread
  show (Function.update (fun _ => absentThread) 0 _ thread).Counted
  by_cases here : thread = 0
  · rw [here, Function.update_self]
    exact .unfenced rfl nofun nofun
  · rw [Function.update_of_ne here]
    exact .unfenced rfl nofun nofun

/-! ## In the program -/

/-- The thread is in the program with its fence on. -/
def Fenced (s : State) (thread : ℕ) : Prop :=
  s.pc thread = .user ∧ (s.thread thread).fenceEnabled = true

/-- What each thread has booked: its mutexes, and the token only while it has it and holds
one. The unlock of its last mutex passes the token on, and only the thread that has the
token puts it. -/
structure LocksBooked (Ok : State → Label → Prop) (s : State) : Prop where
  count : ∀ thread, Fenced s thread →
    (s.thread thread).lockCount = (s.thread thread).holding.card
  holder : ∀ thread, Fenced s thread → (s.thread thread).tokenHolding = true →
    s.determ.tokenpos = some thread
  idle : ∀ thread, Fenced s thread → (s.thread thread).holding = ∅ →
    (s.thread thread).tokenHolding = false
  passes : ∀ thread mutex s', Fenced s thread → (s.thread thread).tokenHolding = true →
    Ok s (.call thread (.mutexUnlock mutex)) →
    system.step s (.call thread (.mutexUnlock mutex)) = some s' →
    (s'.thread thread).holding = ∅ → s'.pc thread = .putToken .done
  puts : ∀ thread after, s.pc thread = .putToken after → s.determ.tokenpos = some thread

/-- The last unlock goes on to `putToken`. -/
theorem Thread.Counted.passes {d : Determ} {t : Thread} {mutex : ℕ} (counted : t.Counted)
    (user : t.pc = .user) (on : t.fenceEnabled = true) (holding : t.tokenHolding = true)
    (held : mutex ∈ t.holding) (called : Xrun.call d t me (.mutexUnlock mutex) = some result)
    (last : result.2.holding = ∅) : result.2.pc = .putToken .done := by
  have counts : t.lockCount = t.holding.card := by
    simpa [user, Pc.taking] using counted.count on (by simp [user])
  have fewer : (t.holding.erase mutex).card + 1 = t.holding.card := Finset.card_erase_add_one held
  simp only [Xrun.call, if_pos on] at called
  obtain ⟨d', -, rfl⟩ := Option.map_eq_some_iff.mp called
  have empty : (t.holding.erase mutex).card = 0 := by
    rw [Finset.card_eq_zero]
    change Thread.holding (if _ then _ else _) = ∅ at last
    split at last <;> exact last
  have zero : Determ.decreased t.lockCount = 0 := by
    rw [Determ.decreased_of_pos (by omega)]
    omega
  simp only [zero, holding, and_self, if_true]
  rfl

/-- **Lock bookkeeping.** In every run whose steps all meet the condition, each thread has
booked its mutexes and the token. -/
theorem locksBooked_of_keepsLocks (reach : system.Reachable KeepsLocks s) :
    LocksBooked KeepsLocks s := by
  have counted := counted_of_keepsLocks reach
  have inv := tokenInv_of_keepsToken (fun _ _ keeps => keeps.1) reach
  have counts : ∀ thread, Fenced s thread →
      (s.thread thread).lockCount = (s.thread thread).holding.card := by
    rintro thread ⟨user, on⟩
    change (s.thread thread).pc = .user at user
    simpa [user, Pc.taking] using (counted thread).count on (by simp [user])
  refine ⟨counts, ?_, ?_, ?_, ?_⟩
  · rintro thread ⟨user, -⟩ holding
    apply inv.held
    unfold Thread.hasToken
    change (s.thread thread).pc = .user at user
    simp [user, Thread.claims, holding]
  · intro thread fenced nothing
    by_contra holding
    have positive := (counted thread).token fenced.2 (Bool.not_eq_false _ ▸ holding)
    rw [counts thread fenced, nothing] at positive
    exact absurd positive (Nat.lt_irrefl 0)
  · intro thread mutex s' fenced holding keeps stepped last
    obtain ⟨⟨user, -⟩, move⟩ := Option.ite_none_right_eq_some.mp (move_of_step stepped)
    obtain ⟨result, called, rfl⟩ := Option.map_eq_some_iff.mp move
    have mine : ((s.update thread result).thread thread) = result.2 := Function.update_self ..
    rw [mine] at last
    show ((s.update thread result).thread thread).pc = _
    rw [mine]
    exact (counted thread).passes user fenced.2 holding keeps.2 called last
  · intro thread after puts
    apply inv.held
    unfold Thread.hasToken
    change (s.thread thread).pc = .putToken after at puts
    rw [puts]

end

/-- The first thread takes its mutex with the token, and has counted it. -/
theorem locksBooked_lock : ∃ s, system.Reachable KeepsLocks s ∧ Fenced s 0 ∧
    (s.thread 0).tokenHolding = true ∧ (s.thread 0).lockCount = 1 ∧ LocksBooked KeepsLocks s := by
  have run : (system.runIf (fun s label => decide (KeepsLocks s label)) (start 2 fun _ => 2)
      (locksAndUnlocks.take 19)).any fun s =>
        (s.pc 0 = .user ∧ (s.thread 0).fenceEnabled = true) ∧ (s.thread 0).tokenHolding = true ∧
          (s.thread 0).lockCount = 1 := by decide +kernel
  obtain ⟨s, execution, facts⟩ := (Option.any_eq_true _ _).mp run
  obtain ⟨fenced, holding, counts⟩ := of_decide_eq_true facts
  have start : system.Reachable KeepsLocks (start 2 fun _ => 2) := .init ⟨2, _, Nat.two_pos, rfl⟩
  have reach := start.runIf (fun _ _ => of_decide_eq_true) execution
  exact ⟨s, reach, fenced, holding, counts, locksBooked_of_keepsLocks reach⟩

/-- The first thread locks a mutex before it creates another thread and keeps it. -/
theorem not_locksBooked_before : ¬ ∀ s, system.Reachable AnyStep s → LocksBooked AnyStep s := by
  intro booked
  have run : (system.run (start 2 fun _ => 2)
      (.call 0 (.mutexLock 7) :: locksAndUnlocks.take 19)).any fun s =>
        (s.pc 0 = .user ∧ (s.thread 0).fenceEnabled = true) ∧ (s.thread 0).lockCount = 1 ∧
          (s.thread 0).holding.card = 2 := by decide +kernel
  obtain ⟨s, execution, facts⟩ := (Option.any_eq_true _ _).mp run
  obtain ⟨fenced, counts, held⟩ := of_decide_eq_true facts
  have start : system.Reachable AnyStep (start 2 fun _ => 2) := .init ⟨2, _, Nat.two_pos, rfl⟩
  have same := (booked s (start.run execution)).count 0 fenced
  rw [counts, held] at same
  cases same

end Tthread.Xrun
