/-
# What `startFence` counts

A parent counts its children as it clones them, in memory of its own, and passes the number to
`startFence` later. Here every state is told how many children of each parent have registered
since its last `startFence`, and how many of its calls to `clone` have failed since then. A
failed call is counted like any other one.
-/

import Tthread.Handshake
import Tthread.Library.Counting

namespace Tthread.Xrun

open Transition Counting

structure Tally where
  state : State
  /-- children that have registered since the last `startFence` of their parent -/
  registered : ℕ → ℕ
  /-- calls to `clone` that have failed since the last `startFence` of their caller -/
  failed : ℕ → ℕ

/-- The thread is at `startFence`. -/
def State.StartsFence (s : State) (me : ℕ) : Prop :=
  (s.pc me).StartsFence (s.thread me).fenceEnabled = true

instance (s : State) : DecidablePred s.StartsFence := fun _ => inferInstanceAs (Decidable (_ = _))

def Tally.count (t : Tally) (s' : State) : Label → Tally
  | .exec me =>
      if t.state.StartsFence me then
        ⟨s', Function.update t.registered me 0, Function.update t.failed me 0⟩
      else { t with state := s' }
  | .childRegister parent =>
      { t with
        state := s'
        registered := Function.update t.registered parent (t.registered parent + 1) }
  | .cloneFails me =>
      { t with state := s', failed := Function.update t.failed me (t.failed me + 1) }
  | _ => { t with state := s' }

def tally : System Tally Label where
  Init t := system.Init t.state ∧ t.registered = (fun _ => 0) ∧ t.failed = fun _ => 0
  step t label := (system.step t.state label).map (t.count · label)

/-- The children of `parent` that have an entry and that no `startFence` has counted. -/
def uncounted (s : State) (parent : ℕ) : ℕ :=
  Nat.count (Unannounced s.determ s.pc s.announced parent) s.threadIndex

/-- The number that is passed to `startFence` is that of the children that have registered since
the last one, these are the ones that have an entry and are not counted yet, and the counters of
the fence go up by as many. -/
def CountsRight (t : Tally) : Label → Prop
  | .exec me => t.state.StartsFence me →
      (t.state.thread me).childrenThreadsCount = t.registered me ∧
        t.registered me = uncounted t.state me ∧
        ∀ s', system.step t.state (.exec me) = some s' →
          s'.determ.maxthreads =
              Determ.increased t.state.determ.maxthreads (uncounted t.state me) ∧
            s'.determ.alivethreads =
              Determ.increased t.state.determ.alivethreads (uncounted t.state me)
  | _ => True

/-- At a `startFence` no call of its caller to `clone` has failed since the last one, and no
child of its caller still has to register. -/
def NoneMissing (t : Tally) : Label → Prop
  | .exec me => t.state.StartsFence me → t.failed me = 0 ∧ me ∉ t.state.forks
  | _ => True

instance (t : Tally) : DecidablePred (NoneMissing t) := fun label => by
  induction label using Label.casesOn <;> dsimp only [NoneMissing] <;> infer_instance

/-! ## Where the fence is on -/

/-- The thread is in `join`, behind `startFence`. -/
def Pc.InJoin : Pc → Prop
  | .joinEnter _ | .joinWait _ | .joinToken | .putToken .joined | .fence _ .joined
  | .closeFence => True
  | _ => False

/-- `startFence` is called with the fence off, and left with the fence on. -/
structure Thread.Paired (t : Thread) : Prop where
  starts : ∀ work, t.pc = .startFence work → t.fenceEnabled = false
  joins : t.pc.InJoin → t.fenceEnabled = true

section

variable {d : Determ} {t : Thread} {me : ℕ} {result : Determ × Thread}

/-- What a step does to the number of children and to the flag of its thread. -/
inductive Tallied (t : Thread) : Thread → Prop
  | same {t' : Thread} (flag : t'.fenceEnabled = t.fenceEnabled)
      (count : t'.childrenThreadsCount = t.childrenThreadsCount)
      (noStart : t.pc.StartsFence t.fenceEnabled = false) (noSpawn : t.pc ≠ .work .spawn) :
      Tallied t t'
  | closes {t' : Thread} (at_ : t.pc = .closeFence) (flag : t'.fenceEnabled = false)
      (count : t'.childrenThreadsCount = 0) : Tallied t t'
  | clones {t' : Thread} (at_ : t.pc = .work .spawn) (flag : t'.fenceEnabled = false)
      (count : t'.childrenThreadsCount =
        (if t.fenceEnabled then 0 else t.childrenThreadsCount) + 1) : Tallied t t'
  | starts {t' : Thread} (start : t.pc.StartsFence t.fenceEnabled = true)
      (flag : t'.fenceEnabled = true) : Tallied t t'

theorem getLockAgain_flags {mutex : ℕ} :
    (t.getLockAgain mutex).fenceEnabled = t.fenceEnabled ∧
      (t.getLockAgain mutex).childrenThreadsCount = t.childrenThreadsCount := by
  unfold Thread.getLockAgain
  split <;> exact ⟨rfl, rfl⟩

theorem ite_flags {p : Prop} [Decidable p] {yes no : Thread} {flag : Bool} {count : ℕ}
    (first : yes.fenceEnabled = flag ∧ yes.childrenThreadsCount = count)
    (second : no.fenceEnabled = flag ∧ no.childrenThreadsCount = count) :
    (if p then yes else no).fenceEnabled = flag ∧
      (if p then yes else no).childrenThreadsCount = count := by
  split <;> assumption

theorem signalled_flags : t.signalled.fenceEnabled = t.fenceEnabled ∧
    t.signalled.childrenThreadsCount = t.childrenThreadsCount := ite_flags ⟨rfl, rfl⟩ ⟨rfl, rfl⟩

theorem passed_flags {after : After} : (t.passed after).fenceEnabled = t.fenceEnabled ∧
    (t.passed after).childrenThreadsCount = t.childrenThreadsCount := by
  cases after with
  | relock mutex => exact getLockAgain_flags
  | _ => exact ⟨rfl, rfl⟩

/-- The sections that leave number and flag alone. -/
theorem perform_flags {work : Work} (noSpawn : work ≠ .spawn)
    (noStart : (Pc.work work).StartsFence t.fenceEnabled = false) :
    (perform d t me work).2.fenceEnabled = t.fenceEnabled ∧
      (perform d t me work).2.childrenThreadsCount = t.childrenThreadsCount := by
  cases work with
  | spawn => exact absurd rfl noSpawn
  | join guest =>
    have on : t.fenceEnabled = true := by simpa [Pc.StartsFence] using noStart
    simp only [perform, if_pos on]
    exact ⟨rfl, rfl⟩
  | lock mutex => exact ite_flags ⟨rfl, rfl⟩ ⟨rfl, rfl⟩
  | signal cond | broadcast cond => exact signalled_flags
  | cancel target =>
    simp only [perform]
    split
    · exact ⟨rfl, rfl⟩
    · exact signalled_flags
  | _ => exact ⟨rfl, rfl⟩

theorem exec_tallied (moved : exec d t me = some result) : Tallied t result.2 := by
  have same : (result.2.fenceEnabled = t.fenceEnabled ∧
      result.2.childrenThreadsCount = t.childrenThreadsCount) →
      t.pc.StartsFence t.fenceEnabled = false → t.pc ≠ .work .spawn → Tallied t result.2 :=
    fun both => .same both.1 both.2
  unfold exec at moved
  cases at_ : t.pc <;> rw [at_] at moved
  case absent | waitParentNotify | user | sigWaiting | exited => cases moved
  case startFence work =>
    obtain rfl := Option.some.inj moved
    exact .starts (by rw [at_]; rfl) rfl
  case closeFence =>
    obtain rfl := Option.some.inj moved
    dsimp only
    split
    · exact .closes at_ rfl rfl
    · exact .same rfl rfl (by rw [at_]; rfl) (by rw [at_]; simp)
  case work work =>
    obtain rfl := Option.some.inj (Option.ite_none_left_eq_some.mp moved).2
    -- Of the sections `join` opens a fence and `spawn` counts a child; the others touch neither.
    by_cases starts : (Pc.work work).StartsFence t.fenceEnabled = true
    · cases work with
      | join guest =>
        have off : ¬t.fenceEnabled = true := by simpa [Pc.StartsFence] using starts
        refine .starts (by rw [at_]; exact starts) ?_
        simp only [perform, if_neg off]
      | _ => cases starts
    · by_cases spawns : work = .spawn
      · subst spawns
        exact .clones at_ rfl rfl
      · have noStart := Bool.eq_false_iff.mpr starts
        exact same (perform_flags spawns noStart) (by rw [at_]; exact noStart)
          (by rw [at_]; exact fun there => spawns (Pc.work.inj there))
  -- The remaining steps leave the flag and the count.
  all_goals refine same ?_ (by rw [at_]; rfl) (by rw [at_]; simp)
  case notify work =>
    obtain rfl := Option.some.inj moved
    cases work <;> exact ⟨rfl, rfl⟩
  case fence pos after =>
    obtain ⟨⟨d', next⟩, -, rfl⟩ := Option.map_eq_some_iff.mp moved
    cases next with
    | some pos => exact ⟨rfl, rfl⟩
    | none => exact passed_flags
  case getToken work =>
    simp only [Option.ite_none_right_eq_some, Option.some.injEq] at moved
    obtain ⟨-, rfl⟩ := moved
    cases work <;> exact ⟨rfl, rfl⟩
  case condWaiting cond mutex =>
    simp only at moved
    split at moved
    · obtain rfl := Option.some.inj moved
      exact ⟨rfl, rfl⟩
    · obtain ⟨d', -, rfl⟩ := Option.map_eq_some_iff.mp moved
      exact ⟨rfl, rfl⟩
  case waitChildRegistered =>
    simp only at moved
    split at moved
    · obtain rfl := Option.some.inj moved
      exact ⟨rfl, rfl⟩
    · obtain rfl := Option.some.inj moved
      exact ⟨rfl, rfl⟩
  case lockSingle mutex | lockFast mutex =>
    obtain rfl := Option.some.inj moved
    exact ite_flags ⟨rfl, rfl⟩ getLockAgain_flags
  case parentSleeping | joinToken | condToken | barrierBlocked =>
    simp only [Option.ite_none_right_eq_some, Option.some.injEq] at moved
    obtain ⟨-, rfl⟩ := moved
    exact ⟨rfl, rfl⟩
  all_goals
    obtain rfl := Option.some.inj moved
    exact ⟨rfl, rfl⟩

theorem starts_tallied (starts : t.pc.StartsFence t.fenceEnabled = true)
    (moved : exec d t me = some result) :
    result.2.fenceEnabled = true ∧ t.pc ≠ .work .spawn := by
  have noSpawn : t.pc ≠ .work .spawn := by
    intro at_
    rw [at_] at starts
    cases starts
  refine ⟨?_, noSpawn⟩
  cases exec_tallied moved with
  | same _ _ noStart => exact absurd (noStart.symm.trans starts) nofun
  | closes at_ =>
    rw [at_] at starts
    cases starts
  | clones at_ => exact absurd at_ noSpawn
  | starts _ flag => exact flag

/-- The thread is neither about to start the fence nor in `join` behind that. -/
def Pc.Apart : Pc → Prop
  | .startFence _ | .joinEnter _ | .joinWait _ | .joinToken | .putToken .joined | .fence _ .joined
  | .closeFence => False
  | _ => True

theorem Thread.Paired.of_apart (apart : t.pc.Apart) : t.Paired := by
  constructor
  · intro work at_
    rw [at_] at apart
    exact apart.elim
  · intro joins
    unfold Pc.Apart at apart
    unfold Pc.InJoin at joins
    split at joins <;> simp_all

theorem apart_ite {p : Prop} [Decidable p] {yes no : Thread} (first : yes.pc.Apart)
    (second : no.pc.Apart) : (if p then yes else no).pc.Apart := by
  split <;> assumption

theorem apart_goto_ite {p : Prop} [Decidable p] {yes no : Pc} (first : yes.Apart)
    (second : no.Apart) : (t.goto (if p then yes else no)).pc.Apart := by
  unfold Thread.goto
  split <;> assumption

theorem getLockAgain_apart {mutex : ℕ} : (t.getLockAgain mutex).pc.Apart :=
  apart_ite trivial trivial

theorem signalled_apart : t.signalled.pc.Apart := apart_ite trivial trivial

/-- In `join` the flag stays as it is. -/
theorem Thread.Paired.goto {pc : Pc} (on : t.fenceEnabled = true)
    (noStart : ∀ work, pc ≠ .startFence work) : (t.goto pc).Paired :=
  ⟨fun work at_ => absurd at_ (noStart work), fun _ => on⟩

theorem perform_paired {work : Work} (at_ : t.pc = .work work) :
    (perform d t me work).2.Paired := by
  cases work with
  | join guest =>
    simp only [perform]
    split
    · next on =>
      refine .goto on fun work => ?_
      split <;> simp
    · exact ⟨by simp, fun _ => rfl⟩
  | signal cond | broadcast cond => exact .of_apart signalled_apart
  | lock mutex => exact .of_apart (apart_ite trivial trivial)
  | cancel target =>
    simp only [perform]
    split
    · refine .of_apart ?_
      show t.pc.Apart
      rw [at_]
      trivial
    · exact .of_apart signalled_apart
  | spawn | barrier bar | sigWait | exit => exact .of_apart trivial

theorem exec_paired (paired : t.Paired) (moved : exec d t me = some result) : result.2.Paired := by
  unfold exec at moved
  cases at_ : t.pc <;> rw [at_] at moved
  case absent | waitParentNotify | user | sigWaiting | exited => cases moved
  case startFence work =>
    obtain rfl := Option.some.inj moved
    exact .of_apart trivial
  case closeFence =>
    obtain rfl := Option.some.inj moved
    exact .of_apart (apart_ite trivial trivial)
  case work work =>
    obtain rfl := Option.some.inj (Option.ite_none_left_eq_some.mp moved).2
    exact perform_paired at_
  -- A thread that joins has its fence open, from `join` until it is closed.
  case joinEnter guest | joinWait guest =>
    obtain rfl := Option.some.inj moved
    refine .goto (paired.joins (by rw [at_]; trivial)) fun work => ?_
    split <;> nofun
  case joinToken =>
    simp only [Option.ite_none_right_eq_some, Option.some.injEq] at moved
    obtain ⟨-, rfl⟩ := moved
    exact .goto (paired.joins (by rw [at_]; trivial)) nofun
  case putToken after =>
    obtain rfl := Option.some.inj moved
    cases after with
    | joined => exact .goto (paired.joins (by rw [at_]; trivial)) nofun
    | _ => exact .of_apart trivial
  -- The fence at the end of a join is still the joiner's.
  case fence pos after =>
    obtain ⟨⟨d', next⟩, -, rfl⟩ := Option.map_eq_some_iff.mp moved
    cases after with
    | joined =>
      have on := paired.joins (by rw [at_]; trivial)
      cases next with
      | some pos => exact .goto on nofun
      | none => exact .goto on nofun
    | relock mutex =>
      cases next with
      | some pos => exact .of_apart trivial
      | none => exact .of_apart getLockAgain_apart
    | _ => cases next <;> exact .of_apart trivial
  case notify work =>
    obtain rfl := Option.some.inj moved
    cases work <;> exact .of_apart trivial
  case getToken work =>
    simp only [Option.ite_none_right_eq_some, Option.some.injEq] at moved
    obtain ⟨-, rfl⟩ := moved
    cases work <;> exact .of_apart trivial
  case condWaiting cond mutex =>
    simp only at moved
    split at moved
    · obtain rfl := Option.some.inj moved
      exact .of_apart trivial
    · obtain ⟨d', -, rfl⟩ := Option.map_eq_some_iff.mp moved
      exact paired
  case waitChildRegistered =>
    simp only at moved
    split at moved
    · obtain rfl := Option.some.inj moved
      exact .of_apart trivial
    · obtain rfl := Option.some.inj moved
      exact .of_apart trivial
  case lockIsowner mutex =>
    obtain rfl := Option.some.inj moved
    exact .of_apart (apart_goto_ite trivial trivial)
  case lockSingle mutex | lockFast mutex =>
    obtain rfl := Option.some.inj moved
    exact .of_apart (apart_ite trivial getLockAgain_apart)
  case barrierEnter bar round =>
    obtain rfl := Option.some.inj moved
    exact .of_apart (apart_goto_ite trivial trivial)
  case parentSleeping | condToken | barrierBlocked =>
    simp only [Option.ite_none_right_eq_some, Option.some.injEq] at moved
    obtain ⟨-, rfl⟩ := moved
    exact .of_apart trivial
  case registered | condAcquire =>
    obtain rfl := Option.some.inj moved
    exact .of_apart trivial

theorem call_flags {c : Call} (called : call d t me c = some result) :
    result.2.fenceEnabled = t.fenceEnabled ∧
      result.2.childrenThreadsCount = t.childrenThreadsCount := by
  cases c with
  | mutexUnlock mutex =>
    simp only [call] at called
    split at called
    · obtain ⟨d', -, rfl⟩ := Option.map_eq_some_iff.mp called
      exact ite_flags ⟨rfl, rfl⟩ ⟨rfl, rfl⟩
    · obtain rfl := Option.some.inj called
      exact ⟨rfl, rfl⟩
  | condWait cond mutex =>
    obtain ⟨d', -, rfl⟩ := Option.map_eq_some_iff.mp called
    exact ⟨rfl, rfl⟩
  | sigWait | exit =>
    obtain rfl := Option.some.inj called
    exact ⟨rfl, rfl⟩
  | spawn | join guest | cancel target =>
    obtain rfl := Option.some.inj called
    exact ite_flags ⟨rfl, rfl⟩ ⟨rfl, rfl⟩
  | mutexLock mutex | barrierWait bar =>
    obtain rfl := Option.some.inj called
    exact ite_flags ⟨rfl, rfl⟩ (ite_flags ⟨rfl, rfl⟩ ⟨rfl, rfl⟩)
  | condSignal cond | condBroadcast cond =>
    obtain rfl := Option.some.inj called
    exact ite_flags (ite_flags ⟨rfl, rfl⟩ ⟨rfl, rfl⟩) ⟨rfl, rfl⟩

theorem call_paired {c : Call} (user : t.pc = .user) (called : call d t me c = some result) :
    result.2.Paired := by
  have here : t.pc.Apart := by
    rw [user]
    trivial
  -- A fence is started by those who have none open.
  have starts : ∀ work, ¬t.fenceEnabled = true → (t.goto (.startFence work)).Paired :=
    fun _ off => ⟨fun _ _ => Bool.eq_false_iff.mpr off, nofun⟩
  cases c with
  | mutexUnlock mutex =>
    simp only [call] at called
    split at called
    · obtain ⟨d', -, rfl⟩ := Option.map_eq_some_iff.mp called
      exact .of_apart (apart_ite trivial here)
    · obtain rfl := Option.some.inj called
      exact .of_apart here
  | condWait cond mutex =>
    obtain ⟨d', -, rfl⟩ := Option.map_eq_some_iff.mp called
    exact .of_apart trivial
  | sigWait | exit =>
    obtain rfl := Option.some.inj called
    exact .of_apart trivial
  | spawn | join guest | cancel target =>
    obtain rfl := Option.some.inj called
    exact .of_apart (apart_ite trivial trivial)
  | mutexLock mutex =>
    obtain rfl := Option.some.inj called
    dsimp only
    split
    · exact .of_apart trivial
    · next off =>
      split
      · exact .of_apart trivial
      · exact starts _ off
  | barrierWait bar =>
    obtain rfl := Option.some.inj called
    dsimp only
    split
    · exact .of_apart trivial
    · next off =>
      split
      · exact .of_apart here
      · exact starts _ off
  | condSignal cond | condBroadcast cond =>
    obtain rfl := Option.some.inj called
    exact .of_apart (apart_ite (apart_ite trivial trivial) here)

end

/-! ## The books -/

variable {t t' : Tally} {s s' : State} {me : ℕ} {result : Determ × Thread}

/-- With the fence off a thread counts its registered children, those that still have to
register, and those that never will. -/
structure Booked (t : Tally) (me : ℕ) : Prop where
  paired : (t.state.thread me).Paired
  off : (t.state.thread me).fenceEnabled = false → (t.state.thread me).childrenThreadsCount =
    t.registered me + t.state.forks.count me + t.failed me
  on : (t.state.thread me).fenceEnabled = true →
    t.registered me = 0 ∧ t.state.forks.count me = 0 ∧ t.failed me = 0
  existing : t.registered me = uncounted t.state me

/-- A thread whose step is none of creating and counting children. -/
theorem Booked.keep (booked : Booked t me) {t' : Tally}
    (registered : t'.registered me = t.registered me)
    (failed : t'.failed me = t.failed me) (forks : t'.state.forks.count me = t.state.forks.count me)
    (uncounted : uncounted t'.state me = uncounted t.state me)
    (paired : (t'.state.thread me).Paired)
    (flags : (t'.state.thread me).fenceEnabled = (t.state.thread me).fenceEnabled ∧
      (t'.state.thread me).childrenThreadsCount = (t.state.thread me).childrenThreadsCount) :
    Booked t' me := by
  refine ⟨paired, fun off => ?_, fun on => ?_, ?_⟩
  · rw [flags.1] at off
    rw [flags.2, registered, failed, forks]
    exact booked.off off
  · rw [flags.1] at on
    rw [registered, failed, forks]
    exact booked.on on
  · rw [registered, uncounted]
    exact booked.existing

/-- The number after one more call to `clone`. -/
theorem Booked.cloned (booked : Booked t me) (d : Determ) :
    (perform d (t.state.thread me) me .spawn).2.childrenThreadsCount =
      t.registered me + t.state.forks.count me + (t.failed me + 1) := by
  show (if (t.state.thread me).fenceEnabled = true then 0
    else (t.state.thread me).childrenThreadsCount) + 1 = _
  split
  · next on =>
    obtain ⟨registered, forks, failed⟩ := booked.on on
    rw [registered, forks, failed]
  · next off =>
    rw [booked.off (Bool.eq_false_iff.mpr off)]
    rfl

structure TallyInv (t : Tally) : Prop where
  booked : ∀ me, Booked t me
  kept : WellKept t.state
  targets : Targets t.state
  /-- the first thread, whose entry names itself as its creator, is counted -/
  own : ∀ thread < t.state.threadIndex, t.state.tidParent thread = thread →
    t.state.announced thread = true

theorem uncounted_congr {parent : ℕ} (kept : WellKept s) (kept' : WellKept s')
    (index : s'.threadIndex = s.threadIndex)
    (tidParent : ∀ thread, s'.tidParent thread = s.tidParent thread)
    (announced : ∀ thread < s.threadIndex, s.tidParent thread = parent →
      (s'.announced thread = true ↔ s.announced thread = true)) :
    uncounted s' parent = uncounted s parent := by
  unfold uncounted
  rw [index]
  refine count_congr fun thread below => ?_
  have present := kept.present thread below
  have present' := kept'.present thread (index ▸ below)
  unfold Unannounced
  rw [show (s'.determ.entries thread).tidParent = s.tidParent thread from tidParent thread]
  show _ ↔ _ ∧ s.tidParent thread = parent ∧ _
  by_cases child : s.tidParent thread = parent
  · have same := announced thread below child
    rw [Bool.eq_false_iff, Bool.eq_false_iff, ne_eq, ne_eq, same]
    tauto
  · tauto

/-- The step of another thread leaves number and flag alone. -/
theorem others_flags (s : State) (me thread : ℕ) :
    ((s.others me).thread thread).fenceEnabled = (s.thread thread).fenceEnabled ∧
      ((s.others me).thread thread).childrenThreadsCount =
        (s.thread thread).childrenThreadsCount := by
  rw [others_thread]
  split
  · unfold wakeChild
    split <;> exact ⟨rfl, rfl⟩
  · split
    · unfold announce
      split <;> exact ⟨rfl, rfl⟩
    · split <;> exact ⟨rfl, rfl⟩

theorem others_paired {thread : ℕ} (paired : (s.thread thread).Paired) :
    ((s.others me).thread thread).Paired := by
  rw [others_thread]
  split
  · unfold wakeChild
    split
    · exact .of_apart trivial
    · exact paired
  · split
    · unfold announce
      split
      · exact ⟨paired.starts, paired.joins⟩
      · exact paired
    · split
      · unfold kill
        split
        · exact .of_apart trivial
        · exact ⟨paired.starts, paired.joins⟩
      · exact paired

/-- A step of one thread that is none of creating and counting children. -/
theorem TallyInv.update (inv : TallyInv t) (kept : WellKept (t.state.update me result))
    (targets : Targets (t.state.update me result))
    (announced : result.2.announced = t.state.announced me)
    (tidParent : ∀ thread, (result.1.entries thread).tidParent = t.state.tidParent thread)
    (paired : result.2.Paired)
    (flags : result.2.fenceEnabled = (t.state.thread me).fenceEnabled ∧
      result.2.childrenThreadsCount = (t.state.thread me).childrenThreadsCount) :
    TallyInv { t with state := t.state.update me result } := by
  have known : (t.state.update me result).announced = t.state.announced :=
    update_announced_same announced
  refine ⟨fun thread => ?_, kept, targets, fun thread below self => ?_⟩
  · have same : uncounted (t.state.update me result) thread = uncounted t.state thread :=
      uncounted_congr inv.kept kept rfl tidParent fun other _ _ => by rw [known]
    refine (inv.booked thread).keep rfl rfl rfl same ?_ ?_
    · show (Function.update t.state.thread me result.2 thread).Paired
      by_cases here : thread = me
      · subst here
        rwa [Function.update_self]
      · rw [Function.update_of_ne here]
        exact (inv.booked thread).paired
    · show (Function.update t.state.thread me result.2 thread).fenceEnabled = _ ∧
        (Function.update t.state.thread me result.2 thread).childrenThreadsCount = _
      by_cases here : thread = me
      · subst here
        rwa [Function.update_self]
      · rw [Function.update_of_ne here]
        exact ⟨rfl, rfl⟩
  · show (t.state.update me result).announced thread = true
    rw [known]
    exact inv.own thread below ((tidParent thread).symm.trans self)

/-- A child registers. -/
theorem TallyInv.childRegister (inv : TallyInv t) {parent : ℕ} (forked : parent ∈ t.state.forks)
    (stepped : Xrun.step t.state (.childRegister parent) = some s') :
    TallyInv (t.count s' (.childRegister parent)) := by
  have kept := inv.kept.step inv.targets stepped
  have targets := inv.targets.step stepped
  obtain ⟨-, rfl⟩ := guarded (move_of_step stepped)
  let s' : State := {
    determ := t.state.determ.registerThread t.state.threadIndex parent
    thread := Function.update t.state.thread t.state.threadIndex
      (childRecord (t.state.thread parent))
    threadIndex := t.state.threadIndex + 1
    forks := t.state.forks.erase parent }
  have mine : s'.thread t.state.threadIndex = childRecord (t.state.thread parent) :=
    Function.update_self ..
  have theirs : ∀ thread ≠ t.state.threadIndex, s'.thread thread = t.state.thread thread :=
    fun thread different => Function.update_of_ne different ..
  have tidParent :
      ∀ thread ≠ t.state.threadIndex, s'.tidParent thread = t.state.tidParent thread := by
    intro thread different
    show (Function.update t.state.determ.entries t.state.threadIndex _ thread).tidParent = _
    rw [Function.update_of_ne different]
    rfl
  have own : s'.tidParent t.state.threadIndex = parent := by
    show (Function.update t.state.determ.entries t.state.threadIndex _
      t.state.threadIndex).tidParent = _
    rw [Function.update_self]
  have absent : t.state.thread t.state.threadIndex = absentThread := inv.kept.fresh _ le_rfl
  -- Nothing was counted for the new thread.
  have new : t.registered t.state.threadIndex = 0 ∧
      t.state.forks.count t.state.threadIndex = 0 ∧ t.failed t.state.threadIndex = 0 := by
    have off := (inv.booked t.state.threadIndex).off (by rw [absent]; rfl)
    rw [absent] at off
    have zero : 0 = _ := off
    omega
  have one : 0 < t.state.forks.count parent := List.count_pos_iff.mpr forked
  have different : parent ≠ t.state.threadIndex := by
    rintro rfl
    omega
  have counted : ∀ other, uncounted s' other =
      uncounted t.state other + if parent = other then 1 else 0 := by
    intro other
    show Nat.count (Unannounced s'.determ s'.pc s'.announced other) (t.state.threadIndex + 1) = _
    rw [Nat.count_succ]
    congr 1
    · refine count_congr fun thread below => ?_
      show (s'.thread thread).announced = false ∧ s'.tidParent thread = other ∧
        (s'.thread thread).pc ≠ .absent ↔ _
      rw [theirs thread below.ne, tidParent thread below.ne]
      rfl
    · refine if_congr ?_ rfl rfl
      show (s'.thread t.state.threadIndex).announced = false ∧
        s'.tidParent t.state.threadIndex = other ∧ (s'.thread t.state.threadIndex).pc ≠ .absent ↔ _
      rw [mine, own]
      exact ⟨fun both => both.2.1, fun same => ⟨rfl, same, nofun⟩⟩
  show TallyInv ⟨s', Function.update t.registered parent (t.registered parent + 1), t.failed⟩
  refine ⟨fun thread => ?_, kept, targets, fun thread below self => ?_⟩
  · by_cases creator : thread = parent
    · -- one child less has to register
      subst creator
      have off : (t.state.thread thread).fenceEnabled = false := by
        rw [Bool.eq_false_iff]
        intro on
        have none := ((inv.booked thread).on on).2.1
        omega
      have erased : (t.state.forks.erase thread).count thread = t.state.forks.count thread - 1 :=
        List.count_erase_self
      have before := (inv.booked thread).off off
      refine ⟨?_, fun _ => ?_, fun on => ?_, ?_⟩
      · show (s'.thread thread).Paired
        rw [theirs thread different]
        exact (inv.booked thread).paired
      · show (s'.thread thread).childrenThreadsCount =
          Function.update t.registered thread _ thread +
          (t.state.forks.erase thread).count thread + t.failed thread
        rw [theirs thread different, Function.update_self, erased, before]
        omega
      · have still : (s'.thread thread).fenceEnabled = true := on
        rw [theirs thread different, off] at still
        cases still
      · show Function.update t.registered thread _ thread = uncounted s' thread
        rw [Function.update_self, counted, if_pos rfl, (inv.booked thread).existing]
    · have same : (t.state.forks.erase parent).count thread = t.state.forks.count thread :=
        List.count_erase_of_ne creator
      have registered : Function.update t.registered parent (t.registered parent + 1) thread =
          t.registered thread := Function.update_of_ne creator ..
      have existing : uncounted s' thread = uncounted t.state thread := by
        rw [counted, if_neg (Ne.symm creator), Nat.add_zero]
      by_cases here : thread = t.state.threadIndex
      · subst here
        refine ⟨?_, fun off => ?_, fun _ => ⟨registered.trans new.1, same.trans new.2.1, new.2.2⟩,
          registered.trans ((inv.booked _).existing.trans existing.symm)⟩
        · show (s'.thread t.state.threadIndex).Paired
          rw [mine]
          exact .of_apart trivial
        · have on : (s'.thread t.state.threadIndex).fenceEnabled = false := off
          rw [mine] at on
          cases on
      · have unchanged : s'.thread thread = t.state.thread thread := theirs thread here
        refine (inv.booked thread).keep registered rfl same existing ?_ ?_
        · show (s'.thread thread).Paired
          rw [unchanged]
          exact (inv.booked thread).paired
        · show (s'.thread thread).fenceEnabled = _ ∧ (s'.thread thread).childrenThreadsCount = _
          rw [unchanged]
          exact ⟨rfl, rfl⟩
  · change s'.tidParent thread = thread at self
    by_cases here : thread = t.state.threadIndex
    · rw [here, own] at self
      exact absurd self different
    · have old : thread < t.state.threadIndex :=
        Nat.lt_of_le_of_ne (Nat.le_of_lt_succ below) here
      show (s'.thread thread).announced = true
      rw [theirs thread here]
      exact inv.own thread old ((tidParent thread here).symm.trans self)

/-- A clone fails, and is counted. -/
theorem TallyInv.cloneFails (inv : TallyInv t)
    (stepped : Xrun.step t.state (.cloneFails me) = some s') :
    TallyInv (t.count s' (.cloneFails me)) := by
  have kept := inv.kept.step inv.targets stepped
  have targets := inv.targets.step stepped
  obtain ⟨at_, rfl⟩ := guarded (move_of_step stepped)
  let result : Determ × Thread :=
    (t.state.determ, (perform t.state.determ (t.state.thread me) me .spawn).2.goto .user)
  show TallyInv ⟨t.state.update me result, t.registered,
    Function.update t.failed me (t.failed me + 1)⟩
  have known : (t.state.update me result).announced = t.state.announced :=
    update_announced_same rfl
  -- No thread is announced here, so nobody's children change.
  have existing : ∀ thread, uncounted (t.state.update me result) thread =
      uncounted t.state thread := fun thread =>
    uncounted_congr inv.kept kept rfl (fun _ => rfl) fun other _ _ => by rw [known]
  refine ⟨fun thread => ?_, kept, targets, fun thread below self => ?_⟩
  · by_cases here : thread = me
    · subst here
      have mine : (t.state.update thread result).thread thread = result.2 :=
        Function.update_self ..
      refine ⟨?_, fun _ => ?_, fun on => ?_, ?_⟩
      · show ((t.state.update thread result).thread thread).Paired
        rw [mine]
        exact .of_apart trivial
      · show ((t.state.update thread result).thread thread).childrenThreadsCount =
          t.registered thread + t.state.forks.count thread +
            Function.update t.failed thread _ thread
        rw [mine, Function.update_self]
        exact (inv.booked thread).cloned t.state.determ
      · -- After a clone the fence is closed.
        have off : ((t.state.update thread result).thread thread).fenceEnabled = true := on
        rw [mine] at off
        cases off
      · exact (inv.booked thread).existing.trans (existing thread).symm
    · have unchanged : (t.state.update me result).thread thread = t.state.thread thread :=
        Function.update_of_ne here ..
      refine (inv.booked thread).keep rfl (Function.update_of_ne here ..) rfl
        (existing thread) ?_ ?_
      · show ((t.state.update me result).thread thread).Paired
        rw [unchanged]
        exact (inv.booked thread).paired
      · show ((t.state.update me result).thread thread).fenceEnabled = _ ∧
          ((t.state.update me result).thread thread).childrenThreadsCount = _
        rw [unchanged]
        exact ⟨rfl, rfl⟩
  · show (t.state.update me result).announced thread = true
    rw [known]
    exact inv.own thread below self

/-- The state after a step of `me`. -/
def State.after (s : State) (me : ℕ) (result : Determ × Thread) : State :=
  { (s.others me).update me result with
    forks := if (s.thread me).pc = .work .spawn then me :: s.forks else s.forks }

theorem after_self : (s.after me result).thread me = result.2 := Function.update_self ..

theorem after_of_ne {thread : ℕ} (different : thread ≠ me) :
    (s.after me result).thread thread = (s.others me).thread thread :=
  Function.update_of_ne different ..

theorem after_forks {thread : ℕ} (different : thread ≠ me) :
    (s.after me result).forks.count thread = s.forks.count thread := by
  show (if (s.thread me).pc = .work .spawn then me :: s.forks else s.forks).count thread = _
  split
  · exact List.count_cons_of_ne different.symm
  · rfl

/-- Any other step of a thread. -/
theorem TallyInv.execPlain (inv : TallyInv t) (plain : ¬t.state.StartsFence me)
    (executed : Xrun.exec t.state.determ (t.state.thread me) me = some result)
    (kept : WellKept (t.state.after me result)) (targets : Targets (t.state.after me result)) :
    TallyInv { t with state := t.state.after me result } := by
  have tidParent :
      ∀ thread, (t.state.after me result).tidParent thread = t.state.tidParent thread :=
    (exec_unrelated executed).tidParent
  have announced : ∀ thread, (t.state.after me result).announced thread =
      t.state.announced thread := by
    -- No fence is started, so nobody is announced by the step.
    intro thread
    by_cases here : thread = me
    · subst here
      exact (congrArg Thread.announced after_self).trans (exec_announced executed)
    · exact (congrArg Thread.announced (after_of_ne here)).trans
        (congrFun (others_announced (Bool.eq_false_iff.mpr plain)) thread)
  have existing : ∀ thread, uncounted (t.state.after me result) thread = uncounted t.state thread :=
    fun thread => uncounted_congr inv.kept kept (others_threadIndex t.state me) tidParent
      fun other _ _ => by rw [announced]
  refine ⟨fun thread => ?_, kept, targets, fun thread below self => ?_⟩
  · by_cases here : thread = me
    · subst here
      have booked := inv.booked thread
      have mine : (t.state.after thread result).thread thread = result.2 := after_self
      have paired : ((t.state.after thread result).thread thread).Paired := by
        rw [mine]
        exact exec_paired booked.paired executed
      have registered : t.registered thread = uncounted (t.state.after thread result) thread :=
        booked.existing.trans (existing thread).symm
      cases exec_tallied executed with
      | same flag count noStart noSpawn =>
        refine booked.keep rfl rfl ?_ (existing thread) paired ?_
        · show (if _ then _ else t.state.forks).count thread = _
          rw [if_neg noSpawn]
        · show ((t.state.after thread result).thread thread).fenceEnabled = _ ∧
            ((t.state.after thread result).thread thread).childrenThreadsCount = _
          rw [mine]
          exact ⟨flag, count⟩
      -- The count is cleared together with the flag, and what it counts has been announced.
      | closes at_ flag count =>
        obtain ⟨none, forks, failed⟩ := booked.on (booked.paired.joins (by rw [at_]; trivial))
        refine ⟨paired, fun _ => ?_, fun on => ?_, registered⟩
        · show ((t.state.after thread result).thread thread).childrenThreadsCount =
            t.registered thread + (if _ then _ else t.state.forks).count thread + t.failed thread
          rw [mine, if_neg (by rw [at_]; nofun), count, none, forks, failed]
        · have off : ((t.state.after thread result).thread thread).fenceEnabled = true := on
          rw [mine, flag] at off
          cases off
      -- The clone is counted before it is on its way.
      | clones at_ flag count =>
        refine ⟨paired, fun _ => ?_, fun on => ?_, registered⟩
        · show ((t.state.after thread result).thread thread).childrenThreadsCount =
            t.registered thread + (if _ then _ else t.state.forks).count thread + t.failed thread
          have cloned := booked.cloned t.state.determ
          rw [mine, if_pos at_, count, List.count_cons_self]
          change (if (t.state.thread thread).fenceEnabled = true then 0
            else (t.state.thread thread).childrenThreadsCount) + 1 = _ at cloned
          omega
        · have off : ((t.state.after thread result).thread thread).fenceEnabled = true := on
          rw [mine, flag] at off
          cases off
      | starts start _ => exact absurd start plain
    · -- The books of the others do not change.
      refine (inv.booked thread).keep rfl rfl (after_forks here) (existing thread) ?_ ?_
      · show ((t.state.after me result).thread thread).Paired
        rw [after_of_ne here]
        exact others_paired (inv.booked thread).paired
      · show ((t.state.after me result).thread thread).fenceEnabled = _ ∧
          ((t.state.after me result).thread thread).childrenThreadsCount = _
        rw [after_of_ne here]
        exact others_flags t.state me thread
  · show (t.state.after me result).announced thread = true
    rw [announced]
    exact inv.own thread (others_threadIndex t.state me ▸ below)
      ((tidParent thread).symm.trans self)

/-- `startFence` counts all children that have registered, and there are no others. -/
theorem TallyInv.execStart (inv : TallyInv t) (starts : t.state.StartsFence me)
    (here : me ∉ t.state.forks)
    (executed : Xrun.exec t.state.determ (t.state.thread me) me = some result)
    (kept : WellKept (t.state.after me result)) (targets : Targets (t.state.after me result)) :
    TallyInv ⟨t.state.after me result, Function.update t.registered me 0,
      Function.update t.failed me 0⟩ := by
  obtain ⟨on, noSpawn⟩ := starts_tallied starts executed
  obtain ⟨quiet, -, -, -⟩ := Pc.StartsFence.apart starts
  have tidParent :
      ∀ thread, (t.state.after me result).tidParent thread = t.state.tidParent thread :=
    (exec_unrelated executed).tidParent
  have mine : (t.state.after me result).announced me = t.state.announced me :=
    (congrArg Thread.announced after_self).trans (exec_announced executed)
  have theirs : ∀ thread ≠ me, (t.state.after me result).announced thread = true ↔
      t.state.announced thread = true ∨
        Unannounced t.state.determ t.state.pc t.state.announced me thread := by
    intro thread different
    unfold State.announced
    rw [after_of_ne different]
    exact (others_announced_start quiet starts thread).1
  have index : (t.state.after me result).threadIndex = t.state.threadIndex :=
    others_threadIndex t.state me
  -- Nobody who exists is left out.
  have nobody : uncounted (t.state.after me result) me = 0 := by
    unfold uncounted
    rw [index]
    refine Nat.count_iff_forall_not.mpr fun thread below unknown => ?_
    have own : t.state.tidParent thread = me := (tidParent thread).symm.trans unknown.2.1
    have still : (t.state.after me result).announced thread = false := unknown.1
    by_cases here : thread = me
    · rw [here, mine, inv.own me (here ▸ below) (here ▸ own)] at still
      cases still
    · by_cases known : t.state.announced thread = true
      · rw [(theirs thread here).mpr (.inl known)] at still
        cases still
      · have child := (theirs thread here).mpr (.inr ⟨Bool.eq_false_iff.mpr known, own,
          inv.kept.present thread below⟩)
        rw [child] at still
        cases still
  refine ⟨fun thread => ?_, kept, targets, fun thread below self => ?_⟩
  · by_cases other : thread = me
    · subst other
      have self : (t.state.after thread result).thread thread = result.2 := after_self
      refine ⟨?_, fun off => ?_, fun _ => ⟨Function.update_self .., ?_, Function.update_self ..⟩,
        ?_⟩
      · show ((t.state.after thread result).thread thread).Paired
        rw [self]
        exact exec_paired (inv.booked thread).paired executed
      · have still : ((t.state.after thread result).thread thread).fenceEnabled = false := off
        rw [self, on] at still
        cases still
      · show (if _ then _ else t.state.forks).count thread = 0
        rw [if_neg noSpawn]
        exact List.count_eq_zero.mpr here
      · show Function.update t.registered thread 0 thread = _
        rw [Function.update_self]
        exact nobody.symm
    · have existing : uncounted (t.state.after me result) thread = uncounted t.state thread := by
        refine uncounted_congr inv.kept kept index tidParent fun child below parent => ?_
        by_cases self : child = me
        · rw [self, mine]
        · rw [theirs child self]
          exact ⟨fun either => either.elim id fun unknown =>
            absurd (parent.symm.trans unknown.2.1) other, .inl⟩
      refine (inv.booked thread).keep (Function.update_of_ne other ..)
        (Function.update_of_ne other ..) (after_forks other) existing ?_ ?_
      · show ((t.state.after me result).thread thread).Paired
        rw [after_of_ne other]
        exact others_paired (inv.booked thread).paired
      · show ((t.state.after me result).thread thread).fenceEnabled = _ ∧
          ((t.state.after me result).thread thread).childrenThreadsCount = _
        rw [after_of_ne other]
        exact others_flags t.state me thread
  · have known := inv.own thread (index ▸ below) ((tidParent thread).symm.trans self)
    by_cases other : thread = me
    · rw [other] at known ⊢
      exact mine.trans known
    · exact (theirs thread other).mpr (.inl known)

theorem TallyInv.exec (inv : TallyInv t) (none_missing : NoneMissing t (.exec me))
    (stepped : Xrun.step t.state (.exec me) = some s') : TallyInv (t.count s' (.exec me)) := by
  have kept := inv.kept.step inv.targets stepped
  have targets := inv.targets.step stepped
  obtain ⟨result, executed, rfl⟩ := Option.map_eq_some_iff.mp (move_of_step stepped)
  show TallyInv (if _ then _ else _)
  split
  · next starts => exact inv.execStart starts (none_missing starts).2 executed kept targets
  · next plain => exact inv.execPlain plain executed kept targets

theorem TallyInv.step (inv : TallyInv t) {label : Label} (none_missing : NoneMissing t label)
    (moved : tally.step t label = some t') : TallyInv t' := by
  obtain ⟨s', stepped, rfl⟩ := Option.map_eq_some_iff.mp moved
  have step : Xrun.step t.state label = some s' := stepped
  have kept := inv.kept.step inv.targets step
  have targets := inv.targets.step step
  have move := move_of_step step
  cases label with
  | call me c =>
    obtain ⟨⟨user, -⟩, move⟩ := Option.ite_none_right_eq_some.mp move
    obtain ⟨result, called, rfl⟩ := Option.map_eq_some_iff.mp move
    exact inv.update kept targets (call_announced called) (call_asleep called).2.1
      (call_paired user called) (call_flags called)
  | exec me => exact inv.exec none_missing step
  | childRegister parent => exact inv.childRegister (guarded move).1 step
  | cloneFails me => exact inv.cloneFails step
  | spuriousReturn me =>
    simp only [Xrun.move] at move
    split at move
    · obtain rfl := Option.some.inj move
      exact inv.update kept targets rfl (fun _ => rfl) (.of_apart trivial) ⟨rfl, rfl⟩
    · obtain rfl := Option.some.inj move
      exact inv.update kept targets rfl (fun _ => rfl) (.of_apart trivial) ⟨rfl, rfl⟩
    · cases move
  | sigwaitReturns me =>
    obtain ⟨at_, rfl⟩ := guarded move
    have unrelated : Unrelated t.state.determ (t.state.determ.sigWaitWoken me) :=
      calm_sigWaitWoken.toUnrelated
    exact inv.update kept targets rfl unrelated.tidParent (.of_apart trivial) ⟨rfl, rfl⟩
  | sigwaitFails me =>
    obtain ⟨at_, rfl⟩ := guarded move
    exact inv.update kept targets rfl (fun _ => rfl) (.of_apart trivial) ⟨rfl, rfl⟩

theorem initial_tallyInv (initial : tally.Init t) : TallyInv t := by
  obtain ⟨s, registered, failed⟩ := t
  obtain ⟨initial, rfl, rfl⟩ := initial
  have targets : Targets s := targets_of_reachable (.init initial : system.Reachable AnyStep s)
  obtain ⟨cores, counts, -, rfl⟩ := initial
  have others : ∀ thread, thread ≠ 0 → (start cores counts).thread thread = absentThread :=
    fun thread different =>
      (start_wellKept cores counts).fresh thread (Nat.one_le_iff_ne_zero.mpr different)
  have plain : ∀ thread, ((start cores counts).thread thread).pc.Apart ∧
      ((start cores counts).thread thread).fenceEnabled = false ∧
      ((start cores counts).thread thread).childrenThreadsCount = 0 := by
    intro thread
    by_cases here : thread = 0
    · subst here
      exact ⟨trivial, rfl, rfl⟩
    · rw [others thread here]
      exact ⟨trivial, rfl, rfl⟩
  have nobody : ∀ parent, uncounted (start cores counts) parent = 0 := by
    intro parent
    refine Nat.count_iff_forall_not.mpr fun thread below unknown => ?_
    obtain rfl : thread = 0 := Nat.lt_one_iff.mp below
    cases unknown.1
  refine ⟨fun thread => ?_, start_wellKept cores counts, targets, fun thread below _ => ?_⟩
  · obtain ⟨apart, off, count⟩ := plain thread
    exact ⟨.of_apart apart, fun _ => count, fun on => absurd (off.symm.trans on) nofun,
      (nobody thread).symm⟩
  · obtain rfl : thread = 0 := Nat.lt_one_iff.mp below
    rfl

theorem starts_determ {d : Determ} {thread : Thread}
    (starts : thread.pc.StartsFence thread.fenceEnabled = true)
    (moved : Xrun.exec d thread me = some result) :
    result.1 = d.startFence thread.childrenThreadsCount := by
  cases at_ : thread.pc <;> rw [at_] at starts
  case startFence work =>
    simp only [Xrun.exec, at_, Option.some.injEq] at moved
    rw [← moved]
  case work work =>
    cases work with
    | join guest =>
      have off : ¬thread.fenceEnabled = true := by simpa [Pc.StartsFence] using starts
      simp only [Xrun.exec, at_, crashes, Bool.false_eq_true, if_false, perform, if_neg off,
        Option.some.injEq] at moved
      rw [← moved]
    | _ => cases starts
  all_goals cases starts

theorem starts_off {thread : Thread} (paired : thread.Paired)
    (starts : thread.pc.StartsFence thread.fenceEnabled = true) : thread.fenceEnabled = false := by
  cases at_ : thread.pc with
  | startFence work => exact paired.starts work at_
  | work work =>
    rw [at_] at starts
    cases work with
    | join guest => simpa [Pc.StartsFence] using starts
    | _ => cases starts
  | _ =>
    rw [at_] at starts
    cases starts

/-- At `startFence` the number is right just when no call to `clone` has failed and no child
still has to register. -/
theorem TallyInv.countsRight_iff (inv : TallyInv t) (label : Label) :
    CountsRight t label ↔ NoneMissing t label := by
  cases label with
  | exec me =>
    refine forall_congr' fun starts => ?_
    have booked := inv.booked me
    have total := booked.off (starts_off booked.paired starts)
    rw [← List.count_eq_zero]
    constructor
    · rintro ⟨right, -⟩
      omega
    · rintro ⟨failed, forks⟩
      have right : (t.state.thread me).childrenThreadsCount = t.registered me := by omega
      refine ⟨right, booked.existing, fun s' stepped => ?_⟩
      obtain ⟨result, executed, rfl⟩ := Option.map_eq_some_iff.mp (move_of_step stepped)
      rw [← booked.existing, ← right]
      show result.1.maxthreads = _ ∧ result.1.alivethreads = _
      rw [starts_determ starts executed]
      exact ⟨rfl, rfl⟩
  | _ => exact .rfl

/-- **Counting children.** In every run the numbers passed to `startFence` are those of the
children that registered since the last one just when no clone before it has failed and no child
is still to register. -/
theorem countsRight_iff_noneMissing (initial : tally.Init t) (labels : List Label) :
    tally.Complies CountsRight t labels ↔ tally.Complies NoneMissing t labels :=
  System.complies_congr (fun _ label inv => inv.countsRight_iff label)
    (fun _ _ _ inv none_missing moved => inv.step none_missing moved)
      (initial_tallyInv initial) labels

def startTally (cores : ℕ) (counts : ℕ → ℕ) : Tally := ⟨start cores counts, fun _ => 0, fun _ => 0⟩

/-- The first thread creates a child, joins it, and starts the fence for that. -/
theorem countsRight_oneChild : ∃ t labels, tally.Init t ∧ (tally.run t labels).any (fun t =>
    t.state.pc 0 = .joinEnter 1 ∧ t.state.determ.maxthreads = 2) ∧
      tally.Complies CountsRight t labels := by
  let labels : List Label := [.call 0 .spawn, .exec 0, .childRegister 0, .exec 1, .exec 0,
    .call 0 (.join 1), .exec 0]
  have run : (tally.runIf (fun t label => decide (NoneMissing t label)) (startTally 2 fun _ => 2)
      labels).any fun t => t.state.pc 0 = .joinEnter 1 ∧ t.state.determ.maxthreads = 2 := by
    decide +kernel
  obtain ⟨t, execution, facts⟩ := (Option.any_eq_true _ _).mp run
  obtain ⟨complies, follows⟩ :=
    System.complies_of_runIf (fun _ _ passes => of_decide_eq_true passes)
    execution
  have initial : tally.Init (startTally 2 fun _ => 2) := ⟨⟨2, _, Nat.two_pos, rfl⟩, rfl, rfl⟩
  refine ⟨startTally 2 fun _ => 2, labels, initial, ?_,
    (countsRight_iff_noneMissing initial labels).mpr complies⟩
  rw [follows]
  exact facts

/-- A clone that fails is counted with the one that comes about. -/
theorem not_countsRight_failed :
    ¬ ∀ t labels, tally.Init t → tally.Complies CountsRight t labels := by
  intro holds
  let labels : List Label := [.call 0 .spawn, .cloneFails 0, .call 0 .spawn, .exec 0,
    .childRegister 0, .exec 1, .exec 0, .call 0 (.join 1)]
  have run : (tally.run (startTally 2 fun _ => 2) labels).any fun t => t.state.StartsFence 0 ∧
      (t.state.thread 0).childrenThreadsCount ≠ t.registered 0 := by decide +kernel
  obtain ⟨t, execution, facts⟩ := (Option.any_eq_true _ _).mp run
  obtain ⟨starts, wrong⟩ := of_decide_eq_true facts
  have initial : tally.Init (startTally 2 fun _ => 2) := ⟨⟨2, _, Nat.two_pos, rfl⟩, rfl, rfl⟩
  have complies := (holds _ (labels ++ [.exec 0]) initial).rest execution
  exact wrong (complies.1 starts).1

end Tthread.Xrun
