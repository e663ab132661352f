/-
# Sections under the token

What the threads of a program do, cut at their sections under the token: a section is a function
of what the threads share and of the thread that begins it, and between two of its sections a
thread goes on by itself.

This is lost where a section does without the token. An owner takes its mutex without it, a
parent may go on before its child has registered, a waiter that wakes up for nothing releases
a mutex that is not its own, and `cancel` and `sigwait` act at any time.
-/

import Tthread.SharedView

namespace Tthread.Xrun

/-! ## Sections and decisions -/

/-- What a thread does under the token. -/
inductive Act
  /-- the section that begins at this position -/
  | step (at_ : Pc)
  | call (call : Call)
  /-- its child registers -/
  | register
  deriving DecidableEq

/-- A section under the token. -/
structure Event where
  thread : ℕ
  act : Act
  deriving DecidableEq

/-- What a thread decides, or finds out. -/
inductive Input
  | call (call : Call)
  /-- `isSingleAliveThread`, at the end of `join` -/
  | alone (single : Bool)
  deriving DecidableEq

/-- At this position a thread needs the token. -/
def Pc.TakesTurn : Pc → Bool
  | .work _ | .putToken _ | .joinEnter _ | .condAcquire _ => true
  | _ => false

/-- The call begins with a section of its own. -/
def Call.TakesTurn (fenceEnabled : Bool) : Call → Bool
  | .mutexUnlock _ => fenceEnabled
  | .condWait .. => true
  | _ => false

/-- The call acts whoever has the token. -/
def Call.AtAnyTime : Call → Bool
  | .sigWait | .cancel _ => true
  | _ => false

/-- The section under the token that the step is. -/
def turn (s : State) : Label → Option Event
  | .call me c => if c.TakesTurn (s.thread me).fenceEnabled then some ⟨me, .call c⟩ else none
  | .exec me => if (s.pc me).TakesTurn then some ⟨me, .step (s.pc me)⟩ else none
  | .childRegister parent => some ⟨parent, .register⟩
  | _ => none

/-- The decision that the step takes. -/
def decision (s : State) : Label → Option (ℕ × Input)
  | .call me c => some (me, .call c)
  | .exec me =>
      if s.pc me = .closeFence then some (me, .alone s.determ.isSingleAliveThread) else none
  | _ => none

/-! ## What a thread comes to by itself -/

namespace Thread

/-- The thread without the mark of the fence. -/
def plain (t : Thread) : Thread := { t with announced := false }

/-- The thread where it begins its next section, or decides. -/
def ahead (t : Thread) : Thread :=
  match t.pc with
  | .registered | .waitParentNotify | .waitChildRegistered | .parentSleeping
  | .barrierEnter .. | .barrierBlocked .. | .fence _ .done => t.plain.goto .user
  | .startFence (.lock mutex) =>
      ({ t.plain with childrenThreadsCount := 0, fenceEnabled := true }.startLock mutex).gotToken
        (.lock mutex)
  | .startFence work =>
      { t.plain with childrenThreadsCount := 0, fenceEnabled := true }.goto (.work work)
  | .notify (.lock mutex) => (t.plain.startLock mutex).gotToken (.lock mutex)
  | .notify work => t.plain.goto (.work work)
  | .lockIsowner mutex | .lockSingle mutex | .lockFast mutex | .fence _ (.relock mutex) =>
      t.plain.gotToken (.lock mutex)
  | .fence _ (.getToken work) | .getToken work => t.plain.gotToken work
  | .fence _ .joined => t.plain.goto .closeFence
  | .joinWait _ | .joinToken => t.plain.goto (.putToken .joined)
  | .condWaiting _ mutex | .condToken mutex => t.plain.goto (.condAcquire mutex)
  | _ => t.plain

/-- The thread after a call, where it begins the section of the call or is back in the program.
There is none if the call begins with a section. -/
def asks (t : Thread) : Call → Option Thread
  | .spawn => some (t.goto (.work .spawn))
  | .join guest => some (t.goto (.work (.join guest)))
  | .mutexLock mutex => some
      (if t.fenceEnabled then (t.startLock mutex).gotToken (.lock mutex)
      else if t.childrenThreadsCount = 0 then t.acquired mutex
      else ({ t with childrenThreadsCount := 0, fenceEnabled := true }.startLock mutex).gotToken
        (.lock mutex))
  | .mutexUnlock mutex =>
      if t.fenceEnabled then none else some { t with holding := t.holding.erase mutex }
  | .condSignal cond => some (if t.fenceEnabled then t.goto (.work (.signal cond)) else t)
  | .condBroadcast cond => some (if t.fenceEnabled then t.goto (.work (.broadcast cond)) else t)
  | .barrierWait bar => some
      (if t.fenceEnabled then t.goto (.work (.barrier bar))
      else if t.childrenThreadsCount = 0 then t
      else { t with childrenThreadsCount := 0, fenceEnabled := true }.goto (.work (.barrier bar)))
  | .exit => some (t.goto (.work .exit))
  | .condWait .. | .sigWait | .cancel _ => none

/-- The thread after a decision. -/
def decides (t : Thread) : Input → Option Thread
  | .call c => if t.pc = .user then t.asks c else none
  | .alone single =>
      if t.pc = .closeFence then
        some (
          if single then { t with fenceEnabled := false, childrenThreadsCount := 0, pc := .user }
          else t.goto .user)
      else none

end Thread

/-- The condition on a step of `me`. A mutex is taken with the token, and given to the thread that
asks for it if it is free; a waiter wakes up when it is woken. -/
def KeepsTurns (d : Determ) (at_ : Pc) (me : ℕ) : Prop :=
  match at_ with
  | .lockFast _ | .work .sigWait | .work (.cancel _) => False
  | .work (.lock mutex) | .condAcquire mutex => Gives d mutex me
  | .condWaiting .. => d.status me = .ready
  | _ => True

instance (d : Determ) (at_ : Pc) (me : ℕ) : Decidable (KeepsTurns d at_ me) := by
  induction at_ using Pc.casesOn with
  | work work => induction work using Work.casesOn <;> dsimp only [KeepsTurns] <;> infer_instance
  | _ => dsimp only [KeepsTurns]; infer_instance

section

variable {d d' : Determ} {t t' : Thread} {pc : ℕ → Pc} {bound me mutex : ℕ}
  {lists : Place → List ℕ} {result : Determ × Thread}

/-! ## Between two sections -/

theorem ahead_getLockAgain : (t.getLockAgain mutex).ahead = t.plain.gotToken (.lock mutex) := by
  unfold Thread.getLockAgain
  split
  · next holds =>
    cases t
    cases holds
    rfl
  · rfl

theorem ahead_fence {pos : Determ.FencePos} {after : After} (at_ : t.pc = .fence pos after) :
    t.ahead = (t.passed after).ahead := by
  cases t
  cases at_
  cases after with
  | relock mutex =>
    show _ = (Thread.getLockAgain _ mutex).ahead
    rw [ahead_getLockAgain]
    rfl
  | getToken work => rfl
  | joined => rfl
  | done => rfl

theorem ahead_goto {pos pos' : Determ.FencePos} {after : After} (at_ : t.pc = .fence pos after) :
    (t.goto (.fence pos' after)).ahead = t.ahead := by
  cases t
  cases at_
  cases after <;> rfl

/-- Two positions with the same ahead. -/
theorem ahead_gotoIte {p : Prop} [Decidable p] {yes no : Pc} (first : (t.goto yes).ahead = t'.ahead)
    (second : (t.goto no).ahead = t'.ahead) :
    (t.goto (if p then yes else no)).ahead = t'.ahead := by
  split <;> assumption

theorem ahead_notified {work : Work} (at_ : t.pc = .notify work) :
    (t.notified work).ahead = t.ahead := by
  cases t
  cases at_
  cases work <;> rfl

/-- **Between sections.** A step that is no section leaves alone what is shared, and its thread on
its way, except for the decision at the end of `join`. -/
theorem exec_between (inv : RingInv d pc bound lists) (here : pc me = t.pc)
    (executed : exec d t me = some result) (keeps : KeepsTurns d t.pc me)
    (noTurn : t.pc.TakesTurn = false) :
    result.1.shared = d.shared ∧ (t.pc ≠ .closeFence ∧ result.2.ahead = t.ahead ∨
      t.pc = .closeFence ∧
        t.ahead.decides (.alone d.isSingleAliveThread) = some result.2.ahead) := by
  unfold exec at executed
  cases at_ : t.pc <;> rw [at_] at executed keeps noTurn
  case absent | waitParentNotify | user | sigWaiting | exited => cases executed
  case work | putToken | joinEnter | condAcquire => cases noTurn
  case lockFast => exact keeps.elim
  case registered =>
    obtain rfl := Option.some.inj executed
    exact ⟨rfl, .inl ⟨by simp, by cases t; cases at_; rfl⟩⟩
  case waitChildRegistered =>
    simp only at executed
    split at executed
    · obtain rfl := Option.some.inj executed
      exact ⟨rfl, .inl ⟨by simp, by cases t; cases at_; rfl⟩⟩
    · obtain rfl := Option.some.inj executed
      exact ⟨rfl, .inl ⟨by simp, by cases t; cases at_; rfl⟩⟩
  case parentSleeping =>
    simp only [Option.ite_none_right_eq_some, Option.some.injEq] at executed
    obtain ⟨-, rfl⟩ := executed
    exact ⟨rfl, .inl ⟨by simp, by cases t; cases at_; rfl⟩⟩
  case startFence work =>
    obtain rfl := Option.some.inj executed
    exact ⟨shared_startFence _, .inl ⟨by simp, by cases t; cases at_; cases work <;> rfl⟩⟩
  case notify work =>
    obtain rfl := Option.some.inj executed
    exact ⟨rfl, .inl ⟨by simp, ahead_notified at_⟩⟩
  case lockIsowner mutex =>
    obtain rfl := Option.some.inj executed
    refine ⟨shared_lockIsowner, .inl ⟨by simp, ahead_gotoIte ?_ ?_⟩⟩
    · cases t; cases at_; rfl
    · cases t; cases at_; rfl
  case lockSingle mutex =>
    obtain rfl := Option.some.inj executed
    refine ⟨rfl, .inl ⟨by simp, ?_⟩⟩
    show (if d.isSingleWorkingThread then t.goto (.lockFast mutex)
      else t.getLockAgain mutex).ahead = _
    split
    · cases t; cases at_; rfl
    · rw [ahead_getLockAgain]
      cases t; cases at_; rfl
  -- what the fence does is nobody's business, and what comes after it is ahead already
  case fence pos after =>
    obtain ⟨⟨d', next⟩, waits, rfl⟩ := Option.map_eq_some_iff.mp executed
    have same : d'.shared = d.shared := shared_of_fenceOnly (Determ.waitFence_only waits)
    cases next with
    | none => exact ⟨same, .inl ⟨by simp, (ahead_fence at_).symm⟩⟩
    | some pos' => exact ⟨same, .inl ⟨by simp, ahead_goto at_⟩⟩
  case getToken work =>
    simp only [Option.ite_none_right_eq_some, Option.some.injEq] at executed
    obtain ⟨-, rfl⟩ := executed
    exact ⟨rfl, .inl ⟨by simp, by cases t; cases at_; cases work <;> rfl⟩⟩
  case joinWait guest =>
    obtain rfl := Option.some.inj executed
    refine ⟨shared_joinWoken inv (here.trans at_), .inl ⟨by simp, ahead_gotoIte ?_ ?_⟩⟩
    · cases t; cases at_; rfl
    · cases t; cases at_; rfl
  case closeFence =>
    obtain rfl := Option.some.inj executed
    refine ⟨rfl, .inr ⟨rfl, ?_⟩⟩
    show t.ahead.decides (.alone d.isSingleAliveThread) = some (if d.isSingleAliveThread then _
      else t.goto .user : Thread).ahead
    cases t
    cases at_
    cases d.isSingleAliveThread <;> rfl
  case condWaiting cond mutex =>
    have woken : d.status me = .ready := keeps
    simp only [if_pos woken] at executed
    obtain rfl := Option.some.inj executed
    exact ⟨rfl, .inl ⟨by simp, by cases t; cases at_; rfl⟩⟩
  case barrierEnter bar round =>
    obtain rfl := Option.some.inj executed
    refine ⟨shared_realBarrierWait bar, .inl ⟨by simp, ahead_gotoIte ?_ ?_⟩⟩
    · cases t; cases at_; rfl
    · cases t; cases at_; rfl
  case joinToken | condToken | barrierBlocked =>
    simp only [Option.ite_none_right_eq_some, Option.some.injEq] at executed
    obtain ⟨-, rfl⟩ := executed
    exact ⟨rfl, .inl ⟨by simp, by cases t; cases at_; rfl⟩⟩

/-- A call that is no section only decides where its thread goes. -/
theorem call_between {c : Call} (called : call d t me c = some result) (user : t.pc = .user)
    (keeps : c.AtAnyTime = false)
    (noTurn : c.TakesTurn t.fenceEnabled = false) :
    result.1 = d ∧ t.ahead.decides (.call c) = some result.2.ahead := by
  have ahead : t.ahead = t.plain := by
    unfold Thread.ahead
    rw [user]
  have asks : t.plain.decides (.call c) = t.plain.asks c := if_pos user
  rw [ahead, asks]
  -- the flags of the thread decide
  obtain ⟨pc, fenceEnabled, children, lockCount, holds, killed, holding, announced⟩ := t
  obtain rfl : pc = .user := user
  cases c with
  | sigWait | cancel target => cases keeps
  | condWait cond mutex => cases noTurn
  | mutexUnlock mutex =>
    obtain rfl : fenceEnabled = false := noTurn
    obtain rfl := Option.some.inj called
    exact ⟨rfl, rfl⟩
  | exit =>
    obtain rfl := Option.some.inj called
    exact ⟨rfl, rfl⟩
  | spawn | join guest =>
    obtain rfl := Option.some.inj called
    cases fenceEnabled with
    | false => exact ⟨rfl, rfl⟩
    | true => exact ⟨rfl, rfl⟩
  | condSignal cond | condBroadcast cond =>
    obtain rfl := Option.some.inj called
    cases fenceEnabled with
    | false => exact ⟨rfl, rfl⟩
    | true => cases holds <;> exact ⟨rfl, rfl⟩
  | mutexLock mutex | barrierWait bar =>
    obtain rfl := Option.some.inj called
    cases fenceEnabled with
    | false => cases children <;> exact ⟨rfl, rfl⟩
    | true => exact ⟨rfl, rfl⟩

/-! ## Sections -/

/-- The section that a thread begins at its position, as a function of what is shared. -/
def sectionOfWork (v : Shared) (t : Thread) (me : ℕ) : Work → Shared × Thread
  | .spawn =>
      let children := if t.fenceEnabled then 0 else t.childrenThreadsCount
      (v, { t with fenceEnabled := false, childrenThreadsCount := children + 1, pc := .user })
  | .join guest =>
      if t.fenceEnabled then (v.join guest me, t.goto (.putToken .joined))
      else (v, { t with childrenThreadsCount := 0, fenceEnabled := true, pc := .joinEnter guest })
  | .lock mutex =>
      (v.lockAcquire mutex,
        if v.acquired mutex then t.goto (.putToken (.relock mutex)) else t.acquired mutex)
  | .signal cond => (v.condSignal cond, t.signalled)
  | .broadcast cond => (v.condBroadcast cond, t.signalled)
  | .barrier bar => (v.barrierWait bar me, t.goto .user)
  | .exit => (v.deregisterThread me, t.goto .exited)
  | .sigWait | .cancel _ => (v, t)

def sectionAt (v : Shared) (t : Thread) (me : ℕ) : Shared × Thread :=
  match t.pc with
  | .work work => sectionOfWork v t me work
  | .putToken after => (v.putToken, (t.goto (.fence .enter after)).ahead)
  | .joinEnter guest => (v.join guest me, t.goto (.putToken .joined))
  | .condAcquire mutex => (v.lockAcquire mutex, t.acquired mutex)
  | _ => (v, t)

/-- The section that a call begins with. -/
def sectionOfCall (v : Shared) (t : Thread) (me : ℕ) : Call → Shared × Thread
  | .mutexUnlock mutex =>
      let t := { t with
        holding := t.holding.erase mutex
        lockCount := Determ.decreased t.lockCount }
      (v.lockRelease mutex,
        if t.lockCount = 0 ∧ t.tokenHolding then
          { t with tokenHolding := false }.goto (.putToken .done)
        else t)
  | .condWait cond mutex =>
      ((v.condWait me cond).lockRelease mutex,
        { t with holding := t.holding.erase mutex }.goto (.condAcquire mutex))
  | _ => (v, t)

theorem present_of_pc (inv : RingInv d pc bound lists) (exited : pc me ≠ .exited)
    (joining : ∀ guest, pc me ≠ .joinWait guest) : Present d me :=
  ⟨fun gone => exited (inv.exited me gone),
    fun waits => joining (d.entries me).joineeThreadIndex ((inv.joining me _).mp ⟨waits, rfl⟩)⟩

theorem lockAcquire_gives (gives : Gives d mutex me) :
    (d.lockAcquire mutex me).2 = !d.shared.acquired mutex := by
  show _ = !d.lockIsacquired mutex
  cases free : d.lockIsacquired mutex with
  | false => exact gives free
  | true =>
    refine Bool.eq_false_iff.mpr fun given => ?_
    exact (lockAcquire_spec d mutex me).1.mp given (.inl free)

theorem ahead_signalled : t.signalled.ahead = t.plain.signalled := by
  unfold Thread.signalled
  show _ = if t.tokenHolding then t.plain.goto .user else t.plain.goto (.putToken .done)
  split <;> rfl

/-- What a section does to what is shared, and where it leaves its thread, depends on what is shared
and on its thread. -/
theorem perform_turn (inv : RingInv d pc bound lists) {w : Work} (here : pc me = .work w)
    (at_ : t.pc = .work w) (keeps : KeepsTurns d (.work w) me) (token : d.tokenpos = some me) :
    (perform d t me w).1.shared = (sectionOfWork d.shared t.plain me w).1 ∧
      (perform d t me w).2.ahead = (sectionOfWork d.shared t.plain me w).2 := by
  have present : Present d me := present_of_pc inv (by simp [here]) (by simp [here])
  cases w with
  | spawn =>
    refine ⟨rfl, ?_⟩
    cases t
    cases at_
    rfl
  | join guest =>
    obtain ⟨shared, blocked⟩ := shared_join present guest
    cases fenced : t.fenceEnabled with
    | false =>
      have joins : perform d t me (.join guest) = (d.startFence t.childrenThreadsCount,
          { t with childrenThreadsCount := 0, fenceEnabled := true, pc := .joinEnter guest }) := by
        simp [perform, fenced]
      have joins' : sectionOfWork d.shared t.plain me (.join guest) = (d.shared,
          { t.plain with
            childrenThreadsCount := 0, fenceEnabled := true, pc := .joinEnter guest }) := by
        simp [sectionOfWork, Thread.plain, fenced]
      rw [joins, joins']
      exact ⟨shared_startFence _, rfl⟩
    | true =>
      have joins : perform d t me (.join guest) = ((d.join guest me).1,
          t.goto (if (d.join guest me).2 then .joinWait guest else .putToken .joined)) := by
        simp [perform, fenced]
      have joins' : sectionOfWork d.shared t.plain me (.join guest) =
          (d.shared.join guest me, t.plain.goto (.putToken .joined)) := by
        simp [sectionOfWork, Thread.plain, fenced]
      rw [joins, joins']
      exact ⟨shared, ahead_gotoIte rfl rfl⟩
  | lock mutex =>
    refine ⟨shared_lockAcquire keeps, ?_⟩
    show (if (d.lockAcquire mutex me).2 then t.acquired mutex
      else t.goto (.putToken (.relock mutex)) : Thread).ahead =
        if d.shared.acquired mutex then t.plain.goto (.putToken (.relock mutex))
        else t.plain.acquired mutex
    rw [lockAcquire_gives keeps]
    cases d.shared.acquired mutex <;> rfl
  | signal cond => exact ⟨shared_condSignal inv token cond, ahead_signalled⟩
  | broadcast cond => exact ⟨shared_condBroadcast inv token cond, ahead_signalled⟩
  | barrier bar => exact ⟨shared_barrierWait present bar, rfl⟩
  | sigWait | cancel target => exact keeps.elim
  | exit => exact ⟨shared_deregisterThread present, rfl⟩

/-- The next section of a thread that stands before one. -/
theorem exec_turn (inv : RingInv d pc bound lists) (here : pc me = t.pc)
    (executed : exec d t me = some result) (keeps : KeepsTurns d t.pc me)
    (takes : t.pc.TakesTurn = true) (token : d.tokenpos = some me) :
    result.1.shared = (sectionAt d.shared t.plain me).1 ∧
      result.2.ahead = (sectionAt d.shared t.plain me).2 := by
  have pc_plain : t.plain.pc = t.pc := rfl
  unfold exec at executed
  unfold sectionAt
  rw [pc_plain]
  cases at_ : t.pc <;> rw [at_] at executed keeps takes here
  case work w =>
    obtain rfl := Option.some.inj (Option.ite_none_left_eq_some.mp executed).2
    exact perform_turn inv here at_ keeps token
  case putToken after =>
    obtain rfl := Option.some.inj executed
    refine ⟨rfl, ?_⟩
    cases t
    cases at_
    cases after <;> rfl
  case joinEnter guest =>
    obtain rfl := Option.some.inj executed
    have present : Present d me := present_of_pc inv (by simp [here]) (by simp [here])
    obtain ⟨shared, blocked⟩ := shared_join present guest
    exact ⟨shared, ahead_gotoIte rfl rfl⟩
  case condAcquire mutex =>
    obtain rfl := Option.some.inj executed
    exact ⟨shared_lockAcquire keeps, rfl⟩
  all_goals cases takes

/-- The section that a call begins with. -/
theorem call_turn (inv : RingInv d pc bound lists) (here : pc me = t.pc) {c : Call}
    (called : call d t me c = some result) (user : t.pc = .user)
    (takes : c.TakesTurn t.fenceEnabled = true) :
    result.1.shared = (sectionOfCall d.shared t.plain me c).1 ∧
      result.2.ahead = (sectionOfCall d.shared t.plain me c).2 := by
  have present : Present d me := present_of_pc inv (by simp [here, user]) (by simp [here, user])
  cases c with
  | mutexUnlock mutex =>
    have fenced : t.fenceEnabled = true := takes
    simp only [call, if_pos fenced] at called
    obtain ⟨d', released, rfl⟩ := Option.map_eq_some_iff.mp called
    refine ⟨shared_lockRelease released, ?_⟩
    obtain ⟨pc, fenceEnabled, children, lockCount, holds, killed, holding, announced⟩ := t
    obtain rfl : pc = .user := user
    by_cases last : Determ.decreased lockCount = 0 ∧ holds = true
    · exact (congrArg Thread.ahead (if_pos last)).trans (Eq.trans rfl (if_pos last).symm)
    · exact (congrArg Thread.ahead (if_neg last)).trans (Eq.trans rfl (if_neg last).symm)
  | condWait cond mutex =>
    obtain ⟨d', released, rfl⟩ := Option.map_eq_some_iff.mp called
    refine ⟨(shared_lockRelease released).trans ?_, rfl⟩
    rw [shared_condWait present]
    rfl
  | _ => cases takes

end

end Tthread.Xrun
