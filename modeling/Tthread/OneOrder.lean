/-
# One order of synchronisation

What the threads of a program do under the token comes in one order, whatever the order of all
their other steps, however many cores there are and whichever thread is first at the fence: the
sections under the token are turns, and between two of them a thread goes on by itself. A
program says for each thread what it calls next, by what had happened at its last section.
-/

import Tthread.Library.Turns
import Tthread.SpawnCounts
import Tthread.SyncOrder
import Tthread.TokenHolder

namespace Tthread.Xrun

open Transition

/-! ## Programs -/

/-- What each thread decides, by what had happened at its last section and by how often it has
decided since then. -/
abbrev Program := ℕ → List Event → ℕ → Input

/-- A state with what has happened under the token. -/
structure Observed where
  state : State
  events : List Event
  /-- what had happened at the last section of a thread, and its decisions since then -/
  seen : ℕ → List Event
  asked : ℕ → ℕ

/-- The section is one of the thread, or the one that it is created by. -/
def Event.Concerns (event : Event) (threadIndex thread : ℕ) : Prop :=
  thread = event.thread ∨ event.act = .register ∧ thread = threadIndex

instance (event : Event) (threadIndex thread : ℕ) : Decidable (event.Concerns threadIndex thread) :=
  inferInstanceAs (Decidable (_ ∨ _))

namespace Observed

/-- The state after a step, with the section that it is. -/
def after (o : Observed) (label : Label) (s : State) : Observed :=
  match turn o.state label with
  | some event =>
      { state := s
        events := o.events ++ [event]
        seen := fun thread =>
          if event.Concerns o.state.threadIndex thread then o.events ++ [event] else o.seen thread
        asked := fun thread =>
          if event.Concerns o.state.threadIndex thread then 0 else o.asked thread }
  | none =>
      match decision o.state label with
      | some (me, _) => { o with state := s, asked := Function.update o.asked me (o.asked me + 1) }
      | none => { o with state := s }

def step (o : Observed) (label : Label) : Option Observed :=
  (Xrun.step o.state label).map (o.after label)

/-- The first thread in the program, on so many cores. -/
def start (cores : ℕ) (counts : ℕ → ℕ) : Observed where
  state := Xrun.start cores counts
  events := []
  seen _ := []
  asked _ := 0

end Observed

/-- The observed runs of programs whose barriers have these counts. -/
def observed (counts : ℕ → ℕ) : System Observed Label where
  Init o := ∃ cores, 0 < cores ∧ o = Observed.start cores counts
  step := Observed.step

/-- The condition on a step besides those for the ring, the token and the creation of threads. A
thread that unlocks a mutex or waits for a condition has the token; nobody is cancelled or waits for
a signal, and no clone fails. -/
def Ordered (s : State) : Label → Prop
  | .call me c =>
      c.AtAnyTime = false ∧
        (c.TakesTurn (s.thread me).fenceEnabled = true → (s.thread me).claims = true)
  | .exec me => KeepsTurns s.determ (s.pc me) me
  | .cloneFails _ | .sigwaitReturns _ | .sigwaitFails _ => False
  | .childRegister _ | .spuriousReturn _ => True

/-- The thread calls what the program says. -/
def Follows (P : Program) (o : Observed) (label : Label) : Prop :=
  ∀ decided ∈ decision o.state label,
    P decided.1 (o.seen decided.1) (o.asked decided.1) = decided.2

instance (P : Program) (o : Observed) : DecidablePred (Follows P o) := fun _ =>
  inferInstanceAs (Decidable (∀ decided ∈ _, _))

instance (s : State) : DecidablePred (Ordered s) := fun label => by
  induction label using Label.casesOn <;> dsimp only [Ordered] <;> infer_instance

/-- The condition on a step: each thread follows the program, and what it does under the token it
does with the token. -/
structure KeepsProgram (P : Program) (o : Observed) (label : Label) : Prop where
  ring : KeepsRing o.state label
  handshake : KeepsHandshake o.state label
  token : KeepsToken o.state label
  ordered : Ordered o.state label
  follows : Follows P o label

/-- A test for the condition: nobody exits or waits in the real barrier. -/
def keepsProgram (P : Program) (o : Observed) (label : Label) : Bool :=
  keepsRing o.state label ∧ KeepsHandshake o.state label ∧ KeepsToken o.state label ∧
    Ordered o.state label ∧ Follows P o label

theorem keepsProgram_sound (P : Program) (o : Observed) (label : Label)
    (keeps : keepsProgram P o label = true) : KeepsProgram P o label := by
  obtain ⟨ring, handshake, token, ordered, follows⟩ := of_decide_eq_true keeps
  exact ⟨keepsRing_sound _ _ ring, handshake, token, ordered, follows⟩

/-! ## What a section leaves -/

/-- What a thread is on its way to, and what it goes by. -/
structure Agent where
  thread : Thread
  seen : List Event
  asked : ℕ

/-- What the sections act on. -/
structure View where
  shared : Shared
  threadIndex : ℕ
  forks : List ℕ
  events : List Event

namespace Agent

/-- The thread decides, and goes on. -/
def next (P : Program) (me : ℕ) (a : Agent) : Option Agent :=
  (a.thread.decides (P me a.seen a.asked)).map fun t => { a with thread := t, asked := a.asked + 1 }

/-- The section that the thread begins when it has the token. -/
def act (P : Program) (me : ℕ) (a : Agent) : Act :=
  match a.thread.pc with
  | .waitChildRegistered => .register
  | .user =>
      match P me a.seen a.asked with
      | .call c => .call c
      | .alone _ => .step .user
  | at_ => .step at_

/-- Where the section leaves a thread that it concerns. -/
def left (a : Agent) (v : View) (event : Event) (thread : ℕ) : Thread :=
  match event.act with
  | .register =>
      if thread = event.thread then a.thread.goto .user else (childRecord a.thread).ahead
  | .call c => (sectionOfCall v.shared a.thread event.thread c).2
  | .step at_ =>
      let t := (sectionAt v.shared a.thread event.thread).2
      -- its child has to register
      if at_ = .work .spawn then t.goto .waitChildRegistered else t

end Agent

def View.after (v : View) (a : Agent) (event : Event) : View :=
  let events := v.events ++ [event]
  match event.act with
  | .register =>
      { shared := v.shared.registerThread v.threadIndex event.thread
        threadIndex := v.threadIndex + 1
        forks := v.forks.erase event.thread
        events }
  | .call c => { v with shared := (sectionOfCall v.shared a.thread event.thread c).1, events }
  | .step at_ =>
      { v with
        shared := (sectionAt v.shared a.thread event.thread).1
        forks := if at_ = .work .spawn then event.thread :: v.forks else v.forks
        events }

/-- The thread where it begins its next section, or decides. Its child registers before that. -/
def State.way (s : State) (thread : ℕ) : Thread :=
  if thread ∈ s.forks then (s.thread thread).ahead.goto .waitChildRegistered
  else (s.thread thread).ahead

namespace Observed

def agent (o : Observed) (thread : ℕ) : Agent :=
  ⟨o.state.way thread, o.seen thread, o.asked thread⟩

def view (o : Observed) : View where
  shared := o.state.determ.shared
  threadIndex := o.state.threadIndex
  forks := o.state.forks
  events := o.events

end Observed

/-- The step is this section. -/
structure Takes (P : Program) (o o' : Observed) (event : Event) : Prop where
  owner : o.state.determ.tokenpos = some event.thread
  act : event.act = (o.agent event.thread).act P event.thread
  stuck : (o.agent event.thread).next P event.thread = none
  view : o'.view = o.view.after (o.agent event.thread) event
  agents : ∀ thread, o'.agent thread =
    if event.Concerns o.state.threadIndex thread then
      ⟨(o.agent event.thread).left o.view event thread, o.events ++ [event], 0⟩
    else o.agent thread

/-! ## Invariants -/

/-- The invariants of the ring, the token and the creation of threads. Nobody is killed, and a
parent that waits for its child has turned the fence off. -/
structure InOrder (s : State) : Prop where
  ring : ∃ lists, RingInv s.determ s.pc s.threadIndex lists
  targets : Targets s
  token : TokenInv s
  kept : WellKept s
  stage : ∃ stage, HandshakeInv s stage
  alive : ∀ thread, (s.thread thread).killed = false
  off : ∀ thread, (s.pc thread).AwaitsChild → (s.thread thread).fenceEnabled = false

section

variable {s s' : State} {o o' : Observed} {P : Program} {counts : ℕ → ℕ} {me thread : ℕ}
  {t : Thread} {result : Determ × Thread} {label : Label} {event : Event}

/-- What a thread does to others leaves them on their way. -/
theorem others_ahead (noCancel : ∀ target, s.pc me ≠ .work (.cancel target)) (thread : ℕ) :
    ((s.others me).thread thread).ahead = (s.thread thread).ahead := by
  rw [others_thread]
  split
  · unfold wakeChild
    split
    · next asleep =>
      unfold Thread.ahead
      rw [asleep]
      rfl
    · rfl
  · split
    · unfold announce
      split <;> rfl
    · split
      · next cancels => exact absurd cancels (noCancel thread)
      · rfl

/-! ## Between two sections -/

theorem after_turn (s : State) (taken : turn o.state label = some event) : o.after label s =
    { state := s
      events := o.events ++ [event]
      seen := fun thread =>
        if event.Concerns o.state.threadIndex thread then o.events ++ [event] else o.seen thread
      asked := fun thread =>
        if event.Concerns o.state.threadIndex thread then 0 else o.asked thread } := by
  unfold Observed.after
  rw [taken]

theorem after_between (s : State) (noTurn : turn o.state label = none)
    (nothing : decision o.state label = none) : o.after label s = { o with state := s } := by
  unfold Observed.after
  rw [noTurn, nothing]

theorem after_decision (s : State) {input : Input} (noTurn : turn o.state label = none)
    (decides : decision o.state label = some (me, input)) : o.after label s =
    { o with state := s, asked := Function.update o.asked me (o.asked me + 1) } := by
  unfold Observed.after
  rw [noTurn, decides]

theorem way_same (ahead : (s'.thread thread).ahead = (s.thread thread).ahead)
    (forks : thread ∈ s'.forks ↔ thread ∈ s.forks) : s'.way thread = s.way thread := by
  unfold State.way
  rw [ahead]
  simp only [forks]

theorem agent_same (way : o'.state.way thread = o.state.way thread)
    (seen : o'.seen thread = o.seen thread) (asked : o'.asked thread = o.asked thread) :
    o'.agent thread = o.agent thread := by
  unfold Observed.agent
  rw [way, seen, asked]

theorem way_free (free : thread ∉ s.forks) : s.way thread = (s.thread thread).ahead := if_neg free

/-- A parent whose child has not registered waits. -/
theorem InOrder.free (inv : InOrder s) (elsewhere : ¬(s.pc me).AwaitsChild) : me ∉ s.forks := by
  intro forked
  obtain ⟨stage, handshake⟩ := inv.stage
  exact elsewhere (handshake.handshake.registered me forked (inv.alive me))

/-- The thread decides. -/
theorem next_of_decides (free : me ∉ o.state.forks)
    (free' : me ∉ o'.state.forks)
    (decides : (o.state.thread me).ahead.decides (P me (o.seen me) (o.asked me)) =
      some (o'.state.thread me).ahead)
    (seen : o'.seen me = o.seen me) (asked : o'.asked me = o.asked me + 1) :
    (o.agent me).next P me = some (o'.agent me) := by
  unfold Observed.agent Agent.next
  rw [way_free free, way_free free', decides, seen, asked]
  rfl

/-- What a step of `me` does to other agents. -/
theorem exec_others (executed : exec s.determ (s.thread me) me = some result)
    (noCancel : ∀ target, s.pc me ≠ .work (.cancel target)) (moved : move s (.exec me) = some s') :
    s'.determ = result.1 ∧ s'.thread me = result.2 ∧ s'.threadIndex = s.threadIndex ∧
      (s'.forks = if s.pc me = .work .spawn then me :: s.forks else s.forks) ∧
      ∀ thread, thread ≠ me → (s'.thread thread).ahead = (s.thread thread).ahead := by
  obtain ⟨other, executed', rfl⟩ := Option.map_eq_some_iff.mp moved
  obtain rfl : result = other := Option.some.inj (executed.symm.trans executed')
  refine ⟨rfl, Function.update_self .., others_threadIndex s me, rfl, fun thread different => ?_⟩
  show (Function.update (s.others me).thread me result.2 thread).ahead = _
  rw [Function.update_of_ne different]
  exact others_ahead noCancel thread

theorem InOrder.execBetween (inv : InOrder o.state) (keeps : KeepsProgram P o (.exec me))
    (stepped : step o.state (.exec me) = some s') (noTurn : turn o.state (.exec me) = none) :
    (o.after (.exec me) s').view = o.view ∧ ∀ thread,
      (o.after (.exec me) s').agent thread = o.agent thread ∨
        (o.agent thread).next P thread = some ((o.after (.exec me) s').agent thread) := by
  have move := move_of_step stepped
  obtain ⟨result, executed, -⟩ := Option.map_eq_some_iff.mp move
  have plain : (o.state.pc me).TakesTurn = false := by
    refine Bool.eq_false_iff.mpr fun takes => ?_
    have taken : turn o.state (.exec me) = some ⟨me, .step (o.state.pc me)⟩ := if_pos takes
    rw [noTurn] at taken
    cases taken
  have noWork : ∀ work, o.state.pc me ≠ .work work := by
    intro work at_
    rw [at_] at plain
    cases plain
  obtain ⟨determ, mine, threadIndex, forks, others⟩ := exec_others executed (fun _ => noWork _) move
  rw [if_neg (noWork _)] at forks
  obtain ⟨lists, ring⟩ := inv.ring
  obtain ⟨shared, ways⟩ := exec_between ring rfl executed keeps.ordered plain
  have view : ∀ o' : Observed, o'.state = s' → o'.events = o.events → o'.view = o.view := by
    rintro o' rfl events
    unfold Observed.view
    rw [determ, shared, threadIndex, forks, events]
  rcases ways with ⟨goesOn, same⟩ | ⟨closes, decides⟩
  · have nothing : decision o.state (.exec me) = none := if_neg goesOn
    rw [after_between s' noTurn nothing]
    refine ⟨view _ rfl rfl, fun thread => .inl (agent_same (way_same ?_ (by rw [forks])) rfl rfl)⟩
    by_cases here : thread = me
    · rw [here]
      exact (congrArg Thread.ahead mine).trans same
    · exact others thread here
  · have decided : decision o.state (.exec me) =
        some (me, .alone o.state.determ.isSingleAliveThread) := if_pos closes
    have asks := keeps.follows _ decided
    have free : me ∉ o.state.forks := inv.free (by
      have here : o.state.pc me = .closeFence := closes
      rw [here]
      exact id)
    rw [after_decision s' noTurn decided]
    refine ⟨view _ rfl rfl, fun thread => ?_⟩
    by_cases here : thread = me
    · rw [here]
      refine .inr (next_of_decides free (by rwa [forks]) ?_ rfl (Function.update_self ..))
      rw [asks, mine]
      exact decides
    · exact .inl (agent_same (way_same (others thread here) (by rw [forks])) rfl
        (Function.update_of_ne here ..))

theorem InOrder.callBetween (inv : InOrder o.state) {c : Call}
    (keeps : KeepsProgram P o (.call me c)) (stepped : step o.state (.call me c) = some s')
    (noTurn : turn o.state (.call me c) = none) :
    (o.after (.call me c) s').view = o.view ∧ ∀ thread,
      (o.after (.call me c) s').agent thread = o.agent thread ∨
        (o.agent thread).next P thread = some ((o.after (.call me c) s').agent thread) := by
  have move := move_of_step stepped
  obtain ⟨⟨user, -⟩, move⟩ := Option.ite_none_right_eq_some.mp move
  obtain ⟨result, called, rfl⟩ := Option.map_eq_some_iff.mp move
  have plain : c.TakesTurn (o.state.thread me).fenceEnabled = false := by
    refine Bool.eq_false_iff.mpr fun takes => ?_
    have taken : turn o.state (.call me c) = some ⟨me, .call c⟩ := if_pos takes
    rw [noTurn] at taken
    cases taken
  obtain ⟨determ, decides⟩ := call_between called user keeps.ordered.1 plain
  have asks := keeps.follows _ rfl
  have free : me ∉ o.state.forks := inv.free (by
    have here : o.state.pc me = .user := user
    rw [here]
    exact id)
  rw [after_decision (o.state.update me result) noTurn rfl]
  refine ⟨?_, fun thread => ?_⟩
  · unfold Observed.view State.update
    rw [determ]
  · by_cases here : thread = me
    · rw [here]
      refine .inr (next_of_decides free free ?_ rfl (Function.update_self ..))
      show _ = some (Function.update o.state.thread me result.2 me).ahead
      rw [asks, Function.update_self]
      exact decides
    · refine .inl (agent_same (way_same ?_ .rfl) rfl (Function.update_of_ne here ..))
      show (Function.update o.state.thread me result.2 thread).ahead = _
      rw [Function.update_of_ne here]

/-- A wait that returns by itself. -/
theorem spuriousBetween (stepped : step o.state (.spuriousReturn me) = some s') :
    (o.after (.spuriousReturn me) s').view = o.view ∧ ∀ thread,
      (o.after (.spuriousReturn me) s').agent thread = o.agent thread := by
  have move := move_of_step stepped
  rw [after_between s' rfl rfl]
  -- the thread returns to the program
  have returns : ∀ d : Determ, d.shared = o.state.determ.shared →
      ((o.state.thread me).goto .user).ahead = (o.state.thread me).ahead →
      let s' := o.state.update me (d, (o.state.thread me).goto .user)
      ({ o with state := s' } : Observed).view = o.view ∧
        ∀ thread, ({ o with state := s' } : Observed).agent thread = o.agent thread := by
    intro d shared ahead s'
    refine ⟨?_, fun thread => agent_same (way_same ?_ .rfl) rfl rfl⟩
    · unfold Observed.view
      rw [show s'.determ.shared = o.state.determ.shared from shared]
      rfl
    · show (Function.update o.state.thread me _ thread).ahead = _
      by_cases here : thread = me
      · rw [here, Function.update_self]
        exact ahead
      · rw [Function.update_of_ne here]
  simp only [Xrun.move] at move
  split at move
  · next at_ =>
    obtain rfl := Option.some.inj move
    refine returns _ rfl ?_
    unfold Thread.ahead
    rw [at_]
    rfl
  · next at_ =>
    obtain rfl := Option.some.inj move
    refine returns _ rfl ?_
    unfold Thread.ahead
    rw [at_]
    rfl
  · cases move

/-! ## Sections -/

theorem concerns_iff {threadIndex : ℕ} (plain : event.act ≠ .register) :
    event.Concerns threadIndex thread ↔ thread = event.thread :=
  or_iff_left fun registers => plain registers.1

theorem next_none {a : Agent} (program : a.thread.pc ≠ .user) (join : a.thread.pc ≠ .closeFence) :
    a.next P me = none := by
  have nothing : a.thread.decides (P me a.seen a.asked) = none := by
    cases P me a.seen a.asked with
    | call c => exact if_neg program
    | alone single => exact if_neg join
  unfold Agent.next
  rw [nothing]
  rfl

/-- The agents after a section, by what their threads are on their way to. -/
theorem agents_after {s' : State} (taken : turn o.state label = some event)
    (mine : ∀ thread, event.Concerns o.state.threadIndex thread →
      s'.way thread = (o.agent event.thread).left o.view event thread)
    (others : ∀ thread, ¬event.Concerns o.state.threadIndex thread →
      s'.way thread = o.state.way thread) (thread : ℕ) :
    (o.after label s').agent thread =
      if event.Concerns o.state.threadIndex thread then
        ⟨(o.agent event.thread).left o.view event thread, o.events ++ [event], 0⟩
      else o.agent thread := by
  rw [after_turn s' taken]
  unfold Observed.agent
  by_cases concerned : event.Concerns o.state.threadIndex thread
  · simp only [if_pos concerned]
    rw [mine thread concerned]
    rfl
  · simp only [if_neg concerned]
    rw [others thread concerned]

/-- What a thread does with a section at its position. -/
theorem ahead_of_turn (takes : t.pc.TakesTurn = true) : t.ahead = t.plain := by
  unfold Thread.ahead
  cases at_ : t.pc <;> rw [at_] at takes <;> first | rfl | cases takes

theorem act_of_turn {a : Agent} (takes : a.thread.pc.TakesTurn = true) :
    a.act P me = .step a.thread.pc := by
  unfold Agent.act
  cases at_ : a.thread.pc <;> rw [at_] at takes <;> first | rfl | cases takes

theorem takesTurn_apart {at_ : Pc} (takes : at_.TakesTurn = true) :
    at_ ≠ .user ∧ at_ ≠ .closeFence ∧ ¬at_.AwaitsChild := by
  refine ⟨?_, ?_, fun awaits => ?_⟩
  · rintro rfl
    cases takes
  · rintro rfl
    cases takes
  · cases at_ <;> first | exact awaits | cases takes

theorem InOrder.takesExec (inv : InOrder o.state) (keeps : KeepsProgram P o (.exec me))
    (stepped : step o.state (.exec me) = some s') (taken : turn o.state (.exec me) = some event) :
    Takes P o (o.after (.exec me) s') event := by
  have move := move_of_step stepped
  obtain ⟨result, executed, -⟩ := Option.map_eq_some_iff.mp move
  have takes : (o.state.pc me).TakesTurn = true := by
    by_contra plain
    have nothing : turn o.state (.exec me) = none := if_neg plain
    rw [taken] at nothing
    cases nothing
  obtain rfl : ⟨me, .step (o.state.pc me)⟩ = event :=
    Option.some.inj ((if_pos takes).symm.trans taken)
  have noCancel : ∀ target, o.state.pc me ≠ .work (.cancel target) := by
    intro target at_
    have keeps := keeps.ordered
    simp only [Ordered, at_, KeepsTurns] at keeps
  have token : o.state.determ.tokenpos = some me := by
    have at_ : (o.state.thread me).pc = o.state.pc me := rfl
    apply inv.token.held
    unfold Thread.hasToken
    rw [at_]
    cases here : o.state.pc me <;> rw [here] at takes <;> first | rfl | cases takes
  obtain ⟨program, join, elsewhere⟩ := takesTurn_apart takes
  have way : o.state.way me = (o.state.thread me).plain :=
    (way_free (inv.free elsewhere)).trans (ahead_of_turn takes)
  obtain ⟨determ, mine, threadIndex, forks, others⟩ := exec_others executed noCancel move
  obtain ⟨lists, ring⟩ := inv.ring
  obtain ⟨shared, ahead⟩ := exec_turn ring rfl executed keeps.ordered takes token
  have at_ : (o.agent me).thread.pc = o.state.pc me := by
    show (o.state.way me).pc = _
    rw [way]
    rfl
  refine ⟨token, ?_, next_none (by rwa [at_]) (by rwa [at_]), ?_, agents_after taken ?_ ?_⟩
  · rw [act_of_turn (by rwa [at_]), at_]
  · rw [after_turn s' taken]
    unfold Observed.view View.after Observed.agent
    rw [determ, shared, threadIndex, forks, way]
  · intro thread concerned
    obtain rfl : thread = me := (concerns_iff (by simp)).mp concerned
    show s'.way thread = if o.state.pc thread = .work .spawn then
      (sectionAt o.state.determ.shared (o.state.way thread) thread).2.goto .waitChildRegistered
      else (sectionAt o.state.determ.shared (o.state.way thread) thread).2
    rw [way, ← ahead, ← mine]
    unfold State.way
    rw [forks]
    -- a thread that creates another one is the only one whose child has to register
    split
    · exact if_pos List.mem_cons_self
    · exact if_neg (inv.free elsewhere)
  · intro thread apart
    rw [concerns_iff (by simp)] at apart
    refine way_same (others thread apart) ?_
    rw [forks]
    split
    · rw [List.mem_cons, or_iff_right apart]
    · rfl

theorem InOrder.takesCall (inv : InOrder o.state) {c : Call} (keeps : KeepsProgram P o (.call me c))
    (stepped : step o.state (.call me c) = some s')
    (taken : turn o.state (.call me c) = some event) :
    Takes P o (o.after (.call me c) s') event := by
  have move := move_of_step stepped
  obtain ⟨⟨user, -⟩, move⟩ := Option.ite_none_right_eq_some.mp move
  obtain ⟨result, called, rfl⟩ := Option.map_eq_some_iff.mp move
  have takes : c.TakesTurn (o.state.thread me).fenceEnabled = true := by
    by_contra plain
    have nothing : turn o.state (.call me c) = none := if_neg plain
    rw [taken] at nothing
    cases nothing
  obtain rfl : ⟨me, .call c⟩ = event := Option.some.inj ((if_pos takes).symm.trans taken)
  have token : o.state.determ.tokenpos = some me := by
    apply inv.token.held
    unfold Thread.hasToken
    rw [user]
    exact keeps.ordered.2 takes
  have free : me ∉ o.state.forks := inv.free (by
    have here : o.state.pc me = .user := user
    rw [here]
    exact id)
  have way : o.state.way me = (o.state.thread me).plain := by
    rw [way_free free]
    unfold Thread.ahead
    rw [user]
  obtain ⟨lists, ring⟩ := inv.ring
  obtain ⟨shared, ahead⟩ := call_turn ring rfl called user takes
  have asks := keeps.follows _ rfl
  refine ⟨token, ?_, ?_, ?_, agents_after taken ?_ ?_⟩
  · unfold Agent.act Observed.agent
    rw [way, show (o.state.thread me).plain.pc = .user from user, asks]
  · have nothing : (o.state.thread me).plain.decides (.call c) = none := by
      cases c with
      | mutexUnlock mutex => exact (if_pos user).trans (if_pos takes)
      | condWait cond mutex => exact if_pos user
      | _ => cases takes
    unfold Agent.next Observed.agent
    rw [way, asks, nothing]
    rfl
  · rw [after_turn _ taken]
    unfold Observed.view View.after Observed.agent State.update
    rw [shared, way]
  · intro thread concerned
    obtain rfl : thread = me := (concerns_iff (by simp)).mp concerned
    refine (way_free (s := o.state.update thread result) free).trans ?_
    show (Function.update o.state.thread thread result.2 thread).ahead =
      (sectionOfCall o.state.determ.shared (o.state.way thread) thread c).2
    rw [Function.update_self, way]
    exact ahead
  · intro thread apart
    rw [concerns_iff (by simp)] at apart
    refine way_same ?_ .rfl
    show (Function.update o.state.thread me result.2 thread).ahead = _
    rw [Function.update_of_ne apart]

theorem InOrder.takesRegister (inv : InOrder o.state) {parent : ℕ}
    (stepped : step o.state (.childRegister parent) = some s') :
    Takes P o (o.after (.childRegister parent) s') ⟨parent, .register⟩ := by
  obtain ⟨forked, rfl⟩ := guarded (move_of_step stepped)
  have taken : turn o.state (.childRegister parent) = some ⟨parent, .register⟩ := rfl
  obtain ⟨stage, handshake⟩ := inv.stage
  have awaits := handshake.handshake.registered parent forked (inv.alive parent)
  have only : o.state.forks = [parent] := by
    have forks := handshake.forks
    rw [forks] at forked ⊢
    cases stage with
    | cloned other => rw [List.mem_singleton.mp forked]; rfl
    | nobody | registered | waiting => cases forked
  have token : o.state.determ.tokenpos = some parent := by
    apply inv.token.held
    have claims : (o.state.thread parent).claims = true := by
      unfold Thread.claims
      rw [inv.off parent awaits, Bool.not_false, Bool.or_true]
    unfold Thread.hasToken
    have at_ : (o.state.thread parent).pc = o.state.pc parent := rfl
    rw [at_]
    cases here : o.state.pc parent <;> rw [here] at awaits <;>
      first | exact claims | exact awaits.elim
  have ahead : (o.state.thread parent).ahead = (o.state.thread parent).plain.goto .user := by
    have at_ : (o.state.thread parent).pc = o.state.pc parent := rfl
    unfold Thread.ahead
    rw [at_]
    cases here : o.state.pc parent <;> rw [here] at awaits <;> first | rfl | exact awaits.elim
  have way : o.state.way parent = (o.state.thread parent).plain.goto .waitChildRegistered := by
    unfold State.way
    rw [if_pos forked, ahead]
    rfl
  have known : parent ≠ o.state.threadIndex := by
    refine ne_of_lt (inv.kept.known fun absent => ?_)
    rw [absent] at awaits
    exact awaits
  obtain ⟨lists, ring⟩ := inv.ring
  have at_ : (o.agent parent).thread.pc = .waitChildRegistered := congrArg Thread.pc way
  refine ⟨token, ?_, next_none (by rw [at_]; simp) (by rw [at_]; simp), ?_,
    agents_after taken ?_ ?_⟩
  · unfold Agent.act
    rw [at_]
  · rw [after_turn _ taken]
    unfold Observed.view View.after
    rw [shared_registerThread ring]
  · rintro thread (rfl | ⟨-, rfl⟩)
    · show _ = if thread = thread then (o.state.way thread).goto .user else _
      rw [if_pos rfl, way]
      refine (way_free (by simp [only])).trans ?_
      show (Function.update o.state.thread o.state.threadIndex _ thread).ahead = _
      rw [Function.update_of_ne known, ahead]
      rfl
    · show _ = if o.state.threadIndex = parent then _ else (childRecord (o.state.way parent)).ahead
      rw [if_neg known.symm, way]
      refine (way_free (by simp [only])).trans ?_
      show (Function.update o.state.thread o.state.threadIndex _ o.state.threadIndex).ahead = _
      rw [Function.update_self]
      rfl
  · intro thread apart
    obtain ⟨other, old⟩ := not_or.mp apart
    have new : thread ≠ o.state.threadIndex := fun same => old ⟨rfl, same⟩
    refine way_same ?_ ?_
    · show (Function.update o.state.thread o.state.threadIndex _ thread).ahead = _
      rw [Function.update_of_ne new]
    · exact List.mem_erase_of_ne other

/-! ## Steps -/

theorem gotToken_killed (work : Work) : (t.gotToken work).killed = t.killed := by
  cases work <;> rfl

theorem ahead_killed : t.ahead.killed = t.killed := by
  unfold Thread.ahead
  split <;> first | rfl | exact gotToken_killed _

theorem way_killed : (s.way thread).killed = (s.thread thread).killed := by
  unfold State.way
  split
  · exact ahead_killed
  · exact ahead_killed

theorem decides_killed {t' : Thread} {input : Input} (decides : t.decides input = some t') :
    t'.killed = t.killed := by
  cases input with
  | alone single =>
    obtain ⟨-, decided⟩ := Option.ite_none_right_eq_some.mp decides
    obtain rfl := Option.some.inj decided
    split <;> rfl
  | call c =>
    obtain ⟨-, asks⟩ := Option.ite_none_right_eq_some.mp decides
    cases c with
    | condWait | sigWait | cancel => cases asks
    | mutexUnlock mutex =>
      obtain ⟨-, unlocks⟩ := Option.ite_none_left_eq_some.mp asks
      obtain rfl := Option.some.inj unlocks
      rfl
    | spawn | join | exit =>
      obtain rfl := Option.some.inj asks
      rfl
    | condSignal | condBroadcast =>
      obtain rfl := Option.some.inj asks
      split <;> rfl
    | mutexLock | barrierWait =>
      obtain rfl := Option.some.inj asks
      split
      · rfl
      · split <;> rfl

theorem sectionOfWork_killed (v : Shared) (work : Work) :
    (sectionOfWork v t me work).2.killed = t.killed := by
  unfold sectionOfWork
  split
  case h_2 | h_3 => split <;> rfl
  case h_4 | h_5 => unfold Thread.signalled; split <;> rfl
  all_goals rfl

theorem sectionAt_killed (v : Shared) : (sectionAt v t me).2.killed = t.killed := by
  unfold sectionAt
  split
  · exact sectionOfWork_killed v _
  · exact ahead_killed
  all_goals rfl

theorem sectionOfCall_killed (v : Shared) (c : Call) :
    (sectionOfCall v t me c).2.killed = t.killed := by
  unfold sectionOfCall
  split
  · dsimp only
    split <;> rfl
  all_goals rfl

theorem left_killed {a : Agent} (v : View) (event : Event) (alive : a.thread.killed = false) :
    (a.left v event thread).killed = false := by
  unfold Agent.left
  split
  · split
    · exact alive
    · exact ahead_killed
  · exact (sectionOfCall_killed _ _).trans alive
  · dsimp only
    split
    · exact (sectionAt_killed _).trans alive
    · exact (sectionAt_killed _).trans alive

/-- Only the parent of a child on its way waits for it, with the fence off. -/
theorem exec_off {d : Determ} (executed : exec d t me = some result)
    (off : t.pc.AwaitsChild → t.fenceEnabled = false) (awaits : result.2.pc.AwaitsChild) :
    result.2.fenceEnabled = false := by
  by_cases steady : t.pc.Steady t.fenceEnabled
  · exact absurd awaits (exec_steady executed steady).2.apart.1
  · unfold exec at executed
    cases at_ : t.pc <;> rw [at_] at executed steady off
    case registered =>
      obtain rfl := Option.some.inj executed
      exact awaits.elim
    case waitChildRegistered =>
      simp only at executed
      split at executed
      · obtain rfl := Option.some.inj executed
        exact awaits.elim
      · obtain rfl := Option.some.inj executed
        exact off trivial
    case parentSleeping =>
      simp only [Option.ite_none_right_eq_some, Option.some.injEq] at executed
      obtain ⟨-, rfl⟩ := executed
      exact awaits.elim
    case startFence work =>
      obtain rfl := Option.some.inj executed
      exact awaits.elim
    case work work =>
      obtain rfl := Option.some.inj (Option.ite_none_left_eq_some.mp executed).2
      cases work with
      | spawn => rfl
      | join guest =>
        have unfenced : ¬t.fenceEnabled = true := steady
        simp only [perform, if_neg unfenced] at awaits
        exact awaits.elim
      | _ => exact absurd trivial steady
    all_goals exact absurd trivial steady

/-- A thread whose record does not change goes on as before. -/
theorem off_update (others : ∀ thread, thread ≠ me → (s.pc thread).AwaitsChild →
      (s.thread thread).fenceEnabled = false)
    (mine : result.2.pc.AwaitsChild → result.2.fenceEnabled = false)
    (awaits : ((s.update me result).pc thread).AwaitsChild) :
    ((s.update me result).thread thread).fenceEnabled = false := by
  rw [update_pc] at awaits
  show (Function.update s.thread me result.2 thread).fenceEnabled = false
  by_cases here : thread = me
  · rw [here, Function.update_self] at awaits ⊢
    exact mine awaits
  · rw [Function.update_of_ne here] at awaits ⊢
    exact others thread here awaits

theorem InOrder.off_step (inv : InOrder s) (ordered : Ordered s label)
    (stepped : Xrun.step s label = some s') (awaits : (s'.pc thread).AwaitsChild) :
    (s'.thread thread).fenceEnabled = false := by
  have move := move_of_step stepped
  have off : ∀ thread, (s.pc thread).AwaitsChild → (s.thread thread).fenceEnabled = false := inv.off
  cases label with
  | call me c =>
    obtain ⟨⟨user, -⟩, move⟩ := Option.ite_none_right_eq_some.mp move
    obtain ⟨result, called, rfl⟩ := Option.map_eq_some_iff.mp move
    exact off_update (fun thread _ => off thread)
      (fun awaits => absurd awaits (call_outside user called).apart.1) awaits
  | exec me =>
    obtain ⟨result, executed, rfl⟩ := Option.map_eq_some_iff.mp move
    have noCancel : ∀ target, s.pc me ≠ .work (.cancel target) := by
      intro target at_
      simp only [Ordered, at_, KeepsTurns] at ordered
    refine off_update (s := s.others me) (fun thread _ there => ?_)
      (exec_off executed (off me)) awaits
    rw [(others_flags s me thread).1]
    rcases others_pc noCancel thread with same | ⟨-, user⟩
    · exact off thread (same ▸ there)
    · rw [user] at there
      exact there.elim
  | childRegister parent =>
    obtain ⟨-, rfl⟩ := guarded move
    unfold State.pc at awaits
    change (Function.update s.thread s.threadIndex _ thread).pc.AwaitsChild at awaits
    show (Function.update s.thread s.threadIndex _ thread).fenceEnabled = false
    by_cases here : thread = s.threadIndex
    · rw [here, Function.update_self] at awaits
      exact awaits.elim
    · rw [Function.update_of_ne here] at awaits ⊢
      exact off thread awaits
  | spuriousReturn me =>
    simp only [Xrun.move] at move
    split at move
    · obtain rfl := Option.some.inj move
      exact off_update (fun thread _ => off thread) False.elim awaits
    · obtain rfl := Option.some.inj move
      exact off_update (fun thread _ => off thread) False.elim awaits
    · cases move
  | cloneFails me | sigwaitReturns me | sigwaitFails me => exact ordered.elim

/-- **Between two sections** nothing that is shared changes, and threads go on by themselves. -/
theorem InOrder.between (inv : InOrder o.state) (keeps : KeepsProgram P o label)
    (stepped : o.step label = some o') (noTurn : turn o.state label = none) :
    o'.view = o.view ∧ ∀ thread, o'.agent thread = o.agent thread ∨
      (o.agent thread).next P thread = some (o'.agent thread) := by
  obtain ⟨s', moved, rfl⟩ := Option.map_eq_some_iff.mp stepped
  cases label with
  | call me c => exact inv.callBetween keeps moved noTurn
  | exec me => exact inv.execBetween keeps moved noTurn
  | childRegister parent => cases noTurn
  | spuriousReturn me =>
    obtain ⟨view, agents⟩ := spuriousBetween moved
    exact ⟨view, fun thread => .inl (agents thread)⟩
  | cloneFails me | sigwaitReturns me | sigwaitFails me => exact keeps.ordered.elim

/-- **A section** is one of the thread that has the token, and does what it shares with others
decides. -/
theorem InOrder.takes (inv : InOrder o.state) (keeps : KeepsProgram P o label)
    (stepped : o.step label = some o') (taken : turn o.state label = some event) :
    Takes P o o' event := by
  obtain ⟨s', moved, rfl⟩ := Option.map_eq_some_iff.mp stepped
  cases label with
  | call me c => exact inv.takesCall keeps moved taken
  | exec me => exact inv.takesExec keeps moved taken
  | childRegister parent =>
    obtain rfl := Option.some.inj taken
    exact inv.takesRegister moved
  | spuriousReturn me => cases taken
  | cloneFails me | sigwaitReturns me | sigwaitFails me => exact keeps.ordered.elim

theorem InOrder.step (inv : InOrder o.state) (keeps : KeepsProgram P o label)
    (stepped : o.step label = some o') : InOrder o'.state := by
  have alive : ∀ thread, (o.agent thread).thread.killed = false := fun thread =>
    way_killed.trans (inv.alive thread)
  have alive' : ∀ thread, (o'.agent thread).thread.killed = false := by
    cases taken : turn o.state label with
    | none =>
      intro thread
      rcases (inv.between keeps stepped taken).2 thread with same | goes
      · rw [same]
        exact alive thread
      · obtain ⟨t, decides, next⟩ := Option.map_eq_some_iff.mp goes
        rw [← next]
        exact (decides_killed decides).trans (alive thread)
    | some event =>
      intro thread
      rw [(inv.takes keeps stepped taken).agents]
      split
      · exact left_killed _ _ (alive _)
      · exact alive thread
  obtain ⟨s', moved, rfl⟩ := Option.map_eq_some_iff.mp stepped
  have state : (o.after label s').state = s' := by
    unfold Observed.after
    split
    · rfl
    · split <;> rfl
  obtain ⟨lists, ring⟩ := inv.ring
  obtain ⟨stage, handshake⟩ := inv.stage
  have alive'' : ∀ thread, (s'.thread thread).killed = false := by
    intro thread
    have mine := alive' thread
    unfold Observed.agent at mine
    rw [state] at mine
    exact way_killed.symm.trans mine
  rw [state]
  exact ⟨ring.step inv.targets keeps.ring moved, inv.targets.step moved,
    inv.token.step keeps.token moved, inv.kept.step inv.targets moved,
    handshake.step inv.kept inv.targets keeps.handshake moved, alive'',
    fun _ => inv.off_step keeps.ordered moved⟩

theorem start_inOrder {cores : ℕ} (some_ : 0 < cores) (counts : ℕ → ℕ) :
    InOrder (start cores counts) := by
  have initial : system.Reachable AnyStep (start cores counts) := .init ⟨cores, counts, some_, rfl⟩
  have record : ∀ thread, (start cores counts).thread thread = absentThread ∨
      (start cores counts).thread thread =
        { absentThread with pc := .user, announced := true } := by
    intro thread
    show Function.update (fun _ => absentThread) 0 _ thread = _ ∨
      Function.update (fun _ => absentThread) 0 _ thread = _
    by_cases here : thread = 0
    · rw [here, Function.update_self]
      exact .inr rfl
    · rw [Function.update_of_ne here]
      exact .inl rfl
  refine ⟨start_ringInv cores counts, targets_of_reachable initial, start_tokenInv cores counts,
    start_wellKept cores counts, ⟨_, start_handshakeInv cores counts⟩, fun thread => ?_,
    fun thread awaits => ?_⟩
  · rcases record thread with absent | first
    · rw [absent]
      rfl
    · rw [first]
      rfl
  · unfold State.pc at awaits
    rcases record thread with absent | first
    · rw [absent] at awaits
      exact awaits.elim
    · rw [first] at awaits
      exact awaits.elim

/-! ## Programs take turns -/

theorem takesTurns (P : Program) : (observed counts).TakesTurns (fun o => InOrder o.state)
    (KeepsProgram P) Observed.view (fun v => v.shared.tokenpos) Observed.agent
    (fun thread a => a.next P thread) fun o label => turn o.state label where
  keeps inv ok move := inv.step ok move
  between inv ok move noTurn := inv.between ok move noTurn
  waits inv ok move taken := by
    have takes := inv.takes ok move taken
    exact ⟨_, takes.owner, takes.stuck⟩
  same := by
    intro o label o' event r label' r' event' inv ok move taken inv' ok' move' taken' view owner
    have takes := inv.takes ok move taken
    have takes' := inv'.takes ok' move' taken'
    have token : event.thread = event'.thread := by
      have same : o.state.determ.tokenpos = r.state.determ.tokenpos :=
        congrArg (fun v : View => v.shared.tokenpos) view
      rw [takes.owner, takes'.owner] at same
      exact Option.some.inj same
    have agent := owner event.thread takes.owner
    have equal : event = event' := by
      cases event
      cases event'
      cases token
      have act := takes.act
      rw [agent, ← takes'.act] at act
      cases act
      rfl
    subst equal
    have index : o.state.threadIndex = r.state.threadIndex := congrArg View.threadIndex view
    have events : o.events = r.events := congrArg View.events view
    refine ⟨rfl, ?_, fun thread => ?_⟩
    · rw [takes.view, takes'.view, view, agent]
    · rw [takes.agents, takes'.agents, view, agent, index, events]
      split
      · exact .inl rfl
      · exact .inr ⟨rfl, rfl⟩

theorem start_alike (P : Program) (cores cores' : ℕ) (counts : ℕ → ℕ) :
    System.Alike Observed.view Observed.agent (fun thread a => a.next P thread)
      (Observed.start cores counts) (Observed.start cores' counts) :=
  ⟨rfl, fun _ => .refl _⟩

/-- What has happened under the token is what the run has done there. -/
theorem events_of_run {labels : List Label} (execution : (observed counts).run o labels = some o') :
    o'.events =
      o.events ++ (observed counts).turns (fun o label => turn o.state label) o labels := by
  induction labels generalizing o with
  | nil =>
    obtain rfl := Option.some.inj execution
    exact (List.append_nil _).symm
  | cons label rest ih =>
    obtain ⟨middle, move, tail⟩ := Option.bind_eq_some_iff.mp execution
    obtain ⟨s', -, rfl⟩ := Option.map_eq_some_iff.mp move
    rw [System.turns_cons move, ih tail, ← List.append_assoc]
    congr 1
    unfold Observed.after
    split
    · next taken => rw [taken, Option.toList_some]
    · next noTurn =>
      rw [noTurn, Option.toList_none, List.append_nil]
      split <;> rfl

/-- What two states have in common. What has happened under the token in one of them is the first
of what has happened in the other, every thread is on the same way, and where as much has happened,
what is shared is the same. -/
structure OneOrder (P : Program) (o o' : Observed) : Prop where
  order : o.events <+: o'.events ∨ o'.events <+: o.events
  ways : o.events = o'.events → ∀ thread,
    Meets (fun a => a.next P thread) (o.agent thread) (o'.agent thread)
  shared : o.events = o'.events → o.state.determ.shared = o'.state.determ.shared ∧
    o.state.threadIndex = o'.state.threadIndex ∧ o.state.forks = o'.state.forks

/-- **One order.** Two runs of a program whose steps all meet the condition do the same under the
token, on however many cores each of them runs. -/
theorem oneOrder_of_program (reach : (observed counts).Reachable (KeepsProgram P) o)
    (reach' : (observed counts).Reachable (KeepsProgram P) o') : OneOrder P o o' := by
  obtain ⟨_, labels, ⟨cores, some_, rfl⟩, complies, execution⟩ := reach.exists_run
  obtain ⟨_, labels', ⟨cores', some_', rfl⟩, complies', execution'⟩ := reach'.exists_run
  obtain ⟨order, alike⟩ := (start_alike P cores cores' counts).run (takesTurns P)
    (start_inOrder some_ counts) (start_inOrder some_' counts) complies execution complies'
    execution'
  have events := events_of_run execution
  have events' := events_of_run execution'
  change o.events = [] ++ _ at events
  change o'.events = [] ++ _ at events'
  rw [List.nil_append] at events events'
  rw [← events, ← events'] at order alike
  refine ⟨order, fun same => (alike same).agents, fun same => ?_⟩
  have view := (alike same).view
  exact ⟨congrArg View.shared view, congrArg View.threadIndex view, congrArg View.forks view⟩

end

/-! ## Two orders of arrival -/

/-- The first thread takes a mutex, gives it back and takes it again; the second one takes another
mutex, gives it back and asks for the first. -/
def bothLock : Program := fun me seen asked =>
  match me, seen.length, asked with
  | 0, 0, _ => .call .spawn
  | 0, 2, _ | 0, 5, 0 | 1, 8, _ => .call (.mutexLock 8)
  | 1, 2, _ => .call (.mutexLock 9)
  | 1, 6, _ => .call (.mutexUnlock 9)
  | _, _, _ => .call (.mutexUnlock 8)

/-- The first thread creates the second one and starts the fence. -/
def createsOne : List Label := [.call 0 .spawn, .exec 0, .childRegister 0, .exec 1, .exec 0,
  .call 0 (.mutexLock 8), .exec 0, .exec 0]

/-- The first thread is also the first one at the fence, and spins there. -/
def arrivesFirst : List Label := createsOne ++ [.exec 0, .exec 0, .exec 0, .call 1 (.mutexLock 9),
  .exec 1, .exec 1, .exec 1, .exec 0, .exec 0, .exec 0, .exec 0, .call 0 (.mutexUnlock 8), .exec 0,
  .exec 1, .exec 1]

/-- The second thread is the first one at the fence, and sleeps there. -/
def arrivesLast : List Label := createsOne ++ [.call 1 (.mutexLock 9), .exec 1, .exec 1, .exec 1,
  .exec 0, .exec 0, .exec 0, .exec 0, .exec 0, .call 0 (.mutexUnlock 8), .exec 0, .exec 1, .exec 1,
  .exec 1]

/-- All but the condition that what is done under the token is done with it. -/
abbrev FollowsWithToken (o : Observed) (label : Label) : Prop :=
  (KeepsHandshake o.state label ∧ KeepsToken o.state label) ∧ Follows bothLock o label

/-- Both threads are through their first mutex. -/
def bothThrough : List Label :=
  arrivesFirst ++ [.call 1 (.mutexUnlock 9), .exec 1, .exec 0, .exec 1, .exec 0, .exec 0]

/-- The owner of a mutex takes it again, or the second thread has asked for it before that and the
owner waits for the token: the order depends on who is first. -/
theorem not_oneOrder_owner : ¬ ∀ o o', (observed fun _ => 2).Reachable FollowsWithToken o →
    (observed fun _ => 2).Reachable FollowsWithToken o' → OneOrder bothLock o o' := by
  intro same
  have run : ((observed fun _ => 2).runIf (fun o label => decide (FollowsWithToken o label))
      (.start 2 fun _ => 2) (bothThrough ++ [.call 0 (.mutexLock 8), .exec 0, .exec 0,
        .call 0 (.mutexUnlock 8)])).any fun o =>
          o.events.drop 8 = [⟨0, .call (.mutexUnlock 8)⟩] := by decide +kernel
  have run' : ((observed fun _ => 2).runIf (fun o label => decide (FollowsWithToken o label))
      (.start 2 fun _ => 2) (bothThrough ++ [.call 1 (.mutexLock 8), .exec 1,
        .call 0 (.mutexLock 8), .exec 0, .exec 0, .exec 0, .exec 1, .exec 1, .exec 0, .exec 0,
        .exec 0, .exec 0])).any fun o =>
          o.events.drop 8 = [⟨0, .step (.work (.lock 8))⟩] := by decide +kernel
  obtain ⟨o, execution, facts⟩ := (Option.any_eq_true _ _).mp run
  obtain ⟨o', execution', facts'⟩ := (Option.any_eq_true _ _).mp run'
  have start : (observed fun _ => 2).Reachable FollowsWithToken (.start 2 fun _ => 2) :=
    .init ⟨2, Nat.two_pos, rfl⟩
  have reach := start.runIf (fun _ _ => of_decide_eq_true) execution
  have reach' := start.runIf (fun _ _ => of_decide_eq_true) execution'
  have unlocks := of_decide_eq_true facts
  have locks := of_decide_eq_true facts'
  rcases (same o o' reach reach').order with first | first
  · have shorter := first.drop 8
    rw [unlocks, locks] at shorter
    simp at shorter
  · have shorter := first.drop 8
    rw [unlocks, locks] at shorter
    simp at shorter

end Tthread.Xrun
