/-
# Cancelling a thread

The canceller kills the process and then looks for its entry. Only a thread that waits for a
condition variable is found: its entry leaves the queue, but the queue counts it on. An entry
anywhere else is not touched, so a dead thread stays in the ring or in the list of its
barrier, and goes on to be counted among the living.
-/

import Tthread.TokenRing

namespace Tthread.Xrun

open Transition EntryList

/-- The thread counts for the fence. -/
def Counts (s : State) (thread : ℕ) : Prop := Active s thread ∧ (s.thread thread).announced = true

instance (s : State) (thread : ℕ) : Decidable (Counts s thread) :=
  inferInstanceAs (Decidable (_ ∧ _))

/-- The thread has arrived at the fence and not left it. -/
def Pc.Arrived : Pc → Bool
  | .fence .insideSpin _ | .fence .leave _ | .fence .insideSleep _ => true
  | _ => false

/-- The thread is in no list of the second state, where the queues are counted right, and has
not got the token. Against the first state the counters lack just what the thread counted
for. -/
structure Removed (s s' : State) (thread : ℕ) : Prop where
  lists : ∃ lists : Place → List ℕ, Family s'.determ.links (head s'.determ) lists ∧
    (∀ p, thread ∉ lists p) ∧
    ∀ cond, (s'.determ.conds cond).waiters = (lists (.cond cond)).length
  token : s'.determ.tokenpos ≠ some thread
  alivethreads : s'.determ.alivethreads + 1 = s.determ.alivethreads
  maxthreads : s'.determ.maxthreads + (if Counts s thread then 1 else 0) = s.determ.maxthreads
  currthreads : s'.determ.currthreads + (if (s.pc thread).Arrived then 1 else 0) =
    s.determ.currthreads

variable {s s' : State} {me target : ℕ} {lists : Place → List ℕ}

/-- The step that touches the entry. -/
theorem cancel_step (at_ : s.pc me = .work (.cancel target)) (other : target ≠ me)
    (move : system.step s (.exec me) = some s') : s'.determ = s.determ.cancel target := by
  have here : (s.thread me).pc = .work (.cancel target) := at_
  obtain ⟨result, executed, rfl⟩ := Option.map_eq_some_iff.mp (move_of_step move)
  simp only [Xrun.exec, here, Option.ite_none_left_eq_some, Option.some.injEq, perform,
    if_neg other] at executed
  rw [← executed.2]
  rfl

/-- A waiter leaves a queue that still counts it. -/
theorem RingInv.miscounts (inv : RingInv s.determ s.pc s.threadIndex lists)
    (known : target < s.threadIndex) (asleep : s.determ.status target = .condWaiting)
    (determ : s'.determ = s.determ.cancel target) : ¬ Removed s s' target := by
  intro removed
  obtain ⟨lists', family, -, counted⟩ := removed.lists
  have member := inv.queued known asleep
  have left := cancel_dequeues inv.family asleep member
  rw [determ] at family counted
  -- The links determine the queue, so both say how long it is.
  have same := (family.list (.cond (s.determ.cond target))).perm (left.family.list _)
  have count := counted (s.determ.cond target)
  have before := inv.waiters (s.determ.cond target)
  have positive := List.length_pos_of_mem member
  rw [left.waiters, same.length_eq, Function.update_self, List.length_erase_of_mem member] at count
  omega

/-- **Cancelling never removes a thread**: whatever the target is doing, the step that should
take its entry out leaves a count that is wrong. -/
theorem not_removed_of_cancel (reach : system.Reachable KeepsRing s)
    (at_ : s.pc me = .work (.cancel target)) (other : target ≠ me)
    (move : system.step s (.exec me) = some s') : ¬ Removed s s' target := by
  have determ := cancel_step at_ other move
  by_cases asleep : s.determ.status target = .condWaiting
  · obtain ⟨lists, inv⟩ := ringInv_of_keepsRing reach
    have known := targets_of_reachable reach me target (by rw [at_]; rfl)
    exact inv.miscounts known asleep determ
  · intro removed
    have alive := removed.alivethreads
    rw [determ, cancel_of_ne asleep] at alive
    omega

/-- The first thread creates another one and is about to cancel it. -/
def cancelsChild : List Label := [.call 0 .spawn, .exec 0, .childRegister 0, .exec 1, .exec 0,
  .call 0 (.cancel 1), .exec 0, .exec 0]

/-- The child stays in the ring and is counted as alive. -/
theorem not_removed_child : ∃ s s', system.Reachable KeepsRing s ∧
    s.pc 0 = .work (.cancel 1) ∧ s.determ.status 1 = .ready ∧
    system.step s (.exec 0) = some s' ∧ ¬ Removed s s' 1 := by
  have run : (system.runIf keepsRing (start 2 fun _ => 2) cancelsChild).any fun s =>
      (s.pc 0 = .work (.cancel 1) ∧ s.determ.status 1 = .ready) ∧
        (system.step s (.exec 0)).isSome := by decide +kernel
  obtain ⟨s, execution, facts⟩ := (Option.any_eq_true _ _).mp run
  obtain ⟨⟨at_, ready⟩, stepped⟩ := of_decide_eq_true facts
  obtain ⟨s', move⟩ := Option.isSome_iff_exists.mp stepped
  have start : system.Reachable KeepsRing (start 2 fun _ => 2) := .init ⟨2, _, Nat.two_pos, rfl⟩
  have reach := start.runIf keepsRing_sound execution
  exact ⟨s, s', reach, at_, ready, move, not_removed_of_cancel reach at_ one_ne_zero move⟩

/-- A cancelled thread that is ready goes on to be counted. -/
theorem not_removed_ready : ¬ ∀ s s' me target, system.Reachable AnyStep s →
    s.pc me = .work (.cancel target) → target ≠ me → s.determ.status target ≠ .exit →
    system.step s (.exec me) = some s' → Removed s s' target := by
  intro removes
  have run : (system.run (start 2 fun _ => 2) cancelsChild).any fun s =>
      (s.pc 0 = .work (.cancel 1) ∧ s.determ.status 1 ≠ .exit) ∧
        (system.step s (.exec 0)).any fun s' =>
          s'.determ.alivethreads = s.determ.alivethreads := by decide +kernel
  obtain ⟨s, execution, facts⟩ := (Option.any_eq_true _ _).mp run
  obtain ⟨⟨at_, alive⟩, stepped⟩ := of_decide_eq_true facts
  obtain ⟨s', move, same⟩ := (Option.any_eq_true _ _).mp stepped
  have start : system.Reachable AnyStep (start 2 fun _ => 2) := .init ⟨2, _, Nat.two_pos, rfl⟩
  have removed := removes s s' 0 1 (start.run execution) at_ one_ne_zero alive move
  have fewer := removed.alivethreads
  rw [of_decide_eq_true same] at fewer
  omega

end Tthread.Xrun
