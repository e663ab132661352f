/-
# Sleepers in the fence

A thread that waits for a phase on the condition variable goes on only after a broadcast, or
after a wakeup without one, and then looks at the phase again. Every change of the phase in the
fence comes with a broadcast under the same mutex, so nobody sleeps on when the phase it waits
for has come. And once all participants are in `waitFence` in an arrival phase, they all get
through it, without anybody's help and without spurious wakeups.
-/

import Mathlib.Algebra.Order.BigOperators.Group.Finset
import Mathlib.Data.Prod.Lex
import Tthread.FenceRounds

namespace Tthread.Fence

open Transition Determ

/-- The fence, with the threads that wait on the condition and have not been woken. -/
structure CondState extends FenceState where
  asleep : Finset ℕ

inductive CondLabel
  | fence (label : FenceLabel)
  /-- a thread wakes up without a broadcast -/
  | spurious (thread : ℕ)

/-- The loop around the wait on the condition goes on. -/
def sleeps (d : Determ) : Option FencePos → Bool
  | some .sleep => !d.isArrivalPhase
  | some .insideSleep => d.isArrivalPhase
  | _ => false

/-- The access counts its caller out. -/
def leaves : FencePos → Bool
  | .leave | .insideSleep => true
  | _ => false

/-- The last one to arrive wakes the others, and so does the last one to leave. -/
def broadcasts (d : Determ) (pos : FencePos) : Bool :=
  arrives d pos && decide (d.maxthreads ≤ increased d.currthreads 1) ||
    leaves pos && decide (decreased d.currthreads = 0)

namespace CondState

/-- The next access of a thread that is awake. One that waits on the condition and finds the
phase unchanged waits again. -/
def exec (s : CondState) (thread : ℕ) (pos : FencePos) : Option CondState :=
  match s.determ.waitFence thread pos with
  | none =>
      if sleeps s.determ (some pos) then some { s with asleep := insert thread s.asleep } else none
  | some result =>
      let asleep := if broadcasts s.determ pos then ∅ else s.asleep
      some {
        toFenceState := s.after thread pos result
        asleep := if sleeps result.1 result.2 then insert thread asleep else asleep }

def step (s : CondState) : CondLabel → Option CondState
  | .fence (.exec thread) =>
      if thread ∈ s.asleep then none else (s.pos thread).bind (s.exec thread)
  | .fence (.startFence threads) =>
      (s.toFenceState.step (.startFence threads)).map fun fence => ⟨fence, ∅⟩
  | .fence (.decrFence thread) =>
      (s.toFenceState.step (.decrFence thread)).map fun fence =>
        ⟨fence, if fence.determ.maxthreads ≤ s.determ.currthreads then ∅ else s.asleep⟩
  | .fence label => (s.toFenceState.step label).map fun fence => ⟨fence, s.asleep⟩
  | .spurious thread =>
      if thread ∈ s.asleep then some { s with asleep := s.asleep.erase thread } else none

end CondState

def condSystem : System CondState CondLabel where
  Init s := Starts s.toFenceState ∧ s.asleep = ∅
  step := CondState.step

/-- The condition on a step: that of the fence. -/
def KeepsCond (s : CondState) : CondLabel → Prop
  | .fence label => KeepsRounds s.toFenceState label
  | .spurious _ => True

variable {s s' : CondState} {f f' : FenceState} {d : Determ} {thread : ℕ} {pos : FencePos}
  {result : Determ × Option FencePos}

/-! ## Nobody sleeps on -/

/-- Whoever is asleep waits for a phase that has not come. -/
def NoneLost (s : CondState) : Prop :=
  ∀ thread ∈ s.asleep, sleeps s.determ (s.pos thread) = true

/-- An access counts its caller in, or counts it out, or lets it go on to the next one. -/
theorem waitFence_cases (waits : d.waitFence thread pos = some result) :
    (arrives d pos = true ∧ (pos = .arrive ∨ d.isArrivalPhase = true) ∧ ¬ Inside (some pos) ∧
        result = d.arriveFence thread) ∨
      (leaves pos = true ∧ (pos = .leave ∨ d.isArrivalPhase = false) ∧
        result = (d.leaveFence, none)) ∨
      (pos = .enter ∧ d.isArrivalPhase = false ∧
        (result = (d, some .spin) ∨ result = (d, some .sleep))) ∨
      (pos = .spin ∧ d.isArrivalPhase = true ∧ result = (d, some .arrive)) ∨
      (pos = .insideSpin ∧ d.isArrivalPhase = false ∧
        result = (d.setWait thread false, some .leave)) := by
  cases pos with
  | enter =>
    simp only [waitFence] at waits
    split at waits
    · next arrival => exact .inl ⟨arrival, .inr arrival, id, (Option.some.inj waits).symm⟩
    · next ended =>
      obtain rfl := Option.some.inj waits
      refine .inr (.inr (.inl ⟨rfl, Bool.eq_false_iff.mpr ended, ?_⟩))
      split
      · exact .inl rfl
      · exact .inr rfl
  | spin =>
    obtain ⟨arrival, same⟩ := Option.ite_none_right_eq_some.mp waits
    exact .inr (.inr (.inr (.inl ⟨rfl, arrival, (Option.some.inj same).symm⟩)))
  | arrive => exact .inl ⟨rfl, .inl rfl, id, (Option.some.inj waits).symm⟩
  | sleep =>
    obtain ⟨arrival, same⟩ := Option.ite_none_right_eq_some.mp waits
    exact .inl ⟨rfl, .inr arrival, id, (Option.some.inj same).symm⟩
  | insideSpin =>
    obtain ⟨ended, same⟩ := Option.ite_none_left_eq_some.mp waits
    exact .inr (.inr (.inr (.inr ⟨rfl, Bool.eq_false_iff.mpr ended, (Option.some.inj same).symm⟩)))
  | leave => exact .inr (.inl ⟨rfl, .inl rfl, (Option.some.inj waits).symm⟩)
  | insideSleep =>
    obtain ⟨ended, same⟩ := Option.ite_none_left_eq_some.mp waits
    exact .inr (.inl ⟨rfl, .inr (Bool.eq_false_iff.mpr ended), (Option.some.inj same).symm⟩)

/-- Without a broadcast the phase stays. -/
theorem waitFence_phase (waits : d.waitFence thread pos = some result)
    (silent : broadcasts d pos = false) : result.1.isArrivalPhase = d.isArrivalPhase := by
  obtain ⟨counts, leaving⟩ := Bool.or_eq_false_iff.mp silent
  obtain ⟨arriving, -, -, rfl⟩ | ⟨left, -, rfl⟩ | ⟨-, -, rfl | rfl⟩ | ⟨-, -, rfl⟩ | ⟨-, -, rfl⟩ :=
    waitFence_cases waits
  · rw [arriving, Bool.true_and, decide_eq_false_iff_not] at counts
    rw [arriveFence, if_neg counts]
    rfl
  · rw [left, Bool.true_and, decide_eq_false_iff_not] at leaving
    rw [leaveFence, if_neg leaving]
  · rfl
  · rfl
  · rfl
  · rfl

theorem sleeps_congr (phase : d.isArrivalPhase = f.determ.isArrivalPhase) (pos : Option FencePos) :
    sleeps d pos = sleeps f.determ pos := by
  unfold sleeps
  rw [phase]

/-- The phase of the fence stays as it is unless the step broadcasts. -/
theorem NoneLost.congr (lost : NoneLost s) (asleep : s'.asleep ⊆ s.asleep)
    (phase : s'.determ.isArrivalPhase = s.determ.isArrivalPhase)
    (pos : ∀ thread ∈ s'.asleep, s'.pos thread = s.pos thread) : NoneLost s' := by
  intro thread member
  rw [sleeps_congr phase, pos thread member]
  exact lost thread (asleep member)

theorem noneLost_of_nobody (nobody : s'.asleep = ∅) : NoneLost s' := by
  intro thread member
  rw [nobody] at member
  exact absurd member (Finset.notMem_empty thread)

/-- One access of a thread that is awake. -/
theorem exec_cases (moved : s.exec thread pos = some s') :
    (s.determ.waitFence thread pos = none ∧ sleeps s.determ (some pos) = true ∧
        s' = { s with asleep := insert thread s.asleep }) ∨
      ∃ result, s.determ.waitFence thread pos = some result ∧
        s'.toFenceState = s.after thread pos result ∧
        s'.asleep = if sleeps result.1 result.2 then
            insert thread (if broadcasts s.determ pos then ∅ else s.asleep)
          else if broadcasts s.determ pos then ∅ else s.asleep := by
  unfold CondState.exec at moved
  split at moved
  · next blocked =>
    obtain ⟨down, same⟩ := Option.ite_none_right_eq_some.mp moved
    exact .inl ⟨blocked, down, (Option.some.inj same).symm⟩
  · next result waits =>
    obtain rfl := Option.some.inj moved
    exact .inr ⟨result, waits, rfl, rfl⟩

theorem NoneLost.step {label : CondLabel} (lost : NoneLost s) (stepped : s.step label = some s') :
    NoneLost s' := by
  cases label with
  | spurious thread =>
    obtain ⟨-, rfl⟩ := guarded stepped
    exact lost.congr (Finset.erase_subset _ _) rfl fun _ _ => rfl
  | fence label =>
    cases label with
    | waitFence thread =>
      obtain ⟨fence, moved, rfl⟩ := Option.map_eq_some_iff.mp stepped
      obtain ⟨⟨-, away⟩, rfl⟩ := guarded moved
      refine lost.congr (Finset.Subset.refl _) rfl fun other member => ?_
      -- a thread outside is not asleep
      refine Function.update_of_ne (fun same => ?_) _ _
      have down := lost other member
      rw [same, away] at down
      cases down
    | exec thread =>
      obtain ⟨awake, moved⟩ := Option.ite_none_left_eq_some.mp stepped
      obtain ⟨pos, there, moved⟩ := Option.bind_eq_some_iff.mp moved
      obtain ⟨-, down, rfl⟩ | ⟨result, waits, fence, asleep⟩ := exec_cases moved
      · intro other member
        obtain rfl | old := Finset.mem_insert.mp member
        · show sleeps s.determ (s.pos other) = true
          rw [there]
          exact down
        · exact lost other old
      · have determ : s'.determ = result.1 := congrArg FenceState.determ fence
        have moved : s'.pos = Function.update s.pos thread result.2 :=
          congrArg FenceState.pos fence
        -- the others stay asleep only if the phase does
        have others : ∀ other ∈ (if broadcasts s.determ pos then ∅ else s.asleep),
            sleeps s'.determ (s'.pos other) = true := by
          intro other member
          split_ifs at member with wakes
          · exact absurd member (Finset.notMem_empty other)
          · have phase := waitFence_phase waits (Bool.eq_false_of_not_eq_true wakes)
            have apart : other ≠ thread := fun same => awake (same ▸ member)
            rw [determ, sleeps_congr phase, moved, Function.update_of_ne apart]
            exact lost other member
        intro other member
        rw [asleep] at member
        split_ifs at member with down wakes
        · obtain rfl | old := Finset.mem_insert.mp member
          · rw [determ, moved, Function.update_self]
            exact down
          · exact absurd old (Finset.notMem_empty other)
        · obtain rfl | old := Finset.mem_insert.mp member
          · rw [determ, moved, Function.update_self]
            exact down
          · exact others other (by rwa [if_neg wakes])
        · exact absurd member (Finset.notMem_empty other)
        · exact others other (by rwa [if_neg ‹_›])
    | startFence threads =>
      obtain ⟨fence, -, rfl⟩ := Option.map_eq_some_iff.mp stepped
      exact noneLost_of_nobody rfl
    | incrFence threads =>
      obtain ⟨fence, moved, rfl⟩ := Option.map_eq_some_iff.mp stepped
      obtain ⟨-, rfl⟩ := guarded moved
      exact lost.congr (Finset.Subset.refl _) rfl fun _ _ => rfl
    | decrFence thread =>
      obtain ⟨fence, moved, rfl⟩ := Option.map_eq_some_iff.mp stepped
      obtain ⟨-, rfl⟩ := guarded moved
      by_cases wakes : s.determ.decrFence.maxthreads ≤ s.determ.currthreads
      · exact noneLost_of_nobody (if_pos wakes)
      · -- there are threads that have yet to arrive
        have phase : s.determ.decrFence.isArrivalPhase = s.determ.isArrivalPhase := by
          have more : ¬ decreased s.determ.maxthreads ≤ s.determ.currthreads := by
            rwa [(decrFence_phase (d := s.determ)).1] at wakes
          exact Bool.eq_iff_iff.mpr
            (decrFence_phase.2.2.trans (and_iff_left fun both => more both.1))
        have asleep : (if s.determ.decrFence.maxthreads ≤ s.determ.currthreads then ∅
          else s.asleep) = s.asleep := if_neg wakes
        refine lost.congr asleep.subset phase fun other _ => ?_
        show FenceState.pos (if _ then _ else _) other = _
        split <;> rfl

theorem noneLost_of_steps {Ok : CondState → CondLabel → Prop}
    (reach : condSystem.Reachable Ok s) : NoneLost s :=
  reach.invariant NoneLost (fun _ init => noneLost_of_nobody (And.right init))
    fun _ _ _ lost _ stepped => lost.step stepped

/-- Whoever waits on the condition for a phase that has not come cannot go on. -/
theorem waitFence_of_sleeps (down : sleeps d (some pos) = true) :
    d.waitFence thread pos = none := by
  cases pos with
  | sleep => exact if_neg (Bool.eq_false_iff.mp (Bool.not_eq_true' _ ▸ down))
  | insideSleep => exact if_pos down
  | enter | spin | arrive | insideSpin | leave => cases down

/-- **No wakeup is lost.** In every state that any steps lead to, whoever is asleep waits for a
phase that has not come: if it woke up it would go to sleep again, with nothing changed. -/
theorem noneLost_of_reachable (reach : condSystem.Reachable AnyStep s) :
    NoneLost s ∧ ∀ thread ∈ s.asleep,
      condSystem.run s [.spurious thread, .fence (.exec thread)] = some s := by
  have lost := noneLost_of_steps reach
  refine ⟨lost, fun thread asleep => ?_⟩
  obtain ⟨pos, there⟩ : ∃ pos, s.pos thread = some pos := by
    refine Option.ne_none_iff_exists'.mp fun out => ?_
    have down := lost thread asleep
    rw [out] at down
    exact Bool.false_ne_true down
  have down := lost thread asleep
  rw [there] at down
  have woken : condSystem.step s (.spurious thread) =
      some { s with asleep := s.asleep.erase thread } := if_pos asleep
  rw [System.run_cons, woken, Option.bind_some, System.run_cons]
  have again : condSystem.step { s with asleep := s.asleep.erase thread }
      (.fence (.exec thread)) = some s := by
    show (if thread ∈ s.asleep.erase thread then none else (s.pos thread).bind _) = _
    rw [if_neg (Finset.notMem_erase _ _), there, Option.bind_some, CondState.exec]
    rw [waitFence_of_sleeps down]
    show (if sleeps s.determ (some pos) = true then _ else none) = _
    rw [if_pos down, Finset.insert_erase asleep]
  rw [again]
  rfl

/-! ## Everybody gets through -/

/-- In an arrival phase somebody has yet to arrive. -/
def Waits (d : Determ) : Prop :=
  d.isArrivalPhase = true → d.maxthreads ≠ 0 → d.currthreads < d.maxthreads

theorem waits_arriveFence : Waits (d.arriveFence thread).1 := by
  unfold arriveFence
  by_cases last : d.maxthreads ≤ increased d.currthreads 1
  · simp only [if_pos last]
    obtain ⟨counter, maxthreads, phase⟩ := leaveFence_phase (d := { d with
      currthreads := increased d.currthreads 1, isArrivalPhase := false })
    intro arrival some
    -- the phase is over unless nobody is left inside
    have none := (phase.mp arrival).resolve_right Bool.false_ne_true
    rw [counter, none]
    exact Nat.pos_of_ne_zero some
  · simp only [if_neg last]
    exact fun _ _ => not_le.mp last

theorem waits_leaveFence (ended : d.isArrivalPhase = false) : Waits d.leaveFence := by
  obtain ⟨counter, maxthreads, phase⟩ := leaveFence_phase (d := d)
  intro arrival some
  have none := (phase.mp arrival).resolve_right (ended ▸ Bool.false_ne_true)
  rw [counter, none]
  exact Nat.pos_of_ne_zero some

theorem Waits.step {label : FenceLabel} (waits : Waits f.determ) (inv : FenceInv f)
    (keeps : KeepsRounds f label) (stepped : f.step label = some f') : Waits f'.determ := by
  -- with more participants there are more to wait for
  have grown : f'.determ.currthreads = f.determ.currthreads → f.participants ⊆ f'.participants →
      f.determ.isArrivalPhase = true → Waits f'.determ := by
    intro same more arrival _ some
    have inv' := inv.step keeps stepped
    have counted := Finset.card_le_card more
    rw [← inv.maxthreads, ← inv'.maxthreads] at counted
    rw [same]
    by_cases nobody : f.determ.maxthreads = 0
    · have none := Finset.card_le_card (insiders_subset (s := f))
      rw [← inv.maxthreads, ← inv.currthreads, nobody] at none
      omega
    · exact (waits arrival nobody).trans_le counted
  cases label with
  | waitFence thread =>
    obtain ⟨-, rfl⟩ := guarded stepped
    exact waits
  | exec thread =>
    obtain ⟨pos, there, stepped⟩ := Option.bind_eq_some_iff.mp stepped
    obtain ⟨result, moved, rfl⟩ := Option.map_eq_some_iff.mp stepped
    show Waits result.1
    obtain ⟨-, -, -, rfl⟩ | ⟨-, ended, rfl⟩ | ⟨-, -, rfl | rfl⟩ | ⟨-, -, rfl⟩ | ⟨-, -, rfl⟩ :=
      waitFence_cases moved
    · exact waits_arriveFence
    · refine waits_leaveFence ?_
      obtain rfl | ended := ended
      · -- in the phase of arrival nobody is at this access
        have inside : Inside (f.pos thread) := by rw [there]; trivial
        exact Bool.eq_false_iff.mpr fun arrival =>
          (inv.arrival arrival thread inside).2.2 there
      · exact ended
    · exact waits
    · exact waits
    · exact waits
    · exact waits
  | startFence threads =>
    obtain ⟨-, rfl⟩ := guarded stepped
    exact grown rfl Finset.subset_union_left keeps
  | incrFence threads =>
    obtain ⟨-, rfl⟩ := guarded stepped
    exact fun arrival => grown rfl Finset.subset_union_left arrival arrival
  | decrFence thread =>
    obtain ⟨-, rfl⟩ := guarded stepped
    obtain ⟨maxthreads, currthreads, phase⟩ := decrFence_phase (d := f.determ)
    intro arrival some
    have more := (phase.mp arrival).2
    show f.determ.decrFence.currthreads < f.determ.decrFence.maxthreads
    change f.determ.decrFence.maxthreads ≠ 0 at some
    rw [maxthreads] at some ⊢
    rw [currthreads]
    exact not_le.mp fun few => more ⟨few, some⟩

/-- In the round that is numbered either all participants are still in `waitFence`, or it is
completed and they are inside or out. -/
def Passing (f : FenceState) (round : ℕ) : Prop :=
  f.determ.isArrivalPhase = true ∧ f.rounds = round ∧
      (∀ thread ∈ f.participants, f.pos thread ≠ none) ∨
    f.rounds = round + 1 ∧ ∀ thread, f.pos thread = none ∨
      Inside (f.pos thread) ∧ f.determ.isArrivalPhase = false

/-- The last arrival finds the others inside, and completes the round. -/
theorem passing_arrive {round : ℕ} (inv : FenceInv f) (arrival : f.determ.isArrivalPhase = true)
    (now : f.rounds = round) (all : ∀ thread ∈ f.participants, f.pos thread ≠ none)
    (member : thread ∈ f.participants) (outside : ¬ Inside (f.pos thread)) :
    Passing { f.countIn thread with
      determ := (f.determ.arriveFence thread).1
      pos := Function.update f.pos thread (f.determ.arriveFence thread).2 } round := by
  unfold FenceState.countIn arriveFence
  by_cases last : f.determ.maxthreads ≤ increased f.determ.currthreads 1
  · rw [if_pos last]
    simp only [if_pos last]
    have enough : f.participants.card ≤ f.insiders.card + 1 := by
      rwa [inv.maxthreads, inv.increased] at last
    have others := all_inside member (not_inside_of_mem_compl inv outside) enough
    obtain ⟨counter, -, phase⟩ := leaveFence_phase (d := { f.determ with
      currthreads := increased f.determ.currthreads 1, isArrivalPhase := false })
    refine .inr ⟨congrArg (· + 1) now, fun other => ?_⟩
    show Function.update f.pos thread none other = none ∨
      Inside (Function.update f.pos thread none other) ∧ _
    by_cases here : other = thread
    · rw [here, Function.update_self]
      exact .inl rfl
    · rw [Function.update_of_ne here]
      by_cases there : f.pos other = none
      · exact .inl there
      · -- the others are inside, so that the caller is not the last one to leave
        have inside : other ∈ f.insiders := by
          have among := others ▸ inv.counted other there
          exact (Finset.mem_insert.mp among).resolve_left here
        refine .inr ⟨(mem_insiders inv).mp inside, Bool.eq_false_iff.mpr fun again => ?_⟩
        have none := (phase.mp again).resolve_right Bool.false_ne_true
        have back : decreased (increased f.determ.currthreads 1) = f.determ.currthreads := by
          rw [inv.increased, decreased_of_pos (Nat.succ_pos _), inv.currthreads]
          rfl
        change decreased (increased f.determ.currthreads 1) = 0 at none
        rw [back, inv.currthreads, Finset.card_eq_zero] at none
        rw [none] at inside
        exact absurd inside (Finset.notMem_empty other)
  · rw [if_neg last]
    simp only [if_neg last]
    refine .inl ⟨arrival, now, fun other member => ?_⟩
    show Function.update f.pos thread _ other ≠ none
    by_cases here : other = thread
    · rw [here, Function.update_self]
      exact Option.some_ne_none _
    · rw [Function.update_of_ne here]
      exact all other member

/-- The caller goes on to its next access, and stays inside if it is. -/
theorem Passing.move {round : ℕ} {next : FencePos} (passing : Passing f round)
    (there : f.pos thread ≠ none) (phase : d.isArrivalPhase = f.determ.isArrivalPhase)
    (inside : Inside (f.pos thread) → Inside (some next)) :
    Passing { f with determ := d, pos := Function.update f.pos thread (some next) } round := by
  obtain ⟨arrival, now, all⟩ | ⟨done, out⟩ := passing
  · refine .inl ⟨phase.trans arrival, now, fun other member => ?_⟩
    show Function.update f.pos thread (some next) other ≠ none
    by_cases here : other = thread
    · rw [here, Function.update_self]
      exact Option.some_ne_none _
    · rw [Function.update_of_ne here]
      exact all other member
  · refine .inr ⟨done, fun other => ?_⟩
    show Function.update f.pos thread (some next) other = none ∨
      Inside (Function.update f.pos thread (some next) other) ∧ d.isArrivalPhase = false
    rw [phase]
    by_cases here : other = thread
    · obtain ⟨entered, ended⟩ := (out thread).resolve_left there
      rw [here, Function.update_self]
      exact .inr ⟨inside entered, ended⟩
    · rw [Function.update_of_ne here]
      exact out other

/-- The phase of a completed round stays over until the last one has left. -/
theorem Passing.leave {round : ℕ} (passing : Passing f round) (inv : FenceInv f)
    (inside : Inside (f.pos thread)) (ended : f.determ.isArrivalPhase = false) :
    Passing { f with
      determ := f.determ.leaveFence, pos := Function.update f.pos thread none } round := by
  obtain ⟨arrival, -, -⟩ | ⟨done, out⟩ := passing
  · exact absurd (ended.symm.trans arrival) Bool.false_ne_true
  refine .inr ⟨done, fun other => ?_⟩
  show Function.update f.pos thread none other = none ∨
    Inside (Function.update f.pos thread none other) ∧ f.determ.leaveFence.isArrivalPhase = false
  by_cases here : other = thread
  · rw [here, Function.update_self]
    exact .inl rfl
  · rw [Function.update_of_ne here]
    refine (out other).imp_right fun both => ⟨both.1, Bool.eq_false_iff.mpr fun again => ?_⟩
    -- the caller and the other one are both counted
    have none := (leaveFence_phase.2.2.mp again).resolve_right (ended ▸ Bool.false_ne_true)
    have two : {other, thread} ⊆ f.insiders := Finset.insert_subset ((mem_insiders inv).mpr both.1)
      (Finset.singleton_subset_iff.mpr ((mem_insiders inv).mpr inside))
    have counted := Finset.card_le_card two
    rw [Finset.card_pair here, ← inv.currthreads] at counted
    rw [decreased_of_pos (by omega)] at none
    omega

theorem Passing.exec {round : ℕ} (passing : Passing f round) (inv : FenceInv f)
    (stepped : f.step (.exec thread) = some f') : Passing f' round := by
  obtain ⟨pos, there, stepped⟩ := Option.bind_eq_some_iff.mp stepped
  obtain ⟨result, moved, rfl⟩ := Option.map_eq_some_iff.mp stepped
  have among : f.pos thread ≠ none := by
    rw [there]
    exact Option.some_ne_none _
  have member := inv.counted thread among
  -- in the numbered round the phase of arrival lasts until it is completed
  have early : ¬ Inside (f.pos thread) → f.determ.isArrivalPhase = true ∧ f.rounds = round ∧
      ∀ other ∈ f.participants, f.pos other ≠ none := by
    intro outside
    refine passing.resolve_right fun done => ?_
    exact outside ((done.2 thread).resolve_left among).1
  unfold FenceState.after
  obtain ⟨arriving, -, outside, rfl⟩ | ⟨left, ended, rfl⟩ | ⟨rfl, ended, -⟩ |
    ⟨rfl, -, rfl⟩ | ⟨rfl, ended, rfl⟩ := waitFence_cases moved
  · rw [← there] at outside
    obtain ⟨arrival, now, all⟩ := early outside
    rw [if_pos arriving]
    exact passing_arrive inv arrival now all member outside
  · have inside : Inside (f.pos thread) := by
      rw [there]
      cases pos <;> trivial
    have silent : ¬ arrives f.determ pos = true := by
      cases pos <;> first | exact Bool.false_ne_true | cases left
    have past : f.determ.isArrivalPhase = false := by
      obtain rfl | past := ended
      · exact Bool.eq_false_iff.mpr fun arrival => (inv.arrival arrival thread inside).2.2 there
      · exact past
    rw [if_neg silent]
    exact passing.leave inv inside past
  · have outside : ¬ Inside (f.pos thread) := by
      rw [there]
      exact id
    exact absurd (ended.symm.trans (early outside).1) Bool.false_ne_true
  · rw [if_neg (by exact Bool.false_ne_true)]
    refine passing.move among rfl fun inside => ?_
    rw [there] at inside
    exact inside.elim
  · rw [if_neg (by exact Bool.false_ne_true)]
    exact passing.move among rfl fun _ => trivial

/-- The participants take their accesses, and nothing else happens. -/
def Goes (s s' : CondState) : Prop := ∃ thread, s.step (.fence (.exec thread)) = some s'

/-- How many accesses a thread has before it, at most. -/
def rank : Option FencePos → ℕ
  | none => 0
  | some .leave | some .insideSleep => 1
  | some .insideSpin => 2
  | some .arrive | some .sleep => 3
  | some .spin => 4
  | some .enter => 5

theorem rank_waitFence (waits : d.waitFence thread pos = some result) :
    rank result.2 < rank (some pos) := by
  obtain ⟨arriving, -, -, rfl⟩ | ⟨left, -, rfl⟩ | ⟨rfl, -, rfl | rfl⟩ | ⟨rfl, -, rfl⟩ |
    ⟨rfl, -, rfl⟩ := waitFence_cases waits
  · have most : rank (d.arriveFence thread).2 ≤ 2 := by
      simp only [arriveFence]
      split_ifs <;> simp [rank]
    refine most.trans_lt ?_
    cases pos <;> first | decide | cases arriving
  · cases pos <;> first | exact Nat.one_pos | cases left
  all_goals simp [rank]

theorem participants_after :
    (f.after thread pos result).participants = f.participants := by
  unfold FenceState.after FenceState.countIn
  split_ifs <;> rfl

/-- Accesses to come, and threads that may still go to sleep. -/
def distance (s : CondState) : ℕ ×ₗ ℕ :=
  toLex (∑ thread ∈ s.participants, rank (s.pos thread), (s.participants \ s.asleep).card)

/-- A thread that waits again cannot do so before the next broadcast, and otherwise it has one
access fewer before it. -/
theorem distance_lt (inv : FenceInv s.toFenceState) (goes : Goes s s') :
    distance s' < distance s := by
  obtain ⟨thread, stepped⟩ := goes
  obtain ⟨awake, moved⟩ := Option.ite_none_left_eq_some.mp stepped
  obtain ⟨pos, there, moved⟩ := Option.bind_eq_some_iff.mp moved
  have member := inv.counted thread (by rw [there]; exact Option.some_ne_none _)
  refine Prod.Lex.toLex_lt_toLex.mpr ?_
  obtain ⟨-, -, rfl⟩ | ⟨result, waits, fence, -⟩ := exec_cases moved
  · refine .inr ⟨rfl, Finset.card_lt_card ?_⟩
    refine Finset.ssubset_iff_of_subset ?_ |>.mpr ⟨thread, ?_, ?_⟩
    · exact Finset.sdiff_subset_sdiff (Finset.Subset.refl _) (Finset.subset_insert _ _)
    · exact Finset.mem_sdiff.mpr ⟨member, awake⟩
    · exact fun still => (Finset.mem_sdiff.mp still).2 (Finset.mem_insert_self _ _)
  · refine .inl ?_
    rw [fence, participants_after]
    have fewer := rank_waitFence waits
    rw [← there] at fewer
    refine Finset.sum_lt_sum (fun other _ => ?_) ⟨thread, member, ?_⟩
    · show rank (Function.update s.pos thread result.2 other) ≤ _
      by_cases here : other = thread
      · rw [here, Function.update_self]
        exact fewer.le
      · rw [Function.update_of_ne here]
    · show rank (Function.update s.pos thread result.2 thread) < _
      rwa [Function.update_self]

/-- The fence goes through its own steps, or stays as it is. -/
theorem fence_of_step {label : CondLabel} (stepped : s.step label = some s') :
    s'.toFenceState = s.toFenceState ∨
      ∃ own, label = .fence own ∧ s.toFenceState.step own = some s'.toFenceState := by
  cases label with
  | spurious thread =>
    obtain ⟨-, rfl⟩ := guarded stepped
    exact .inl rfl
  | fence label =>
    cases label with
    | exec thread =>
      obtain ⟨-, moved⟩ := Option.ite_none_left_eq_some.mp stepped
      obtain ⟨pos, there, moved⟩ := Option.bind_eq_some_iff.mp moved
      obtain ⟨-, -, rfl⟩ | ⟨result, waits, fence, -⟩ := exec_cases moved
      · exact .inl rfl
      · refine .inr ⟨_, rfl, ?_⟩
        show (s.pos thread).bind _ = _
        rw [there, Option.bind_some, waits, fence]
        rfl
    | _ =>
      obtain ⟨fence, moved, rfl⟩ := Option.map_eq_some_iff.mp stepped
      exact .inr ⟨_, rfl, moved⟩

theorem fence_reachable (reach : condSystem.Reachable KeepsCond s) :
    system.Reachable KeepsRounds s.toFenceState := by
  refine reach.simulate CondState.toFenceState (fun _ init => And.left init) ?_
  intro s label s' _ keeps stepped
  refine (fence_of_step stepped).imp_right ?_
  rintro ⟨own, rfl, moved⟩
  exact ⟨own, keeps, moved⟩

theorem waits_of_reachable (reach : system.Reachable KeepsRounds f) : Waits f.determ := by
  have both : FenceInv f ∧ Waits f.determ := by
    refine reach.invariant (fun f => FenceInv f ∧ Waits f.determ) (fun f starts => ?_) ?_
    · refine ⟨fenceInv_of_keepsRounds (.init starts), fun _ some => ?_⟩
      rw [starts.nobody]
      exact Nat.pos_of_ne_zero some
    · intro f label f' both keeps stepped
      exact ⟨both.1.step keeps stepped, both.2.step both.1 keeps stepped⟩
  exact both.2

/-- Whoever is awake and need not wait goes on. -/
theorem goes_of_able (lost : NoneLost s) (there : s.pos thread = some pos)
    (up : sleeps s.determ (some pos) = false) (able : s.determ.waitFence thread pos ≠ none) :
    ∃ s', Goes s s' := by
  obtain ⟨result, waits⟩ := Option.ne_none_iff_exists'.mp able
  have awake : thread ∉ s.asleep := by
    intro down
    have still := lost thread down
    rw [there, up] at still
    exact Bool.false_ne_true still
  have moves : s.step (.fence (.exec thread)) ≠ none := by
    show (if thread ∈ s.asleep then none else (s.pos thread).bind (s.exec thread)) ≠ none
    rw [if_neg awake, there, Option.bind_some, CondState.exec, waits]
    exact Option.some_ne_none _
  obtain ⟨s', stepped⟩ := Option.ne_none_iff_exists'.mp moves
  exact ⟨s', thread, stepped⟩

/-- Threads that have not arrived need not wait in an arrival phase. -/
theorem able_outside (thread : ℕ) (arrival : d.isArrivalPhase = true)
    (outside : ¬ Inside (some pos)) :
    sleeps d (some pos) = false ∧ d.waitFence thread pos ≠ none := by
  cases pos with
  | insideSpin | leave | insideSleep => exact absurd trivial outside
  | enter | spin | arrive | sleep => simp [sleeps, waitFence, arrival]

/-- Threads inside need not wait when the phase is over. -/
theorem able_inside (thread : ℕ) (ended : d.isArrivalPhase = false) (inside : Inside (some pos)) :
    sleeps d (some pos) = false ∧ d.waitFence thread pos ≠ none := by
  cases pos with
  | enter | spin | arrive | sleep => exact inside.elim
  | insideSpin | leave | insideSleep => simp [sleeps, waitFence, ended]

theorem stuck_cases (inv : FenceInv s.toFenceState) (lost : NoneLost s)
    (stuck : ¬ ∃ s', Goes s s') : s.determ.isArrivalPhase = true ∧
      ∀ thread, s.pos thread = none ∨ Inside (s.pos thread) := by
  have arrival : s.determ.isArrivalPhase = true := by
    by_contra ended
    have ended := Bool.eq_false_of_not_eq_true ended
    obtain ⟨⟨thread, there⟩, -⟩ := inv.drain ended
    have inside := (mem_insiders inv).mp there
    obtain ⟨pos, at_⟩ : ∃ pos, s.pos thread = some pos := by
      refine Option.ne_none_iff_exists'.mp fun out => ?_
      rw [out] at inside
      exact inside
    rw [at_] at inside
    obtain ⟨up, able⟩ := able_inside thread ended inside
    exact stuck (goes_of_able lost at_ up able)
  refine ⟨arrival, fun thread => ?_⟩
  by_contra neither
  obtain ⟨among, outside⟩ := not_or.mp neither
  obtain ⟨pos, there⟩ := Option.ne_none_iff_exists'.mp among
  rw [there] at outside
  obtain ⟨up, able⟩ := able_outside thread arrival outside
  exact stuck (goes_of_able lost there up able)

theorem Goes.reachable (goes : Goes s s') (reach : condSystem.Reachable KeepsCond s) :
    condSystem.Reachable KeepsCond s' := by
  obtain ⟨thread, stepped⟩ := goes
  exact reach.step (.fence (.exec thread)) trivial stepped

/-- The participants cannot go on forever by themselves. -/
theorem acc_goes (reach : condSystem.Reachable KeepsCond s) : Acc (fun s' s => Goes s s') s := by
  induction near : distance s using WellFoundedLT.induction generalizing s with
  | ind _ ih =>
    refine .intro s fun s' goes => ?_
    have nearer := distance_lt (fenceInv_of_keepsRounds (fence_reachable reach)) goes
    exact ih (distance s') (near ▸ nearer) (goes.reachable reach) rfl

/-- They stop when all that are in the fence have arrived and another one has yet to come. -/
theorem missing_of_stuck (reach : condSystem.Reachable KeepsCond s) (stuck : ¬ ∃ s', Goes s s')
    (somebody : s.participants.Nonempty) :
    s.determ.isArrivalPhase = true ∧ (∀ thread, s.pos thread = none ∨ Inside (s.pos thread)) ∧
      ∃ thread ∈ s.participants, s.pos thread = none := by
  have reached := fence_reachable reach
  have inv := fenceInv_of_keepsRounds reached
  obtain ⟨arrival, arrived⟩ := stuck_cases inv (noneLost_of_steps reach) stuck
  refine ⟨arrival, arrived, ?_⟩
  have fewer := waits_of_reachable reached arrival
  by_contra none
  have all : s.insiders = s.participants := by
    refine Finset.filter_true_of_mem fun thread member => (arrived thread).resolve_left ?_
    exact fun out => none ⟨thread, member, out⟩
  rw [inv.maxthreads, inv.currthreads, all] at fewer
  exact absurd (fewer (Finset.card_pos.mpr somebody).ne') (lt_irrefl _)

/-- **Nobody is held up.** In every run that starts the fence in arrival phases only, the threads
in the fence stop after finitely many accesses unless others join them. They stop in an arrival
phase, when all that are in the fence have arrived and a participant has yet to come. -/
theorem heldUp_of_reachable (reach : condSystem.Reachable KeepsCond s)
    (somebody : s.participants.Nonempty) :
    Acc (fun s' s => Goes s s') s ∧
      ((¬ ∃ s', Goes s s') → s.determ.isArrivalPhase = true ∧
        (∀ thread, s.pos thread = none ∨ Inside (s.pos thread)) ∧
          ∃ thread ∈ s.participants, s.pos thread = none) :=
  ⟨acc_goes reach, fun stuck => missing_of_stuck reach stuck somebody⟩

/-- The participants are still in the round, or have completed it. -/
theorem passing_of_goes {round : ℕ} (reach : condSystem.Reachable KeepsCond s)
    (passing : Passing s.toFenceState round) (goes : Relation.ReflTransGen Goes s s') :
    condSystem.Reachable KeepsCond s' ∧ Passing s'.toFenceState round ∧
      s'.participants = s.participants := by
  induction goes with
  | refl => exact ⟨reach, passing, rfl⟩
  | tail _ goes ih =>
    obtain ⟨reached, passing, same⟩ := ih
    have inv := fenceInv_of_keepsRounds (fence_reachable reached)
    refine ⟨goes.reachable reached, ?_⟩
    obtain ⟨thread, stepped⟩ := goes
    obtain kept | ⟨own, here, moved⟩ := fence_of_step stepped
    · rw [kept]
      exact ⟨passing, same⟩
    · cases here
      refine ⟨passing.exec inv moved, Eq.trans ?_ same⟩
      obtain ⟨pos, -, moved⟩ := Option.bind_eq_some_iff.mp moved
      obtain ⟨result, -, after⟩ := Option.map_eq_some_iff.mp moved
      rw [← after, participants_after]

/-- More threads than cores, so that they wait on the condition. -/
def crowd : CondState := ⟨start {0, 1} 1, ∅⟩

theorem crowd_reachable : condSystem.Reachable KeepsCond crowd :=
  .init ⟨start_starts (by decide), rfl⟩

instance (s : CondState) : DecidablePred (KeepsCond s) := fun label => by
  unfold KeepsCond
  split <;> infer_instance

/-- The first one to arrive is asleep. -/
theorem noneLost_crowd : ∃ s, condSystem.Reachable AnyStep s ∧ 0 ∈ s.asleep ∧ NoneLost s ∧
    ∀ thread ∈ s.asleep, condSystem.run s [.spurious thread, .fence (.exec thread)] = some s := by
  have run : (condSystem.run crowd [.fence (.waitFence 0), .fence (.exec 0)]).any fun s =>
      0 ∈ s.asleep := by decide +kernel
  obtain ⟨s, execution, down⟩ := (Option.any_eq_true _ _).mp run
  have start : condSystem.Reachable AnyStep crowd := crowd_reachable.mono fun _ _ _ => trivial
  have reach := start.follow (System.complies_of_forall (fun _ _ _ => trivial) _) execution
  exact ⟨s, reach, of_decide_eq_true down, noneLost_of_reachable reach⟩

/-- The first one to arrive waits for the other one. -/
theorem heldUp_crowd : ∃ s, condSystem.Reachable KeepsCond s ∧ s.pos 0 = some .insideSleep ∧
    Acc (fun s' s => Goes s s') s ∧
      ((¬ ∃ s', Goes s s') → s.determ.isArrivalPhase = true ∧
        (∀ thread, s.pos thread = none ∨ Inside (s.pos thread)) ∧
          ∃ thread ∈ s.participants, s.pos thread = none) := by
  have run : (condSystem.runIf (fun s label => decide (KeepsCond s label)) crowd
      [.fence (.waitFence 0), .fence (.exec 0)]).any fun s =>
        s.pos 0 = some .insideSleep ∧ s.participants.Nonempty := by decide +kernel
  obtain ⟨s, execution, facts⟩ := (Option.any_eq_true _ _).mp run
  obtain ⟨inside, somebody⟩ := of_decide_eq_true facts
  have reach := crowd_reachable.runIf (fun _ _ => of_decide_eq_true) execution
  exact ⟨s, reach, inside, heldUp_of_reachable reach somebody⟩

end Tthread.Fence
