/-
# Labelled transition systems under a step condition

A system is a set of initial states and a partial step function: a label names
the agent that moves together with every choice it makes, so a label that is not
enabled has no successor. Reachability is taken along runs each of whose steps
meets a condition on the state before the step, and an invariant is anything
such steps preserve. The unconditional notions are the case of the condition
that always holds.
-/

import Mathlib.Logic.Basic

namespace Transition

variable {State Label : Type*}

/-- Initial states and a partial step function. -/
structure System (State Label : Type*) where
  Init : State → Prop
  step : State → Label → Option State

namespace System

variable (sys : System State Label)

/-- Follow the labels in order; `none` as soon as one of them is not enabled. -/
def run : State → List Label → Option State
  | s, [] => some s
  | s, label :: rest => (sys.step s label).bind fun s' => run s' rest

@[simp] theorem run_nil (s : State) : sys.run s [] = some s := rfl

@[simp] theorem run_cons (s : State) (label : Label) (rest : List Label) :
    sys.run s (label :: rest) = (sys.step s label).bind fun s' => sys.run s' rest := rfl

/-- One run after the other. -/
theorem run_append (s : State) (labels rest : List Label) :
    sys.run s (labels ++ rest) = (sys.run s labels).bind fun s' => sys.run s' rest := by
  induction labels generalizing s with
  | nil => rfl
  | cons label labels ih =>
    rw [List.cons_append, run_cons, run_cons, Option.bind_assoc]
    simp only [ih]

/-- Every step of the run meets the condition. -/
def Complies (Ok : State → Label → Prop) : State → List Label → Prop
  | _, [] => True
  | s, label :: rest => Ok s label ∧ ∀ s', sys.step s label = some s' → Complies Ok s' rest

/-- Every state of the run has the property. -/
def Throughout (P : State → Prop) : State → List Label → Prop
  | s, [] => P s
  | s, label :: rest => P s ∧ ∀ s', sys.step s label = some s' → Throughout P s' rest

/-- Follow the labels as long as each step passes a test. -/
def runIf (ok : State → Label → Bool) : State → List Label → Option State
  | s, [] => some s
  | s, label :: rest =>
    if ok s label then (sys.step s label).bind fun s' => runIf ok s' rest else none

/-- The states reached by runs whose steps all meet `Ok`. -/
inductive Reachable (Ok : State → Label → Prop) : State → Prop
  | init {s : State} (start : sys.Init s) : Reachable Ok s
  | step {s s' : State} (label : Label) (prior : Reachable Ok s) (ok : Ok s label)
      (move : sys.step s label = some s') : Reachable Ok s'

end System

/-- A guarded step has met its guard. -/
theorem guarded {guard : Prop} [Decidable guard] {s s' : State}
    (move : (if guard then some s else none) = some s') : guard ∧ s = s' := by
  split at move
  · next met => exact ⟨met, Option.some.inj move⟩
  · cases move

/-- The condition every step meets. -/
def AnyStep : State → Label → Prop := fun _ _ => True

namespace System

variable {sys : System State Label} {Ok : State → Label → Prop} {s s' : State}

/-- **The invariant rule.** What holds initially and is preserved by every step
that meets the condition holds wherever such steps lead. -/
theorem Reachable.invariant (Inv : State → Prop) (initial : ∀ s, sys.Init s → Inv s)
    (preserved : ∀ s label s', Inv s → Ok s label → sys.step s label = some s' → Inv s')
    (reach : sys.Reachable Ok s) : Inv s := by
  induction reach with
  | init start => exact initial _ start
  | step label _ ok move ih => exact preserved _ _ _ ih ok move

/-- What a stricter condition allows is reached under a weaker one. -/
theorem Reachable.mono {Ok' : State → Label → Prop} (reach : sys.Reachable Ok s)
    (weaker : ∀ s label, Ok s label → Ok' s label) : sys.Reachable Ok' s := by
  induction reach with
  | init start => exact .init start
  | step label _ ok move ih => exact .step label ih (weaker _ _ ok) move

/-- **The simulation rule.** A system follows another one through a map of the states if each step
is one of the other system, or leaves the image as it is. -/
theorem Reachable.simulate {State' Label' : Type*} {sys' : System State' Label'}
    {Ok' : State' → Label' → Prop} (image : State → State')
    (initial : ∀ s, sys.Init s → sys'.Init (image s))
    (simulates : ∀ s label s', sys.Reachable Ok s → Ok s label → sys.step s label = some s' →
      image s' = image s ∨
        ∃ label', Ok' (image s) label' ∧ sys'.step (image s) label' = some (image s'))
    (reach : sys.Reachable Ok s) : sys'.Reachable Ok' (image s) := by
  induction reach with
  | init start => exact .init (initial _ start)
  | step label prior ok move ih =>
    rcases simulates _ label _ prior ok move with same | ⟨label', ok', move'⟩
    · rw [same]
      exact ih
    · exact .step label' ih ok' move'

/-- A run extends reachability if each of its steps meets the condition. -/
theorem Reachable.follow (reach : sys.Reachable Ok s) {labels : List Label}
    (complies : sys.Complies Ok s labels) (execution : sys.run s labels = some s') :
    sys.Reachable Ok s' := by
  induction labels generalizing s with
  | nil =>
    obtain rfl := Option.some.inj execution
    exact reach
  | cons label rest ih =>
    obtain ⟨middle, move, tail⟩ := Option.bind_eq_some_iff.mp execution
    exact ih (.step label reach complies.1 move) (complies.2 middle move) tail

/-- One run after the other meets the condition. -/
theorem Complies.append {labels rest : List Label} (complies : sys.Complies Ok s labels)
    (execution : sys.run s labels = some s') (later : sys.Complies Ok s' rest) :
    sys.Complies Ok s (labels ++ rest) := by
  induction labels generalizing s with
  | nil =>
    obtain rfl := Option.some.inj execution
    exact later
  | cons label labels ih =>
    obtain ⟨middle, move, tail⟩ := Option.bind_eq_some_iff.mp execution
    refine ⟨complies.1, fun next stepped => ?_⟩
    obtain rfl := Option.some.inj (move.symm.trans stepped)
    exact ih (complies.2 middle move) tail

/-- Where a state is reached, a run leads. -/
theorem Reachable.exists_run (reach : sys.Reachable Ok s) : ∃ first labels, sys.Init first ∧
    sys.Complies Ok first labels ∧ sys.run first labels = some s := by
  induction reach with
  | init start => exact ⟨_, [], start, trivial, rfl⟩
  | step label _ ok move ih =>
    obtain ⟨first, labels, start, complies, execution⟩ := ih
    refine ⟨first, labels ++ [label], start, complies.append execution ⟨ok, fun _ _ => trivial⟩, ?_⟩
    rw [run_append, execution, Option.bind_some, run_cons, move]
    rfl

/-- A run whose steps pass a test for the condition extends reachability. -/
theorem Reachable.runIf (reach : sys.Reachable Ok s) {ok : State → Label → Bool}
    (sound : ∀ s label, ok s label = true → Ok s label) {labels : List Label}
    (execution : sys.runIf ok s labels = some s') : sys.Reachable Ok s' := by
  induction labels generalizing s with
  | nil =>
    obtain rfl := Option.some.inj execution
    exact reach
  | cons label rest ih =>
    obtain ⟨passes, execution⟩ := Option.ite_none_right_eq_some.mp execution
    obtain ⟨middle, move, tail⟩ := Option.bind_eq_some_iff.mp execution
    exact ih (.step label reach (sound s label passes) move) tail

/-- A run whose steps pass a test for the condition meets the condition. -/
theorem complies_of_runIf {ok : State → Label → Bool}
    (sound : ∀ s label, ok s label = true → Ok s label) {labels : List Label}
    (execution : sys.runIf ok s labels = some s') :
    sys.Complies Ok s labels ∧ sys.run s labels = some s' := by
  induction labels generalizing s with
  | nil => exact ⟨trivial, execution⟩
  | cons label rest ih =>
    obtain ⟨passes, execution⟩ := Option.ite_none_right_eq_some.mp execution
    obtain ⟨middle, move, tail⟩ := Option.bind_eq_some_iff.mp execution
    obtain ⟨complies, follows⟩ := ih tail
    refine ⟨⟨sound s label passes, fun next stepped => ?_⟩, ?_⟩
    · obtain rfl := Option.some.inj (move.symm.trans stepped)
      exact complies
    · rw [run_cons, move]
      exact follows

/-- A condition on labels alone is checked on the labels. -/
theorem complies_of_forall {labels : List Label} (all : ∀ label ∈ labels, ∀ s, Ok s label)
    (s : State) : sys.Complies Ok s labels := by
  induction labels generalizing s with
  | nil => trivial
  | cons label rest ih =>
    exact ⟨all label List.mem_cons_self s, fun middle _ =>
      ih (fun later member => all later (List.mem_cons_of_mem _ member)) middle⟩

/-- A run meets the condition if its first step does, and the rest from where that leads. -/
theorem Complies.cons {label : Label} {rest : List Label} (ok : Ok s label)
    (move : sys.step s label = some s') (later : sys.Complies Ok s' rest) :
    sys.Complies Ok s (label :: rest) := by
  refine ⟨ok, fun next stepped => ?_⟩
  obtain rfl := Option.some.inj (move.symm.trans stepped)
  exact later

/-- The invariant rule for one run, from any state. -/
theorem Complies.invariant (Inv : State → Prop)
    (preserved : ∀ s label s', Inv s → Ok s label → sys.step s label = some s' → Inv s')
    (inv : Inv s) {labels : List Label} (complies : sys.Complies Ok s labels)
    (execution : sys.run s labels = some s') : Inv s' := by
  induction labels generalizing s with
  | nil =>
    obtain rfl := Option.some.inj execution
    exact inv
  | cons label rest ih =>
    obtain ⟨middle, move, tail⟩ := Option.bind_eq_some_iff.mp execution
    exact ih (preserved s label middle inv complies.1 move) (complies.2 middle move) tail

/-- The rest of a run meets the condition as well. -/
theorem Complies.rest {labels rest : List Label} (complies : sys.Complies Ok s (labels ++ rest))
    (execution : sys.run s labels = some s') : sys.Complies Ok s' rest := by
  induction labels generalizing s with
  | nil =>
    obtain rfl := Option.some.inj execution
    exact complies
  | cons label labels ih =>
    obtain ⟨middle, move, tail⟩ := Option.bind_eq_some_iff.mp execution
    exact ih (complies.2 middle move) tail

/-- **An exact condition.** If steps that meet the condition preserve an invariant, and any
other step leads out of the property, then a run has the property throughout just when its
steps meet the condition. -/
theorem throughout_iff_complies {Inv P : State → Prop} (holds : ∀ s, Inv s → P s)
    (preserved : ∀ s label s', Inv s → Ok s label → sys.step s label = some s' → Inv s')
    (only : ∀ s label s', Inv s → sys.step s label = some s' → P s' → Ok s label)
    (inv : Inv s) {labels : List Label} (execution : sys.run s labels = some s') :
    sys.Throughout P s labels ↔ sys.Complies Ok s labels := by
  induction labels generalizing s with
  | nil => exact ⟨fun _ => trivial, fun _ => holds s inv⟩
  | cons label rest ih =>
    obtain ⟨middle, move, tail⟩ := Option.bind_eq_some_iff.mp execution
    constructor
    · rintro ⟨-, later⟩
      have first : P middle := by
        cases rest with
        | nil => exact later middle move
        | cons => exact (later middle move).1
      have ok := only s label middle inv move first
      refine ⟨ok, fun next stepped => ?_⟩
      obtain rfl := Option.some.inj (move.symm.trans stepped)
      exact (ih (preserved s label middle inv ok move) tail).mp (later middle move)
    · rintro ⟨ok, later⟩
      refine ⟨holds s inv, fun next stepped => ?_⟩
      obtain rfl := Option.some.inj (move.symm.trans stepped)
      exact (ih (preserved s label middle inv ok move) tail).mpr (later middle move)

/-- Two conditions that agree wherever an invariant holds, which steps that meet them preserve,
are met by the same runs. -/
theorem complies_congr {Inv : State → Prop} {Ok' : State → Label → Prop}
    (same : ∀ s label, Inv s → (Ok s label ↔ Ok' s label))
    (preserved : ∀ s label s', Inv s → Ok' s label → sys.step s label = some s' → Inv s')
    (inv : Inv s) (labels : List Label) : sys.Complies Ok s labels ↔ sys.Complies Ok' s labels := by
  induction labels generalizing s with
  | nil => exact .rfl
  | cons label rest ih =>
    constructor
    · rintro ⟨first, later⟩
      have ok := (same s label inv).mp first
      exact ⟨ok, fun next stepped =>
        (ih (preserved s label next inv ok stepped)).mp (later next stepped)⟩
    · rintro ⟨first, later⟩
      exact ⟨(same s label inv).mpr first, fun next stepped =>
        (ih (preserved s label next inv first stepped)).mpr (later next stepped)⟩

/-- The same for one run, whose steps are all enabled. -/
theorem complies_congr_of_run {Inv : State → Prop} {Ok' : State → Label → Prop}
    (same : ∀ s label s', Inv s → sys.step s label = some s' → (Ok s label ↔ Ok' s label))
    (preserved : ∀ s label s', Inv s → Ok' s label → sys.step s label = some s' → Inv s')
    (inv : Inv s) {labels : List Label} (execution : sys.run s labels = some s') :
    sys.Complies Ok s labels ↔ sys.Complies Ok' s labels := by
  induction labels generalizing s with
  | nil => exact .rfl
  | cons label rest ih =>
    obtain ⟨middle, move, tail⟩ := Option.bind_eq_some_iff.mp execution
    have first := same s label middle inv move
    constructor
    · rintro ⟨ok, later⟩
      have ok' := first.mp ok
      refine ⟨ok', fun next stepped => ?_⟩
      obtain rfl := Option.some.inj (move.symm.trans stepped)
      exact (ih (preserved s label middle inv ok' move) tail).mp (later middle move)
    · rintro ⟨ok', later⟩
      refine ⟨first.mpr ok', fun next stepped => ?_⟩
      obtain rfl := Option.some.inj (move.symm.trans stepped)
      exact (ih (preserved s label middle inv ok' move) tail).mpr (later middle move)

/-- **The refinement rule.** A system follows another one through a map of the states if each step
is hidden and leaves the image as it is, or is the step of the other system that it stands for.
A run then ends in the image of the run of what it shows. -/
theorem run_filterMap {State' Label' : Type*} {sys' : System State' Label'} {Inv : State → Prop}
    (image : State → State') (shows : Label → Option Label')
    (preserved : ∀ s label s', Inv s → Ok s label → sys.step s label = some s' → Inv s')
    (hidden : ∀ s label s', Inv s → Ok s label → sys.step s label = some s' →
      shows label = none → image s' = image s)
    (shown : ∀ s label s' label', Inv s → Ok s label → sys.step s label = some s' →
      shows label = some label' → sys'.step (image s) label' = some (image s'))
    (inv : Inv s) {labels : List Label} (complies : sys.Complies Ok s labels)
    (execution : sys.run s labels = some s') :
    Inv s' ∧ sys'.run (image s) (labels.filterMap shows) = some (image s') := by
  induction labels generalizing s with
  | nil =>
    obtain rfl := Option.some.inj execution
    exact ⟨inv, rfl⟩
  | cons label rest ih =>
    obtain ⟨middle, move, tail⟩ := Option.bind_eq_some_iff.mp execution
    have inv' := preserved s label middle inv complies.1 move
    obtain ⟨last, follows⟩ := ih inv' (complies.2 middle move) tail
    refine ⟨last, ?_⟩
    cases visible : shows label with
    | none =>
      rw [List.filterMap_cons_none visible, ← hidden s label middle inv complies.1 move visible]
      exact follows
    | some label' =>
      rw [List.filterMap_cons_some visible, run_cons,
        shown s label middle label' inv complies.1 move visible]
      exact follows

/-- Without a condition every run extends reachability. -/
theorem Reachable.run (reach : sys.Reachable AnyStep s) {labels : List Label}
    (execution : sys.run s labels = some s') : sys.Reachable AnyStep s' :=
  reach.follow (complies_of_forall (fun _ _ _ => trivial) s) execution

end System

end Transition
