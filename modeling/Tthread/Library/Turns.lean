/-
# Agents that take turns

Agents share something that is only changed in turns, each of them taken by the agent that what
is shared names. Between its turns an agent goes on by itself, and how it goes on depends on
nothing but the agent. Then two runs that begin alike take the same turns, as far as both of them
get, whatever the order of all other steps: an agent whose turn comes has got as far as it gets
by itself, and that is the same in both runs.
-/

import Mathlib.Logic.Relation
import Tthread.Library.Transition

namespace Transition

variable {ι Agent : Type*}

/-! ## Going on by oneself -/

/-- One of two states of an agent leads to the other. -/
def Meets (next : Agent → Option Agent) (a b : Agent) : Prop :=
  Relation.ReflTransGen (fun a b => next a = some b) a b ∨
    Relation.ReflTransGen (fun a b => next a = some b) b a

section

variable {next : Agent → Option Agent} {a a' b : Agent}

theorem Meets.refl (a : Agent) : Meets next a a := .inl .refl

theorem Meets.symm (meets : Meets next a b) : Meets next b a := Or.symm meets

/-- One of the two goes on. -/
theorem Meets.goes (meets : Meets next a b) (goes : next a = some a') : Meets next a' b := by
  rcases meets with forth | back
  · rcases forth.cases_head with rfl | ⟨c, first, rest⟩
    · exact .inr (.single goes)
    · obtain rfl : a' = c := Option.some.inj (goes.symm.trans first)
      exact .inl rest
  · exact .inr (back.tail goes)

/-- Nothing comes of a state from which the agent does not go on. -/
theorem eq_of_stuck (stuck : next a = none)
    (reach : Relation.ReflTransGen (fun a b => next a = some b) a b) : a = b := by
  rcases reach.cases_head with same | ⟨c, first, -⟩
  · exact same
  · rw [stuck] at first
    cases first

/-- Where both have got as far as they get, they are the same. -/
theorem Meets.eq (meets : Meets next a b) (stuck : next a = none) (stuck' : next b = none) :
    a = b := by
  rcases meets with forth | back
  · exact eq_of_stuck stuck forth
  · exact (eq_of_stuck stuck' back).symm

end

/-! ## Turns -/

namespace System

variable {State Label Shared Turn : Type*} (sys : System State Label) {Inv : State → Prop}
  {Ok : State → Label → Prop} {view : State → Shared} {owner : Shared → Option ι}
  {agent : State → ι → Agent} {next : ι → Agent → Option Agent}
  {turn : State → Label → Option Turn}

/-- The turns of a run, in order. -/
def turns (turn : State → Label → Option Turn) : State → List Label → List Turn
  | _, [] => []
  | s, label :: rest =>
    match sys.step s label with
    | some s' => (turn s label).toList ++ turns turn s' rest
    | none => []

theorem turns_cons {sys : System State Label} {turn : State → Label → Option Turn} {s s' : State}
    {label : Label} {rest : List Label} (move : sys.step s label = some s') :
    sys.turns turn s (label :: rest) = (turn s label).toList ++ sys.turns turn s' rest := by
  rw [turns, move]

/-- Steps between turns leave alone what is shared, and let agents go on by themselves. A turn is
taken by its owner, where that has got as far as it gets, and what the turn is and does depends
on what is shared and on its owner. -/
structure TakesTurns (Inv : State → Prop) (Ok : State → Label → Prop) (view : State → Shared)
    (owner : Shared → Option ι) (agent : State → ι → Agent) (next : ι → Agent → Option Agent)
    (turn : State → Label → Option Turn) : Prop where
  keeps : ∀ {s label s'}, Inv s → Ok s label → sys.step s label = some s' → Inv s'
  between : ∀ {s label s'}, Inv s → Ok s label → sys.step s label = some s' →
    turn s label = none → view s' = view s ∧
      ∀ i, agent s' i = agent s i ∨ next i (agent s i) = some (agent s' i)
  waits : ∀ {s label s' t}, Inv s → Ok s label → sys.step s label = some s' →
    turn s label = some t → ∃ i, owner (view s) = some i ∧ next i (agent s i) = none
  same : ∀ {s label s' t r label' r' u}, Inv s → Ok s label → sys.step s label = some s' →
    turn s label = some t → Inv r → Ok r label' → sys.step r label' = some r' →
    turn r label' = some u → view s = view r →
    (∀ i, owner (view s) = some i → agent s i = agent r i) →
    t = u ∧ view s' = view r' ∧ ∀ i, agent s' i = agent r' i ∨
      (agent s' i = agent s i ∧ agent r' i = agent r i)

/-- The states share the same and each agent is on the same way. -/
structure Alike (view : State → Shared) (agent : State → ι → Agent)
    (next : ι → Agent → Option Agent) (s r : State) : Prop where
  view : view s = view r
  agents : ∀ i, Meets (next i) (agent s i) (agent r i)

variable {sys}

theorem Alike.symm {s r : State} (alike : Alike view agent next s r) :
    Alike view agent next r s :=
  ⟨alike.view.symm, fun i => (alike.agents i).symm⟩

/-- A step between turns, in one of the two. -/
theorem Alike.goes (takes : sys.TakesTurns Inv Ok view owner agent next turn) {s s' r : State}
    {label : Label} (alike : Alike view agent next s r) (inv : Inv s) (ok : Ok s label)
    (move : sys.step s label = some s') (noTurn : turn s label = none) :
    Alike view agent next s' r := by
  obtain ⟨same, goes⟩ := takes.between inv ok move noTurn
  refine ⟨same.trans alike.view, fun i => ?_⟩
  rcases goes i with stays | goes
  · rw [stays]
    exact alike.agents i
  · exact (alike.agents i).goes goes

/-- A turn in both. -/
theorem Alike.takes (takes : sys.TakesTurns Inv Ok view owner agent next turn) {s s' r r' : State}
    {label label' : Label} {t u : Turn} (alike : Alike view agent next s r) (inv : Inv s)
    (ok : Ok s label) (move : sys.step s label = some s') (taken : turn s label = some t)
    (inv' : Inv r) (ok' : Ok r label') (move' : sys.step r label' = some r')
    (taken' : turn r label' = some u) : t = u ∧ Alike view agent next s' r' := by
  have owners : ∀ i, owner (view s) = some i → agent s i = agent r i := by
    obtain ⟨j, mine, stuck⟩ := takes.waits inv ok move taken
    obtain ⟨k, mine', stuck'⟩ := takes.waits inv' ok' move' taken'
    rw [← alike.view, mine] at mine'
    obtain rfl : j = k := Option.some.inj mine'
    intro i named
    obtain rfl : j = i := Option.some.inj (mine.symm.trans named)
    exact (alike.agents j).eq stuck stuck'
  obtain ⟨same, view, agents⟩ :=
    takes.same inv ok move taken inv' ok' move' taken' alike.view owners
  refine ⟨same, view, fun i => ?_⟩
  rcases agents i with equal | ⟨stays, stays'⟩
  · rw [equal]
    exact .refl _
  · rw [stays, stays']
    exact alike.agents i

/-- A run that takes no turn. -/
theorem Alike.idle (takes : sys.TakesTurns Inv Ok view owner agent next turn) {s r r' : State}
    {labels : List Label} (alike : Alike view agent next s r) (inv : Inv r)
    (complies : sys.Complies Ok r labels) (execution : sys.run r labels = some r')
    (noTurns : sys.turns turn r labels = []) : Alike view agent next s r' := by
  induction labels generalizing r with
  | nil =>
    obtain rfl := Option.some.inj execution
    exact alike
  | cons label rest ih =>
    obtain ⟨middle, move, tail⟩ := Option.bind_eq_some_iff.mp execution
    rw [turns_cons move, List.append_eq_nil_iff, Option.toList_eq_nil_iff] at noTurns
    have goes := alike.symm.goes takes inv complies.1 move noTurns.1
    exact ih goes.symm (takes.keeps inv complies.1 move) (complies.2 middle move) tail noTurns.2

/-- **Runs that begin alike take the same turns.** The turns of one run are the first ones of the
other, and where they have taken the same turns the two are alike. -/
theorem Alike.run (takes : sys.TakesTurns Inv Ok view owner agent next turn) {s s' r r' : State}
    {labels labels' : List Label} (alike : Alike view agent next s r) (inv : Inv s) (inv' : Inv r)
    (complies : sys.Complies Ok s labels) (execution : sys.run s labels = some s')
    (complies' : sys.Complies Ok r labels') (execution' : sys.run r labels' = some r') :
    (sys.turns turn s labels <+: sys.turns turn r labels' ∨
      sys.turns turn r labels' <+: sys.turns turn s labels) ∧
      (sys.turns turn s labels = sys.turns turn r labels' → Alike view agent next s' r') := by
  induction labels generalizing s r labels' with
  | nil =>
    obtain rfl := Option.some.inj execution
    exact ⟨.inl List.nil_prefix, fun same => alike.idle takes inv' complies' execution' same.symm⟩
  | cons label rest ih =>
    obtain ⟨middle, move, tail⟩ := Option.bind_eq_some_iff.mp execution
    have kept := takes.keeps inv complies.1 move
    cases taken : turn s label with
    | none =>
      have goes := alike.goes takes inv complies.1 move taken
      rw [turns_cons move, taken]
      exact ih goes kept inv' (complies.2 middle move) tail complies' execution'
    | some t =>
      -- the other run goes on up to its turn
      induction labels' generalizing r with
      | nil =>
        refine ⟨.inr List.nil_prefix, fun same => ?_⟩
        rw [turns_cons move, taken] at same
        cases same
      | cons label' rest' ih' =>
        obtain ⟨middle', move', tail'⟩ := Option.bind_eq_some_iff.mp execution'
        have kept' := takes.keeps inv' complies'.1 move'
        have later := complies'.2 middle' move'
        cases taken' : turn r label' with
        | none =>
          have goes := (alike.symm.goes takes inv' complies'.1 move' taken').symm
          have rest := ih' goes kept' later tail'
          rwa [turns_cons move', taken']
        | some u =>
          obtain ⟨rfl, both⟩ := alike.takes takes inv complies.1 move taken inv' complies'.1 move'
            taken'
          obtain ⟨order, same⟩ := ih both kept kept' (complies.2 middle move) tail later tail'
          rw [turns_cons move, turns_cons move', taken, taken']
          exact ⟨order.imp (List.prefix_append_right_inj [t]).mpr
            (List.prefix_append_right_inj [t]).mpr,
            fun equal => same (List.append_cancel_left equal)⟩

end System

end Transition
