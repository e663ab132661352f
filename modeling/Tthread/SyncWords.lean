/-
# The words of synchronisation objects

`getSyncEntry` loads the first word of an object, and a process that has its own copy of the page
loads it from there. Where the copy is older than the entry that another process has registered, the
word is still `NULL`, and the caller makes a second entry for the object. Here each process has its
own words, and they change in any way when pages are copied, committed and given up. As long as
every lookup finds the entry that was made first, the threads have one entry for each object, as in
`Determ`.
-/

import Tthread.MutualExclusion
import Tthread.OneOrder

namespace Tthread.SyncWords

open Transition
open Xrun hiding State Label step system

inductive Object
  | mutex (id : ℕ)
  | cond (id : ℕ)
  | barrier (id : ℕ)
  deriving DecidableEq

/-- A call of `getSyncEntry`. -/
structure Lookup where
  process : ℕ
  object : Object
  /-- where the word is `NULL`, an entry is made and registered -/
  inits : Bool

/-- The lookups of a section that needs the token. -/
def workLookups (me : ℕ) : Work → List Lookup
  | .lock mutex => [⟨me, .mutex mutex, true⟩]
  | .signal cond | .broadcast cond => [⟨me, .cond cond, true⟩]
  | .barrier bar => [⟨me, .barrier bar, false⟩]
  | _ => []

/-- The lookups of a call up to the first step that other threads can see. -/
def callLookups (t : Thread) (me : ℕ) : Call → List Lookup
  | .mutexUnlock mutex => if t.fenceEnabled then [⟨me, .mutex mutex, false⟩] else []
  | .condWait cond mutex => [⟨me, .cond cond, true⟩, ⟨me, .mutex mutex, false⟩]
  | _ => []

/-- The lookups of a step. A waiter that goes on waiting releases its mutex again. -/
def lookups (s : Xrun.State) : Xrun.Label → List Lookup
  | .call me call => callLookups (s.thread me) me call
  | .exec me =>
      match s.pc me with
      | .lockIsowner mutex => [⟨me, .mutex mutex, false⟩]
      | .lockFast mutex | .condAcquire mutex => [⟨me, .mutex mutex, true⟩]
      | .work work => workLookups me work
      | .condWaiting _ mutex =>
          if s.determ.status me = .ready then [] else [⟨me, .mutex mutex, false⟩]
      | _ => []
  | _ => []

/-- The object whose entry a step has a pointer to, from an earlier lookup of this thread:
`barentry` in `barrier_wait`, and `entry->cond` of a thread that is cancelled. -/
def pointed (s : Xrun.State) : Xrun.Label → List (Object × ℕ)
  | .exec me =>
      match s.pc me with
      | .barrierEnter bar _ | .barrierBlocked bar _ _ => [(.barrier bar, me)]
      | .work (.cancel target) => [(.cond (s.determ.cond target), target)]
      | _ => []
  | _ => []

/-- The lookup whose entry a thread keeps a pointer to. -/
def pointsTo (s : Xrun.State) : Xrun.Label → Option Lookup
  | .call me (.condWait cond _) => some ⟨me, .cond cond, true⟩
  | .exec me =>
      match s.pc me with
      | .work (.barrier bar) => some ⟨me, .barrier bar, false⟩
      | _ => none
  | _ => none

/-- A system with threads in its states, whose steps are steps of theirs. -/
structure Threads (σ : Type) where
  system : System σ Xrun.Label
  run : σ → Xrun.State
  put : σ → Xrun.State → σ

structure State (σ : Type) where
  /-- the threads, with the first entry of each object -/
  base : σ
  /-- the entries that were made after the first one -/
  locks : ℕ → ℕ → Option LockEntry
  conds : ℕ → ℕ → CondEntry
  barriers : ℕ → ℕ → BarrierEntry
  /-- how many entries were made for an object -/
  made : Object → ℕ
  /-- the entry that the word of an object names in the copy of a process, unless it is `NULL` -/
  word : ℕ → Object → Option ℕ
  /-- the entry that a thread has a pointer to -/
  pointer : ℕ → ℕ

inductive Label
  /-- a step of the threads -/
  | run (label : Xrun.Label)
  /-- the page of an object is copied, committed or given up by a process, or seen by it -/
  | copies (process : ℕ) (object : Object) (found : Option ℕ)

variable {σ : Type} (threads : Threads σ)

/-- The same threads with this shared memory. -/
def State.withDeterm (s : State σ) (determ : Determ) : State σ :=
  { s with base := threads.put s.base { threads.run s.base with determ := determ } }

/-- An entry of an object and the first one change places. -/
def State.exchange (s : State σ) : Object × ℕ → State σ
  | (_, 0) => s
  | (.mutex mutex, k + 1) =>
      let d := (threads.run s.base).determ
      let locks := Function.update d.locks mutex (s.locks mutex k)
      { s.withDeterm threads { d with locks } with
        locks := Function.update s.locks mutex
          (Function.update (s.locks mutex) k (d.locks mutex)) }
  | (.cond cond, k + 1) =>
      let d := (threads.run s.base).determ
      let conds := Function.update d.conds cond (s.conds cond k)
      { s.withDeterm threads { d with conds } with
        conds := Function.update s.conds cond
          (Function.update (s.conds cond) k (d.conds cond)) }
  | (.barrier bar, k + 1) =>
      let d := (threads.run s.base).determ
      let barriers := Function.update d.barriers bar (s.barriers bar k)
      { s.withDeterm threads { d with barriers } with
        barriers := Function.update s.barriers bar
          (Function.update (s.barriers bar) k (d.barriers bar)) }

/-- What a lookup finds. For `NULL` it is the entry that is made next. -/
def State.found (s : State σ) (lookup : Lookup) : ℕ :=
  (s.word lookup.process lookup.object).getD (s.made lookup.object)

/-- The entries that a step works on. -/
def State.entries (s : State σ) (label : Xrun.Label) : List (Object × ℕ) :=
  (lookups (threads.run s.base) label).map (fun lookup => (lookup.object, s.found lookup)) ++
    (pointed (threads.run s.base) label).map fun (object, thread) => (object, s.pointer thread)

/-- An entry that a lookup makes is registered in the word. The others have it when they see it. -/
def State.register (s : State σ) (lookup : Lookup) : State σ :=
  if lookup.inits ∧ s.word lookup.process lookup.object = none then
    { s with
      made := Function.update s.made lookup.object (s.made lookup.object + 1)
      word := Function.update s.word lookup.process
        (Function.update (s.word lookup.process) lookup.object (some (s.made lookup.object))) }
  else s

/-- The pointers after a step. -/
def State.pointers (s : State σ) (label : Xrun.Label) : ℕ → ℕ :=
  match pointsTo (threads.run s.base) label with
  | some lookup => Function.update s.pointer lookup.process (s.found lookup)
  | none => s.pointer

/-- `barrier_wait` follows a null pointer: it has no entry made. -/
def Crashes (s : State σ) (lookup : Lookup) : Prop :=
  match lookup.object with
  | .barrier _ => s.word lookup.process lookup.object = none
  | _ => False

instance (s : State σ) : DecidablePred (Crashes s) := fun lookup => by
  unfold Crashes
  split <;> infer_instance

/-- A step of a thread works on the entries that the thread finds. -/
def State.exec (s : State σ) (label : Xrun.Label) : Option (State σ) :=
  -- the step finds these entries in the first place, and they go back after it
  let entries := s.entries threads label
  let other := entries.foldl (State.exchange threads) s
  (threads.system.step other.base label).map fun base =>
    let next := entries.foldl (State.exchange threads) { other with base := base }
    -- what the lookups of the step have registered
    let registered := (lookups (threads.run s.base) label).foldl State.register s
    { next with
      made := registered.made
      word := registered.word
      pointer := s.pointers threads label }

def step (s : State σ) : Label → Option (State σ)
  | .run label =>
      if ∃ lookup ∈ lookups (threads.run s.base) label, Crashes s lookup then none
      else s.exec threads label
  | .copies process object found =>
      if ∀ entry ∈ found, entry < s.made object then
        some { s with
          word := Function.update s.word process
            (Function.update (s.word process) object found) }
      else none

/-- Barriers have the entries that `barrier_init` has made, and nothing else has one. -/
def initial (base : σ) : State σ where
  base := base
  locks _ _ := none
  conds _ _ := ⟨0, none, 0⟩
  barriers _ _ := ⟨0, 0, none, 0, 0, 0⟩
  made object := match object with | .barrier _ => 1 | _ => 0
  word _ object := match object with | .barrier _ => some 0 | _ => none
  pointer _ := 0

def system : System (State σ) Label where
  Init s := ∃ base, threads.system.Init base ∧ s = initial base
  step := step threads

/-! ## One entry for each object -/

/-- The entry that is registered for an object: the first one, if there is one. -/
def State.registered (s : State σ) (object : Object) : Option ℕ :=
  if s.made object = 0 then none else some 0

/-- Every lookup of the step finds the entry that is registered, or `NULL` if none is. -/
def Finds (s : State σ) (label : Xrun.Label) : Prop :=
  ∀ lookup ∈ lookups (threads.run s.base) label,
    s.word lookup.process lookup.object = s.registered lookup.object

instance (s : State σ) : DecidablePred (Finds threads s) := fun _ =>
  inferInstanceAs (Decidable (∀ lookup ∈ _, _))

/-- A step of a thread finds what is registered, and meets a condition. -/
def FindsAnd (Ok : σ → Xrun.Label → Prop) (s : State σ) : Label → Prop
  | .run label => Finds threads s label ∧ Ok s.base label
  | .copies .. => True

instance (Ok : σ → Xrun.Label → Prop) [∀ s label, Decidable (Ok s label)] (s : State σ) :
    DecidablePred (FindsAnd threads Ok s)
  | .run _ => inferInstanceAs (Decidable (_ ∧ _))
  | .copies .. => inferInstanceAs (Decidable True)

variable {threads} {s s' : State σ} {Ok : σ → Xrun.Label → Prop}

theorem found_of_finds {label : Xrun.Label} (finds : Finds threads s label) {lookup : Lookup}
    (looks : lookup ∈ lookups (threads.run s.base) label) : s.found lookup = 0 := by
  rw [State.found, finds lookup looks, State.registered]
  split
  · next none_ => exact none_
  · rfl

/-- The first entries are where they are. -/
theorem foldl_exchange {entries : List (Object × ℕ)} (first : ∀ entry ∈ entries, entry.2 = 0) :
    entries.foldl (State.exchange threads) s = s := by
  induction entries with
  | nil => rfl
  | cons entry entries ih =>
    obtain ⟨object, k⟩ := entry
    obtain rfl : k = 0 := first _ List.mem_cons_self
    have here : s.exchange threads (object, 0) = s := by
      cases object <;> rfl
    rw [List.foldl_cons, here]
    exact ih fun other member => first other (List.mem_cons_of_mem _ member)

theorem entries_of_finds {label : Xrun.Label} (finds : Finds threads s label)
    (pointers : ∀ thread, s.pointer thread = 0) :
    ∀ entry ∈ s.entries threads label, entry.2 = 0 := by
  intro entry member
  rcases List.mem_append.mp member with looked | kept
  · obtain ⟨lookup, looks, rfl⟩ := List.mem_map.mp looked
    exact found_of_finds finds looks
  · obtain ⟨⟨object, thread⟩, -, rfl⟩ := List.mem_map.mp kept
    exact pointers thread

/-- A pointer is kept to what a lookup of the step has found. -/
theorem pointsTo_looks {run : Xrun.State} {label : Xrun.Label} {lookup : Lookup}
    (points : pointsTo run label = some lookup) : lookup ∈ lookups run label := by
  cases label with
  | call me call =>
    cases call <;> simp only [pointsTo, reduceCtorEq, Option.some.injEq] at points
    subst points
    exact List.mem_cons_self
  | exec me =>
    simp only [pointsTo] at points
    split at points
    · next at_ =>
      obtain rfl := Option.some.inj points
      simp only [lookups, at_, workLookups]
      exact List.mem_cons_self
    · cases points
  | _ => cases points

theorem pointers_of_finds {label : Xrun.Label} (finds : Finds threads s label)
    (pointers : ∀ thread, s.pointer thread = 0) (thread : ℕ) :
    s.pointers threads label thread = 0 := by
  unfold State.pointers
  cases points : pointsTo (threads.run s.base) label with
  | none => exact pointers thread
  | some lookup =>
    dsimp only
    by_cases mine : thread = lookup.process
    · rw [mine, Function.update_self]
      exact found_of_finds finds (pointsTo_looks points)
    · rw [Function.update_of_ne mine]
      exact pointers thread

/-- A step that finds what is registered is one of the threads alone. -/
theorem exec_of_finds {label : Xrun.Label} (finds : Finds threads s label)
    (pointers : ∀ thread, s.pointer thread = 0) (moved : s.exec threads label = some s') :
    threads.system.step s.base label = some s'.base ∧ ∀ thread, s'.pointer thread = 0 := by
  have first := entries_of_finds finds pointers
  obtain ⟨base, stepped, rfl⟩ := Option.map_eq_some_iff.mp moved
  rw [foldl_exchange first] at stepped
  dsimp only
  rw [foldl_exchange first, foldl_exchange first]
  exact ⟨stepped, pointers_of_finds finds pointers⟩

/-- **One entry for each object.** As long as every lookup finds what is registered, the threads do
what they do with a table of entries. -/
theorem reachable_base (reach : (system threads).Reachable (FindsAnd threads Ok) s) :
    threads.system.Reachable Ok s.base ∧ ∀ thread, s.pointer thread = 0 := by
  induction reach with
  | init start =>
    obtain ⟨base, start, rfl⟩ := start
    exact ⟨.init start, fun _ => rfl⟩
  | step label prior ok move ih =>
    obtain ⟨reach, pointers⟩ := ih
    cases label with
    | run label =>
      obtain ⟨-, moved⟩ := Option.ite_none_left_eq_some.mp move
      obtain ⟨stepped, pointers'⟩ := exec_of_finds ok.1 pointers moved
      exact ⟨.step label reach ok.2 stepped, pointers'⟩
    | copies process object found =>
      obtain ⟨-, rfl⟩ := guarded move
      exact ⟨reach, pointers⟩

/-! ## Mutexes -/

/-- The threads by themselves. -/
def plain : Threads Xrun.State where
  system := Xrun.system
  run := id
  put _ s := s

/-- The child waits on a condition variable, and the first thread goes on to a call. -/
def childWaits : List Xrun.Label := [.call 0 .spawn, .exec 0, .childRegister 0, .exec 1, .exec 0,
  .call 0 (.mutexLock 6), .exec 0, .exec 0, .call 1 (.mutexLock 7), .exec 1, .exec 1, .exec 1,
  .exec 0, .exec 0, .exec 0, .exec 1, .exec 1, .exec 0, .exec 0, .call 0 (.mutexUnlock 6), .exec 0,
  .exec 1, .exec 1, .call 1 (.condWait 5 7), .exec 0]

/-- The first thread sees the entry of the condition variable and signals it; the mutex is free. -/
def signalsChild : List Label := childWaits.map .run ++ [.copies 0 (.cond 5) (some 0)] ++
  [.call 0 (.condSignal 5), .exec 0, .exec 0, .exec 0, .exec 1, .exec 0, .exec 1].map .run

/-- The first thread, on two cores. -/
def start : State Xrun.State := initial (Xrun.start 2 fun _ => 2)

theorem init_start : (system plain).Init start := ⟨_, ⟨2, _, Nat.two_pos, rfl⟩, rfl⟩

/-- The condition without the one on lookups. -/
def KeepsMarksOnly (s : State Xrun.State) : Label → Prop
  | .run label => KeepsMarks s.base label
  | .copies .. => True

instance (s : State Xrun.State) : DecidablePred (KeepsMarksOnly s)
  | .run _ => inferInstanceAs (Decidable (KeepsMarks _ _))
  | .copies .. => inferInstanceAs (Decidable True)

/-- The second thread has a copy of the page of a mutex from before the first one has locked it. It
finds no entry, makes another one and locks the mutex as well. -/
theorem not_excludes_stale :
    ¬ ∀ s, (system plain).Reachable KeepsMarksOnly s → Excludes s.base := by
  intro excludes
  let labels : List Label := [.call 0 .spawn, .exec 0, .childRegister 0, .exec 1, .exec 0,
    .call 0 (.mutexLock 7), .exec 0, .exec 0, .call 1 (.mutexLock 7), .exec 1, .exec 1, .exec 1,
    .exec 0, .exec 0, .exec 0, .exec 1, .exec 1, .exec 0, .exec 0, .call 0 (.mutexLock 8), .exec 0,
    .exec 0, .exec 0, .call 0 (.condWait 5 8), .exec 1, .exec 1].map .run
  have run : ((system plain).runIf (fun s label => decide (KeepsMarksOnly s label)) start
      labels).any fun s => 7 ∈ s.base.holding 0 ∧ 7 ∈ s.base.holding 1 := by decide +kernel
  obtain ⟨s, execution, facts⟩ := (Option.any_eq_true _ _).mp run
  obtain ⟨first, second⟩ := of_decide_eq_true facts
  have initial : (system plain).Reachable KeepsMarksOnly start := .init init_start
  have reach := initial.runIf (fun _ _ => of_decide_eq_true) execution
  exact absurd ((excludes s reach).single 0 1 7 first second) (by decide)

/-- Runs with what has happened under the token. -/
def observing (counts : ℕ → ℕ) : Threads Observed where
  system := observed counts
  run := Observed.state
  put o state := { o with state }

variable {P : Program} {counts : ℕ → ℕ} {o o' : State Observed}

/-- A test for the condition. -/
def findsProgram (counts : ℕ → ℕ) (P : Program) (o : State Observed) : Label → Bool
  | .run label => Finds (observing counts) o label ∧ keepsProgram P o.base label
  | .copies .. => true

theorem findsProgram_sound (o : State Observed) (label : Label)
    (passes : findsProgram counts P o label = true) :
    FindsAnd (observing counts) (KeepsProgram P) o label := by
  cases label with
  | run label =>
    obtain ⟨finds, keeps⟩ := of_decide_eq_true passes
    exact ⟨finds, keepsProgram_sound P o.base label keeps⟩
  | copies process object found => trivial

/-- The second thread sees the entry of the mutex of the first one, and asks for it. -/
def asksForSeen : List Label := .copies 1 (.mutex 8) (some 0) ::
  [.call 1 (.mutexLock 8), .exec 1].map .run

/-- Behind the fence of `arrivesLast`, the second thread gives its mutex back. -/
def leavesLast : List Xrun.Label := arrivesLast ++
  [.call 1 (.mutexUnlock 9), .exec 1, .exec 0, .exec 1, .exec 0]

end Tthread.SyncWords
