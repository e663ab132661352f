/-
# The rounds of the fence

The fence by itself: any threads that it counts wait in it, while others start it, or add
threads to it and take threads out. In a round all participants arrive, and then the phase
stays over until all of them have left, so that the next round cannot begin before. This
holds as long as nobody starts the fence while threads are leaving it: `startFence` begins
a new arrival phase whatever the others do.
-/

import Mathlib.Data.Finset.Card
import Tthread.Xrun

namespace Tthread.Fence

open Transition Determ
open Xrun (maxThreads)

/-- The fence and the threads that it counts. -/
structure FenceState where
  determ : Determ
  /-- where each thread is in `waitFence` -/
  pos : ℕ → Option FencePos
  participants : Finset ℕ
  /-- ghost: the completed rounds, and the one in which each thread has arrived last -/
  rounds : ℕ
  arrived : ℕ → ℕ
  /-- ghost: who has arrived in each round, and the participants when it was completed -/
  arrivals : ℕ → Finset ℕ
  present : ℕ → Finset ℕ

inductive FenceLabel
  | waitFence (thread : ℕ)
  /-- the next access of a thread that is in `waitFence` -/
  | exec (thread : ℕ)
  | startFence (threads : Finset ℕ)
  | incrFence (threads : Finset ℕ)
  | decrFence (thread : ℕ)

/-- The access counts its caller in. -/
def arrives (d : Determ) : FencePos → Bool
  | .enter => d.isArrivalPhase
  | .arrive | .sleep => true
  | _ => false

namespace FenceState

/-- Ghost: the thread has arrived in the present round. -/
def arrive (s : FenceState) (thread : ℕ) : FenceState :=
  { s with
    arrived := Function.update s.arrived thread s.rounds
    arrivals := Function.update s.arrivals s.rounds (insert thread (s.arrivals s.rounds)) }

/-- Ghost: the present round is completed. -/
def complete (s : FenceState) : FenceState :=
  { s with
    rounds := s.rounds + 1
    present := Function.update s.present s.rounds s.participants }

/-- Ghost: the caller has arrived, and may be the last one. -/
def countIn (s : FenceState) (thread : ℕ) : FenceState :=
  if s.determ.maxthreads ≤ increased s.determ.currthreads 1 then (s.arrive thread).complete
  else s.arrive thread

/-- After an access of the thread. -/
def after (s : FenceState) (thread : ℕ) (pos : FencePos)
    (result : Determ × Option FencePos) : FenceState :=
  { (if arrives s.determ pos then s.countIn thread else s) with
    determ := result.1, pos := Function.update s.pos thread result.2 }

/-- Threads that are not counted and have an entry. -/
def New (s : FenceState) (threads : Finset ℕ) : Prop :=
  Disjoint s.participants threads ∧ ∀ thread ∈ threads, thread < maxThreads

instance (s : FenceState) : DecidablePred s.New := fun _ => inferInstanceAs (Decidable (_ ∧ _))

/-- A thread outside `waitFence` that the fence counts. -/
def Outside (s : FenceState) (thread : ℕ) : Prop :=
  thread ∈ s.participants ∧ s.pos thread = none

instance (s : FenceState) : DecidablePred s.Outside :=
  fun _ => inferInstanceAs (Decidable (_ ∧ _))

/-- Participants wait in the fence. Threads that become participants are counted by those
who let them run, and a participant that stops to be one takes itself out. -/
def step (s : FenceState) : FenceLabel → Option FenceState
  | .waitFence thread =>
      if s.Outside thread then
        some { s with pos := Function.update s.pos thread (some .enter) }
      else none
  | .exec thread =>
      (s.pos thread).bind fun pos => (s.determ.waitFence thread pos).map (s.after thread pos)
  | .startFence threads =>
      if s.New threads then
        some { s with
          determ := s.determ.startFence threads.card, participants := s.participants ∪ threads }
      else none
  | .incrFence threads =>
      if s.New threads then
        some { s with
          determ := s.determ.incrFence threads.card, participants := s.participants ∪ threads }
      else none
  | .decrFence thread =>
      if s.Outside thread then
        let d := s.determ.decrFence
        let rest := { s with participants := s.participants.erase thread }
        let completed := s.determ.isArrivalPhase && !d.isArrivalPhase
        some { (if completed then rest.complete else rest) with determ := d }
      else none

end FenceState

/-- An arrival phase with any participants, none of whom has arrived. -/
structure Starts (s : FenceState) : Prop where
  phase : s.determ.isArrivalPhase = true
  nobody : s.determ.currthreads = 0
  counted : s.determ.maxthreads = s.participants.card
  known : ∀ thread ∈ s.participants, thread < maxThreads
  outside : ∀ thread, s.pos thread = none
  first : s.rounds = 0

def system : System FenceState FenceLabel where
  Init := Starts
  step := FenceState.step

/-- The condition on a step: the fence is started in an arrival phase only. -/
def KeepsRounds (s : FenceState) : FenceLabel → Prop
  | .startFence _ => s.determ.isArrivalPhase = true
  | _ => True

instance (s : FenceState) : DecidablePred (KeepsRounds s) := fun label => by
  unfold KeepsRounds
  split <;> infer_instance

/-! ## The invariant -/

/-- The thread has arrived and is still counted. -/
def Inside : Option FencePos → Prop
  | some .insideSpin | some .leave | some .insideSleep => True
  | _ => False

instance : DecidablePred Inside := fun pos => by
  unfold Inside
  split <;> infer_instance

def FenceState.insiders (s : FenceState) : Finset ℕ :=
  s.participants.filter fun thread => Inside (s.pos thread)

/-- In an arrival phase everybody inside has arrived in the present round, and while they
leave, everybody has arrived in the last one. -/
structure FenceInv (s : FenceState) : Prop where
  known : ∀ thread ∈ s.participants, thread < maxThreads
  counted : ∀ thread, s.pos thread ≠ none → thread ∈ s.participants
  maxthreads : s.determ.maxthreads = s.participants.card
  currthreads : s.determ.currthreads = s.insiders.card
  arrival : s.determ.isArrivalPhase = true → ∀ thread, Inside (s.pos thread) →
    s.arrived thread = s.rounds ∧ thread ∈ s.arrivals s.rounds ∧ s.pos thread ≠ some .leave
  drain : s.determ.isArrivalPhase = false → s.insiders.Nonempty ∧
    ∀ thread, Inside (s.pos thread) → s.arrived thread + 1 = s.rounds
  late : ∀ thread, s.pos thread = some .arrive → s.determ.isArrivalPhase = true
  gathered : ∀ round < s.rounds, s.present round ⊆ s.arrivals round

variable {s s' : FenceState} {d : Determ} {thread : ℕ} {pos next : Option FencePos}

theorem mem_insiders (inv : FenceInv s) : thread ∈ s.insiders ↔ Inside (s.pos thread) := by
  unfold FenceState.insiders
  rw [Finset.mem_filter]
  refine ⟨And.right, fun inside => ⟨inv.counted thread ?_, inside⟩⟩
  intro outside
  rw [outside] at inside
  exact inside

theorem insiders_subset : s.insiders ⊆ s.participants := Finset.filter_subset _ _

/-- There are fewer participants than would make a counter wrap. -/
theorem FenceInv.few (inv : FenceInv s) : s.participants.card ≤ maxThreads := by
  have inside : s.participants ⊆ Finset.range maxThreads := fun thread member =>
    Finset.mem_range.mpr (inv.known thread member)
  exact (Finset.card_le_card inside).trans (Finset.card_range _).le

theorem insiders_enter (same : s'.participants = s.participants)
    (moved : s'.pos = Function.update s.pos thread next) (inside : Inside next)
    (member : thread ∈ s.participants) : s'.insiders = insert thread s.insiders := by
  ext other
  unfold FenceState.insiders
  rw [Finset.mem_insert, Finset.mem_filter, Finset.mem_filter, same, moved]
  by_cases here : other = thread
  · subst here
    rw [Function.update_self]
    exact iff_of_true ⟨member, inside⟩ (.inl rfl)
  · rw [Function.update_of_ne here]
    exact ⟨.inr, fun either => either.resolve_left here⟩

theorem insiders_leave (same : s'.participants = s.participants)
    (moved : s'.pos = Function.update s.pos thread next) (outside : ¬Inside next) :
    s'.insiders = s.insiders.erase thread := by
  ext other
  unfold FenceState.insiders
  rw [Finset.mem_erase, Finset.mem_filter, Finset.mem_filter, same, moved]
  by_cases here : other = thread
  · subst here
    rw [Function.update_self]
    exact iff_of_false (fun both => outside both.2) fun both => both.1 rfl
  · rw [Function.update_of_ne here]
    exact ⟨fun both => ⟨here, both⟩, And.right⟩

/-! ## One access -/

/-- A thread that is neither counted in nor counted out. -/
theorem FenceInv.shuffle (inv : FenceInv s) (member : thread ∈ s.participants)
    (maxthreads : d.maxthreads = s.determ.maxthreads)
    (currthreads : d.currthreads = s.determ.currthreads)
    (phase : d.isArrivalPhase = s.determ.isArrivalPhase)
    (inside : Inside next ↔ Inside (s.pos thread))
    (leaves : next = some .leave → s.determ.isArrivalPhase = false)
    (late : next = some .arrive → s.determ.isArrivalPhase = true) :
    FenceInv { s with determ := d, pos := Function.update s.pos thread next } := by
  have insiders : FenceState.insiders
      { s with determ := d, pos := Function.update s.pos thread next } = s.insiders := by
    by_cases here : Inside next
    · have entered : FenceState.insiders { s with
          determ := d, pos := Function.update s.pos thread next } = insert thread s.insiders :=
        insiders_enter rfl rfl here member
      rw [entered]
      exact Finset.insert_eq_of_mem ((mem_insiders inv).mpr (inside.mp here))
    · have left : FenceState.insiders { s with
          determ := d, pos := Function.update s.pos thread next } = s.insiders.erase thread :=
        insiders_leave rfl rfl here
      rw [left]
      exact Finset.erase_eq_of_notMem fun there => here (inside.mpr ((mem_insiders inv).mp there))
  -- what held of the old position of a thread holds of its new one
  have still : ∀ other, Inside (Function.update s.pos thread next other) →
      Inside (s.pos other) := by
    intro other there
    by_cases here : other = thread
    · subst here
      rw [Function.update_self] at there
      exact inside.mp there
    · rwa [Function.update_of_ne here] at there
  refine ⟨inv.known, fun other there => ?_, maxthreads.trans inv.maxthreads,
    currthreads.trans (inv.currthreads.trans (congrArg Finset.card insiders.symm)),
    fun arrival other there => ?_, fun ended => ?_, fun other there => ?_, inv.gathered⟩
  · by_cases here : other = thread
    · rw [here]
      exact member
    · change Function.update s.pos thread next other ≠ none at there
      rw [Function.update_of_ne here] at there
      exact inv.counted other there
  · have before := inv.arrival (phase.symm.trans arrival) other (still other there)
    refine ⟨before.1, before.2.1, ?_⟩
    show Function.update s.pos thread next other ≠ _
    by_cases here : other = thread
    · subst here
      rw [Function.update_self]
      intro leaving
      exact absurd ((leaves leaving).symm.trans (phase.symm.trans arrival)) nofun
    · rw [Function.update_of_ne here]
      exact before.2.2
  · obtain ⟨somebody, last⟩ := inv.drain (phase.symm.trans ended)
    exact ⟨insiders ▸ somebody, fun other there => last other (still other there)⟩
  · change Function.update s.pos thread next other = _ at there
    rw [phase]
    by_cases here : other = thread
    · subst here
      rw [Function.update_self] at there
      exact late there
    · rw [Function.update_of_ne here] at there
      exact inv.late other there

theorem not_inside_of_mem_compl (inv : FenceInv s) (outside : ¬Inside (s.pos thread)) :
    thread ∉ s.insiders := fun there => outside ((mem_insiders inv).mp there)

/-- The last participant that arrives finds all others inside. -/
theorem all_inside (member : thread ∈ s.participants)
    (outside : thread ∉ s.insiders) (last : s.participants.card ≤ s.insiders.card + 1) :
    s.participants = insert thread s.insiders := by
  refine (Finset.eq_of_subset_of_card_le ?_ ?_).symm
  · exact Finset.insert_subset member insiders_subset
  · rwa [Finset.card_insert_of_notMem outside]

/-- The counter has room for one more. -/
theorem FenceInv.increased (inv : FenceInv s) :
    increased s.determ.currthreads 1 = s.insiders.card + 1 := by
  have most := (Finset.card_le_card (insiders_subset (s := s))).trans inv.few
  rw [inv.currthreads, increased_of_lt]
  unfold maxThreads at most
  omega

/-- What the last arrival leaves behind: the phase is over if anybody is inside. -/
theorem leaveFence_phase : d.leaveFence.currthreads = decreased d.currthreads ∧
    d.leaveFence.maxthreads = d.maxthreads ∧
    (d.leaveFence.isArrivalPhase = true ↔ decreased d.currthreads = 0 ∨
      d.isArrivalPhase = true) := by
  simp only [leaveFence]
  split
  · next empty => exact ⟨rfl, rfl, iff_of_true rfl (.inl empty)⟩
  · next somebody => exact ⟨rfl, rfl, ⟨.inr, fun either => either.resolve_left somebody⟩⟩

/-- An arrival that completes the round: the caller is counted in and out again. -/
theorem FenceInv.arriveLast (inv : FenceInv s) (arrival : s.determ.isArrivalPhase = true)
    (member : thread ∈ s.participants) (outside : ¬Inside (s.pos thread))
    (last : s.participants.card ≤ s.insiders.card + 1)
    (maxthreads : d.maxthreads = s.determ.maxthreads)
    (currthreads : d.currthreads = s.determ.currthreads)
    (phase : d.isArrivalPhase = true ↔ s.determ.currthreads = 0) :
    FenceInv { (s.arrive thread).complete with
      determ := d, pos := Function.update s.pos thread none } := by
  have absent := not_inside_of_mem_compl inv outside
  have all := all_inside member absent last
  have insiders : FenceState.insiders { (s.arrive thread).complete with
      determ := d, pos := Function.update s.pos thread none } = s.insiders := by
    have nowhere : ¬Inside none := id
    have left : FenceState.insiders { (s.arrive thread).complete with
        determ := d, pos := Function.update s.pos thread none } = s.insiders.erase thread :=
      insiders_leave rfl rfl nowhere
    rw [left]
    exact Finset.erase_eq_of_notMem absent
  -- the caller has left, and whoever is inside has arrived in this round
  have others : ∀ other, Inside (Function.update s.pos thread none other) →
      other ≠ thread ∧ Inside (s.pos other) := by
    intro other there
    by_cases here : other = thread
    · subst here
      rw [Function.update_self] at there
      exact there.elim
    · rw [Function.update_of_ne here] at there
      exact ⟨here, there⟩
  refine ⟨inv.known, fun other there => ?_, maxthreads.trans inv.maxthreads,
    currthreads.trans (inv.currthreads.trans (congrArg Finset.card insiders.symm)),
    fun again other there => ?_, fun ended => ⟨?_, fun other there => ?_⟩, fun other there => ?_,
    fun round below => ?_⟩
  · change Function.update s.pos thread none other ≠ none at there
    by_cases here : other = thread
    · rw [here]
      exact member
    · rw [Function.update_of_ne here] at there
      exact inv.counted other there
  · -- nobody is inside when the next arrival phase begins at once
    have empty : s.insiders = ∅ := by
      rw [← Finset.card_eq_zero, ← inv.currthreads]
      exact phase.mp again
    have inside := (mem_insiders inv).mpr (others other there).2
    rw [empty] at inside
    exact absurd inside (Finset.notMem_empty other)
  · rw [insiders, Finset.nonempty_iff_ne_empty]
    intro empty
    have nobody : s.determ.currthreads = 0 := by
      rw [inv.currthreads, empty]
      rfl
    exact absurd ((phase.mpr nobody).symm.trans ended) nofun
  · obtain ⟨different, inside⟩ := others other there
    show Function.update s.arrived thread s.rounds other + 1 = s.rounds + 1
    rw [Function.update_of_ne different, (inv.arrival arrival other inside).1]
  · -- a participant that is about to arrive would be missing
    change Function.update s.pos thread none other = _ at there
    by_cases here : other = thread
    · subst here
      rw [Function.update_self] at there
      cases there
    · rw [Function.update_of_ne here] at there
      have counted := inv.counted other (by rw [there]; nofun)
      rw [all, Finset.mem_insert] at counted
      have inside := (mem_insiders inv).mp (counted.resolve_left here)
      rw [there] at inside
      exact inside.elim
  · show Function.update s.present s.rounds s.participants round ⊆
      Function.update s.arrivals s.rounds (insert thread (s.arrivals s.rounds)) round
    by_cases now : round = s.rounds
    · rw [now, Function.update_self, Function.update_self, all]
      refine Finset.insert_subset_insert thread fun other there => ?_
      exact (inv.arrival arrival other ((mem_insiders inv).mp there)).2.1
    · rw [Function.update_of_ne now, Function.update_of_ne now]
      exact inv.gathered round (lt_of_le_of_ne (Nat.le_of_lt_succ below) now)

/-- Any other arrival. -/
theorem FenceInv.arriveEarly (inv : FenceInv s) (arrival : s.determ.isArrivalPhase = true)
    (member : thread ∈ s.participants) (outside : ¬Inside (s.pos thread))
    (inside : Inside next) (stays : next ≠ some .leave)
    (maxthreads : d.maxthreads = s.determ.maxthreads)
    (currthreads : d.currthreads = s.insiders.card + 1) (phase : d.isArrivalPhase = true) :
    FenceInv { s.arrive thread with determ := d, pos := Function.update s.pos thread next } := by
  have absent := not_inside_of_mem_compl inv outside
  have insiders : FenceState.insiders { s.arrive thread with
      determ := d, pos := Function.update s.pos thread next } = insert thread s.insiders :=
    insiders_enter rfl rfl inside member
  refine ⟨inv.known, fun other there => ?_, maxthreads.trans inv.maxthreads, ?_,
    fun _ other there => ?_, fun ended => absurd (ended.symm.trans phase) nofun,
    fun _ _ => phase, fun round below => ?_⟩
  · change Function.update s.pos thread next other ≠ none at there
    by_cases here : other = thread
    · rw [here]
      exact member
    · rw [Function.update_of_ne here] at there
      exact inv.counted other there
  · rw [insiders, Finset.card_insert_of_notMem absent]
    exact currthreads
  · change Inside (Function.update s.pos thread next other) at there
    show Function.update s.arrived thread s.rounds other = s.rounds ∧
      other ∈ Function.update s.arrivals s.rounds _ s.rounds ∧
        Function.update s.pos thread next other ≠ _
    rw [Function.update_self]
    by_cases here : other = thread
    · subst here
      rw [Function.update_self, Function.update_self]
      exact ⟨rfl, Finset.mem_insert_self _ _, stays⟩
    · rw [Function.update_of_ne here] at there
      rw [Function.update_of_ne here, Function.update_of_ne here]
      obtain ⟨now, gathered, staying⟩ := inv.arrival arrival other there
      exact ⟨now, Finset.mem_insert_of_mem gathered, staying⟩
  · have earlier : round < s.rounds := below
    show s.present round ⊆ Function.update s.arrivals s.rounds _ round
    rw [Function.update_of_ne earlier.ne]
    exact inv.gathered round earlier

/-- A thread that leaves while the phase is over. -/
theorem FenceInv.leave (inv : FenceInv s) (ended : s.determ.isArrivalPhase = false)
    (inside : Inside (s.pos thread)) : FenceInv { s with
      determ := s.determ.leaveFence, pos := Function.update s.pos thread none } := by
  have there := (mem_insiders inv).mpr inside
  have member := insiders_subset there
  obtain ⟨counter, maxthreads, phase⟩ := leaveFence_phase (d := s.determ)
  have insiders : FenceState.insiders { s with
      determ := s.determ.leaveFence, pos := Function.update s.pos thread none } =
        s.insiders.erase thread := by
    have nowhere : ¬Inside none := id
    exact insiders_leave rfl rfl nowhere
  have fewer : decreased s.determ.currthreads = (s.insiders.erase thread).card := by
    rw [inv.currthreads, decreased_of_pos (Finset.card_pos.mpr ⟨thread, there⟩),
      Finset.card_erase_of_mem there]
  have last := (inv.drain ended).2
  have others : ∀ other, Inside (Function.update s.pos thread none other) →
      Inside (s.pos other) := by
    intro other there
    by_cases here : other = thread
    · subst here
      rw [Function.update_self] at there
      exact there.elim
    · rwa [Function.update_of_ne here] at there
  refine ⟨inv.known, fun other there => ?_, maxthreads.trans inv.maxthreads,
    counter.trans (fewer.trans (congrArg Finset.card insiders.symm)), fun again other there => ?_,
    fun still => ⟨?_, fun other there => last other (others other there)⟩, fun other there => ?_,
    inv.gathered⟩
  · change Function.update s.pos thread none other ≠ none at there
    by_cases here : other = thread
    · rw [here]
      exact member
    · rw [Function.update_of_ne here] at there
      exact inv.counted other there
  · -- the last one that leaves begins the next arrival phase
    have empty : s.insiders.erase thread = ∅ := by
      rw [← Finset.card_eq_zero, ← fewer]
      exact (phase.mp again).resolve_right fun early => absurd (ended.symm.trans early) nofun
    have rest : other ∈ s.insiders.erase thread := by
      rw [← insiders]
      unfold FenceState.insiders
      rw [Finset.mem_filter]
      have present : other ∈ s.participants :=
        insiders_subset ((mem_insiders inv).mpr (others other there))
      exact ⟨present, there⟩
    rw [empty] at rest
    exact absurd rest (Finset.notMem_empty other)
  · rw [insiders, ← Finset.card_pos, ← fewer]
    refine Nat.pos_of_ne_zero fun empty => ?_
    exact absurd (still.symm.trans (phase.mpr (.inl empty))) nofun
  · change Function.update s.pos thread none other = _ at there
    by_cases here : other = thread
    · subst here
      rw [Function.update_self] at there
      cases there
    · rw [Function.update_of_ne here] at there
      exact absurd (ended.symm.trans (inv.late other there)) nofun

/-- Threads that are counted before they wait. -/
theorem FenceInv.grow (inv : FenceInv s) {threads : Finset ℕ} (new : s.New threads)
    (maxthreads : d.maxthreads = Determ.increased s.determ.maxthreads threads.card)
    (currthreads : d.currthreads = s.determ.currthreads)
    (phase : d.isArrivalPhase = s.determ.isArrivalPhase) :
    FenceInv { s with determ := d, participants := s.participants ∪ threads } := by
  obtain ⟨apart, known⟩ := new
  have known' : ∀ thread ∈ s.participants ∪ threads, thread < maxThreads := by
    intro thread member
    rcases Finset.mem_union.mp member with old | added
    · exact inv.known thread old
    · exact known thread added
  have counted : ∀ thread, s.pos thread ≠ none → thread ∈ s.participants ∪ threads :=
    fun thread there => Finset.mem_union_left _ (inv.counted thread there)
  have insiders : FenceState.insiders
      { s with determ := d, participants := s.participants ∪ threads } = s.insiders := by
    ext thread
    unfold FenceState.insiders
    rw [Finset.mem_filter, Finset.mem_filter]
    refine and_congr_left fun inside => ⟨fun _ => ?_, Finset.mem_union_left _⟩
    exact insiders_subset ((mem_insiders inv).mpr inside)
  have total : (s.participants ∪ threads).card = s.participants.card + threads.card :=
    Finset.card_union_of_disjoint apart
  have most : (s.participants ∪ threads).card ≤ maxThreads := by
    have inside : s.participants ∪ threads ⊆ Finset.range maxThreads := fun thread member =>
      Finset.mem_range.mpr (known' thread member)
    exact (Finset.card_le_card inside).trans (Finset.card_range _).le
  refine ⟨known', counted, ?_, currthreads.trans (inv.currthreads.trans
    (congrArg Finset.card insiders.symm)), fun arrival => inv.arrival (phase.symm.trans arrival),
    fun ended => ?_, fun thread there => phase.trans (inv.late thread there), inv.gathered⟩
  · show d.maxthreads = (s.participants ∪ threads).card
    unfold maxThreads at most
    rw [maxthreads, inv.maxthreads, increased_of_lt (by omega), total]
  · rw [insiders]
    exact inv.drain (phase.symm.trans ended)

/-- What `decrFence` does, and when it completes a round. -/
theorem decrFence_phase : d.decrFence.maxthreads = decreased d.maxthreads ∧
    d.decrFence.currthreads = d.currthreads ∧
    (d.decrFence.isArrivalPhase = true ↔ d.isArrivalPhase = true ∧
      ¬(decreased d.maxthreads ≤ d.currthreads ∧ decreased d.maxthreads ≠ 0)) := by
  simp only [decrFence]
  split
  · next completes =>
    refine ⟨rfl, rfl, iff_of_false (by simp) ?_⟩
    exact fun both => both.2 ⟨completes.1, completes.2.2⟩
  · next early =>
    refine ⟨rfl, rfl, fun arrival => ⟨arrival, fun both => ?_⟩, And.left⟩
    exact early ⟨both.1, arrival, both.2⟩

/-- A participant outside takes itself out. -/
theorem FenceInv.shrink (inv : FenceInv s) (outside : s.Outside thread) :
    FenceInv { (if (s.determ.isArrivalPhase && !s.determ.decrFence.isArrivalPhase) = true then
        ({ s with participants := s.participants.erase thread } : FenceState).complete
      else { s with participants := s.participants.erase thread }) with
        determ := s.determ.decrFence } := by
  obtain ⟨member, away⟩ := outside
  obtain ⟨maxthreads, currthreads, phase⟩ := decrFence_phase (d := s.determ)
  have counted : ∀ other, s.pos other ≠ none → other ∈ s.participants.erase thread := by
    intro other there
    refine Finset.mem_erase.mpr ⟨?_, inv.counted other there⟩
    rintro rfl
    exact there away
  have known : ∀ other ∈ s.participants.erase thread, other < maxThreads :=
    fun other there => inv.known other (Finset.mem_of_mem_erase there)
  have insiders : (s.participants.erase thread).filter (fun other => Inside (s.pos other)) =
      s.insiders := by
    ext other
    unfold FenceState.insiders
    rw [Finset.mem_filter, Finset.mem_filter]
    refine and_congr_left fun inside => ⟨Finset.mem_of_mem_erase, fun _ => counted other ?_⟩
    intro nowhere
    rw [nowhere] at inside
    exact inside
  have fewer : s.determ.decrFence.maxthreads = (s.participants.erase thread).card := by
    rw [maxthreads, inv.maxthreads, decreased_of_pos (Finset.card_pos.mpr ⟨thread, member⟩),
      Finset.card_erase_of_mem member]
  have counter : s.determ.decrFence.currthreads =
      ((s.participants.erase thread).filter fun other => Inside (s.pos other)).card := by
    rw [currthreads, inv.currthreads, insiders]
  split
  · next completes =>
    rw [Bool.and_eq_true, Bool.not_eq_true'] at completes
    obtain ⟨arrival, ended⟩ := completes
    -- everybody who is left is inside
    have enough : decreased s.determ.maxthreads ≤ s.determ.currthreads ∧
        decreased s.determ.maxthreads ≠ 0 := by
      by_contra early
      exact absurd ((phase.mpr ⟨arrival, early⟩).symm.trans ended) nofun
    rw [← maxthreads, fewer, inv.currthreads] at enough
    have all : s.insiders = s.participants.erase thread := by
      refine Finset.eq_of_subset_of_card_le ?_ enough.1
      rw [← insiders]
      exact Finset.filter_subset _ _
    refine ⟨known, counted, fewer, counter,
      fun again => absurd (ended.symm.trans again) nofun, fun _ => ⟨?_, fun other inside => ?_⟩,
      fun other there => ?_, fun round below => ?_⟩
    · show ((s.participants.erase thread).filter fun other => Inside (s.pos other)).Nonempty
      rw [insiders, all, ← Finset.card_pos]
      exact Nat.pos_of_ne_zero enough.2
    · exact congrArg (· + 1) (inv.arrival arrival other inside).1
    · have left : other ∈ s.insiders := by
        rw [all]
        exact counted other (by change s.pos other = _ at there; rw [there]; nofun)
      have inside := (mem_insiders inv).mp left
      change s.pos other = _ at there
      rw [there] at inside
      exact inside.elim
    · show Function.update s.present s.rounds (s.participants.erase thread) round ⊆ s.arrivals round
      by_cases now : round = s.rounds
      · rw [now, Function.update_self, ← all]
        exact fun other there => (inv.arrival arrival other ((mem_insiders inv).mp there)).2.1
      · rw [Function.update_of_ne now]
        exact inv.gathered round (lt_of_le_of_ne (Nat.le_of_lt_succ below) now)
  · next same =>
    have unchanged : s.determ.decrFence.isArrivalPhase = s.determ.isArrivalPhase := by
      cases arrival : s.determ.isArrivalPhase with
      | false =>
        rw [Bool.eq_false_iff]
        intro again
        exact absurd (arrival.symm.trans (phase.mp again).1) nofun
      | true => simpa [arrival] using same
    refine ⟨known, counted, fewer, counter,
      fun arrival => inv.arrival (unchanged.symm.trans arrival), fun ended => ?_,
      fun other there => unchanged.trans (inv.late other there), inv.gathered⟩
    obtain ⟨somebody, last⟩ := inv.drain (unchanged.symm.trans ended)
    refine ⟨?_, last⟩
    show ((s.participants.erase thread).filter fun other => Inside (s.pos other)).Nonempty
    rwa [insiders]

/-- A thread that returns has arrived in the round that was completed last. -/
def Returns (s : FenceState) (thread : ℕ) (next : Option FencePos) : Prop :=
  next = none → s.rounds = s.arrived thread + 1

theorem FenceInv.arriveSection (inv : FenceInv s) (arrival : s.determ.isArrivalPhase = true)
    (member : thread ∈ s.participants) (outside : ¬Inside (s.pos thread)) :
    FenceInv { s.countIn thread with
        determ := (s.determ.arriveFence thread).1
        pos := Function.update s.pos thread (s.determ.arriveFence thread).2 } ∧
      Returns (s.countIn thread) thread (s.determ.arriveFence thread).2 := by
  unfold FenceState.countIn arriveFence
  by_cases last : s.determ.maxthreads ≤ Determ.increased s.determ.currthreads 1
  · rw [if_pos last]
    simp only [if_pos last]
    have enough : s.participants.card ≤ s.insiders.card + 1 := by
      rwa [inv.maxthreads, inv.increased] at last
    -- the caller is counted in and out
    have back : decreased (Determ.increased s.determ.currthreads 1) = s.determ.currthreads := by
      rw [inv.increased, decreased_of_pos (Nat.succ_pos _), inv.currthreads]
      rfl
    obtain ⟨counter, maxthreads, phase⟩ := leaveFence_phase (d := { s.determ with
      currthreads := Determ.increased s.determ.currthreads 1, isArrivalPhase := false })
    refine ⟨inv.arriveLast arrival member outside enough maxthreads (counter.trans back) ?_, ?_⟩
    · rw [phase]
      show decreased (Determ.increased s.determ.currthreads 1) = 0 ∨ false = true ↔ _
      rw [back]
      exact ⟨fun either => either.resolve_right nofun, .inl⟩
    · intro _
      show s.rounds + 1 = Function.update s.arrived thread s.rounds thread + 1
      rw [Function.update_self]
  · rw [if_neg last]
    simp only [if_neg last]
    refine ⟨?_, nofun⟩
    refine inv.arriveEarly arrival member outside ?_ ?_ rfl inv.increased arrival
    · split <;> trivial
    · split <;> nofun

/-- The next access of a thread in `waitFence`. -/
theorem FenceInv.exec (inv : FenceInv s) {pos : FencePos} (there : s.pos thread = some pos)
    {result : Determ × Option FencePos} (waits : s.determ.waitFence thread pos = some result) :
    FenceInv (s.after thread pos result) ∧ Returns (s.after thread pos result) thread result.2 := by
  have member := inv.counted thread (by rw [there]; simp)
  unfold FenceState.after
  cases pos with
  | enter =>
    have outside : ¬Inside (s.pos thread) := by rw [there]; exact id
    simp only [Determ.waitFence] at waits
    split at waits
    -- The phase of arrival: the thread enters at once.
    · next arrival =>
      obtain rfl := Option.some.inj waits
      have arriving : arrives s.determ .enter = true := arrival
      rw [if_pos arriving]
      exact inv.arriveSection arrival member outside
    -- The others of the round are still leaving, and it waits for them outside.
    · next ended =>
      obtain rfl := Option.some.inj waits
      have early : ¬arrives s.determ .enter = true := ended
      rw [if_neg early]
      refine ⟨inv.shuffle member rfl rfl rfl ?_ ?_ ?_, fun gone => by cases gone⟩
      · rw [there]
        split <;> exact Iff.rfl
      · split <;> simp
      · split <;> simp
  | spin =>
    obtain ⟨arrival, same⟩ := Option.ite_none_right_eq_some.mp waits
    obtain rfl := Option.some.inj same
    refine ⟨inv.shuffle member rfl rfl rfl ?_ (by simp) fun _ => arrival, fun gone => by cases gone⟩
    rw [there]
    exact Iff.rfl
  | arrive =>
    have outside : ¬Inside (s.pos thread) := by rw [there]; exact id
    obtain rfl := Option.some.inj waits
    -- A late thread has seen the arrival phase, and that cannot end without it.
    exact inv.arriveSection (inv.late thread there) member outside
  | sleep =>
    have outside : ¬Inside (s.pos thread) := by rw [there]; exact id
    obtain ⟨arrival, same⟩ := Option.ite_none_right_eq_some.mp waits
    obtain rfl := Option.some.inj same
    exact inv.arriveSection arrival member outside
  | insideSpin =>
    obtain ⟨ended, same⟩ := Option.ite_none_left_eq_some.mp waits
    obtain rfl := Option.some.inj same
    refine ⟨inv.shuffle member rfl rfl rfl ?_ (fun _ => Bool.eq_false_iff.mpr ended) (by simp),
      fun gone => by cases gone⟩
    rw [there]
    exact Iff.rfl
  | leave =>
    obtain rfl := Option.some.inj waits
    have inside : Inside (s.pos thread) := by rw [there]; trivial
    -- In the phase of arrival nobody is at this access.
    have ended : s.determ.isArrivalPhase = false := by
      by_contra arrival
      exact (inv.arrival (Bool.not_eq_false _ ▸ arrival) thread inside).2.2 there
    exact ⟨inv.leave ended inside, fun _ => ((inv.drain ended).2 thread inside).symm⟩
  | insideSleep =>
    obtain ⟨ended, same⟩ := Option.ite_none_left_eq_some.mp waits
    obtain rfl := Option.some.inj same
    have inside : Inside (s.pos thread) := by rw [there]; trivial
    have ended := Bool.eq_false_iff.mpr ended
    exact ⟨inv.leave ended inside, fun _ => ((inv.drain ended).2 thread inside).symm⟩

/-- **Step.** -/
theorem FenceInv.step (inv : FenceInv s) {label : FenceLabel} (keeps : KeepsRounds s label)
    (stepped : s.step label = some s') : FenceInv s' := by
  cases label with
  | waitFence thread =>
    obtain ⟨⟨member, away⟩, rfl⟩ := guarded stepped
    refine inv.shuffle member rfl rfl rfl ?_ nofun nofun
    rw [away]
    exact Iff.rfl
  | exec thread =>
    obtain ⟨pos, there, stepped⟩ := Option.bind_eq_some_iff.mp stepped
    obtain ⟨result, waits, rfl⟩ := Option.map_eq_some_iff.mp stepped
    exact (inv.exec there waits).1
  | startFence threads =>
    obtain ⟨new, rfl⟩ := guarded stepped
    have arrival : s.determ.isArrivalPhase = true := keeps
    exact inv.grow new rfl rfl arrival.symm
  | incrFence threads =>
    obtain ⟨new, rfl⟩ := guarded stepped
    exact inv.grow new rfl rfl rfl
  | decrFence thread =>
    obtain ⟨outside, rfl⟩ := guarded stepped
    exact inv.shrink outside

/-- **Run.** In every run that starts the fence in arrival phases only, the invariant holds. -/
theorem fenceInv_of_keepsRounds (reach : system.Reachable KeepsRounds s) : FenceInv s := by
  refine reach.invariant FenceInv (fun s starts => ?_) fun s label s' inv keeps stepped =>
    inv.step keeps stepped
  have nobody : ∀ thread, ¬Inside (s.pos thread) := by
    intro thread
    rw [starts.outside]
    exact id
  refine ⟨starts.known, fun thread there => absurd (starts.outside thread) there,
    starts.counted, ?_, fun _ thread there => absurd there (nobody thread),
    fun ended => absurd (ended.symm.trans starts.phase) nofun, fun _ _ => starts.phase, ?_⟩
  · rw [starts.nobody]
    refine (Finset.card_eq_zero.mpr ?_).symm
    exact Finset.filter_eq_empty_iff.mpr fun thread _ => nobody thread
  · rw [starts.first]
    nofun

/-! ## Rounds -/

/-- The phase stays over until everybody who has arrived in a completed round has left; a
thread returns as soon as the round in which it has arrived is completed, and no later; and
whoever took part when a round was completed had arrived in it. -/
structure RoundsApart (s : FenceState) : Prop where
  phase : ∀ thread, Inside (s.pos thread) → s.arrived thread < s.rounds →
    s.determ.isArrivalPhase = false
  returns : ∀ thread pos result, s.pos thread = some pos →
    s.determ.waitFence thread pos = some result →
      Returns (s.after thread pos result) thread result.2
  gathered : ∀ round < s.rounds, s.present round ⊆ s.arrivals round

theorem FenceInv.roundsApart (inv : FenceInv s) : RoundsApart s := by
  refine ⟨fun thread inside earlier => ?_, fun thread pos result there waits =>
    (inv.exec there waits).2, inv.gathered⟩
  by_contra arrival
  have now := (inv.arrival (Bool.not_eq_false _ ▸ arrival) thread inside).1
  exact absurd earlier (now ▸ lt_irrefl _)

/-- **Fence rounds never overlap.** In every run that starts the fence in arrival phases
only they do not, and the next step keeps it so exactly if it does not start the fence
while threads are leaving. -/
theorem roundsApart_of_keepsRounds (reach : system.Reachable KeepsRounds s) :
    RoundsApart s ∧ ∀ label s', s.step label = some s' →
      (RoundsApart s' ↔ KeepsRounds s label) := by
  have inv := fenceInv_of_keepsRounds reach
  refine ⟨inv.roundsApart, fun label s' stepped => ⟨fun apart => ?_, fun keeps => ?_⟩⟩
  · cases label with
    | startFence threads =>
      obtain ⟨new, rfl⟩ := guarded stepped
      show s.determ.isArrivalPhase = true
      by_contra ended
      -- somebody is still inside, and the phase begins again
      obtain ⟨⟨thread, there⟩, last⟩ := inv.drain (Bool.eq_false_iff.mpr ended)
      have inside := (mem_insiders inv).mp there
      have earlier : s.arrived thread < s.rounds := by
        have next := last thread inside
        omega
      exact absurd (apart.phase thread inside earlier) nofun
    | _ => trivial
  · exact (inv.step keeps stepped).roundsApart

/-- An arrival phase before the first round. -/
def start (participants : Finset ℕ) (cores : ℕ) : FenceState where
  determ := { Determ.initial cores fun _ => 0 with
    maxthreads := participants.card, isArrivalPhase := true }
  pos _ := none
  participants := participants
  rounds := 0
  arrived _ := 0
  arrivals _ := ∅
  present _ := ∅

theorem start_starts {participants : Finset ℕ} {cores : ℕ}
    (known : ∀ thread ∈ participants, thread < maxThreads) : Starts (start participants cores) :=
  ⟨rfl, rfl, rfl, known, fun _ => rfl, rfl⟩

/-- Two threads arrive; the second one completes the round and leaves at once. -/
def oneRound : List FenceLabel := [.waitFence 0, .exec 0, .waitFence 1, .exec 1]

/-- The first one is still inside, and the phase stays over. -/
theorem roundsApart_oneRound : ∃ s, system.Reachable KeepsRounds s ∧ s.rounds = 1 ∧
    s.pos 0 = some .insideSpin ∧ s.determ.isArrivalPhase = false ∧ RoundsApart s ∧
    ∀ label s', s.step label = some s' → (RoundsApart s' ↔ KeepsRounds s label) := by
  have run : (system.runIf (fun s label => decide (KeepsRounds s label)) (start {0, 1} 2)
      oneRound).any fun s => s.rounds = 1 ∧ s.pos 0 = some .insideSpin ∧
        s.determ.isArrivalPhase = false := by decide +kernel
  obtain ⟨s, execution, facts⟩ := (Option.any_eq_true _ _).mp run
  obtain ⟨completed, inside, ended⟩ := of_decide_eq_true facts
  have start : system.Reachable KeepsRounds (start {0, 1} 2) := .init (start_starts (by decide))
  have reach := start.runIf (fun _ _ => of_decide_eq_true) execution
  exact ⟨s, reach, completed, inside, ended, roundsApart_of_keepsRounds reach⟩

/-- The second one starts the fence for a third one while the first one is still leaving. -/
theorem not_roundsApart_startFence : ¬ ∀ s, system.Reachable AnyStep s → RoundsApart s := by
  intro apart
  have run : (system.run (start {0, 1} 2) (oneRound ++ [.startFence {2}])).any fun s =>
      s.pos 0 = some .insideSpin ∧ s.arrived 0 < s.rounds ∧ s.determ.isArrivalPhase = true := by
    decide +kernel
  obtain ⟨s, execution, facts⟩ := (Option.any_eq_true _ _).mp run
  obtain ⟨spins, earlier, arrival⟩ := of_decide_eq_true facts
  have start : system.Reachable AnyStep (start {0, 1} 2) := .init (start_starts (by decide))
  have inside : Inside (s.pos 0) := by
    rw [spins]
    trivial
  have ended := (apart s (start.run execution)).phase 0 inside earlier
  exact absurd (ended.symm.trans arrival) nofun

end Tthread.Fence
