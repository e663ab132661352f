/-
# What the fence counts

`_maxthreads` counts the announced threads that are active, save a joiner that was put back
into the ring and has not taken the mutex since, and `_alivethreads` counts the announced
threads that have not exited. A joiner counts itself when it wakes up, while all other
threads that are put back into the ring are counted on the way.
-/

import Tthread.Library.Counting
import Tthread.TokenRing

namespace Tthread.Xrun

open Transition EntryList Counting

def State.announced (s : State) (thread : ℕ) : Bool := (s.thread thread).announced

/-- The list in which the thread is counted. A joiner is not, wherever it is. -/
def seat (d : Determ) (thread : ℕ) : Pc → Option Place
  | .joinWait _ => none
  | at_ => place d thread at_

/-- How many announced threads are counted in a list. -/
def seated (d : Determ) (pc : ℕ → Pc) (announced : ℕ → Bool) (p : Place) (bound : ℕ) : ℕ :=
  Nat.count (fun thread => announced thread = true ∧ seat d thread (pc thread) = some p) bound

/-- How many announced threads have not exited. -/
def living (pc : ℕ → Pc) (announced : ℕ → Bool) (bound : ℕ) : ℕ :=
  Nat.count (fun thread => announced thread = true ∧ pc thread ≠ .exited) bound

/-- Not there, or a child that its parent has not woken up. -/
def Pc.Early : Pc → Prop
  | .absent | .registered | .waitParentNotify => True
  | _ => False

/-- Every counter counts what it is for. -/
structure Counters (d : Determ) (pc : ℕ → Pc) (announced : ℕ → Bool) (bound : ℕ) : Prop where
  working : d.maxthreads = seated d pc announced .ring bound
  alive : d.alivethreads = living pc announced bound
  entered : ∀ bar, (d.barriers bar).threads = seated d pc announced (.barrier bar) bound
  early : ∀ thread, announced thread = false → (pc thread).Early
  /-- nobody was cancelled -/
  cancelled : ∀ cond, (d.conds cond).cancelled = 0

variable {s s' : State} {d d' : Determ} {pc pc' : ℕ → Pc} {announced : ℕ → Bool} {bound me : ℕ}
  {lists : Place → List ℕ} {p : Place} {source destination : Option Place} {threads : List ℕ}

/-! ## Seats -/

theorem seat_eq_place {thread : ℕ} {at_ : Pc} (awake : ∀ guest, at_ ≠ .joinWait guest) :
    seat d thread at_ = place d thread at_ := by
  unfold seat
  split
  · next guest => exact absurd rfl (awake guest)
  · rfl

theorem seat_of_plain {thread : ℕ} {at_ : Pc} (plain : at_.Plain) :
    seat d thread at_ = some .ring := by
  rw [seat_eq_place, place_of_plain plain]
  rintro guest rfl
  exact plain.elim

/-- The seat only depends on whether the thread is ready, and on the rounds. -/
theorem seat_congr {thread : ℕ} {at_ : Pc}
    (ready : d'.status thread = .ready ↔ d.status thread = .ready)
    (rounds : ∀ bar, (d'.barriers bar).rounds = (d.barriers bar).rounds) :
    seat d' thread at_ = seat d thread at_ := by
  unfold seat
  split
  · rfl
  · next awake => exact place_congr ready (fun guest waits => absurd waits (awake guest)) rounds

theorem seat_others (entries : ∀ thread ≠ me, d'.entries thread = d.entries thread)
    (rounds : ∀ bar, (d'.barriers bar).rounds = (d.barriers bar).rounds) {thread : ℕ}
    (different : thread ≠ me) {at_ : Pc} : seat d' thread at_ = seat d thread at_ := by
  refine seat_congr ?_ rounds
  rw [Determ.status, entries thread different, Determ.status]

theorem inBarrier_of_place {thread bar : ℕ} {at_ : Pc}
    (there : place d thread at_ = some (.barrier bar)) :
    at_.InBarrier bar (d.barriers bar).rounds := by
  cases at_ with
  | barrierEnter b round =>
    simp only [place] at there
    split at there
    · next now =>
      obtain rfl := Place.barrier.inj (Option.some.inj there)
      exact .inl (by rw [now])
    · cases there
  | barrierBlocked b round released =>
    simp only [place] at there
    split at there
    · next now =>
      obtain rfl := Place.barrier.inj (Option.some.inj there)
      exact .inr ⟨released, by rw [now]⟩
    · cases there
  | joinWait guest | condWaiting c mutex =>
    simp only [place] at there
    split at there <;> cases there
  | _ => cases there

theorem Pc.Early.present_plain {at_ : Pc} (early : at_.Early) (present : at_ ≠ .absent) :
    at_.Plain := by
  cases at_ <;> trivial

/-- Some threads go from one seat to another one. -/
structure Shift (d d' : Determ) (pc pc' : ℕ → Pc) (threads : List ℕ)
    (source destination : Option Place) : Prop where
  nodup : threads.Nodup
  leave : ∀ thread ∈ threads, seat d thread (pc thread) = source
  arrive : ∀ thread ∈ threads, seat d' thread (pc' thread) = destination
  same : ∀ thread ∉ threads, seat d' thread (pc' thread) = seat d thread (pc thread)

/-- What a counter goes up by when so many threads change seats. -/
def share (place : Option Place) (p : Place) (threads : List ℕ) : ℕ :=
  if place = some p then threads.length else 0

theorem Shift.seated (shift : Shift d d' pc pc' threads source destination)
    (known : ∀ thread ∈ threads, thread < bound ∧ announced thread = true) :
    seated d' pc' announced p bound + share source p threads =
      seated d pc announced p bound + share destination p threads := by
  have below : ∀ thread ∈ threads, thread < bound := fun thread member => (known thread member).1
  have outside : ∀ thread ∉ threads, (announced thread = true ∧
      seat d' thread (pc' thread) = some p ↔
        announced thread = true ∧ seat d thread (pc thread) = some p) := by
    intro thread other
    rw [shift.same thread other]
  unfold share
  by_cases gone : source = some p
  · by_cases come : destination = some p
    · -- nothing changes for this list
      rw [if_pos gone, if_pos come]
      congr 1
      refine count_congr fun thread _ => ?_
      by_cases member : thread ∈ threads
      · rw [shift.arrive thread member, shift.leave thread member, gone, come]
      · exact outside thread member
    · rw [if_pos gone, if_neg come]
      refine (count_gain shift.nodup below (fun thread _ => ?_) fun thread member there => ?_).symm
      · by_cases member : thread ∈ threads
        · exact iff_of_true ⟨(known thread member).2, (shift.leave thread member).trans gone⟩
            (.inr member)
        · simp only [member, or_false]
          exact (outside thread member).symm
      · exact come ((shift.arrive thread member).symm.trans there.2)
  · by_cases come : destination = some p
    · rw [if_neg gone, if_pos come]
      refine count_gain shift.nodup below (fun thread _ => ?_) fun thread member there => ?_
      · by_cases member : thread ∈ threads
        · exact iff_of_true ⟨(known thread member).2, (shift.arrive thread member).trans come⟩
            (.inr member)
        · simp only [member, or_false]
          exact outside thread member
      · exact gone ((shift.leave thread member).symm.trans there.2)
    · rw [if_neg gone, if_neg come]
      refine count_congr fun thread _ => ?_
      by_cases member : thread ∈ threads
      · rw [shift.arrive thread member, shift.leave thread member]
        exact iff_of_false (fun both => come both.2) fun both => gone both.2
      · exact outside thread member

/-- The step of threads from one list to another one, and of the counters. -/
theorem Counters.shift (counters : Counters d pc announced bound)
    (shift : Shift d d' pc pc' threads source destination)
    (known : ∀ thread ∈ threads, thread < bound ∧ announced thread = true)
    (working : d'.maxthreads + share source .ring threads =
      d.maxthreads + share destination .ring threads)
    (alive : d'.alivethreads = d.alivethreads)
    (exited : ∀ thread, pc' thread = .exited ↔ pc thread = .exited)
    (entered : ∀ bar, (d'.barriers bar).threads + share source (.barrier bar) threads =
      (d.barriers bar).threads + share destination (.barrier bar) threads)
    (early : ∀ thread, announced thread = false → (pc' thread).Early)
    (cancelled : ∀ cond, (d'.conds cond).cancelled ≤ (d.conds cond).cancelled) :
    Counters d' pc' announced bound where
  working := by
    have moved := shift.seated (p := .ring) known
    rw [counters.working] at working
    omega
  alive := by
    rw [alive, counters.alive]
    exact count_congr fun thread _ => and_congr_right fun _ => not_congr (exited thread).symm
  entered bar := by
    have moved := shift.seated (p := .barrier bar) known
    have counted := entered bar
    rw [counters.entered] at counted
    omega
  early := early
  cancelled cond := Nat.le_zero.mp (counters.cancelled cond ▸ cancelled cond)

/-- Nothing that the counters are about changes. -/
structure Untouched (d d' : Determ) : Prop where
  entries : d'.entries = d.entries
  maxthreads : d'.maxthreads = d.maxthreads
  alivethreads : d'.alivethreads = d.alivethreads
  rounds : ∀ bar, (d'.barriers bar).rounds = (d.barriers bar).rounds
  threads : ∀ bar, (d'.barriers bar).threads = (d.barriers bar).threads
  cancelled : ∀ cond, (d'.conds cond).cancelled ≤ (d.conds cond).cancelled

theorem Untouched.refl (d : Determ) : Untouched d d :=
  ⟨rfl, rfl, rfl, fun _ => rfl, fun _ => rfl, fun _ => le_rfl⟩

theorem Untouched.seat (same : Untouched d d') {thread : ℕ} {at_ : Pc} :
    seat d' thread at_ = seat d thread at_ := by
  refine seat_congr ?_ same.rounds
  rw [Determ.status, same.entries, Determ.status]

/-- Every thread stays in its seat. -/
theorem Counters.stay (counters : Counters d pc announced bound) (same : Untouched d d')
    (seats : ∀ thread, Xrun.seat d thread (pc' thread) = Xrun.seat d thread (pc thread))
    (exited : ∀ thread, pc' thread = .exited ↔ pc thread = .exited)
    (early : ∀ thread, announced thread = false → (pc' thread).Early) :
    Counters d' pc' announced bound := by
  have nobody : Shift d d' pc pc' [] none none :=
    ⟨List.nodup_nil, nofun, nofun, fun thread _ => same.seat.trans (seats thread)⟩
  refine counters.shift nobody nofun ?_ same.alivethreads exited ?_ early same.cancelled
  · exact congrArg (· + 0) same.maxthreads
  · exact fun bar => congrArg (· + 0) (same.threads bar)

theorem update_exited {new : Pc} (before : pc me ≠ .exited) (after : new ≠ .exited) (thread : ℕ) :
    Function.update pc me new thread = .exited ↔ pc thread = .exited := by
  by_cases here : thread = me
  · subst here
    rw [Function.update_self]
    exact iff_of_false after before
  · rw [Function.update_of_ne here]

theorem update_early {new : Pc} (counters : Counters d pc announced bound)
    (known : announced me = false → new.Early) (thread : ℕ) (unknown : announced thread = false) :
    (Function.update pc me new thread).Early := by
  by_cases here : thread = me
  · subst here
    rw [Function.update_self]
    exact known unknown
  · rw [Function.update_of_ne here]
    exact counters.early thread unknown

/-! ## One thread in, one thread out -/

/-- Threads that come into the ring are counted. -/
theorem Counters.enter (counters : Counters d pc announced bound)
    (shift : Shift d d' pc pc' threads source (some .ring)) (away : source ≠ some .ring)
    (known : ∀ thread ∈ threads, thread < bound ∧ announced thread = true)
    (few : bound ≤ maxThreads)
    (working : d'.maxthreads = Determ.increased d.maxthreads threads.length)
    (alive : d'.alivethreads = d.alivethreads)
    (exited : ∀ thread, pc' thread = .exited ↔ pc thread = .exited)
    (entered : ∀ bar, (d'.barriers bar).threads + share source (.barrier bar) threads =
      (d.barriers bar).threads)
    (early : ∀ thread, announced thread = false → (pc' thread).Early)
    (cancelled : ∀ cond, (d'.conds cond).cancelled ≤ (d.conds cond).cancelled) :
    Counters d' pc' announced bound := by
  refine counters.shift shift known ?_ alive exited (fun bar => ?_) early cancelled
  · -- there are fewer threads than would make the counter wrap
    have moved := shift.seated (p := .ring) known
    have most : Xrun.seated d' pc' announced .ring bound ≤ bound := Nat.count_le _
    unfold share at moved ⊢
    rw [if_neg away, if_pos rfl] at moved ⊢
    rw [← counters.working] at moved
    have fits : d.maxthreads + threads.length < 2 ^ 64 := by
      unfold maxThreads at few
      omega
    rw [working, Determ.increased_of_lt fits]
    rfl
  · exact entered bar

/-- The thread alone goes to another seat. -/
theorem shift_update {new : Pc} (leave : seat d me (pc me) = source)
    (arrive : seat d' me new = destination)
    (entries : ∀ thread ≠ me, d'.entries thread = d.entries thread)
    (rounds : ∀ bar, (d'.barriers bar).rounds = (d.barriers bar).rounds) :
    Shift d d' pc (Function.update pc me new) [me] source destination where
  nodup := List.nodup_singleton me
  leave thread member := by
    obtain rfl := List.mem_singleton.mp member
    exact leave
  arrive thread member := by
    obtain rfl := List.mem_singleton.mp member
    rw [Function.update_self]
    exact arrive
  same thread other := by
    have different : thread ≠ me := fun here => other (List.mem_singleton.mpr here)
    rw [Function.update_of_ne different]
    exact seat_others entries rounds different

theorem known_self (mine : me < bound ∧ announced me = true) :
    ∀ thread ∈ [me], thread < bound ∧ announced thread = true := by
  intro thread member
  obtain rfl := List.mem_singleton.mp member
  exact mine

/-- A thread that leaves the ring is not counted any more. -/
theorem Counters.leave (counters : Counters d pc announced bound) {new : Pc}
    (mine : me < bound ∧ announced me = true) (plain : (pc me).Plain)
    (arrive : seat d' me new = destination) (away : destination ≠ some .ring)
    (entries : ∀ thread ≠ me, d'.entries thread = d.entries thread)
    (rounds : ∀ bar, (d'.barriers bar).rounds = (d.barriers bar).rounds)
    (working : d'.maxthreads = Determ.decreased d.maxthreads)
    (alive : d'.alivethreads = d.alivethreads) (stays : new ≠ .exited)
    (entered : ∀ bar, (d'.barriers bar).threads =
      (d.barriers bar).threads + share destination (.barrier bar) [me])
    (cancelled : ∀ cond, (d'.conds cond).cancelled ≤ (d.conds cond).cancelled) :
    Counters d' (Function.update pc me new) announced bound := by
  have here : pc me ≠ .exited := by
    intro gone
    rw [gone] at plain
    exact plain.elim
  have positive : 0 < d.maxthreads := by
    rw [counters.working]
    exact count_pos mine.1 ⟨mine.2, seat_of_plain plain⟩
  refine counters.shift (shift_update (seat_of_plain plain) arrive entries rounds)
    (known_self mine) ?_ alive (update_exited here stays) (fun bar => entered bar)
    (update_early counters fun unknown => absurd (unknown.symm.trans mine.2) nofun) cancelled
  unfold share
  rw [if_pos rfl, if_neg away, working, Determ.decreased_of_pos positive, List.length_singleton]
  omega

/-- A thread that goes on in its seat. -/
theorem Counters.go (counters : Counters d pc announced bound) {new : Pc}
    (same : Untouched d d') (seats : seat d me new = seat d me (pc me))
    (stays : new = .exited ↔ pc me = .exited) (known : announced me = false → new.Early) :
    Counters d' (Function.update pc me new) announced bound := by
  refine counters.stay same (fun thread => ?_) (fun thread => ?_) (update_early counters known)
  · by_cases here : thread = me
    · subst here
      rw [Function.update_self]
      exact seats
    · rw [Function.update_of_ne here]
  · by_cases here : thread = me
    · subst here
      rw [Function.update_self]
      exact stays
    · rw [Function.update_of_ne here]

theorem Counters.goPlain (counters : Counters d pc announced bound) {new : Pc}
    (same : Untouched d d') (before : (pc me).Plain) (after : new.Plain)
    (known : announced me = false → new.Early) :
    Counters d' (Function.update pc me new) announced bound := by
  refine counters.go same ((seat_of_plain after).trans (seat_of_plain before).symm) ?_ known
  refine iff_of_false ?_ ?_
  · rintro rfl
    exact after.elim
  · intro gone
    rw [gone] at before
    exact before.elim

/-! ## Sections of `determ` -/

theorem Untouched.trans {d'' : Determ} (first : Untouched d d') (second : Untouched d' d'') :
    Untouched d d'' where
  entries := second.entries.trans first.entries
  maxthreads := second.maxthreads.trans first.maxthreads
  alivethreads := second.alivethreads.trans first.alivethreads
  rounds bar := (second.rounds bar).trans (first.rounds bar)
  threads bar := (second.threads bar).trans (first.threads bar)
  cancelled cond := (second.cancelled cond).trans (first.cancelled cond)

theorem decrFence_counts :
    Untouched { d with maxthreads := Determ.decreased d.maxthreads } d.decrFence := by
  simp only [Determ.decrFence]
  split
  · exact ⟨rfl, rfl, rfl, fun _ => rfl, fun _ => rfl, fun _ => le_rfl⟩
  · exact .refl _

theorem leaveFence_untouched : Untouched d d.leaveFence := by
  simp only [Determ.leaveFence]
  split <;> exact ⟨rfl, rfl, rfl, fun _ => rfl, fun _ => rfl, fun _ => le_rfl⟩

theorem arriveFence_untouched : Untouched d (d.arriveFence me).1 := by
  simp only [Determ.arriveFence]
  split
  · show Untouched d (Determ.leaveFence _)
    refine Untouched.trans ?_ leaveFence_untouched
    exact ⟨rfl, rfl, rfl, fun _ => rfl, fun _ => rfl, fun _ => le_rfl⟩
  · exact ⟨rfl, rfl, rfl, fun _ => rfl, fun _ => rfl, fun _ => le_rfl⟩

/-- The fence itself does not change who is counted. -/
theorem waitFence_untouched {pos : Determ.FencePos} {result : Determ × Option Determ.FencePos}
    (waits : d.waitFence me pos = some result) : Untouched d result.1 := by
  have reset : Untouched d (d.setWait me false) :=
    ⟨rfl, rfl, rfl, fun _ => rfl, fun _ => rfl, fun _ => le_rfl⟩
  cases pos <;> simp only [Determ.waitFence, Option.ite_none_left_eq_some,
    Option.ite_none_right_eq_some, Option.some.injEq] at waits
  case enter =>
    split at waits
    · rw [← Option.some.inj waits]
      exact arriveFence_untouched
    · rw [← Option.some.inj waits]
      exact .refl d
  case spin =>
    rw [← waits.2]
    exact .refl d
  case insideSpin =>
    rw [← waits.2]
    exact reset
  case arrive =>
    rw [← waits]
    exact arriveFence_untouched
  case leave =>
    rw [← waits]
    exact leaveFence_untouched
  case sleep =>
    rw [← waits.2]
    exact arriveFence_untouched
  case insideSleep =>
    rw [← waits.2]
    exact leaveFence_untouched

theorem lockIsowner_untouched {mutex : ℕ} : Untouched d (d.lockIsowner mutex me).1 := by
  unfold Determ.lockIsowner
  split
  · exact .refl d
  · split
    · split
      · exact ⟨rfl, rfl, rfl, fun _ => rfl, fun _ => rfl, fun _ => le_rfl⟩
      · exact .refl d
    · exact .refl d

theorem lockAcquire_untouched {mutex : ℕ} : Untouched d (d.lockAcquire mutex me).1 :=
  ⟨rfl, rfl, rfl, fun _ => rfl, fun _ => rfl, fun _ => le_rfl⟩

theorem lockRelease_untouched {mutex : ℕ} (released : d.lockRelease mutex = some d') :
    Untouched d d' := by
  obtain ⟨entry, -, rfl⟩ := Option.map_eq_some_iff.mp released
  exact ⟨rfl, rfl, rfl, fun _ => rfl, fun _ => rfl, fun _ => le_rfl⟩

theorem setBarrier_untouched {bar : ℕ} {entry : BarrierEntry}
    (rounds : entry.rounds = (d.barriers bar).rounds)
    (threads : entry.threads = (d.barriers bar).threads) :
    Untouched d (d.setBarrier bar entry) := by
  have keeps : ∀ other, ((d.setBarrier bar entry).barriers other).rounds =
      (d.barriers other).rounds ∧ ((d.setBarrier bar entry).barriers other).threads =
        (d.barriers other).threads := by
    intro other
    show (Function.update d.barriers bar entry other).rounds = _ ∧
      (Function.update d.barriers bar entry other).threads = _
    by_cases here : other = bar
    · subst here
      rw [Function.update_self]
      exact ⟨rounds, threads⟩
    · rw [Function.update_of_ne here]
      exact ⟨rfl, rfl⟩
  exact ⟨rfl, rfl, rfl, fun other => (keeps other).1, fun other => (keeps other).2,
    fun _ => le_rfl⟩

theorem realBarrierWait_untouched {bar : ℕ} : Untouched d (d.realBarrierWait bar) := by
  simp only [Determ.realBarrierWait]
  split <;> exact setBarrier_untouched rfl rfl

theorem joinBlock_counts :
    Untouched { d with maxthreads := Determ.decreased d.maxthreads } (d.joinBlock me) := by
  refine Untouched.trans decrFence_counts ?_
  simp only [Determ.joinBlock]
  split
  · exact ⟨rfl, rfl, rfl, fun _ => rfl, fun _ => rfl, fun _ => le_rfl⟩
  · exact .refl _

theorem Untouched.passToken (same : Untouched d d') (token : Option ℕ) :
    Untouched d { d' with tokenpos := token } :=
  ⟨same.entries, same.maxthreads, same.alivethreads, same.rounds, same.threads, same.cancelled⟩

theorem condWait_counts (cond : ℕ) :
    Untouched { d with
      maxthreads := Determ.decreased d.maxthreads
      entries := (d.setStatus me .condWaiting).entries } (d.condWait me cond) := by
  unfold Determ.condWait
  refine Untouched.trans ?_ (decrFence_counts.passToken _)
  refine ⟨rfl, rfl, rfl, fun _ => rfl, fun _ => rfl, fun other => ?_⟩
  show (Function.update d.conds cond _ other).cancelled ≤ _
  by_cases here : other = cond
  · subst here
    rw [Function.update_self]
    exact le_rfl
  · rw [Function.update_of_ne here]

theorem sigWait_counts :
    Untouched { d with maxthreads := Determ.decreased d.maxthreads } (d.sigWait me) := by
  unfold Determ.sigWait
  refine Untouched.trans ?_ (decrFence_counts.passToken _)
  exact ⟨rfl, rfl, rfl, fun _ => rfl, fun _ => rfl, fun _ => le_rfl⟩

theorem insertBehindToken_untouched : Untouched d (d.insertBehindToken me) := by
  unfold Determ.insertBehindToken
  split
  · exact ⟨rfl, rfl, rfl, fun _ => rfl, fun _ => rfl, fun _ => le_rfl⟩
  · exact .refl d

theorem sigWaitWoken_counts :
    Untouched { d with maxthreads := Determ.increased d.maxthreads 1 } (d.sigWaitWoken me) := by
  unfold Determ.sigWaitWoken
  split
  · exact ⟨rfl, rfl, rfl, fun _ => rfl, fun _ => rfl, fun _ => le_rfl⟩
  · have same : Untouched d (d.insertBehindToken me) := insertBehindToken_untouched
    exact ⟨same.entries, congrArg (Determ.increased · 1) same.maxthreads, same.alivethreads,
      same.rounds, same.threads, same.cancelled⟩

/-! ## Calls that leave the ring and come back -/

/-- `cond_wait` -/
theorem Counters.condWait (counters : Counters d pc announced bound)
    (mine : me < bound ∧ announced me = true) (plain : (pc me).Plain) (cond mutex : ℕ) :
    Counters (d.condWait me cond) (Function.update pc me (.condWaiting cond mutex)) announced
      bound := by
  have counts : Untouched _ (d.condWait me cond) := condWait_counts cond
  have asleep : (d.condWait me cond).status me = .condWaiting := by
    rw [Determ.status, counts.entries]
    exact setStatus_status_self
  have there : seat (d.condWait me cond) me (.condWaiting cond mutex) = some (.cond cond) := by
    refine if_neg ?_
    rw [asleep]
    decide
  refine counters.leave mine plain there (by simp) (fun thread different => ?_) counts.rounds
    counts.maxthreads counts.alivethreads (by simp) counts.threads counts.cancelled
  rw [counts.entries]
  exact setStatus_entries_of_ne different

/-- `sig_wait` -/
theorem Counters.sigWait (counters : Counters d pc announced bound)
    (mine : me < bound ∧ announced me = true) (plain : (pc me).Plain) :
    Counters (d.sigWait me) (Function.update pc me .sigWaiting) announced bound := by
  have counts : Untouched _ (d.sigWait me) := sigWait_counts
  have there : seat (d.sigWait me) me .sigWaiting = none := rfl
  exact counters.leave mine plain there nofun (fun thread _ => congrFun counts.entries thread)
    counts.rounds counts.maxthreads counts.alivethreads nofun counts.threads counts.cancelled

/-- A thread that counts itself in. -/
theorem Counters.comeBack (counters : Counters d pc announced bound) {new : Pc}
    (mine : me < bound ∧ announced me = true) (few : bound ≤ maxThreads)
    (away : seat d me (pc me) = none) (stays : pc me ≠ .exited) (plain : new.Plain)
    (entries : ∀ thread ≠ me, d'.entries thread = d.entries thread)
    (counts : Untouched
      { d with maxthreads := Determ.increased d.maxthreads 1, entries := d'.entries } d') :
    Counters d' (Function.update pc me new) announced bound := by
  refine counters.enter (shift_update away (seat_of_plain plain) entries counts.rounds) nofun
    (known_self mine) few counts.maxthreads counts.alivethreads (update_exited stays ?_)
    counts.threads (update_early counters fun unknown => absurd (unknown.symm.trans mine.2) nofun)
    counts.cancelled
  rintro rfl
  exact plain.elim

/-- `sig_wait` after `sigwait` -/
theorem Counters.sigWaitWoken (counters : Counters d pc announced bound)
    (mine : me < bound ∧ announced me = true) (few : bound ≤ maxThreads)
    (asleep : pc me = .sigWaiting) :
    Counters (d.sigWaitWoken me) (Function.update pc me .user) announced bound := by
  have counts : Untouched _ (d.sigWaitWoken me) := sigWaitWoken_counts
  refine counters.comeBack mine few (by rw [asleep]; rfl) (by simp [asleep]) trivial
    (fun thread _ => congrFun counts.entries thread) ?_
  exact ⟨rfl, counts.maxthreads, counts.alivethreads, counts.rounds, counts.threads,
    counts.cancelled⟩

/-- The first section of `join`. -/
theorem Counters.joinSection (counters : Counters d pc announced bound)
    (mine : me < bound ∧ announced me = true) (plain : (pc me).Plain) (guest : ℕ) :
    Counters (d.join guest me).1 (Function.update pc me
      (if (d.join guest me).2 then .joinWait guest else .putToken .joined)) announced bound := by
  have known : announced me = false → (Pc.putToken .joined).Early :=
    fun unknown => absurd (unknown.symm.trans mine.2) nofun
  unfold Determ.join
  split
  · -- blocked: the joiner has left the ring
    have counts : Untouched _ (Determ.joinBlock _ me) := joinBlock_counts (d :=
      { d.deactivate me with
        entries := Function.update d.entries me
          { d.entries me with status := .joining, joineeThreadIndex := guest } })
    have there : ∀ d', seat d' me (.joinWait guest) = none := fun _ => rfl
    refine counters.leave mine plain (there _) nofun (fun thread different => ?_) counts.rounds
      counts.maxthreads counts.alivethreads nofun counts.threads counts.cancelled
    exact (congrFun counts.entries thread).trans (Function.update_of_ne different _ _)
  · -- the joinee is gone: the joiner goes on, ready
    have ready : Counters (d.setStatus me .ready) pc announced bound := by
      have nobody : Shift d (d.setStatus me .ready) pc pc [] none none := by
        refine ⟨List.nodup_nil, nofun, nofun, fun thread _ => ?_⟩
        by_cases here : thread = me
        · subst here
          rw [seat_of_plain plain, seat_of_plain plain]
        · exact seat_others (fun _ different => setStatus_entries_of_ne different) (fun _ => rfl)
            here
      exact counters.shift nobody nofun rfl rfl (fun _ => Iff.rfl) (fun _ => rfl) counters.early
        fun _ => le_rfl
    exact ready.goPlain (.refl _) plain trivial known

/-- The section of `join` after its wait. -/
theorem Counters.joinWokenSection (counters : Counters d pc announced bound)
    (mine : me < bound ∧ announced me = true) (few : bound ≤ maxThreads) {guest : ℕ}
    (waits : pc me = .joinWait guest) : Counters (d.joinWoken guest me).1 (Function.update pc me
      (if (d.joinWoken guest me).2 then .joinWait guest else .joinToken)) announced bound := by
  have away : seat d me (pc me) = none := by rw [waits]; rfl
  have stays : pc me ≠ .exited := by simp [waits]
  unfold Determ.joinWoken
  dsimp only
  split
  · -- still alive: counted in and out again
    have counts : Untouched _ ((d.incrFence 1).joinBlock me) := joinBlock_counts
    have most : d.maxthreads ≤ bound := counters.working ▸ Nat.count_le _
    have unchanged : Determ.decreased (Determ.increased d.maxthreads 1) = d.maxthreads := by
      unfold maxThreads at few
      rw [Determ.increased_of_lt (by omega), Determ.decreased_of_pos (Nat.succ_pos _)]
      rfl
    refine counters.go ⟨counts.entries, counts.maxthreads.trans unchanged, counts.alivethreads,
      counts.rounds, counts.threads, counts.cancelled⟩ ?_ ?_ fun unknown => ?_
    · exact away.symm
    · exact iff_of_false nofun stays
    · exact absurd (unknown.symm.trans mine.2) nofun
  · have plain : Pc.joinToken.Plain := trivial
    refine counters.comeBack mine few away stays plain ?_ ?_
    · exact fun thread different => setStatus_entries_of_ne (d := d.incrFence 1) different
    · exact ⟨rfl, rfl, rfl, fun _ => rfl, fun _ => rfl, fun _ => le_rfl⟩

/-- A thread that is there and not early is known to the fence. -/
theorem Counters.known (counters : Counters d pc announced bound)
    (fresh : ∀ thread, pc thread = .absent ↔ bound ≤ thread) (thread : ℕ)
    (late : ¬(pc thread).Early) : thread < bound ∧ announced thread = true := by
  constructor
  · by_contra beyond
    rw [(fresh thread).mpr (Nat.le_of_not_lt beyond)] at late
    exact late trivial
  · by_contra unknown
    exact late (counters.early thread (Bool.not_eq_true _ ▸ unknown))

/-- Waiters of a condition variable are woken up and counted. -/
theorem Counters.wake (counters : Counters d pc announced bound)
    (inv : RingInv d pc bound lists) (few : bound ≤ maxThreads) {cond : ℕ}
    (woken : Woken d d' threads) (nodup : threads.Nodup)
    (waiting : ∀ thread ∈ threads, thread ∈ lists (.cond cond))
    (working : d'.maxthreads = Determ.increased d.maxthreads threads.length)
    (alive : d'.alivethreads = d.alivethreads)
    (entered : ∀ bar, (d'.barriers bar).threads = (d.barriers bar).threads)
    (cancelled : ∀ c, (d'.conds c).cancelled ≤ (d.conds c).cancelled) :
    Counters d' pc announced bound := by
  have waits : ∀ thread ∈ threads, ∃ mutex, pc thread = .condWaiting cond mutex :=
    fun thread member => (inv.waits (waiting thread member)).1
  have awake : ∀ thread ∈ threads, ∀ guest, pc thread ≠ .joinWait guest := by
    intro thread member guest joins
    obtain ⟨mutex, at_⟩ := waits thread member
    rw [at_] at joins
    cases joins
  have shift : Shift d d' pc pc threads (some (.cond cond)) (some .ring) := by
    refine ⟨nodup, fun thread member => ?_, fun thread member => ?_, fun thread other => ?_⟩
    · rw [seat_eq_place (awake thread member)]
      exact (inv.placed _ _).mp (waiting thread member)
    · rw [seat_eq_place (awake thread member), inv.place_woken woken waiting, if_pos member]
    · refine seat_congr ?_ woken.rounds
      rw [Determ.status, woken.entries, if_neg other, Determ.status]
  refine counters.enter shift (by simp) (fun thread member => ?_) few working alive
    (fun _ => Iff.rfl) entered counters.early cancelled
  obtain ⟨mutex, at_⟩ := waits thread member
  exact counters.known inv.fresh thread (by rw [at_]; exact id)

theorem cancelled_setCond {cond : ℕ} {entry : CondEntry}
    (fewer : entry.cancelled ≤ (d.conds cond).cancelled) (other : ℕ) :
    ((d.setCond cond entry).conds other).cancelled ≤ (d.conds other).cancelled := by
  show (Function.update d.conds cond entry other).cancelled ≤ _
  by_cases here : other = cond
  · subst here
    rwa [Function.update_self]
  · rw [Function.update_of_ne here]

/-- `cond_signal` -/
theorem Counters.condSignal (counters : Counters d pc announced bound)
    (inv : RingInv d pc bound lists) (few : bound ≤ maxThreads) (plain : (pc me).Plain)
    (cond : ℕ) : Counters (d.condSignal cond) pc announced bound := by
  obtain ⟨token, -, here⟩ := inv.token me (inv.inRing plain)
  cases queue : lists (.cond cond) with
  | nil =>
    rwa [(inv.queue_nil queue).1]
  | cons entry rest =>
    obtain ⟨first, somebody, -, -⟩ := inv.queue_cons queue
    have woken := condSignal_woken here first somebody
    have waiting : ∀ thread ∈ [entry], thread ∈ lists (.cond cond) := by
      intro thread member
      rw [List.mem_singleton.mp member, queue]
      exact List.mem_cons_self
    refine counters.wake inv few woken (List.nodup_singleton entry) waiting ?_ ?_ ?_ ?_
    · rw [condSignal_first here first somebody]
      rfl
    · rw [condSignal_first here first somebody]
      rfl
    · rw [condSignal_first here first somebody]
      exact fun _ => rfl
    · rw [condSignal_first here first somebody]
      exact cancelled_setCond (d := { d with links := _ }) le_rfl

/-- `cond_broadcast` -/
theorem Counters.condBroadcast (counters : Counters d pc announced bound)
    (inv : RingInv d pc bound lists) (few : bound ≤ maxThreads) (plain : (pc me).Plain)
    (cond : ℕ) : Counters (d.condBroadcast cond) pc announced bound := by
  obtain ⟨token, -, here⟩ := inv.token me (inv.inRing plain)
  cases queue : lists (.cond cond) with
  | nil =>
    rwa [(inv.queue_nil queue).2]
  | cons entry rest =>
    obtain ⟨first, somebody, ring, -⟩ := inv.queue_cons queue
    -- nobody was cancelled, so the counter counts the queue
    have count : (d.conds cond).waiters = (entry :: rest).length := by
      rw [inv.waiters, queue, counters.cancelled]
      rfl
    have woken := condBroadcast_woken here first somebody ring count.ge
    obtain ⟨entries, broadcast, -⟩ := condBroadcast_first here first somebody
    have nodup : (entry :: rest).Nodup := ring.nodup
    refine counters.wake inv few woken nodup (fun thread member => queue ▸ member) ?_ ?_ ?_ ?_
    · rw [broadcast, ← count]
      rfl
    · rw [broadcast]
      rfl
    · rw [broadcast]
      exact fun _ => rfl
    · rw [broadcast]
      exact cancelled_setCond (d := { d with links := _ }) (Nat.zero_le _)

/-! ## Barriers -/

/-- The threads of a barrier's list are those that it counts. -/
theorem Counters.length_barrier (counters : Counters d pc announced bound)
    (inv : RingInv d pc bound lists) (bar : ℕ) :
    (d.barriers bar).threads = (lists (.barrier bar)).length := by
  have nodup := (inv.family.list (.barrier bar)).ring.nodup
  have late : ∀ thread ∈ lists (.barrier bar), ¬(pc thread).Early ∧
      seat d thread (pc thread) = some (.barrier bar) := by
    intro thread member
    have there := (inv.placed _ _).mp member
    rcases inBarrier_of_place there with at_ | ⟨released, at_⟩ <;> rw [at_] at there ⊢
    · exact ⟨id, there⟩
    · exact ⟨id, there⟩
  have known : ∀ thread ∈ lists (.barrier bar), thread < bound ∧ announced thread = true :=
    fun thread member => counters.known inv.fresh thread (late thread member).1
  rw [counters.entered, ← count_mem nodup fun thread member => (known thread member).1]
  refine count_congr fun thread _ => ?_
  constructor
  · rintro ⟨-, there⟩
    rw [inv.placed]
    cases at_ : pc thread with
    | joinWait guest =>
      rw [at_] at there
      cases there
    | _ =>
      rw [at_] at there
      exact there
  · exact fun member => ⟨(known thread member).2, (late thread member).2⟩

/-- The last thread of a barrier counts the others in. -/
theorem Counters.barrierLast (counters : Counters d pc announced bound)
    (inv : RingInv d pc bound lists) (few : bound ≤ maxThreads)
    (mine : announced me = true) (plain : (pc me).Plain) {bar : ℕ}
    (last : (d.barriers bar).threads + 1 = (d.barriers bar).maxthreads) :
    Counters (d.barrierWait bar me)
      (Function.update pc me (.barrierEnter bar (d.barriers bar).rounds)) announced bound := by
  obtain ⟨token, -, here⟩ := inv.token me (inv.inRing plain)
  have result := barrierWait_last me here last
  have rounds := barrierWait_rounds me here last
  have entries : (d.barrierWait bar me).entries = d.entries := by
    rw [result]
    rfl
  have count : (d.barriers bar).maxthreads - 1 = (lists (.barrier bar)).length := by
    rw [← counters.length_barrier inv, ← last]
    rfl
  have outside : me ∉ lists (.barrier bar) := by
    intro member
    have ring := inv.family.apart _ _ me (inv.inRing plain) member
    cases ring
  have inside :
      ∀ thread ∈ lists (.barrier bar), (pc thread).InBarrier bar (d.barriers bar).rounds :=
    fun thread member => inBarrier_of_place ((inv.placed _ _).mp member)
  have awake : ∀ thread ∈ lists (.barrier bar), ∀ guest, pc thread ≠ .joinWait guest := by
    intro thread member guest joins
    rcases inside thread member with at_ | ⟨released, at_⟩ <;> rw [joins] at at_ <;> cases at_
  have completed : ∀ thread, place (d.barrierWait bar me) thread (pc thread) =
      if place d thread (pc thread) = some (.barrier bar) then some .ring
      else place d thread (pc thread) :=
    fun thread => place_completed entries rounds (inv.rounds thread)
  have shift : Shift d (d.barrierWait bar me) pc
      (Function.update pc me (.barrierEnter bar (d.barriers bar).rounds)) (lists (.barrier bar))
      (some (.barrier bar)) (some .ring) := by
    refine ⟨(inv.family.list _).ring.nodup, fun thread member => ?_, fun thread member => ?_,
      fun thread other => ?_⟩
    · rw [seat_eq_place (awake thread member)]
      exact (inv.placed _ _).mp member
    · have different : thread ≠ me := fun same => outside (same ▸ member)
      rw [Function.update_of_ne different, seat_eq_place (awake thread member), completed,
        if_pos ((inv.placed _ _).mp member)]
    · by_cases same : thread = me
      · -- the round of the last thread is over before it enters
        subst same
        rw [Function.update_self, seat_of_plain plain]
        refine if_neg ?_
        rw [rounds, if_pos rfl]
        exact (Nat.lt_succ_self _).ne'
      · rw [Function.update_of_ne same]
        cases at_ : pc thread with
        | joinWait guest => rfl
        | _ =>
          have unmoved := completed thread
          rw [if_neg (fun there => other ((inv.placed _ _).mpr there)), at_] at unmoved
          exact unmoved
  refine counters.enter shift nofun (fun thread member => ?_) few ?_ ?_ ?_ (fun b => ?_) ?_ ?_
  · refine counters.known inv.fresh thread ?_
    rcases inside thread member with at_ | ⟨released, at_⟩ <;> rw [at_] <;> exact id
  · rw [← count, result]
    rfl
  · rw [result]
    rfl
  · refine update_exited ?_ nofun
    intro gone
    rw [gone] at plain
    exact plain.elim
  · rw [result]
    show (Function.update d.barriers bar _ b).threads + _ = _
    unfold share
    by_cases same : b = bar
    · subst same
      rw [Function.update_self, if_pos rfl, counters.length_barrier inv]
      exact Nat.zero_add _
    · rw [Function.update_of_ne same, if_neg]
      · rfl
      · exact fun eq => same (Place.barrier.inj (Option.some.inj eq)).symm
  · exact update_early counters fun unknown => absurd (unknown.symm.trans mine) nofun
  · rw [result]
    exact fun _ => le_rfl

theorem barrierWait_counts {bar : ℕ}
    (early : (d.barriers bar).threads + 1 ≠ (d.barriers bar).maxthreads) :
    Untouched { d with
      maxthreads := Determ.decreased d.maxthreads
      entries := (d.setStatus me .barrWaiting).entries
      barriers := Function.update d.barriers bar
        { d.barriers bar with threads := (d.barriers bar).threads + 1 } }
        (d.barrierWait bar me) := by
  simp only [Determ.barrierWait, if_neg early]
  refine Untouched.trans ?_ (decrFence_counts.passToken _)
  refine ⟨rfl, rfl, rfl, fun b => ?_, fun b => ?_, fun _ => le_rfl⟩
  · show (Function.update d.barriers bar _ b).rounds = (Function.update d.barriers bar _ b).rounds
    by_cases same : b = bar
    · subst same
      simp only [Function.update_self]
    · simp only [Function.update_of_ne same]
  · show (Function.update d.barriers bar _ b).threads = (Function.update d.barriers bar _ b).threads
    by_cases same : b = bar
    · subst same
      simp only [Function.update_self]
    · simp only [Function.update_of_ne same]

/-- Any other thread leaves the ring for the barrier's list. -/
theorem Counters.barrierEarly (counters : Counters d pc announced bound)
    (mine : me < bound ∧ announced me = true) (plain : (pc me).Plain) {bar : ℕ}
    (early : (d.barriers bar).threads + 1 ≠ (d.barriers bar).maxthreads) :
    Counters (d.barrierWait bar me)
      (Function.update pc me (.barrierEnter bar (d.barriers bar).rounds)) announced bound := by
  have counts : Untouched _ (d.barrierWait bar me) := barrierWait_counts early
  have rounds : ∀ b, ((d.barrierWait bar me).barriers b).rounds = (d.barriers b).rounds := by
    intro b
    rw [counts.rounds]
    by_cases same : b = bar
    · subst same
      simp only [Function.update_self]
    · simp only [Function.update_of_ne same]
  have there : seat (d.barrierWait bar me) me (.barrierEnter bar (d.barriers bar).rounds) =
      some (.barrier bar) := if_pos (rounds bar)
  refine counters.leave mine plain there nofun
    (fun thread different => ?_) rounds counts.maxthreads counts.alivethreads nofun (fun b => ?_)
    counts.cancelled
  · rw [counts.entries]
    exact setStatus_entries_of_ne different
  · rw [counts.threads]
    unfold share
    by_cases same : b = bar
    · subst same
      simp only [Function.update_self, if_pos, List.length_singleton]
    · have other : ¬some (Place.barrier bar) = some (.barrier b) :=
        fun eq => same (Place.barrier.inj (Option.some.inj eq)).symm
      simp only [Function.update_of_ne same, if_neg other, Nat.add_zero]

theorem Counters.barrierWait (counters : Counters d pc announced bound)
    (inv : RingInv d pc bound lists) (few : bound ≤ maxThreads)
    (mine : me < bound ∧ announced me = true) (plain : (pc me).Plain) (bar : ℕ) :
    Counters (d.barrierWait bar me)
      (Function.update pc me (.barrierEnter bar (d.barriers bar).rounds)) announced bound := by
  by_cases last : (d.barriers bar).threads + 1 = (d.barriers bar).maxthreads
  · exact counters.barrierLast inv few mine.2 plain last
  · exact counters.barrierEarly mine plain last

/-! ## Exit, registration and announcement -/

theorem deregisterThread_counts (alive : 0 < d.alivethreads) :
    Untouched { d with
      maxthreads := Determ.decreased d.maxthreads
      alivethreads := d.alivethreads - 1
      entries := (d.setStatus me .exit).entries } (d.deregisterThread me) := by
  -- whether the creator is put behind the token or not
  have woken : ∀ parent, Untouched d (if d.status parent = .joining ∧
      (d.entries parent).joineeThreadIndex = me then d.insertBehindToken parent else d) := by
    intro parent
    split
    · exact insertBehindToken_untouched
    · exact .refl d
  have counts : ∀ {d₁ : Determ} (token : Option ℕ), Untouched d d₁ →
      Untouched { d with
          maxthreads := Determ.decreased d.maxthreads
          alivethreads := d.alivethreads - 1
          entries := (d.setStatus me .exit).entries }
        { ((if 0 < d₁.alivethreads then
            Determ.decrFence { d₁ with alivethreads := d₁.alivethreads - 1 } else d₁).deactivate
          me).setStatus me .exit with tokenpos := token } := by
    intro d₁ token same
    rw [if_pos (same.alivethreads ▸ alive)]
    have lowered : Untouched _ (Determ.decrFence { d₁ with alivethreads := d₁.alivethreads - 1 }) :=
      decrFence_counts
    refine ⟨?_, lowered.maxthreads.trans (congrArg Determ.decreased same.maxthreads),
      lowered.alivethreads.trans (congrArg (· - 1) same.alivethreads),
      fun bar => (lowered.rounds bar).trans (same.rounds bar),
      fun bar => (lowered.threads bar).trans (same.threads bar),
      fun cond => (lowered.cancelled cond).trans (same.cancelled cond)⟩
    show Function.update _ me _ = Function.update d.entries me _
    have entries : (Determ.decrFence { d₁ with alivethreads := d₁.alivethreads - 1 }).entries =
        d.entries := lowered.entries.trans same.entries
    simp only [Determ.deactivate, entries]
  exact counts _ (woken _)

/-- An exit is counted by both counters. -/
theorem Counters.deregisterThread (counters : Counters d pc announced bound)
    (mine : me < bound ∧ announced me = true) (plain : (pc me).Plain) :
    Counters (d.deregisterThread me) (Function.update pc me .exited) announced bound := by
  have stays : pc me ≠ .exited := by
    intro gone
    rw [gone] at plain
    exact plain.elim
  -- The thread that leaves is counted by both counters, so neither is 0.
  have alive : 0 < d.alivethreads := by
    rw [counters.alive]
    exact count_pos mine.1 ⟨mine.2, stays⟩
  have working : 0 < d.maxthreads := by
    rw [counters.working]
    exact count_pos mine.1 ⟨mine.2, seat_of_plain plain⟩
  -- The rest of `deregisterThread`, on the lists and the fence, is not counted.
  have counts : Untouched _ (d.deregisterThread me) := deregisterThread_counts alive
  have shift : Shift d (d.deregisterThread me) pc (Function.update pc me .exited) [me]
      (some .ring) none := by
    refine shift_update (seat_of_plain plain) rfl (fun thread different => ?_) counts.rounds
    rw [counts.entries]
    exact setStatus_entries_of_ne different
  refine ⟨?_, ?_, fun bar => ?_, ?_, fun cond => ?_⟩
  · -- The ring has lost a seat, and `maxthreads` goes down by one.
    have moved := shift.seated (p := .ring) (known_self mine)
    rw [← counters.working] at moved
    change _ + 1 = _ + 0 at moved
    rw [counts.maxthreads]
    show Determ.decreased d.maxthreads = _
    rw [Determ.decreased_of_pos working]
    omega
  · -- The only thread that is alive before and not after is `me`.
    have gone : living pc announced bound =
        living (Function.update pc me .exited) announced bound + [me].length := by
      refine count_gain (List.nodup_singleton me) (fun thread member =>
        (known_self mine thread member).1)
        (fun thread _ => ?_) fun thread member there => ?_
      · by_cases here : thread = me
        · subst here
          exact iff_of_true ⟨mine.2, stays⟩ (.inr List.mem_cons_self)
        · rw [Function.update_of_ne here]
          simp only [List.mem_singleton, here, or_false]
      · obtain rfl := List.mem_singleton.mp member
        rw [Function.update_self] at there
        exact there.2 rfl
    rw [counts.alivethreads, ← Nat.add_sub_cancel (living _ announced bound) 1]
    show d.alivethreads - 1 = _
    rw [counters.alive, gone]
    rfl
  · have moved := shift.seated (p := .barrier bar) (known_self mine)
    rw [← counters.entered] at moved
    exact (counts.threads bar).trans moved.symm
  · -- Who is not announced is not `me`, and keeps its place.
    exact update_early counters fun unknown => absurd (unknown.symm.trans mine.2) nofun
  · exact Nat.le_zero.mp (counters.cancelled cond ▸ counts.cancelled cond)

/-- A new thread is not counted. -/
theorem Counters.registerThread (counters : Counters d pc announced bound) (parent : ℕ) :
    Counters (d.registerThread bound parent) (Function.update pc bound .registered)
      (Function.update announced bound false) (bound + 1) := by
  have unknown : ¬Function.update announced bound false bound = true := by
    rw [Function.update_self]
    nofun
  have entries : ∀ thread ≠ bound, (d.registerThread bound parent).entries thread =
      d.entries thread := fun thread different => Function.update_of_ne different _ _
  have seats : ∀ p, seated (d.registerThread bound parent) (Function.update pc bound .registered)
      (Function.update announced bound false) p (bound + 1) = seated d pc announced p bound := by
    intro p
    unfold seated
    rw [Nat.count_succ, if_neg fun both => unknown both.1]
    refine count_congr fun thread below => ?_
    have different : thread ≠ bound := below.ne
    rw [Function.update_of_ne different, Function.update_of_ne different,
      seat_others entries (fun _ => rfl) different]
  refine ⟨counters.working.trans (seats .ring).symm, counters.alive.trans ?_,
    fun bar => (counters.entered bar).trans (seats (.barrier bar)).symm, fun thread early => ?_,
    counters.cancelled⟩
  · unfold living
    rw [Nat.count_succ, if_neg fun both => unknown both.1]
    refine count_congr fun thread below => ?_
    rw [Function.update_of_ne below.ne, Function.update_of_ne below.ne]
  · by_cases here : thread = bound
    · subst here
      rw [Function.update_self]
      trivial
    · rw [Function.update_of_ne here] at early ⊢
      exact counters.early thread early

/-- A child of `parent` that no `startFence` has counted. -/
def Unannounced (d : Determ) (pc : ℕ → Pc) (announced : ℕ → Bool) (parent thread : ℕ) : Prop :=
  announced thread = false ∧ (d.entries thread).tidParent = parent ∧ pc thread ≠ .absent

instance (d : Determ) (pc : ℕ → Pc) (announced : ℕ → Bool) (parent : ℕ) :
    DecidablePred (Unannounced d pc announced parent) :=
  fun _ => inferInstanceAs (Decidable (_ ∧ _))

/-- `startFence` with as many threads as there are children to count. -/
theorem Counters.startFence (counters : Counters d pc announced bound) (me : ℕ)
    (few : bound ≤ maxThreads) {announced' : ℕ → Bool}
    (announces : ∀ thread, announced' thread = true ↔
      announced thread = true ∨ Unannounced d pc announced me thread) :
    Counters (d.startFence (Nat.count (Unannounced d pc announced me) bound)) pc announced'
      bound := by
  -- A child that is not announced has not waited for anything: its seat is in the ring.
  have plain : ∀ thread, Unannounced d pc announced me thread → (pc thread).Plain :=
    fun thread child => (counters.early thread child.1).present_plain child.2.2
  -- Nobody is counted twice.
  have apart : ∀ thread, announced thread = true → ¬Unannounced d pc announced me thread :=
    fun thread known child => absurd (known.symm.trans child.1) nofun
  have working : seated d pc announced' .ring bound =
      seated d pc announced .ring bound + Nat.count (Unannounced d pc announced me) bound := by
    refine count_or (fun thread _ => ?_) fun thread _ there => apart thread there.1
    rw [announces]
    constructor
    · rintro ⟨known | child, there⟩
      · exact .inl ⟨known, there⟩
      · exact .inr child
    · rintro (⟨known, there⟩ | child)
      · exact ⟨.inl known, there⟩
      · exact ⟨.inr child, seat_of_plain (plain thread child)⟩
  have alive : living pc announced' bound =
      living pc announced bound + Nat.count (Unannounced d pc announced me) bound := by
    refine count_or (fun thread _ => ?_) fun thread _ there => apart thread there.1
    rw [announces]
    constructor
    · rintro ⟨known | child, there⟩
      · exact .inl ⟨known, there⟩
      · exact .inr child
    · rintro (⟨known, there⟩ | child)
      · exact ⟨.inl known, there⟩
      · refine ⟨.inr child, fun gone => ?_⟩
        have here := plain thread child
        rw [gone] at here
        exact here.elim
  -- There are no more threads than the counters hold, so neither of them wraps.
  have most : seated d pc announced' .ring bound ≤ bound := Nat.count_le _
  have most' : living pc announced' bound ≤ bound := Nat.count_le _
  unfold maxThreads at few
  refine ⟨?_, ?_, fun bar => ?_, fun thread unknown => ?_, counters.cancelled⟩
  · show Determ.increased d.maxthreads _ = seated d pc announced' .ring bound
    rw [Determ.increased_of_lt (by rw [counters.working]; omega), working, counters.working]
  · show Determ.increased d.alivethreads _ = _
    rw [Determ.increased_of_lt (by rw [counters.alive]; omega), alive, counters.alive]
  · refine (counters.entered bar).trans (count_congr fun thread _ => ?_)
    rw [announces]
    constructor
    · exact fun both => ⟨.inl both.1, both.2⟩
    · -- The new ones are in the ring, not at a barrier.
      rintro ⟨known | child, there⟩
      · exact ⟨known, there⟩
      · change seat d thread (pc thread) = _ at there
        rw [seat_of_plain (plain thread child)] at there
        cases there
  · refine counters.early thread ?_
    by_contra known
    have still := (announces thread).mpr (.inl (Bool.not_eq_false _ ▸ known))
    rw [unknown] at still
    cases still

/-! ## One step -/

/-- The section that needs the token, unless it starts the fence. -/
theorem Counters.perform (counters : Counters d pc announced bound)
    (inv : RingInv d pc bound lists) (few : bound ≤ maxThreads) {t : Thread} {work : Work}
    (at_ : pc me = .work work) (noCancel : ∀ target, work ≠ .cancel target)
    (noStart : (Pc.work work).StartsFence t.fenceEnabled = false) :
    Counters (Xrun.perform d t me work).1
      (Function.update pc me (Xrun.perform d t me work).2.pc) announced bound := by
  have plain : (pc me).Plain := by
    rw [at_]
    trivial
  have mine := counters.known inv.fresh me (by rw [at_]; exact id)
  have late : ∀ {new : Pc}, announced me = false → new.Early :=
    fun unknown => absurd (unknown.symm.trans mine.2) nofun
  cases work with
  | spawn => exact counters.goPlain (.refl d) plain trivial late
  | join guest =>
    have on : t.fenceEnabled = true := by simpa [Pc.StartsFence] using noStart
    simp only [Xrun.perform, if_pos on]
    exact counters.joinSection mine plain guest
  | lock mutex =>
    exact counters.goPlain lockAcquire_untouched plain (pc_ite_plain trivial trivial) late
  | signal cond =>
    exact (counters.condSignal inv few plain cond).goPlain (.refl _) plain signalled_plain late
  | broadcast cond =>
    exact (counters.condBroadcast inv few plain cond).goPlain (.refl _) plain signalled_plain late
  | barrier bar => exact counters.barrierWait inv few mine plain bar
  | sigWait => exact counters.sigWait mine plain
  | cancel target => exact absurd rfl (noCancel target)
  | exit => exact counters.deregisterThread mine plain

/-- A thread that leaves the barrier after its round is complete. -/
theorem Counters.leaveBarrier (counters : Counters d pc announced bound)
    (inv : RingInv d pc bound lists) (same : Untouched d d') {bar round : ℕ}
    (inBarrier : (pc me).InBarrier bar round) (complete : (d.barriers bar).rounds ≠ round) :
    Counters d' (Function.update pc me .user) announced bound := by
  have active : seat d me (pc me) = some .ring := by
    rcases inBarrier with at_ | ⟨released, at_⟩
    · rw [at_]
      exact if_neg complete
    · rw [at_]
      exact if_neg complete
  have stays : pc me ≠ .exited := by
    rcases inBarrier with at_ | ⟨released, at_⟩ <;> simp [at_]
  refine counters.go same active.symm (iff_of_false nofun stays) fun unknown => ?_
  have known := counters.known inv.fresh me (by
    rcases inBarrier with at_ | ⟨released, at_⟩ <;> rw [at_] <;> exact id)
  exact absurd (unknown.symm.trans known.2) nofun

/-- The next step of a call, unless it starts the fence. -/
theorem Counters.exec (counters : Counters s.determ s.pc announced bound)
    (inv : RingInv s.determ s.pc bound lists) (few : bound ≤ maxThreads)
    {result : Determ × Thread} (keeps : KeepsRing s (.exec me))
    (noCancel : ∀ target, s.pc me ≠ .work (.cancel target))
    (noStart : (s.pc me).StartsFence (s.thread me).fenceEnabled = false)
    (move : Xrun.exec s.determ (s.thread me) me = some result) :
    Counters result.1 (Function.update s.pc me result.2.pc) announced bound := by
  -- a thread that is not early is known to the fence
  have known : ∀ {pc}, (s.thread me).pc = pc → ¬pc.Early → me < bound ∧ announced me = true :=
    fun {pc} at_ late => counters.known inv.fresh me
      (by change ¬(s.thread me).pc.Early; rwa [at_])
  have stay : ∀ {pc}, (s.thread me).pc = pc → ¬pc.Early → pc.Plain →
      Untouched s.determ result.1 → result.2.pc.Plain →
      Counters result.1 (Function.update s.pc me result.2.pc) announced bound := by
    rintro pc at_ late plain same after
    refine counters.goPlain same ?_ after fun unknown => ?_
    · change (s.thread me).pc.Plain
      rwa [at_]
    · exact absurd (unknown.symm.trans (known at_ late).2) (by simp)
  have idle := Untouched.refl s.determ
  have flag : ∀ b, Untouched s.determ { s.determ with childregistered := b } :=
    fun b => ⟨rfl, rfl, rfl, fun _ => rfl, fun _ => rfl, fun _ => le_rfl⟩
  unfold Xrun.exec at move
  cases at_ : (s.thread me).pc with
  | absent | waitParentNotify | user | sigWaiting | exited =>
    rw [at_] at move
    cases move
  | registered =>
    rw [at_] at move
    obtain rfl := Option.some.inj move
    refine counters.goPlain (flag true) ?_ trivial fun _ => trivial
    change (s.thread me).pc.Plain
    rw [at_]
    trivial
  | waitChildRegistered =>
    rw [at_] at move
    simp only at move
    split at move
    · obtain rfl := Option.some.inj move
      exact stay at_ id trivial (flag false) trivial
    · obtain rfl := Option.some.inj move
      exact stay at_ id trivial idle trivial
  | parentSleeping =>
    rw [at_] at move
    simp only [Option.ite_none_right_eq_some, Option.some.injEq] at move
    obtain ⟨-, rfl⟩ := move
    exact stay at_ id trivial (flag false) trivial
  | startFence work =>
    change (s.thread me).pc.StartsFence _ = false at noStart
    rw [at_] at noStart
    cases noStart
  | notify work =>
    rw [at_] at move
    obtain rfl := Option.some.inj move
    exact stay at_ id trivial idle notified_plain
  | lockIsowner mutex =>
    rw [at_] at move
    obtain rfl := Option.some.inj move
    exact stay at_ id trivial lockIsowner_untouched (ite_plain trivial trivial)
  | lockSingle mutex =>
    rw [at_] at move
    obtain rfl := Option.some.inj move
    exact stay at_ id trivial idle (pc_ite_plain trivial getLockAgain_plain)
  | lockFast mutex =>
    rw [at_] at move
    obtain rfl := Option.some.inj move
    exact stay at_ id trivial lockAcquire_untouched (pc_ite_plain trivial getLockAgain_plain)
  | fence pos after =>
    rw [at_] at move
    obtain ⟨⟨d', next⟩, waits, rfl⟩ := Option.map_eq_some_iff.mp move
    have same : Untouched s.determ d' := waitFence_untouched waits
    cases next with
    | some pos => exact stay at_ id trivial same trivial
    | none => exact stay at_ id trivial same passed_plain
  | getToken work =>
    rw [at_] at move
    simp only [Option.ite_none_right_eq_some, Option.some.injEq] at move
    obtain ⟨-, rfl⟩ := move
    exact stay at_ id trivial idle gotToken_plain
  | work work =>
    rw [at_] at move
    obtain rfl := Option.some.inj (Option.ite_none_left_eq_some.mp move).2
    refine counters.perform inv few at_ ?_ ?_
    · rintro target rfl
      exact noCancel target at_
    · change (s.thread me).pc.StartsFence _ = false at noStart
      rwa [at_] at noStart
  | putToken after =>
    rw [at_] at move
    obtain rfl := Option.some.inj move
    exact stay at_ id trivial (idle.passToken _) trivial
  | joinEnter guest =>
    rw [at_] at move
    obtain rfl := Option.some.inj move
    refine counters.joinSection (known at_ id) ?_ guest
    change (s.thread me).pc.Plain
    rw [at_]
    trivial
  | joinWait guest =>
    rw [at_] at move
    obtain rfl := Option.some.inj move
    exact counters.joinWokenSection (known at_ id) few at_
  | joinToken =>
    rw [at_] at move
    simp only [Option.ite_none_right_eq_some, Option.some.injEq] at move
    obtain ⟨-, rfl⟩ := move
    exact stay at_ id trivial idle trivial
  | closeFence =>
    rw [at_] at move
    obtain rfl := Option.some.inj move
    exact stay at_ id trivial idle (pc_ite_plain trivial trivial)
  | condWaiting cond mutex =>
    rw [at_] at move
    have here : s.pc me = .condWaiting cond mutex := at_
    simp only at move
    split at move
    · next ready =>
      obtain rfl := Option.some.inj move
      refine counters.go idle ?_
        (iff_of_false (by simp [Thread.goto]) (by simp [here])) fun unknown =>
          absurd (unknown.symm.trans (known at_ id).2) (by simp)
      rw [here]
      exact (if_pos ready).symm
    · obtain ⟨d', released, rfl⟩ := Option.map_eq_some_iff.mp move
      have unchanged : Function.update s.pc me (s.thread me).pc = s.pc :=
        Function.update_eq_self me s.pc
      show Counters d' (Function.update s.pc me (s.thread me).pc) announced bound
      rw [unchanged]
      exact counters.stay (lockRelease_untouched released) (fun _ => rfl) (fun _ => Iff.rfl)
        counters.early
  | condToken mutex =>
    rw [at_] at move
    simp only [Option.ite_none_right_eq_some, Option.some.injEq] at move
    obtain ⟨-, rfl⟩ := move
    exact stay at_ id trivial idle trivial
  | condAcquire mutex =>
    rw [at_] at move
    obtain rfl := Option.some.inj move
    exact stay at_ id trivial lockAcquire_untouched trivial
  | barrierEnter bar round =>
    rw [at_] at move
    obtain rfl := Option.some.inj move
    have here : s.pc me = .barrierEnter bar round := at_
    simp only [KeepsRing, here] at keeps
    simp only [Thread.goto]
    split
    · next lets =>
      refine counters.leaveBarrier inv realBarrierWait_untouched (.inl here) (keeps ?_)
      by_contra early
      simp only [Determ.realBarrierWait, if_neg early] at lets
      change _ < (Function.update s.determ.barriers bar _ bar).released at lets
      rw [Function.update_self] at lets
      exact lt_irrefl _ lets
    · refine counters.go realBarrierWait_untouched (by rw [here]; rfl)
        (iff_of_false (by simp) (by simp [here])) fun unknown =>
          absurd (unknown.symm.trans (known at_ id).2) (by simp)
  | barrierBlocked bar round released =>
    rw [at_] at move
    simp only [Option.ite_none_right_eq_some, Option.some.injEq] at move
    obtain ⟨lets, rfl⟩ := move
    have here : s.pc me = .barrierBlocked bar round released := at_
    simp only [KeepsRing, here] at keeps
    exact counters.leaveBarrier inv idle (.inr ⟨released, here⟩) (keeps lets)

/-- A call, up to its first step. -/
theorem Counters.call (counters : Counters d pc announced bound) {t : Thread} {c : Call}
    {result : Determ × Thread} (mine : me < bound ∧ announced me = true) (user : t.pc = .user)
    (at_ : pc me = .user) (move : Xrun.call d t me c = some result) :
    Counters result.1 (Function.update pc me result.2.pc) announced bound := by
  have plain : (pc me).Plain := by
    rw [at_]
    trivial
  have same : t.pc.Plain := by
    rw [user]
    trivial
  -- Most calls move the thread to a step that is counted as before.
  have stay : ∀ {d' : Determ} {new : Pc}, Untouched d d' → new.Plain →
      Counters d' (Function.update pc me new) announced bound := fun untouched after =>
    counters.goPlain untouched plain after fun unknown => absurd (unknown.symm.trans mine.2) nofun
  have idle := Untouched.refl d
  cases c with
  | mutexUnlock mutex =>
    simp only [Xrun.call] at move
    split at move
    · obtain ⟨d', released, rfl⟩ := Option.map_eq_some_iff.mp move
      exact stay (lockRelease_untouched released) (pc_ite_plain trivial same)
    · obtain rfl := Option.some.inj move
      exact stay idle same
  -- The waiter leaves the ring, before the mutex is released.
  | condWait cond mutex =>
    obtain ⟨d', released, rfl⟩ := Option.map_eq_some_iff.mp move
    have waits := counters.condWait mine plain cond mutex
    exact waits.stay (lockRelease_untouched released) (fun _ => rfl) (fun _ => Iff.rfl) waits.early
  | spawn | join guest =>
    obtain rfl := Option.some.inj move
    exact stay idle (pc_ite_plain trivial trivial)
  | mutexLock mutex =>
    obtain rfl := Option.some.inj move
    exact stay idle (pc_ite_plain trivial (pc_ite_plain trivial trivial))
  | condSignal cond | condBroadcast cond =>
    obtain rfl := Option.some.inj move
    exact stay idle (pc_ite_plain (pc_ite_plain trivial trivial) same)
  | cancel target =>
    obtain rfl := Option.some.inj move
    exact stay idle (pc_ite_plain trivial trivial)
  | barrierWait bar =>
    obtain rfl := Option.some.inj move
    exact stay idle (pc_ite_plain trivial (pc_ite_plain same trivial))
  | sigWait | exit =>
    obtain rfl := Option.some.inj move
    exact stay idle trivial

/-! ## All threads together -/

/-- The thread at this position cancels another one. -/
def Pc.CancelsAny : Pc → Bool
  | .work (.cancel _) => true
  | _ => false

/-- Nobody is cancelled and every clone comes about; `startFence` counts the children that
have registered, and a child goes on once it is counted. -/
def KeepsAnnounced (s : State) : Label → Prop
  | .cloneFails _ => False
  | .spuriousReturn me => s.pc me = .waitParentNotify → s.announced me = true
  | .exec me =>
      (s.pc me).CancelsAny = false ∧
        ((s.pc me).StartsFence (s.thread me).fenceEnabled = true →
          (s.thread me).childrenThreadsCount =
            Nat.count (Unannounced s.determ s.pc s.announced me) s.threadIndex) ∧
        ((s.pc me).Notifies = true → ∀ thread < s.threadIndex,
          s.pc thread = .waitParentNotify → s.announced thread = true)
  | _ => True

instance (s : State) : DecidablePred (KeepsAnnounced s) := fun label => by
  induction label using Label.casesOn <;> dsimp only [KeepsAnnounced] <;> infer_instance

/-- The condition on a step. -/
def KeepsCounters (s : State) (label : Label) : Prop := KeepsRing s label ∧ KeepsAnnounced s label

/-- A test for the condition. -/
def keepsCounters (s : State) (label : Label) : Bool :=
  keepsRing s label && decide (KeepsAnnounced s label)

theorem keepsCounters_sound (s : State) (label : Label) (keeps : keepsCounters s label = true) :
    KeepsCounters s label := by
  obtain ⟨ring, announced⟩ := (Bool.and_eq_true _ _).mp keeps
  exact ⟨keepsRing_sound s label ring, of_decide_eq_true announced⟩

theorem ite_announced {p : Prop} [Decidable p] {yes no : Thread} {value : Bool}
    (first : yes.announced = value) (second : no.announced = value) :
    (if p then yes else no).announced = value := by
  split <;> assumption

theorem getLockAgain_announced {t : Thread} {mutex : ℕ} :
    (t.getLockAgain mutex).announced = t.announced := ite_announced rfl rfl

theorem passed_announced {t : Thread} {after : After} :
    (t.passed after).announced = t.announced := by
  cases after with
  | relock mutex => exact getLockAgain_announced
  | _ => rfl

theorem perform_announced {t : Thread} {work : Work} :
    (perform d t me work).2.announced = t.announced := by
  cases work with
  | signal cond | broadcast cond => exact ite_announced rfl rfl
  | lock mutex => exact ite_announced rfl rfl
  | cancel target =>
    simp only [perform]
    split
    · rfl
    · exact ite_announced rfl rfl
  | join guest =>
    simp only [perform]
    split <;> rfl
  | _ => rfl

theorem exec_announced {t : Thread} {result : Determ × Thread}
    (move : exec d t me = some result) : result.2.announced = t.announced := by
  unfold exec at move
  cases at_ : t.pc <;> rw [at_] at move
  case absent | waitParentNotify | user | sigWaiting | exited => cases move
  case fence pos after =>
    obtain ⟨⟨d', next⟩, -, rfl⟩ := Option.map_eq_some_iff.mp move
    cases next with
    | some pos => rfl
    | none => exact passed_announced
  case work work =>
    obtain rfl := Option.some.inj (Option.ite_none_left_eq_some.mp move).2
    exact perform_announced
  case notify work =>
    obtain rfl := Option.some.inj move
    cases work <;> rfl
  case getToken work =>
    simp only [Option.ite_none_right_eq_some, Option.some.injEq] at move
    obtain ⟨-, rfl⟩ := move
    cases work <;> rfl
  case condWaiting cond mutex =>
    simp only at move
    split at move
    · obtain rfl := Option.some.inj move
      rfl
    · obtain ⟨d', -, rfl⟩ := Option.map_eq_some_iff.mp move
      rfl
  case waitChildRegistered =>
    simp only at move
    split at move
    · obtain rfl := Option.some.inj move
      rfl
    · obtain rfl := Option.some.inj move
      rfl
  case lockSingle mutex | lockFast mutex =>
    obtain rfl := Option.some.inj move
    exact ite_announced rfl getLockAgain_announced
  case closeFence =>
    obtain rfl := Option.some.inj move
    exact ite_announced rfl rfl
  case parentSleeping | joinToken | condToken | barrierBlocked =>
    simp only [Option.ite_none_right_eq_some, Option.some.injEq] at move
    obtain ⟨-, rfl⟩ := move
    rfl
  -- The other steps move the program counter, or change what the thread holds.
  all_goals
    obtain rfl := Option.some.inj move
    rfl

theorem call_announced {t : Thread} {c : Call} {result : Determ × Thread}
    (move : call d t me c = some result) : result.2.announced = t.announced := by
  cases c with
  | mutexUnlock mutex =>
    simp only [call] at move
    split at move
    · obtain ⟨d', -, rfl⟩ := Option.map_eq_some_iff.mp move
      exact ite_announced rfl rfl
    · obtain rfl := Option.some.inj move
      rfl
  | condWait cond mutex =>
    obtain ⟨d', -, rfl⟩ := Option.map_eq_some_iff.mp move
    rfl
  | sigWait | exit =>
    obtain rfl := Option.some.inj move
    rfl
  | spawn | join guest | cancel target =>
    obtain rfl := Option.some.inj move
    exact ite_announced rfl rfl
  | mutexLock mutex | barrierWait bar =>
    obtain rfl := Option.some.inj move
    exact ite_announced rfl (ite_announced rfl rfl)
  | condSignal cond | condBroadcast cond =>
    obtain rfl := Option.some.inj move
    exact ite_announced (ite_announced rfl rfl) rfl

theorem update_announced {result : Determ × Thread} :
    (s.update me result).announced = Function.update s.announced me result.2.announced := by
  funext thread
  show (Function.update s.thread me result.2 thread).announced = _
  by_cases here : thread = me
  · subst here
    rw [Function.update_self, Function.update_self]
  · rw [Function.update_of_ne here, Function.update_of_ne here]
    rfl

theorem update_announced_same {result : Determ × Thread}
    (same : result.2.announced = s.announced me) :
    (s.update me result).announced = s.announced := by
  rw [update_announced, same, Function.update_eq_self]

/-- The thread that starts the fence is not alone in what it changes: its children are
announced. -/
theorem others_announced_start (noNotify : (s.pc me).Notifies = false)
    (starts : (s.pc me).StartsFence (s.thread me).fenceEnabled = true) (thread : ℕ) :
    ((s.others me).announced thread = true ↔ s.announced thread = true ∨
      Unannounced s.determ s.pc s.announced me thread) ∧ (s.others me).pc thread = s.pc thread := by
  unfold State.announced State.pc
  have quiet : ¬(s.thread me).pc.Notifies = true := by
    rw [Bool.not_eq_true]
    exact noNotify
  have start : (s.thread me).pc.StartsFence (s.thread me).fenceEnabled = true := starts
  rw [others_thread, if_neg quiet, if_pos start]
  unfold announce Unannounced
  split
  · next child =>
    refine ⟨iff_of_true rfl ?_, rfl⟩
    by_cases known : s.announced thread = true
    · exact .inl known
    · exact .inr ⟨Bool.eq_false_iff.mpr known, child⟩
  · next other =>
    refine ⟨⟨.inl, ?_⟩, rfl⟩
    rintro (known | ⟨-, child⟩)
    · exact known
    · exact absurd child other

/-- Any other step of a thread leaves alone who is announced. -/
theorem others_announced (noStart : (s.pc me).StartsFence (s.thread me).fenceEnabled = false) :
    (s.others me).announced = s.announced := by
  funext thread
  unfold State.announced
  have quiet : ¬(s.thread me).pc.StartsFence (s.thread me).fenceEnabled = true := by
    rw [Bool.not_eq_true]
    exact noStart
  rw [others_thread, if_neg quiet]
  split
  · unfold wakeChild
    split <;> rfl
  · split
    · rfl
    · rfl

theorem others_pc_quiet (noCancel : ∀ target, s.pc me ≠ .work (.cancel target))
    (noNotify : (s.pc me).Notifies = false) {thread : ℕ} :
    (s.others me).pc thread = s.pc thread := by
  unfold State.pc
  have quiet : ¬(s.thread me).pc.Notifies = true := by
    rw [Bool.not_eq_true]
    exact noNotify
  have other : ¬(s.thread me).pc.Cancels thread := noCancel thread
  rw [others_thread, if_neg quiet, if_neg other]
  split
  · unfold announce
    split <;> rfl
  · rfl

/-- The step of a thread that starts the fence. -/
theorem Counters.execStart (counters : Counters s.determ s.pc s.announced s.threadIndex)
    (fresh : ∀ thread, s.pc thread = .absent ↔ s.threadIndex ≤ thread)
    (few : s.threadIndex ≤ maxThreads) {result : Determ × Thread}
    (starts : (s.pc me).StartsFence (s.thread me).fenceEnabled = true)
    (count : (s.thread me).childrenThreadsCount =
      Nat.count (Unannounced s.determ s.pc s.announced me) s.threadIndex)
    (move : Xrun.exec s.determ (s.thread me) me = some result) :
    Counters result.1 ((s.others me).update me result).pc ((s.others me).update me result).announced
      s.threadIndex := by
  -- the thread is at one of two positions, and goes on in the ring
  have section_ : (s.pc me).Plain ∧ ¬(s.pc me).Early ∧ (s.pc me).Notifies = false ∧
      result.1 = s.determ.startFence (s.thread me).childrenThreadsCount ∧ result.2.pc.Plain := by
    have here : s.pc me = (s.thread me).pc := rfl
    unfold Xrun.exec at move
    rw [here] at starts ⊢
    cases at_ : (s.thread me).pc <;> rw [at_] at starts move <;> try cases starts
    case startFence work =>
      obtain rfl := Option.some.inj move
      exact ⟨trivial, id, rfl, rfl, trivial⟩
    case work work =>
      obtain rfl := Option.some.inj (Option.ite_none_left_eq_some.mp move).2
      cases work <;> try cases starts
      case join guest =>
        have off : ¬(s.thread me).fenceEnabled = true := by
          intro on
          rw [on] at starts
          cases starts
        simp only [Xrun.perform, if_neg off]
        exact ⟨trivial, id, rfl, trivial, trivial⟩
  obtain ⟨plain, late, noNotify, started, after⟩ := section_
  have mine := (counters.known fresh me late).2
  have others := others_announced_start noNotify starts
  have pcs : (s.others me).pc = s.pc := funext fun thread => (others thread).2
  have still : ((s.others me).update me result).announced = (s.others me).announced := by
    refine update_announced_same ((exec_announced move).trans ?_)
    exact mine.trans ((others me).1.mpr (.inl mine)).symm
  have announced := counters.startFence me few (fun thread => (others thread).1)
  rw [update_pc, pcs, still, started, count]
  refine announced.goPlain (.refl _) plain after fun unknown => ?_
  rw [(others me).1.mpr (.inl mine)] at unknown
  cases unknown

/-- **Step.** -/
theorem Counters.step (counters : Counters s.determ s.pc s.announced s.threadIndex)
    (inv : RingInv s.determ s.pc s.threadIndex lists) (few : s.threadIndex ≤ maxThreads)
    {label : Label} (keeps : KeepsCounters s label) (stepped : Xrun.step s label = some s') :
    Counters s'.determ s'.pc s'.announced s'.threadIndex := by
  have move := move_of_step stepped
  obtain ⟨ring, keeps⟩ := keeps
  cases label with
  | call me c =>
    obtain ⟨⟨user, -⟩, move⟩ := Option.ite_none_right_eq_some.mp move
    obtain ⟨result, called, rfl⟩ := Option.map_eq_some_iff.mp move
    have at_ : s.pc me = .user := user
    have mine := counters.known inv.fresh me (by rw [at_]; exact id)
    rw [update_pc, update_announced_same (call_announced called)]
    exact counters.call mine user at_ called
  | exec me =>
    obtain ⟨result, executed, rfl⟩ := Option.map_eq_some_iff.mp move
    obtain ⟨quiet, starts, notifies⟩ := keeps
    have noCancel : ∀ target, s.pc me ≠ .work (.cancel target) := by
      intro target at_
      rw [at_] at quiet
      cases quiet
    show Counters result.1 ((s.others me).update me result).pc
      ((s.others me).update me result).announced (s.others me).threadIndex
    rw [others_threadIndex]
    by_cases start : (s.pc me).StartsFence (s.thread me).fenceEnabled = true
    · exact counters.execStart inv.fresh few start (starts start) executed
    · have noStart := Bool.eq_false_iff.mpr start
      have moved := counters.exec inv few ring noCancel noStart executed
      have announced := others_announced noStart
      rw [update_pc, update_announced_same
        ((exec_announced executed).trans (congrFun announced me).symm), announced]
      -- the children that wake up have been counted
      have woken : ∀ thread, thread ≠ me → (s.others me).pc thread = s.pc thread ∨
          s.pc thread = .waitParentNotify ∧ (s.others me).pc thread = .user :=
        fun thread _ => others_pc noCancel thread
      refine moved.stay (.refl _) (fun thread => ?_) (fun thread => ?_) fun thread unknown => ?_
      all_goals by_cases here : thread = me
      · subst here
        rw [Function.update_self, Function.update_self]
      · rw [Function.update_of_ne here, Function.update_of_ne here]
        rcases woken thread here with same | ⟨asleep, awake⟩
        · rw [same]
        · rw [asleep, awake]
          rfl
      · subst here
        rw [Function.update_self, Function.update_self]
      · rw [Function.update_of_ne here, Function.update_of_ne here]
        rcases woken thread here with same | ⟨asleep, awake⟩
        · rw [same]
        · rw [asleep, awake]
          exact iff_of_false nofun nofun
      · have early := moved.early thread unknown
        subst here
        rw [Function.update_self] at early ⊢
        exact early
      · have early := counters.early thread unknown
        rw [Function.update_of_ne here]
        rcases others_pc noCancel thread with same | ⟨asleep, awake⟩
        · rwa [same]
        · have notify : (s.pc me).Notifies = true := by
            by_contra quiet
            rw [others_pc_quiet noCancel (Bool.eq_false_iff.mpr quiet), asleep] at awake
            cases awake
          have present : thread < s.threadIndex := by
            by_contra beyond
            rw [(inv.fresh thread).mpr (Nat.le_of_not_lt beyond)] at asleep
            cases asleep
          exact absurd (unknown.symm.trans (notifies notify thread present asleep)) nofun
  | childRegister parent =>
    obtain ⟨-, rfl⟩ := guarded move
    have registered := counters.registerThread parent
    let result := (s.determ.registerThread s.threadIndex parent, childRecord (s.thread parent))
    have pcs :
        (s.update s.threadIndex result).pc = Function.update s.pc s.threadIndex .registered :=
      update_pc
    have announced : (s.update s.threadIndex result).announced =
        Function.update s.announced s.threadIndex false := update_announced
    rw [← pcs, ← announced] at registered
    exact registered
  | cloneFails me => exact keeps.elim
  | spuriousReturn me =>
    simp only [Xrun.move] at move
    split at move
    · next at_ =>
      obtain rfl := Option.some.inj move
      have here : s.pc me = .waitParentNotify := at_
      rw [update_pc, update_announced_same rfl]
      refine counters.goPlain (.refl _) (by rw [here]; trivial) trivial fun unknown => ?_
      exact absurd (unknown.symm.trans (keeps here)) nofun
    · next at_ =>
      obtain rfl := Option.some.inj move
      have here : s.pc me = .parentSleeping := at_
      have mine := counters.known inv.fresh me (by rw [here]; exact id)
      rw [update_pc, update_announced_same rfl]
      refine counters.goPlain ⟨rfl, rfl, rfl, fun _ => rfl, fun _ => rfl, fun _ => le_rfl⟩
        (by rw [here]; trivial) trivial fun unknown => ?_
      exact absurd (unknown.symm.trans mine.2) nofun
    · cases move
  | sigwaitReturns me =>
    obtain ⟨at_, rfl⟩ := guarded move
    have here : s.pc me = .sigWaiting := at_
    have mine := counters.known inv.fresh me (by rw [here]; exact id)
    rw [update_pc, update_announced_same rfl]
    exact counters.sigWaitWoken mine few here
  | sigwaitFails me => exact ring.elim

theorem start_counters (cores : ℕ) (counts : ℕ → ℕ) :
    Counters (start cores counts).determ (start cores counts).pc (start cores counts).announced
      (start cores counts).threadIndex := by
  have nobody : ∀ thread, thread ≠ 0 → (start cores counts).pc thread = .absent := by
    intro thread different
    show (Function.update (fun _ => absentThread) 0 _ thread).pc = _
    rw [Function.update_of_ne different]
    rfl
  refine ⟨rfl, rfl, fun bar => rfl, fun thread unknown => ?_, fun _ => rfl⟩
  by_cases here : thread = 0
  · subst here
    cases unknown
  · rw [nobody thread here]
    trivial

/-- There are never more threads than entries. -/
theorem few_of_keepsRing (reach : system.Reachable KeepsRing s) : s.threadIndex ≤ maxThreads := by
  refine reach.invariant (fun s => s.threadIndex ≤ maxThreads) ?_
    fun s label s' few keeps stepped => ?_
  · rintro _ ⟨cores, counts, -, rfl⟩
    show 1 ≤ maxThreads
    decide
  · have move := move_of_step stepped
    cases label with
    | call me c =>
      obtain ⟨-, move⟩ := Option.ite_none_right_eq_some.mp move
      obtain ⟨result, -, rfl⟩ := Option.map_eq_some_iff.mp move
      exact few
    | exec me =>
      obtain ⟨result, -, rfl⟩ := Option.map_eq_some_iff.mp move
      show (s.others me).threadIndex ≤ _
      rw [others_threadIndex]
      exact few
    | childRegister parent =>
      obtain ⟨-, rfl⟩ := guarded move
      exact keeps.2
    | spuriousReturn me =>
      simp only [Xrun.move] at move
      split at move
      · obtain rfl := Option.some.inj move
        exact few
      · obtain rfl := Option.some.inj move
        exact few
      · cases move
    | cloneFails me | sigwaitReturns me | sigwaitFails me =>
      obtain ⟨-, rfl⟩ := guarded move
      exact few

/-- **Run.** In every run whose steps all meet the condition, the counters are right. -/
theorem counters_of_keepsCounters (reach : system.Reachable KeepsCounters s) :
    Counters s.determ s.pc s.announced s.threadIndex := by
  induction reach with
  | init initial =>
    obtain ⟨cores, counts, -, rfl⟩ := initial
    exact start_counters cores counts
  | step label prior keeps move ih =>
    have ring := prior.mono fun _ _ ok => ok.1
    obtain ⟨lists, inv⟩ := ringInv_of_keepsRing ring
    exact ih.step inv (few_of_keepsRing ring) keeps move

/-! ## The counters and the ring -/

/-- The counters count the announced threads in the ring, and those that have not exited;
neither has wrapped, and a single working thread is the only one that is announced and
active. -/
structure CountersMatch (s : State) : Prop where
  working : ∃ ring, IsList s.determ.links s.determ.activelist ring ∧
    s.determ.maxthreads = (ring.filter s.announced).length
  alive : s.determ.alivethreads = living s.pc s.announced s.threadIndex
  bounded : s.determ.maxthreads ≤ s.threadIndex ∧ s.determ.alivethreads ≤ s.threadIndex
  single : s.determ.isSingleWorkingThread = true →
    ∃! thread, s.announced thread = true ∧ Active s thread

/-- No joiner is back in the ring that has not taken the mutex since. -/
def NoneWoken (s : State) : Prop :=
  ∀ thread guest, s.pc thread = .joinWait guest → s.determ.status guest ≠ .exit

/-- The announced threads of the ring are the announced active ones. -/
theorem RingInv.length_announced (inv : RingInv s.determ s.pc s.threadIndex lists)
    {ring : List ℕ} (list : IsList s.determ.links s.determ.activelist ring) :
    (ring.filter s.announced).length =
      Nat.count (fun thread => s.announced thread = true ∧ Active s thread) s.threadIndex := by
  have same : ring.Perm (lists .ring) := list.perm (inv.family.list .ring)
  have members : ∀ thread, thread ∈ ring.filter s.announced ↔
      s.announced thread = true ∧ Active s thread := by
    intro thread
    rw [List.mem_filter, same.mem_iff, inv.placed]
    exact and_comm
  have nodup : (ring.filter s.announced).Nodup := list.ring.nodup.filter _
  have bounded : ∀ thread ∈ ring.filter s.announced, thread < s.threadIndex := by
    intro thread member
    by_contra beyond
    have active : place s.determ thread (s.pc thread) = some .ring := ((members thread).mp member).2
    rw [(inv.fresh thread).mpr (Nat.le_of_not_lt beyond)] at active
    cases active
  rw [← count_mem nodup bounded]
  exact count_congr fun thread _ => members thread

/-- A thread that is counted in the ring is active. -/
theorem active_of_seat {thread : ℕ} (counted : seat s.determ thread (s.pc thread) = some .ring) :
    Active s thread := by
  unfold Active
  unfold seat at counted
  split at counted
  · cases counted
  · exact counted

theorem seat_of_active (none_woken : NoneWoken s) {thread : ℕ} (active : Active s thread) :
    seat s.determ thread (s.pc thread) = some .ring := by
  unfold Active at active
  rwa [seat_eq_place]
  intro guest waits
  rw [waits] at active
  simp only [place, if_neg (none_woken thread guest waits)] at active
  cases active

/-- **Fence counters.** In every run whose steps all meet the condition, the counters match
the ring in exactly those states in which no joiner was put back and is not counted. -/
theorem countersMatch_iff_noneWoken (reach : system.Reachable KeepsCounters s) :
    CountersMatch s ↔ NoneWoken s := by
  have counters := counters_of_keepsCounters reach
  have ring := reach.mono fun _ _ ok => ok.1
  obtain ⟨lists, inv⟩ := ringInv_of_keepsRing ring
  constructor
  · rintro ⟨⟨ring, list, working⟩, -, -, -⟩ thread guest waits gone
    -- the joiner is one more than the counter counts
    have active : Active s thread := by
      unfold Active
      rw [waits]
      exact if_pos gone
    have mine := counters.known inv.fresh thread (by rw [waits]; exact id)
    have more : Nat.count (fun other => s.announced other = true ∧
          seat s.determ other (s.pc other) = some .ring ∨ other ∈ [thread]) s.threadIndex =
        seated s.determ s.pc s.announced .ring s.threadIndex + [thread].length := by
      refine count_gain (List.nodup_singleton thread) ?_ (fun _ _ => Iff.rfl) ?_
      · intro other member
        rw [List.mem_singleton.mp member]
        exact mine.1
      · intro other member there
        rw [List.mem_singleton.mp member, waits] at there
        cases there.2
    have fewer : Nat.count (fun other => s.announced other = true ∧
          seat s.determ other (s.pc other) = some .ring ∨ other ∈ [thread]) s.threadIndex ≤
        Nat.count (fun other => s.announced other = true ∧ Active s other) s.threadIndex := by
      refine Nat.count_mono_left fun other _ either => ?_
      rcases either with ⟨known, there⟩ | member
      · exact ⟨known, active_of_seat there⟩
      · rw [List.mem_singleton.mp member]
        exact ⟨mine.2, active⟩
    rw [inv.length_announced list, counters.working] at working
    rw [more, ← working, List.length_singleton] at fewer
    omega
  · intro none_woken
    have count : s.determ.maxthreads =
        Nat.count (fun thread => s.announced thread = true ∧ Active s thread) s.threadIndex :=
      counters.working.trans (count_congr fun thread _ => and_congr_right fun _ =>
        ⟨active_of_seat, seat_of_active none_woken⟩)
    refine ⟨⟨lists .ring, inv.family.list .ring, ?_⟩, counters.alive, ⟨?_, ?_⟩, fun single => ?_⟩
    · rw [count, inv.length_announced (inv.family.list .ring)]
    · rw [count]
      exact Nat.count_le _
    · rw [counters.alive]
      exact Nat.count_le _
    · have one : s.determ.maxthreads = 1 := of_decide_eq_true single
      refine existsUnique_of_count (n := s.threadIndex) (fun thread there => ?_)
        (count.symm.trans one)
      by_contra beyond
      have active : place s.determ thread (s.pc thread) = some .ring := there.2
      rw [(inv.fresh thread).mpr (Nat.le_of_not_lt beyond)] at active
      cases active

/-- The first thread creates another one and waits for its end. -/
def spawnsAndJoins : List Label := [.call 0 .spawn, .exec 0, .childRegister 0, .exec 1, .exec 0,
  .call 0 (.join 1), .exec 0, .exec 0]

/-- The joiner is not counted while it waits, and its child is. -/
theorem countersMatch_joining : ∃ s, system.Reachable KeepsCounters s ∧
    s.pc 0 = .joinWait 1 ∧ s.determ.maxthreads = 1 ∧ s.determ.alivethreads = 2 ∧
    (CountersMatch s ↔ NoneWoken s) := by
  have run : (system.runIf keepsCounters (start 2 fun _ => 2) spawnsAndJoins).any fun s =>
      s.pc 0 = .joinWait 1 ∧ s.determ.maxthreads = 1 ∧ s.determ.alivethreads = 2 := by
    decide +kernel
  obtain ⟨s, execution, facts⟩ := (Option.any_eq_true _ _).mp run
  obtain ⟨waits, working, alive⟩ := of_decide_eq_true facts
  have start : system.Reachable KeepsCounters (start 2 fun _ => 2) :=
    .init ⟨2, _, Nat.two_pos, rfl⟩
  have reach := start.runIf keepsCounters_sound execution
  exact ⟨s, reach, waits, working, alive, countersMatch_iff_noneWoken reach⟩

/-- Nobody is cancelled, and no clone and no `sigwait` fails. -/
def Listed (_ : State) : Label → Prop
  | .call _ (.cancel _) | .cloneFails _ | .sigwaitFails _ => False
  | _ => True

instance (s : State) : DecidablePred (Listed s) := fun label => by
  induction label using Label.casesOn with
  | call me call => induction call using Call.casesOn <;> dsimp only [Listed] <;> infer_instance
  | _ => dsimp only [Listed]; infer_instance

/-- The child exits and puts its joiner back into the ring, and no thread is counted. -/
theorem not_countersMatch_exit : ¬ ∀ s, system.Reachable Listed s → CountersMatch s := by
  intro matches_
  have run : (system.runIf (fun s label => decide (Listed s label)) (start 2 fun _ => 2)
      (spawnsAndJoins ++ [.call 1 .exit, .exec 1, .exec 1, .exec 1])).any fun s =>
        s.determ.activelist = some 0 ∧ s.announced 0 = true ∧ s.determ.maxthreads = 0 := by
    decide +kernel
  obtain ⟨s, execution, facts⟩ := (Option.any_eq_true _ _).mp run
  obtain ⟨inside, known, none_counted⟩ := of_decide_eq_true facts
  have start : system.Reachable Listed (start 2 fun _ => 2) := .init ⟨2, _, Nat.two_pos, rfl⟩
  have reach := start.runIf (fun _ _ => of_decide_eq_true) execution
  obtain ⟨ring, list, working⟩ := (matches_ s reach).working
  have member : 0 ∈ ring.filter s.announced := by
    refine List.mem_filter.mpr ⟨?_, known⟩
    exact List.mem_of_mem_head? (list.head ▸ inside)
  rw [none_counted] at working
  exact absurd (List.length_pos_of_mem member) (working ▸ Nat.lt_irrefl 0)

end Tthread.Xrun
