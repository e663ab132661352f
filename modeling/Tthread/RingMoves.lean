/-
# Threads that are moved by others

A barrier that is complete, a signal and a broadcast put waiting threads behind the token,
and so does the exit of a thread that is joined. A cancelled waiter leaves its queue, and a
joiner and a new thread change places by themselves.
-/

import Tthread.RingInvariant

namespace Tthread.Xrun

open Transition EntryList

variable {s s' : State} {d d' : Determ} {pc pc' : ℕ → Pc} {bound me : ℕ}
  {lists : Place → List ℕ}

/-! ## Whole lists -/

theorem placed_merge (q : Place) (d' : Determ) (pc' : ℕ → Pc) {token : ℕ}
    (inv : RingInv d pc bound lists)
    (member : token ∈ lists .ring)
    (merged : ∀ thread, place d' thread (pc' thread) =
      if place d thread (pc thread) = some q then some .ring else place d thread (pc thread)) :
    ∀ p thread, thread ∈ Function.update (Function.update lists q []) .ring
        (behind token (lists q) (lists .ring)) p ↔ place d' thread (pc' thread) = some p := by
  intro p thread
  rw [merged, mem_update_iff, mem_behind member, mem_update_iff, inv.placed, inv.placed,
    inv.placed]
  by_cases here : place d thread (pc thread) = some q
  · rw [if_pos here, here]
    simp only [Option.some_inj, List.not_mem_nil]
    constructor
    · rintro (⟨rfl, -⟩ | ⟨-, ⟨-, impossible⟩ | ⟨away, rfl⟩⟩)
      · rfl
      · exact impossible.elim
      · exact absurd rfl away
    · rintro rfl
      exact .inl ⟨rfl, .inl trivial⟩
  · rw [if_neg here]
    simp only [List.not_mem_nil, here, false_or, and_false]
    constructor
    · rintro (⟨rfl, inside⟩ | ⟨-, -, inside⟩)
      · exact inside
      · exact inside
    · intro inside
      by_cases ring : p = .ring
      · subst ring
        exact .inl ⟨rfl, inside⟩
      · exact .inr ⟨ring, fun same => here (same ▸ inside), inside⟩

/-- When a round is complete, the threads in it are active again. -/
theorem place_completed {bar thread : ℕ} {at_ : Pc} (entries : d'.entries = d.entries)
    (rounds : ∀ b, (d'.barriers b).rounds =
      if b = bar then (d.barriers b).rounds + 1 else (d.barriers b).rounds)
    (bounded : ∀ b round, at_.InBarrier b round → round ≤ (d.barriers b).rounds) :
    place d' thread at_ = if place d thread at_ = some (.barrier bar) then some .ring
      else place d thread at_ := by
  have barrier : ∀ b round, round ≤ (d.barriers b).rounds →
      (if (d'.barriers b).rounds = round then some (Place.barrier b) else some .ring) =
        if (if (d.barriers b).rounds = round then some (Place.barrier b) else some .ring) =
            some (.barrier bar) then some .ring
        else if (d.barriers b).rounds = round then some (Place.barrier b) else some .ring := by
    intro b round le
    rw [rounds]
    by_cases here : b = bar
    · subst here
      by_cases now : (d.barriers b).rounds = round
      · rw [if_pos rfl, if_neg (by omega), if_pos now, if_pos rfl]
      · rw [if_pos rfl, if_neg (by omega), if_neg now, if_neg (by nofun)]
    · rw [if_neg here]
      split
      · rw [if_neg (fun same => here (Place.barrier.inj (Option.some.inj same)))]
      · rw [if_neg (by nofun)]
  cases at_ with
  | barrierEnter b round => exact barrier b round (bounded b round (.inl rfl))
  | barrierBlocked b round released => exact barrier b round (bounded b round (.inr ⟨_, rfl⟩))
  | condWaiting cond mutex =>
    simp only [place, Determ.status, entries]
    by_cases ready : (d.entries thread).status = .ready <;> simp [ready]
  | joinWait guest =>
    simp only [place, Determ.status, entries]
    by_cases gone : (d.entries guest).status = .exit <;> simp [gone]
  | _ => rfl

theorem barrierWait_last (me : ℕ) {bar token : ℕ} (here : d.tokenpos = some token)
    (last : (d.barriers bar).threads + 1 = (d.barriers bar).maxthreads) :
    d.barrierWait bar me =
      { (Determ.incrFence { d with links := moveWholeList d.links token (d.barriers bar).head }
          ((d.barriers bar).maxthreads - 1)).setBarrier bar
          { d.barriers bar with threads := 0, head := none, rounds := (d.barriers bar).rounds + 1 }
        with tokenpos := some ((moveWholeList d.links token (d.barriers bar).head).next me) } := by
  simp only [Determ.barrierWait, if_pos last]
  rw [here]
  rfl

theorem barrierWait_rounds (me : ℕ) {bar token : ℕ} (here : d.tokenpos = some token)
    (last : (d.barriers bar).threads + 1 = (d.barriers bar).maxthreads) (b : ℕ) :
    ((d.barrierWait bar me).barriers b).rounds =
      if b = bar then (d.barriers b).rounds + 1 else (d.barriers b).rounds := by
  rw [barrierWait_last me here last]
  show (Function.update d.barriers bar _ b).rounds = _
  split
  · next same =>
    subst same
    rw [Function.update_self]
  · next different => rw [Function.update_of_ne different]

/-- The last thread of a barrier puts the others back and keeps its place. -/
theorem RingInv.barrierLast (inv : RingInv d pc bound lists) (plain : (pc me).Plain) {bar : ℕ}
    (last : (d.barriers bar).threads + 1 = (d.barriers bar).maxthreads) :
    ∃ lists', RingInv (d.barrierWait bar me)
      (Function.update pc me (.barrierEnter bar (d.barriers bar).rounds)) bound lists' := by
  -- the ring holds the token, and the list of the barrier goes behind it
  obtain ⟨token, inside, here⟩ := inv.token me (inv.inRing plain)
  have family := Family.moveWholeList inv.family (.barrier bar) inside (by simp)
  let links := moveWholeList d.links token (d.barriers bar).head
  let completed : BarrierEntry :=
    { d.barriers bar with threads := 0, head := none, rounds := (d.barriers bar).rounds + 1 }
  let d₁ := { d with links }.incrFence ((d.barriers bar).maxthreads - 1)
  have result : d.barrierWait bar me =
      { d₁.setBarrier bar completed with tokenpos := some (links.next me) } :=
    barrierWait_last me here last
  have heads : head (d.barrierWait bar me) = Function.update (head d) (.barrier bar) none := by
    rw [result]
    show head (d₁.setBarrier bar completed) = _
    exact head_setBarrier
  have rounds := barrierWait_rounds me here last
  have entries : (d.barrierWait bar me).entries = d.entries := by
    rw [result]
    rfl
  -- only the counter of rounds has changed for the others
  have books : Books (d.barrierWait bar me)
      (Function.update pc me (.barrierEnter bar (d.barriers bar).rounds)) bound := by
    refine inv.toBooks.update plain.present (by simp) (fun _ _ => by rw [entries]) ?_ ?_ ?_ ?_
      (fun thread _ => by rw [result]; rfl) ?_
    · intro b
      rw [rounds]
      split <;> omega
    · rintro b round (waits | ⟨released, waits⟩)
      · cases waits
        rw [rounds, if_pos rfl]
        exact Nat.le_succ _
      · cases waits
    · intro guest
      rw [Determ.status, entries]
      refine (inv.joining me guest).trans (iff_of_false ?_ (by simp))
      intro joins
      rw [joins] at plain
      exact plain.elim
    · intro gone
      rw [Determ.status, entries] at gone
      exact absurd gone (inv.alive plain)
    · intro asleep
      rw [Determ.status, entries] at asleep
      exact absurd asleep (inv.awake plain)
  have merged := placed_merge (.barrier bar) (d.barrierWait bar me)
    (Function.update pc me (.barrierEnter bar (d.barriers bar).rounds)) inv inside ?_
  · -- the lists after the move, and where each thread is in them
    refine ⟨_, { books with family := ?_, placed := merged, token := ?_, waiters := ?_ }⟩
    · rw [heads, result]
      exact family
    · have member : me ∈ Function.update (Function.update lists (.barrier bar) []) .ring
          (behind token (lists (.barrier bar)) (lists .ring)) .ring := by
        rw [Function.update_self, mem_behind inside]
        exact .inr (inv.inRing plain)
      intro thread _
      refine ⟨links.next me, (family.list .ring).ring.next_mem member, ?_⟩
      rw [result]
    · intro cond
      rw [Function.update_of_ne (by simp), Function.update_of_ne (by simp), result]
      exact inv.waiters cond
  · -- the last thread does not wait: its round is over
    intro thread
    by_cases mine : thread = me
    · subst mine
      have completed : place (d.barrierWait bar thread) thread
          (.barrierEnter bar (d.barriers bar).rounds) = some .ring := by
        refine if_neg ?_
        rw [rounds, if_pos rfl]
        omega
      rw [Function.update_self, completed, place_of_plain plain, if_neg (by simp)]
    · rw [Function.update_of_ne mine]
      exact place_completed entries rounds (inv.rounds thread)

/-- Any other thread that enters a barrier goes to the end of its list. -/
theorem RingInv.barrierEarly (inv : RingInv d pc bound lists) (plain : (pc me).Plain) {bar : ℕ}
    (early : (d.barriers bar).threads + 1 ≠ (d.barriers bar).maxthreads) :
    ∃ lists', RingInv (d.barrierWait bar me)
      (Function.update pc me (.barrierEnter bar (d.barriers bar).rounds)) bound lists' := by
  -- the caller leaves the ring, and its list takes it at the end
  obtain ⟨family, relocated, token⟩ := inv.leave plain
  have queued := Family.insertTail (p := .barrier bar) family relocated.absent
  have relocated' := relocated_queue (p := .barrier bar) relocated
  let d₁ := d.deactivate me
  let tail := insertTail d₁.links me (d.barriers bar).head
  let entered : BarrierEntry :=
    { d.barriers bar with threads := (d.barriers bar).threads + 1, head := tail.2 }
  let d₂ := ({ d₁ with links := tail.1 }.setBarrier bar entered).setStatus me .barrWaiting
  have result : d.barrierWait bar me =
      { d₂.decrFence with tokenpos := some (d.links.next me) } := by
    simp only [Determ.barrierWait, if_neg early]
    rfl
  have same : SameLists d₂ d₂.decrFence := SameLists.of_fenceOnly (Determ.decrFence_only d₂)
  have heads : head d₂ = Function.update (head d₁) (.barrier bar) tail.2 := by
    show head ({ d₁ with links := tail.1 }.setBarrier bar entered) = _
    exact head_setBarrier
  -- the round is still open
  have rounds : ∀ b, (({ d₂.decrFence with tokenpos := some (d.links.next me) } :
      Determ).barriers b).rounds = (d.barriers b).rounds := by
    intro b
    refine (same.rounds b).trans ?_
    show (Function.update d.barriers bar entered b).rounds = _
    by_cases here : b = bar
    · subst here
      rw [Function.update_self]
    · rw [Function.update_of_ne here]
  rw [result]
  -- decrFence writes neither lists nor statuses
  have entries : ({ d₂.decrFence with tokenpos := some (d.links.next me) } : Determ).entries =
      (d.setStatus me .barrWaiting).entries := same.entries
  have mine : ({ d₂.decrFence with tokenpos := some (d.links.next me) } : Determ).status me =
      .barrWaiting := by
    rw [Determ.status, entries]
    exact setStatus_status_self
  refine ⟨_, inv.relocate ?_ (Family.of_same queued same.links (same.head.trans heads)) ?_ ?_ ?_ ?_⟩
  · refine inv.toBooks.sleep plain.present (by simp) entries rounds ?_ (by decide) (by simp)
      (by decide) (fun thread _ => congrFun same.cond thread) (by simp)
    rintro b round (waits | ⟨released, waits⟩)
    · cases waits
      exact le_rfl
    · cases waits
  · have here : place { d₂.decrFence with tokenpos := some (d.links.next me) } me
        (.barrierEnter bar (d.barriers bar).rounds) = some (.barrier bar) := if_pos (rounds bar)
    rw [here]
    exact relocated'
  · -- the others are where they were
    intro thread different
    refine place_others (inv.alive plain) ?_ ?_ rounds different
    · rw [mine]
      decide
    · intro other ne
      rw [entries]
      exact setStatus_entries_of_ne ne
  · intro thread inside
    rw [Function.update_of_ne (by simp)] at inside ⊢
    exact ⟨_, token thread inside, rfl⟩
  · -- no queue of a condition variable is touched
    intro cond
    have conds : d₂.decrFence.conds = d.conds := same.conds
    rw [Function.update_of_ne (by simp), Function.update_of_ne (by simp), conds]
    exact inv.waiters cond

/-! ## Waking up -/

/-- The loop of `cond_broadcast` follows the links as often as it counts waiters. -/
theorem wakeWaiters_eq (entry n : ℕ) : d.wakeWaiters entry n =
    (List.iterate d.links.next entry n).foldl (fun d thread => d.setStatus thread .ready) d := by
  induction n generalizing d entry with
  | zero => rfl
  | succ n ih =>
    rw [List.iterate, List.foldl_cons, Determ.wakeWaiters, ih]
    rfl

/-- So many threads are ready, and nothing else is different. -/
theorem foldl_ready (d : Determ) (threads : List ℕ) :
    ∃ entries, threads.foldl (fun d thread => d.setStatus thread .ready) d = { d with entries } ∧
      ∀ thread, entries thread =
        if thread ∈ threads then { d.entries thread with status := .ready }
        else d.entries thread := by
  induction threads generalizing d with
  | nil => exact ⟨d.entries, rfl, fun _ => rfl⟩
  | cons first threads ih =>
    obtain ⟨entries, result, spec⟩ := ih (d.setStatus first .ready)
    refine ⟨entries, by rw [List.foldl_cons, result]; rfl, ?_⟩
    intro thread
    rw [spec]
    by_cases here : thread = first
    · subst here
      rw [if_pos List.mem_cons_self]
      show (if _ then ({ Function.update d.entries thread _ thread with status := _ } : ThreadEntry)
        else Function.update d.entries thread _ thread) = _
      rw [Function.update_self]
      split <;> rfl
    · rw [setStatus_entries_of_ne here]
      simp only [List.mem_cons, here, false_or]

/-- Some of the waiters of a condition variable are ready. -/
structure Woken (d d' : Determ) (threads : List ℕ) : Prop where
  entries : ∀ thread, d'.entries thread =
    if thread ∈ threads then { d.entries thread with status := .ready } else d.entries thread
  cond : d'.cond = d.cond
  rounds : ∀ bar, (d'.barriers bar).rounds = (d.barriers bar).rounds

theorem RingInv.waits (inv : RingInv d pc bound lists) {cond thread : ℕ}
    (member : thread ∈ lists (.cond cond)) :
    (∃ mutex, pc thread = .condWaiting cond mutex) ∧ d.status thread ≠ .ready := by
  have here := (inv.placed _ _).mp member
  cases at_ : pc thread with
  | condWaiting c mutex =>
    rw [at_] at here
    simp only [place] at here
    split at here
    · cases here
    · next asleep =>
      cases here
      exact ⟨⟨mutex, rfl⟩, asleep⟩
  | joinWait guest =>
    rw [at_] at here
    simp only [place] at here
    split at here <;> cases here
  | barrierEnter bar round | barrierBlocked bar round released =>
    rw [at_] at here
    simp only [place] at here
    split at here <;> cases here
  | _ =>
    rw [at_] at here
    cases here

theorem RingInv.woken_exit (inv : RingInv d pc bound lists) {threads : List ℕ} {cond : ℕ}
    (woken : Woken d d' threads) (waiting : ∀ thread ∈ threads, thread ∈ lists (.cond cond))
    (guest : ℕ) : d'.status guest = .exit ↔ d.status guest = .exit := by
  rw [Determ.status, woken.entries, Determ.status]
  split
  · next inside =>
    refine iff_of_false (by simp) fun gone => ?_
    obtain ⟨⟨mutex, at_⟩, -⟩ := inv.waits (waiting guest inside)
    rw [inv.exited guest gone] at at_
    cases at_
  · exact Iff.rfl

theorem RingInv.place_woken (inv : RingInv d pc bound lists) {threads : List ℕ} {cond : ℕ}
    (woken : Woken d d' threads) (waiting : ∀ thread ∈ threads, thread ∈ lists (.cond cond))
    (thread : ℕ) : place d' thread (pc thread) =
      if thread ∈ threads then some .ring else place d thread (pc thread) := by
  split
  · next inside =>
    obtain ⟨⟨mutex, at_⟩, -⟩ := inv.waits (waiting thread inside)
    rw [at_]
    refine if_pos ?_
    rw [Determ.status, woken.entries, if_pos inside]
  · next outside =>
    refine place_congr ?_ (fun guest _ => inv.woken_exit woken waiting guest) woken.rounds
    rw [Determ.status, woken.entries, if_neg outside, Determ.status]

theorem RingInv.books_woken (inv : RingInv d pc bound lists) {threads : List ℕ} {cond : ℕ}
    (woken : Woken d d' threads) (waiting : ∀ thread ∈ threads, thread ∈ lists (.cond cond)) :
    Books d' pc bound where
  rounds thread bar round inBarrier := by
    rw [woken.rounds]
    exact inv.rounds thread bar round inBarrier
  joining thread guest := by
    rw [Determ.status, woken.entries]
    split
    · next inside =>
      obtain ⟨⟨mutex, at_⟩, -⟩ := inv.waits (waiting thread inside)
      rw [at_]
      exact iff_of_false (by simp) (by simp)
    · exact inv.joining thread guest
  exited thread gone := inv.exited thread ((inv.woken_exit woken waiting thread).mp gone)
  waiting thread present asleep := by
    rw [Determ.status, woken.entries] at asleep
    rw [woken.cond]
    split at asleep
    · cases asleep
    · exact inv.waiting thread present asleep
  fresh := inv.fresh

/-- Nobody waits in the queue, so nobody is woken. -/
theorem RingInv.queue_nil (inv : RingInv d pc bound lists) {cond : ℕ}
    (queue : lists (.cond cond) = []) : d.condSignal cond = d ∧ d.condBroadcast cond = d := by
  have empty : (d.conds cond).head = none := by
    refine (inv.family.list (.cond cond)).head.trans ?_
    rw [queue, List.head?_nil]
  constructor
  · simp only [Determ.condSignal, empty]
  · simp only [Determ.condBroadcast, empty]

/-- A queue that is not empty. Cancelled waiters are still counted, so that the loop of
`cond_broadcast` may go round the queue again. -/
theorem RingInv.queue_cons (inv : RingInv d pc bound lists) {cond entry : ℕ} {rest : List ℕ}
    (queue : lists (.cond cond) = entry :: rest) :
    (d.conds cond).head = some entry ∧ (d.conds cond).waiters ≠ 0 ∧
      d.links.Ring ↑(entry :: rest) ∧ (entry :: rest).length ≤ (d.conds cond).waiters := by
  have list := inv.family.list (.cond cond)
  have round : (entry :: rest).length ≤ (d.conds cond).waiters := by
    rw [inv.waiters, queue]
    exact Nat.le_add_right _ _
  have positive : 0 < (entry :: rest).length := List.length_pos_of_mem List.mem_cons_self
  refine ⟨?_, by omega, queue ▸ list.ring, round⟩
  refine list.head.trans ?_
  rw [queue, List.head?_cons]

theorem condBroadcast_first {cond entry token : ℕ} (here : d.tokenpos = some token)
    (first : (d.conds cond).head = some entry) (somebody : (d.conds cond).waiters ≠ 0) :
    ∃ entries, d.condBroadcast cond = Determ.setCond
        (Determ.incrFence { d with entries, links := moveWholeList d.links token (some entry) }
          (d.conds cond).waiters) cond ⟨0, none, 0⟩ ∧
      ∀ thread, entries thread =
        if thread ∈ List.iterate d.links.next entry (d.conds cond).waiters then
          { d.entries thread with status := .ready }
        else d.entries thread := by
  obtain ⟨entries, result, spec⟩ :=
    foldl_ready d (List.iterate d.links.next entry (d.conds cond).waiters)
  refine ⟨entries, ?_, spec⟩
  simp only [Determ.condBroadcast, first, here, if_neg somebody]
  rw [wakeWaiters_eq, result, ← here]

/-- The loop wakes everybody in the queue, and nobody else. -/
theorem condBroadcast_woken {cond entry token : ℕ} {rest : List ℕ} (here : d.tokenpos = some token)
    (first : (d.conds cond).head = some entry) (somebody : (d.conds cond).waiters ≠ 0)
    (ring : d.links.Ring ↑(entry :: rest))
    (round : (entry :: rest).length ≤ (d.conds cond).waiters) :
    Woken d (d.condBroadcast cond) (entry :: rest) := by
  obtain ⟨entries, broadcast, spec⟩ := condBroadcast_first here first somebody
  rw [broadcast]
  refine ⟨fun thread => (spec thread).trans ?_, rfl, fun _ => rfl⟩
  simp only [ring.mem_iterate round]

/-- `cond_broadcast`: the whole queue comes behind the token. -/
theorem RingInv.condBroadcast (inv : RingInv d pc bound lists) (plain : (pc me).Plain)
    (cond : ℕ) : ∃ lists', RingInv (d.condBroadcast cond) pc bound lists' := by
  -- without waiters the broadcast does nothing, and the queue has a first thread otherwise
  obtain ⟨token, inside, here⟩ := inv.token me (inv.inRing plain)
  cases queue : lists (.cond cond) with
  | nil =>
    refine ⟨lists, ?_⟩
    rwa [(inv.queue_nil queue).2]
  | cons entry rest =>
    obtain ⟨first, somebody, ring, round⟩ := inv.queue_cons queue
    obtain ⟨entries, broadcast, spec⟩ := condBroadcast_first here first somebody
    let links := moveWholeList d.links token (some entry)
    let d₁ := { d with entries, links }.incrFence (d.conds cond).waiters
    have woken : Woken d (d.condBroadcast cond) (lists (.cond cond)) := by
      rw [queue]
      exact condBroadcast_woken here first somebody ring round
    have heads : head (d.condBroadcast cond) = Function.update (head d) (.cond cond) none := by
      rw [broadcast, head_setCond]
      rfl
    have family := Family.moveWholeList inv.family (.cond cond) inside nofun
    have merged := placed_merge (.cond cond) (d.condBroadcast cond) pc inv
      inside (fun thread => by
        rw [inv.place_woken woken (fun _ => id)]
        simp only [inv.placed])
    refine ⟨_, { inv.books_woken woken (fun _ => id) with
      family := ?_, placed := merged, token := ?_, waiters := ?_ }⟩
    · rw [show head d (.cond cond) = some entry from first] at family
      rw [heads, broadcast]
      exact family
    · -- the token stays with the thread that has it, which stays in the ring
      intro thread _
      refine ⟨token, ?_, ?_⟩
      · rw [Function.update_self, mem_behind inside]
        exact .inr inside
      · rw [broadcast]
        exact here
    · -- the queue is empty now, and so is its counter
      intro c
      have conds : (d₁.setCond cond ⟨0, none, 0⟩).conds =
          Function.update d.conds cond ⟨0, none, 0⟩ := rfl
      rw [Function.update_of_ne (by nofun), broadcast, conds]
      by_cases same : c = cond
      · subst same
        rw [Function.update_self, Function.update_self]
        rfl
      · have different : Place.cond c ≠ Place.cond cond := fun eq => same (Place.cond.inj eq)
        rw [Function.update_of_ne same, Function.update_of_ne different]
        exact inv.waiters c

theorem condSignal_first {cond entry token : ℕ} (here : d.tokenpos = some token)
    (first : (d.conds cond).head = some entry) (somebody : (d.conds cond).waiters ≠ 0) :
    d.condSignal cond = Determ.incrFence
      ((Determ.setStatus { d with
        links := insertHead (EntryList.removeEntry d.links entry (some entry)).1 entry token }
          entry .ready).setCond cond
        { d.conds cond with
          waiters := (d.conds cond).waiters - 1
          head := (EntryList.removeEntry d.links entry (some entry)).2 }) 1 := by
  have behindToken : ({ d with links := (EntryList.removeEntry d.links entry (some entry)).1 } :
      Determ).insertBehindToken entry = { d with
        links := insertHead (EntryList.removeEntry d.links entry (some entry)).1 entry token } :=
    insertBehindToken_eq here
  simp only [Determ.condSignal, first, if_neg somebody]
  rw [behindToken]

theorem condSignal_woken {cond entry token : ℕ} (here : d.tokenpos = some token)
    (first : (d.conds cond).head = some entry) (somebody : (d.conds cond).waiters ≠ 0) :
    Woken d (d.condSignal cond) [entry] := by
  rw [condSignal_first here first somebody]
  refine ⟨fun thread => ?_, rfl, fun _ => rfl⟩
  show Function.update d.entries entry _ thread = _
  by_cases same : thread = entry
  · subst same
    rw [Function.update_self, if_pos List.mem_cons_self]
  · rw [Function.update_of_ne same, if_neg (fun member => same (List.mem_singleton.mp member))]

/-- `cond_signal`: the first waiter comes behind the token. -/
theorem RingInv.condSignal (inv : RingInv d pc bound lists) (plain : (pc me).Plain)
    (cond : ℕ) : ∃ lists', RingInv (d.condSignal cond) pc bound lists' := by
  obtain ⟨token, inside, here⟩ := inv.token me (inv.inRing plain)
  cases queue : lists (.cond cond) with
  | nil =>
    refine ⟨lists, ?_⟩
    rwa [(inv.queue_nil queue).1]
  | cons entry rest =>
    obtain ⟨first, nonempty, -, -⟩ := inv.queue_cons queue
    have count : (d.conds cond).waiters = rest.length + 1 + (d.conds cond).cancelled := by
      rw [inv.waiters, queue, List.length_cons]
    have waiting : entry ∈ lists (.cond cond) := by
      rw [queue]
      exact List.mem_cons_self
    -- the first waiter leaves its queue and comes in front of the ring behind the token
    let removed := EntryList.removeEntry d.links entry (some entry)
    let d₁ := { d with links := insertHead removed.1 entry token }
    let shorter : CondEntry :=
      { d.conds cond with waiters := (d.conds cond).waiters - 1, head := removed.2 }
    let d₂ := (d₁.setStatus entry .ready).setCond cond shorter
    have signal : d.condSignal cond = d₂.incrFence 1 := condSignal_first here first nonempty
    have woken : Woken d (d.condSignal cond) [entry] := condSignal_woken here first nonempty
    have waits : ∀ thread ∈ [entry], thread ∈ lists (.cond cond) := by
      intro thread member
      rw [List.mem_singleton.mp member]
      exact waiting
    have taken := Family.removeEntry inv.family waiting
    have left := relocated_leave inv.family waiting
    have inside' :
        token ∈ Function.update lists (.cond cond) ((lists (.cond cond)).erase entry) .ring := by
      rwa [Function.update_of_ne (by nofun)]
    have family := Family.insertHead taken inside' left.absent
    have relocated := left.trans (relocated_behind inside' left.absent)
    rw [show head d (.cond cond) = some entry from first] at family
    have heads : head (d.condSignal cond) = Function.update (head d) (.cond cond) removed.2 := by
      rw [signal]
      show head ((d₁.setStatus entry .ready).setCond cond shorter) = _
      exact head_setCond
    let rest' := Function.update lists (.cond cond) ((lists (.cond cond)).erase entry)
    refine ⟨Function.update rest' .ring (behind token [entry] (rest' .ring)),
      { inv.books_woken woken waits with family := ?_, placed := ?_, token := ?_, waiters := ?_ }⟩
    · rw [heads, signal]
      exact family
    · -- only the woken thread is in another list now
      intro p thread
      rw [relocated, inv.place_woken woken waits]
      simp only [List.mem_singleton]
      split
      · exact Iff.rfl
      · exact inv.placed p thread
    · intro thread _
      refine ⟨token, ?_, ?_⟩
      · rw [Function.update_self, mem_behind inside']
        exact .inr inside'
      · rw [signal]
        exact here
    · -- one waiter less is counted, and the killed ones are counted on
      intro c
      have conds : (d₂.incrFence 1).conds = Function.update d.conds cond shorter := rfl
      have elsewhere : rest' (.cond c) =
          Function.update lists (.cond cond) ((lists (.cond cond)).erase entry) (.cond c) := rfl
      rw [Function.update_of_ne (by nofun), signal, conds, elsewhere]
      by_cases same : c = cond
      · subst same
        rw [Function.update_self, Function.update_self, queue, List.erase_cons_head]
        show (d.conds c).waiters - 1 = rest.length + (d.conds c).cancelled
        omega
      · have different : Place.cond c ≠ Place.cond cond := fun eq => same (Place.cond.inj eq)
        rw [Function.update_of_ne same, Function.update_of_ne different]
        exact inv.waiters c

/-- A thread in no list comes behind the token. -/
theorem RingInv.sigWaitWoken (inv : RingInv d pc bound lists) (asleep : pc me = .sigWaiting)
    (somebody : d.activelist ≠ none) :
    ∃ lists', RingInv (d.sigWaitWoken me) (Function.update pc me .user) bound lists' := by
  have nonempty : lists .ring ≠ [] := by
    intro empty
    refine somebody ((inv.family.list .ring).head.trans ?_)
    rw [empty, List.head?_nil]
  obtain ⟨first, member⟩ := List.exists_mem_of_ne_nil _ nonempty
  obtain ⟨token, inside, here⟩ := inv.token first member
  -- while it slept in the kernel it was in no list
  have absent : ∀ p, me ∉ lists p := by
    intro p member
    have impossible := (inv.placed p me).mp member
    rw [asleep] at impossible
    cases impossible
  have result : d.sigWaitWoken me = (d.insertBehindToken me).incrFence 1 := by
    simp only [Determ.sigWaitWoken, here]
  rw [result, insertBehindToken_eq here]
  have alive : d.status me ≠ .exit := by
    intro gone
    rw [inv.exited me gone] at asleep
    cases asleep
  refine ⟨_, inv.relocate ?_ (Family.insertHead inv.family inside absent)
    (relocated_behind inside absent) ?_ ?_ ?_⟩
  · -- what the books say of the thread is about other places
    refine inv.toBooks.update ?_ nofun (fun _ _ => rfl) (fun _ => le_rfl) ?_ ?_
      (fun gone => absurd gone alive) (fun _ _ => rfl) ?_
    · rw [asleep]
      nofun
    · rintro bar round (waits | ⟨released, waits⟩) <;> cases waits
    · intro guest
      refine (inv.joining me guest).trans (iff_of_false ?_ nofun)
      rw [asleep]
      nofun
    · intro waits
      obtain ⟨mutex, at_⟩ := inv.waiting me (by rw [asleep]; nofun) waits
      rw [asleep] at at_
      cases at_
  · exact fun thread _ => rfl
  · intro thread _
    refine ⟨token, ?_, here⟩
    rw [Function.update_self, mem_behind inside]
    exact .inr inside
  · intro cond
    rw [Function.update_of_ne (by nofun)]
    exact inv.waiters cond

/-! ## Exit -/

/-- The creator that waits for the thread comes behind the token. -/
theorem RingInv.wakeParent (inv : RingInv d pc bound lists) (plain : (pc me).Plain)
    (creator : ∀ thread, pc thread = .joinWait me → thread = (d.entries me).tidParent) :
    ∃ links lists', (if d.status (d.entries me).tidParent = .joining ∧
          (d.entries (d.entries me).tidParent).joineeThreadIndex = me then
        d.insertBehindToken (d.entries me).tidParent else d) = { d with links } ∧
      Family links (head d) lists' ∧
      (∀ p thread, thread ∈ lists' p ↔
        if pc thread = .joinWait me then Place.ring = p else thread ∈ lists p) ∧
      ∀ cond, lists' (.cond cond) = lists (.cond cond) := by
  obtain ⟨token, inside, here⟩ := inv.token me (inv.inRing plain)
  let parent := (d.entries me).tidParent
  have asleep : ∀ thread, pc thread = .joinWait me → ∀ p, thread ∉ lists p := by
    intro thread waits p member
    have impossible := (inv.placed p thread).mp member
    rw [waits] at impossible
    simp only [place, if_neg (inv.alive plain)] at impossible
    cases impossible
  by_cases waits : pc parent = .joinWait me
  · rw [if_pos ((inv.joining parent me).mpr waits), insertBehindToken_eq here]
    have absent := asleep parent waits
    refine ⟨_, _, rfl, Family.insertHead inv.family inside absent, fun p thread => ?_,
      fun cond => ?_⟩
    · rw [relocated_behind inside absent]
      by_cases same : thread = parent
      · rw [if_pos same, same, if_pos waits, Option.some_inj]
      · have other : pc thread ≠ .joinWait me := fun joins => same (creator thread joins)
        rw [if_neg same, if_neg other]
    · rw [Function.update_of_ne (by simp)]
  · rw [if_neg (fun both => waits ((inv.joining parent me).mp both))]
    refine ⟨d.links, lists, rfl, inv.family, fun p thread => ?_, fun _ => rfl⟩
    have other : pc thread ≠ .joinWait me := by
      intro joins
      rw [creator thread joins] at joins
      exact waits joins
    rw [if_neg other]

/-- `deregisterThread` -/
theorem RingInv.deregisterThread (inv : RingInv d pc bound lists) (plain : (pc me).Plain)
    (creator : ∀ thread, pc thread = .joinWait me → thread = (d.entries me).tidParent) :
    ∃ lists', RingInv (d.deregisterThread me) (Function.update pc me .exited) bound lists' := by
  -- first the parent that joins it is woken
  obtain ⟨links, lists₁, woken, family, members, queues⟩ := inv.wakeParent plain creator
  have notWaiting : pc me ≠ .joinWait me := by
    intro waits
    rw [waits] at plain
    exact plain.elim
  have member : me ∈ lists₁ .ring := by
    rw [members, if_neg notWaiting]
    exact inv.inRing plain
  let d₁ := { d with links }
  let d₂ := if 0 < d₁.alivethreads then
    ({ d₁ with alivethreads := d₁.alivethreads - 1 } : Determ).decrFence else d₁
  have only : Determ.FenceOnly d₁ d₂ := by
    show Determ.FenceOnly d₁ (if _ then _ else _)
    split
    · exact Determ.FenceOnly.trans ⟨rfl⟩ (Determ.decrFence_only _)
    · exact Determ.FenceOnly.refl d₁
  have same := SameLists.of_fenceOnly only
  have result : d.deregisterThread me =
      { (d₂.deactivate me).setStatus me .exit with tokenpos := some (d₂.links.next me) } := by
    simp only [Determ.deregisterThread, woken]
    rfl
  have family₂ : Family d₂.links (head d₂) lists₁ := Family.of_same family same.links same.head
  -- its own entry is the only one that is written
  have entries : (d.deregisterThread me).entries = (d.setStatus me .exit).entries := by
    rw [result]
    show Function.update d₂.entries me { d₂.entries me with status := .exit } = _
    rw [same.entries]
    rfl
  have rounds : ∀ bar, ((d.deregisterThread me).barriers bar).rounds = (d.barriers bar).rounds := by
    rw [result]
    exact same.rounds
  have cond : (d.deregisterThread me).cond = d.cond := by
    rw [result]
    exact same.cond
  have conds : (d.deregisterThread me).conds = d.conds := by
    rw [result]
    exact same.conds
  have gone : (d.deregisterThread me).status me = .exit := by
    rw [Determ.status, entries]
    exact setStatus_status_self
  have others : ∀ thread ≠ me, (d.deregisterThread me).entries thread = d.entries thread := by
    intro thread different
    rw [entries]
    exact setStatus_entries_of_ne different
  have left := relocated_leave family₂ member
  -- an exited thread waits for nothing
  have books : Books (d.deregisterThread me) (Function.update pc me .exited) bound := by
    refine inv.toBooks.update plain.present (by simp) others (fun bar => (rounds bar).ge)
      ?_ ?_ (fun _ => rfl) (fun thread _ => by rw [cond]) ?_
    · rintro bar round (waits | ⟨released, waits⟩) <;> cases waits
    · intro guest
      rw [gone]
      exact iff_of_false (by simp) (by simp)
    · rw [gone]
      simp
  refine ⟨Function.update lists₁ .ring ((lists₁ .ring).erase me),
    { books with family := ?_, placed := ?_, token := ?_, waiters := ?_ }⟩
  · rw [result]
    exact family_deactivate family₂ member
  · intro p thread
    rw [left, members]
    -- the thread itself, the parent that it woke, and all others
    by_cases here : thread = me
    · subst here
      rw [if_pos rfl, Function.update_self]
      rfl
    · rw [if_neg here, Function.update_of_ne here]
      split
      · next joins =>
        rw [joins]
        simp only [place, if_pos gone, Option.some_inj]
      · next other =>
        have unmoved : place (d.deregisterThread me) thread (pc thread) =
            place d thread (pc thread) := by
          refine place_congr ?_ ?_ rounds
          · rw [Determ.status, others thread here, Determ.status]
          · intro guest joins
            have different : guest ≠ me := fun same => other (same ▸ joins)
            rw [Determ.status, others guest different, Determ.status]
        rw [inv.placed, unmoved]
  · rw [result]
    exact fun thread inside => ⟨_, token_leave family₂ member thread inside, rfl⟩
  · intro c
    rw [Function.update_of_ne (by simp), queues, conds]
    exact inv.waiters c

/-! ## Cancelling -/

/-- A thread that is not found stays as it is. -/
theorem cancel_of_ne {target : ℕ} (awake : d.status target ≠ .condWaiting) :
    d.cancel target = d := by
  unfold Determ.cancel
  split
  · next asleep => exact absurd asleep awake
  · rfl

/-- What `cancel` does to a waiter, save for the counters of the fence. -/
structure Dequeued (d d' : Determ) (target : ℕ) (lists : Place → List ℕ) : Prop where
  entries : d'.entries = (d.setStatus target .exit).entries
  cond : d'.cond = d.cond
  tokenpos : d'.tokenpos = d.tokenpos
  rounds : ∀ bar, (d'.barriers bar).rounds = (d.barriers bar).rounds
  family : Family d'.links (head d') (Function.update lists (.cond (d.cond target))
    ((lists (.cond (d.cond target))).erase target))
  others : ∀ cond ≠ d.cond target, d'.conds cond = d.conds cond
  waiters : (d'.conds (d.cond target)).waiters = (d.conds (d.cond target)).waiters
  cancelled : (d'.conds (d.cond target)).cancelled = (d.conds (d.cond target)).cancelled + 1

theorem cancel_dequeues {target : ℕ} (family : Family d.links (head d) lists)
    (asleep : d.status target = .condWaiting) (member : target ∈ lists (.cond (d.cond target))) :
    Dequeued d (d.cancel target) target lists := by
  let removed := EntryList.removeEntry d.links target (d.conds (d.cond target)).head
  let queue : CondEntry :=
    { d.conds (d.cond target) with
      head := removed.2, cancelled := (d.conds (d.cond target)).cancelled + 1 }
  let d₁ := { d with links := removed.1 }.setCond (d.cond target) queue
  -- the fence may lose a thread that it did not count
  obtain ⟨d₂, only, result⟩ : ∃ d₂, Determ.FenceOnly d₁ d₂ ∧
      d.cancel target = d₂.setStatus target .exit := by
    simp only [Determ.cancel, asleep]
    refine ⟨_, ?_, rfl⟩
    split <;> split <;> exact ⟨rfl⟩
  have same := SameLists.of_fenceOnly only
  have conds : (d.cancel target).conds = Function.update d.conds (d.cond target) queue := by
    rw [result]
    exact same.conds
  have heads : head (d.cancel target) =
      Function.update (head d) (.cond (d.cond target)) removed.2 := by
    rw [result]
    exact same.head.trans head_setCond
  refine ⟨?_, ?_, ?_, ?_, ?_, ?_, ?_, ?_⟩
  · rw [result]
    show Function.update d₂.entries target { d₂.entries target with status := .exit } = _
    rw [same.entries]
    rfl
  · rw [result]
    exact same.cond
  · rw [result]
    exact same.tokenpos
  · rw [result]
    exact same.rounds
  · refine Family.of_same (Family.removeEntry family member) ?_ heads
    rw [result]
    exact same.links
  · intro cond different
    rw [conds, Function.update_of_ne different]
  · rw [conds, Function.update_self]
  · rw [conds, Function.update_self]

/-- A waiter is in the queue that its entry names. -/
theorem RingInv.queued (inv : RingInv d pc bound lists) {target : ℕ} (known : target < bound)
    (asleep : d.status target = .condWaiting) : target ∈ lists (.cond (d.cond target)) := by
  have present : pc target ≠ .absent := fun absent =>
    absurd ((inv.fresh target).mp absent) (by omega)
  obtain ⟨mutex, waits⟩ := inv.waiting target present asleep
  rw [inv.placed, waits]
  refine if_neg ?_
  rw [asleep]
  nofun

/-- `cancel`: a waiter leaves its queue, and any other thread stays where it is. -/
theorem RingInv.cancel (inv : RingInv d pc bound lists) {target : ℕ} (known : target < bound)
    (alone : d.status target = .condWaiting → ∀ thread, pc thread ≠ .joinWait target) :
    ∃ lists', RingInv (d.cancel target) (Function.update pc target
      (if d.status target = .condWaiting then .exited else pc target)) bound lists' := by
  -- a thread that waits in a queue leaves it, and any other one just has its mark set
  by_cases asleep : d.status target = .condWaiting
  · rw [if_pos asleep]
    have present : pc target ≠ .absent := fun absent =>
      absurd ((inv.fresh target).mp absent) (by omega)
    have member := inv.queued known asleep
    have left := cancel_dequeues inv.family asleep member
    have others : ∀ thread ≠ target, (d.cancel target).entries thread = d.entries thread := by
      intro thread different
      rw [left.entries]
      exact setStatus_entries_of_ne different
    have gone : (d.cancel target).status target = .exit := by
      rw [Determ.status, left.entries]
      exact setStatus_status_self
    refine ⟨_, inv.relocate ?_ left.family (relocated_leave inv.family member) ?_ ?_ ?_⟩
    · -- the target is gone, and nobody joins it
      refine inv.toBooks.update present (by simp) others (fun bar => (left.rounds bar).ge) ?_ ?_
        (fun _ => rfl) (fun thread _ => by rw [left.cond]) ?_
      · rintro bar round (waits | ⟨released, waits⟩) <;> cases waits
      · intro guest
        rw [gone]
        exact iff_of_false (by simp) (by simp)
      · rw [gone]
        simp
    · intro thread different
      refine place_congr ?_ ?_ left.rounds
      · rw [Determ.status, others thread different, Determ.status]
      · intro guest joins
        have other : guest ≠ target := fun same => alone asleep thread (same ▸ joins)
        rw [Determ.status, others guest other, Determ.status]
    · intro thread inside
      rw [Function.update_of_ne (by simp)] at inside ⊢
      rw [left.tokenpos]
      exact inv.token thread inside
    · -- the waiter counts as cancelled from now on
      intro c
      have before := inv.waiters c
      by_cases here : c = d.cond target
      · subst here
        have positive := List.length_pos_of_mem member
        rw [left.waiters, left.cancelled, Function.update_self, List.length_erase_of_mem member]
        omega
      · have different : Place.cond c ≠ Place.cond (d.cond target) :=
          fun same => here (Place.cond.inj same)
        rw [left.others c here, Function.update_of_ne different]
        exact before
  · rw [if_neg asleep, Function.update_eq_self, cancel_of_ne asleep]
    exact ⟨lists, inv⟩

/-! ## Joining and registering -/

theorem joinBlock_same (absent : d.tokenpos ≠ some me ∨ d.activelist = none) :
    SameLists d (d.joinBlock me) := by
  have same := SameLists.of_fenceOnly (Determ.decrFence_only d)
  have unchanged : d.joinBlock me = d.decrFence := by
    refine if_neg fun both => ?_
    have active : d.decrFence.activelist = d.activelist := congrFun same.head .ring
    rw [same.tokenpos, active] at both
    tauto
  rwa [unchanged]

/-- The token is with the thread that leaves the ring, and goes on. -/
theorem joinBlock_pass (here : d.tokenpos = some me) (others : d.activelist ≠ none) :
    SameLists { d with tokenpos := some (d.links.next me) } (d.joinBlock me) := by
  have same := SameLists.of_fenceOnly (Determ.decrFence_only d)
  have passed : d.joinBlock me = d.decrFence.putToken := by
    refine if_pos ⟨same.tokenpos.trans here, ?_⟩
    have active : d.decrFence.activelist = d.activelist := congrFun same.head .ring
    rwa [active]
  rw [passed]
  refine ⟨same.links, same.head, ?_, same.entries, same.cond, same.conds, same.rounds⟩
  show d.decrFence.tokenpos.map d.decrFence.links.next = _
  rw [same.tokenpos, same.links, here, Option.map_some]

/-- `join` on a thread that is still there: out of the ring, into no list. -/
theorem RingInv.joinBlocks (inv : RingInv d pc bound lists) (plain : (pc me).Plain) {guest : ℕ}
    (there : d.status guest ≠ .exit) :
    ∃ lists', RingInv (d.join guest me).1 (Function.update pc me (.joinWait guest)) bound
      lists' := by
  obtain ⟨family, relocated, token⟩ := inv.leave plain
  let joining : ThreadEntry :=
    { d.entries me with status := .joining, joineeThreadIndex := guest }
  let d₁ := { d.deactivate me with entries := Function.update d.entries me joining }
  have result : (d.join guest me).1 = d₁.joinBlock me := by
    unfold Determ.join
    rw [if_pos there]
    rfl
  let left := Function.update lists .ring ((lists .ring).erase me)
  have others : ∀ thread ≠ me, d₁.entries thread = d.entries thread :=
    fun thread different => Function.update_of_ne different _ _
  have mine : d₁.entries me = joining := Function.update_self ..
  have there' : d₁.status guest ≠ .exit := by
    by_cases self : guest = me
    · rw [self, Determ.status, mine]
      simp
    · rwa [Determ.status, others guest self]
  -- whatever the token is, it has to be in what is left of the ring
  have left_inv : ∀ token, (∀ thread ∈ left .ring, ∃ t ∈ left .ring, token = some t) →
      RingInv { d₁ with tokenpos := token } (Function.update pc me (.joinWait guest))
        bound left := by
    intro token inside
    have books : Books { d₁ with tokenpos := token }
        (Function.update pc me (.joinWait guest)) bound := by
      refine inv.toBooks.update plain.present (by simp) others (fun _ => le_rfl) ?_ ?_ ?_
        (fun _ _ => rfl) ?_
      · rintro bar round (waits | ⟨released, waits⟩) <;> cases waits
      · intro other
        show (d₁.entries me).status = .joining ∧ (d₁.entries me).joineeThreadIndex = other ↔ _
        rw [mine]
        constructor
        · rintro ⟨-, rfl⟩
          rfl
        · intro same
          exact ⟨rfl, Pc.joinWait.inj same⟩
      · intro gone
        change (d₁.entries me).status = .exit at gone
        rw [mine] at gone
        cases gone
      · intro asleep
        change (d₁.entries me).status = .condWaiting at asleep
        rw [mine] at asleep
        cases asleep
    refine inv.relocate books family ?_ ?_ inside ?_
    · have nowhere : place { d₁ with tokenpos := token } me (.joinWait guest) = none :=
        if_neg there'
      rw [nowhere]
      exact relocated
    · intro thread different
      refine place_others (inv.alive plain) ?_ others (fun _ => rfl) different
      show (d₁.entries me).status ≠ .exit
      rw [mine]
      simp
    · intro cond
      have elsewhere : left (.cond cond) = lists (.cond cond) := Function.update_of_ne (by simp) _ _
      rw [elsewhere]
      exact inv.waiters cond
  rw [result]
  by_cases here : d.tokenpos = some me
  · by_cases alone : d₁.activelist = none
    · refine ⟨left, (left_inv d.tokenpos ?_).moved (joinBlock_same (.inr alone)) fun _ => .inl rfl⟩
      have empty : left .ring = [] := List.head?_eq_none_iff.mp
        ((family.list .ring).head.symm.trans alone)
      rw [empty]
      simp
    · refine ⟨left, (left_inv (some (d₁.links.next me)) ?_).moved (joinBlock_pass here alone)
        fun _ => .inl rfl⟩
      intro thread inside
      have next : d₁.links.next me = d.links.next me := removeEntry_next_self
      rw [next]
      exact ⟨_, token thread inside, rfl⟩
  · refine ⟨left, (left_inv d.tokenpos ?_).moved (joinBlock_same (.inl here)) fun _ => .inl rfl⟩
    intro thread inside
    have before : thread ∈ lists .ring := by
      change thread ∈ Function.update lists .ring _ .ring at inside
      rw [Function.update_self] at inside
      exact List.mem_of_mem_erase inside
    obtain ⟨token, member, at_⟩ := inv.token thread before
    refine ⟨token, ?_, at_⟩
    show token ∈ Function.update lists .ring _ .ring
    rw [Function.update_self]
    refine (List.mem_erase_of_ne fun same => here ?_).mpr member
    rw [at_, same]

/-- An entry that was ready or asleep for a join is ready. -/
theorem RingInv.setReady (inv : RingInv d pc bound lists) {new : Pc} (plain : new.Plain)
    (here : place d me (pc me) = some .ring) (alive : d.status me ≠ .exit)
    (present : pc me ≠ .absent) :
    RingInv (d.setStatus me .ready) (Function.update pc me new) bound lists := by
  have notExit : (d.setStatus me .ready).status me ≠ .exit := by
    rw [setStatus_status_self]
    decide
  refine inv.relocate ?_ inv.family ?_ ?_ inv.token inv.waiters
  · refine inv.toBooks.sleep present ?_ rfl (fun _ => rfl) ?_ nofun ?_ nofun
      (fun _ _ => rfl) nofun
    · rintro rfl
      exact plain.elim
    · rintro bar round (waits | ⟨released, waits⟩) <;> rw [waits] at plain <;> exact plain.elim
    · rintro guest rfl
      exact plain.elim
  · intro p thread
    rw [place_of_plain plain]
    split
    · next same => rw [same, inv.placed, here]
    · exact Iff.rfl
  · intro thread different
    exact place_others alive notExit (fun _ => setStatus_entries_of_ne) (fun _ => rfl) different

/-- `join` on a thread that is gone. -/
theorem RingInv.joinPasses (inv : RingInv d pc bound lists) (plain : (pc me).Plain) {guest : ℕ}
    {new : Pc} (plain' : new.Plain) (gone : d.status guest = .exit) :
    RingInv (d.join guest me).1 (Function.update pc me new) bound lists := by
  unfold Determ.join
  rw [if_neg (fun there => there gone)]
  exact inv.setReady plain' (place_of_plain plain) (inv.alive plain) plain.present

/-- A joiner that wakes up too early sleeps on. -/
theorem RingInv.joinSleepsOn (inv : RingInv d pc bound lists) {guest : ℕ}
    (waits : pc me = .joinWait guest) (there : d.status guest ≠ .exit) :
    RingInv (d.joinWoken guest me).1 pc bound lists := by
  have same : SameLists d (d.incrFence 1) := SameLists.of_fenceOnly (Determ.incrFence_only d 1)
  have inv₁ := inv.moved same fun _ => .inl rfl
  have result : (d.joinWoken guest me).1 = (d.incrFence 1).joinBlock me := by
    have there' : (d.incrFence 1).status guest ≠ .exit := there
    simp only [Determ.joinWoken, if_pos there']
  rw [result]
  by_cases alone : d.activelist = none
  · exact inv₁.moved (joinBlock_same (.inr alone)) fun _ => .inl rfl
  · refine inv₁.moved (joinBlock_same (.inl ?_)) fun _ => .inl rfl
    intro here
    have nonempty : lists .ring ≠ [] := by
      intro empty
      refine alone ((inv.family.list .ring).head.trans ?_)
      rw [empty, List.head?_nil]
    obtain ⟨first, member⟩ := List.exists_mem_of_ne_nil _ nonempty
    obtain ⟨token, inside, at_⟩ := inv.token first member
    have mine : token = me := Option.some.inj (at_.symm.trans here)
    have placed := (inv.placed .ring me).mp (mine ▸ inside)
    rw [waits] at placed
    simp only [place, if_neg there] at placed
    cases placed

/-- A joiner whose joinee is gone goes on. -/
theorem RingInv.joinWakes (inv : RingInv d pc bound lists) {guest : ℕ}
    (waits : pc me = .joinWait guest) (gone : d.status guest = .exit) :
    RingInv (d.joinWoken guest me).1 (Function.update pc me .joinToken) bound lists := by
  have same : SameLists d (d.incrFence 1) := SameLists.of_fenceOnly (Determ.incrFence_only d 1)
  have inv₁ := inv.moved same fun _ => .inl rfl
  have result : (d.joinWoken guest me).1 = (d.incrFence 1).setStatus me .ready := by
    have gone' : ¬(d.incrFence 1).status guest ≠ .exit := fun there => there gone
    simp only [Determ.joinWoken, if_neg gone']
  rw [result]
  refine inv₁.setReady trivial ?_ ?_ ?_
  · rw [waits]
    exact if_pos gone
  · intro exit
    have impossible := inv.exited me exit
    rw [waits] at impossible
    cases impossible
  · rw [waits]
    nofun

/-- A new thread comes last in the ring. -/
theorem RingInv.registerThread (inv : RingInv d pc bound lists) (parent : ℕ)
    (somebody : d.activelist ≠ none) :
    ∃ lists', RingInv (d.registerThread bound parent) (Function.update pc bound .registered)
      (bound + 1) lists' := by
  have nonempty : lists .ring ≠ [] := by
    intro empty
    refine somebody ((inv.family.list .ring).head.trans ?_)
    rw [empty, List.head?_nil]
  obtain ⟨first, member⟩ := List.exists_mem_of_ne_nil _ nonempty
  obtain ⟨token, inside, here⟩ := inv.token first member
  -- the number was free, so that no list has it
  have new : pc bound = .absent := (inv.fresh bound).mpr le_rfl
  have absent : ∀ p, bound ∉ lists p := by
    intro p member
    have impossible := (inv.placed p bound).mp member
    rw [new] at impossible
    cases impossible
  have alive : d.status bound ≠ .exit := by
    intro gone
    rw [inv.exited bound gone] at new
    cases new
  let tail := insertTail d.links bound d.activelist
  let d' := d.registerThread bound parent
  have mine : d'.entries bound = ⟨.ready, parent, 0⟩ := Function.update_self ..
  have others : ∀ thread ≠ bound, d'.entries thread = d.entries thread :=
    fun thread different => Function.update_of_ne different _ _
  have heads : head d' = Function.update (head d) .ring tail.2 := by
    funext p
    cases p with
    | ring =>
      rw [Function.update_self]
      rfl
    | cond c =>
      rw [Function.update_of_ne (by simp)]
      rfl
    | barrier bar =>
      rw [Function.update_of_ne (by simp)]
      rfl
  have family := Family.insertTail (p := .ring) inv.family absent
  -- the books of the others, and of a thread that has just registered
  have books : Books d' (Function.update pc bound .registered) (bound + 1) := by
    refine ⟨?_, ?_, ?_, ?_, ?_⟩
    · intro thread bar round waits
      by_cases here : thread = bound
      · rw [here, Function.update_self] at waits
        rcases waits with waits | ⟨released, waits⟩ <;> cases waits
      · rw [Function.update_of_ne here] at waits
        exact inv.rounds thread bar round waits
    · intro thread guest
      by_cases here : thread = bound
      · rw [here, Determ.status, mine, Function.update_self]
        exact iff_of_false (by simp) (by simp)
      · rw [Determ.status, others thread here, Function.update_of_ne here]
        exact inv.joining thread guest
    · intro thread gone
      by_cases here : thread = bound
      · rw [here, Determ.status, mine] at gone
        cases gone
      · rw [Determ.status, others thread here] at gone
        rw [Function.update_of_ne here]
        exact inv.exited thread gone
    · intro thread present asleep
      by_cases here : thread = bound
      · rw [here, Determ.status, mine] at asleep
        cases asleep
      · rw [Determ.status, others thread here] at asleep
        rw [Function.update_of_ne here] at present ⊢
        exact inv.waiting thread present asleep
    · intro thread
      by_cases here : thread = bound
      · rw [here, Function.update_self]
        exact iff_of_false (by simp) (by omega)
      · rw [Function.update_of_ne here, inv.fresh]
        omega
  refine ⟨_, inv.relocate books (Family.of_same family rfl heads)
    (relocated_queue (relocated_self absent)) ?_ ?_ ?_⟩
  · intro thread different
    refine place_others alive ?_ others (fun _ => rfl) different
    rw [Determ.status, mine]
    simp
  · -- the first thread of all gets the token, and any other one leaves it where it is
    intro thread _
    refine ⟨token, ?_, ?_⟩
    · rw [Function.update_self]
      exact List.mem_append_left _ inside
    · show (if d.tokenpos = none then some bound else d.tokenpos) = some token
      rw [here, if_neg (by simp)]
  · intro cond
    rw [Function.update_of_ne (by simp)]
    exact inv.waiters cond

end Tthread.Xrun
