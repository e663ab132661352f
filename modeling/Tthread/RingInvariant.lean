/-
# Where each thread belongs

The ring, every queue and every barrier is a list of entries. A thread is active from its
registration to its exit, save while it waits for a signal, for a joinee, for the last
thread of a barrier or for `sigwait`; the active threads belong to the ring, which the token
goes round. The invariant says that every list has exactly the threads that belong there.
The operations that take one thread from a list, or put it into one, keep it.
-/

import Tthread.Xrun

namespace Tthread.Xrun

open Transition EntryList

/-- A list of entries. -/
inductive Place
  | ring
  | cond (cond : ℕ)
  | barrier (bar : ℕ)
  deriving DecidableEq

/-- The head of a list. -/
def head (d : Determ) : Place → Option ℕ
  | .ring => d.activelist
  | .cond cond => (d.conds cond).head
  | .barrier bar => (d.barriers bar).head

/-- Where a thread belongs, by what it does. -/
def place (d : Determ) (thread : ℕ) : Pc → Option Place
  | .absent | .exited | .sigWaiting => none
  | .condWaiting cond _ => if d.status thread = .ready then some .ring else some (.cond cond)
  | .joinWait guest => if d.status guest = .exit then some .ring else none
  | .barrierEnter bar round | .barrierBlocked bar round _ =>
      if (d.barriers bar).rounds = round then some (.barrier bar) else some .ring
  | _ => some .ring

def State.pc (s : State) (thread : ℕ) : Pc := (s.thread thread).pc

def Active (s : State) (thread : ℕ) : Prop := place s.determ thread (s.pc thread) = some .ring

instance (s : State) (thread : ℕ) : Decidable (Active s thread) :=
  inferInstanceAs (Decidable (_ = _))

/-! ## The invariant -/

/-- The thread has entered the barrier in this round. -/
def Pc.InBarrier (at_ : Pc) (bar round : ℕ) : Prop :=
  at_ = .barrierEnter bar round ∨ ∃ released, at_ = .barrierBlocked bar round released

/-- What the entries of the threads say about them. -/
structure Books (d : Determ) (pc : ℕ → Pc) (bound : ℕ) : Prop where
  rounds : ∀ thread bar round, (pc thread).InBarrier bar round → round ≤ (d.barriers bar).rounds
  joining : ∀ thread guest, (d.status thread = .joining ∧
    (d.entries thread).joineeThreadIndex = guest) ↔ pc thread = .joinWait guest
  exited : ∀ thread, d.status thread = .exit → pc thread = .exited
  waiting : ∀ thread, pc thread ≠ .absent → d.status thread = .condWaiting →
    ∃ mutex, pc thread = .condWaiting (d.cond thread) mutex
  fresh : ∀ thread, pc thread = .absent ↔ bound ≤ thread

/-- The threads of each list are those that belong there. -/
structure RingInv (d : Determ) (pc : ℕ → Pc) (bound : ℕ) (lists : Place → List ℕ) : Prop
    extends Books d pc bound where
  family : Family d.links (head d) lists
  placed : ∀ p thread, thread ∈ lists p ↔ place d thread (pc thread) = some p
  token : ∀ thread ∈ lists .ring, ∃ token ∈ lists .ring, d.tokenpos = some token
  waiters : ∀ cond,
    (d.conds cond).waiters = (lists (.cond cond)).length + (d.conds cond).cancelled

variable {s s' : State} {d d' : Determ} {pc pc' : ℕ → Pc} {bound me : ℕ}
  {lists : Place → List ℕ}

/-- Where a thread belongs only depends on who is ready, who has exited, and the rounds. -/
theorem place_congr {thread : ℕ} {at_ : Pc}
    (ready : d'.status thread = .ready ↔ d.status thread = .ready)
    (exit : ∀ guest, at_ = .joinWait guest → (d'.status guest = .exit ↔ d.status guest = .exit))
    (rounds : ∀ bar, (d'.barriers bar).rounds = (d.barriers bar).rounds) :
    place d' thread at_ = place d thread at_ := by
  cases at_ with
  | joinWait guest => simp only [place, exit guest rfl]
  | _ => simp only [place, ready, rounds]

/-- Neither waiting for somebody else nor gone. -/
def Pc.Plain : Pc → Prop
  | .absent | .exited | .sigWaiting | .condWaiting .. | .joinWait _ | .barrierEnter ..
  | .barrierBlocked .. => False
  | _ => True

theorem place_of_plain {thread : ℕ} {at_ : Pc} (plain : at_.Plain) :
    place d thread at_ = some .ring := by
  cases at_ <;> first | rfl | exact plain.elim

/-- Nothing that the lists are about changes. -/
structure SameLists (d d' : Determ) : Prop where
  links : d'.links = d.links
  head : head d' = head d
  tokenpos : d'.tokenpos = d.tokenpos
  entries : d'.entries = d.entries
  cond : d'.cond = d.cond
  conds : d'.conds = d.conds
  rounds : ∀ bar, (d'.barriers bar).rounds = (d.barriers bar).rounds

theorem SameLists.place (same : SameLists d d') {thread : ℕ} {at_ : Pc} :
    place d' thread at_ = place d thread at_ := by
  apply place_congr
  · simp only [Determ.status, same.entries]
  · intro guest _
    rw [Determ.status, same.entries, Determ.status]
  · exact same.rounds

theorem Family.of_same {links links' : DoublyLinked.Links ℕ} {heads heads' : Place → Option ℕ}
    (family : Family links heads lists) (sameLinks : links' = links) (sameHeads : heads' = heads) :
    Family links' heads' lists := by
  rwa [sameLinks, sameHeads]

/-- A step of a thread that leaves it in its list. -/
structure Moves (d : Determ) (thread : ℕ) (old new : Pc) : Prop where
  place : place d thread new = place d thread old
  joins : ∀ guest, new = .joinWait guest ↔ old = .joinWait guest
  rounds : ∀ bar round, new.InBarrier bar round → round ≤ (d.barriers bar).rounds
  exited : old = .exited → new = .exited
  waits : d.status thread = .condWaiting → ∀ cond mutex, old = .condWaiting cond mutex → new = old
  absent : old = .absent ↔ new = .absent

theorem Moves.of_plain {thread : ℕ} {old new : Pc} (before : old.Plain) (after : new.Plain) :
    Moves d thread old new where
  place := (place_of_plain after).trans (place_of_plain before).symm
  joins guest := by
    constructor
    · rintro rfl
      exact after.elim
    · rintro rfl
      exact before.elim
  rounds bar round waits := by
    rcases waits with rfl | ⟨released, rfl⟩
    · exact after.elim
    · exact after.elim
  exited := by
    rintro rfl
    exact before.elim
  waits _ cond mutex := by
    rintro rfl
    exact before.elim
  absent := by
    constructor
    · rintro rfl
      exact before.elim
    · rintro rfl
      exact after.elim

theorem RingInv.moved (inv : RingInv d pc bound lists) (same : SameLists d d')
    (moves : ∀ thread, pc' thread = pc thread ∨ Moves d thread (pc thread) (pc' thread)) :
    RingInv d' pc' bound lists where
  -- The lists are the same, and a thread that moves keeps its place in them.
  family := Family.of_same inv.family same.links same.head
  placed p thread := by
    rw [inv.placed, same.place]
    rcases moves thread with unchanged | moves
    · rw [unchanged]
    · rw [moves.place]
  token thread member := by
    rw [same.tokenpos]
    exact inv.token thread member
  waiters cond := by
    rw [same.conds]
    exact inv.waiters cond
  rounds thread bar round waits := by
    rw [same.rounds]
    rcases moves thread with unchanged | moves
    · exact inv.rounds thread bar round (unchanged ▸ waits)
    · exact moves.rounds bar round waits
  joining thread guest := by
    rw [Determ.status, same.entries]
    refine (inv.joining thread guest).trans ?_
    rcases moves thread with unchanged | moves
    · rw [unchanged]
    · exact (moves.joins guest).symm
  exited thread gone := by
    rw [Determ.status, same.entries] at gone
    have before := inv.exited thread gone
    rcases moves thread with unchanged | moves
    · exact unchanged.trans before
    · exact moves.exited before
  waiting thread present asleep := by
    rw [Determ.status, same.entries] at asleep
    rw [same.cond]
    rcases moves thread with unchanged | moves
    · rw [unchanged] at present ⊢
      exact inv.waiting thread present asleep
    · -- Asleep at a condition variable, it moves within its wait.
      obtain ⟨mutex, waits⟩ :=
        inv.waiting thread (fun absent => present (moves.absent.mp absent)) asleep
      exact ⟨mutex, (moves.waits asleep _ _ waits).trans waits⟩
  fresh thread := by
    rcases moves thread with unchanged | moves
    · rw [unchanged]
      exact inv.fresh thread
    · exact moves.absent.symm.trans (inv.fresh thread)

/-! ## Operations that leave the lists alone -/

theorem SameLists.of_fenceOnly (only : Determ.FenceOnly d d') : SameLists d d' := by
  rw [only.eq]
  exact ⟨rfl, rfl, rfl, rfl, rfl, rfl, fun _ => rfl⟩

theorem lockIsowner_same {mutex : ℕ} : SameLists d (d.lockIsowner mutex me).1 := by
  unfold Determ.lockIsowner
  split
  · exact ⟨rfl, rfl, rfl, rfl, rfl, rfl, fun _ => rfl⟩
  · split
    · split <;> exact ⟨rfl, rfl, rfl, rfl, rfl, rfl, fun _ => rfl⟩
    · exact ⟨rfl, rfl, rfl, rfl, rfl, rfl, fun _ => rfl⟩

theorem lockAcquire_same {mutex : ℕ} : SameLists d (d.lockAcquire mutex me).1 :=
  ⟨rfl, rfl, rfl, rfl, rfl, rfl, fun _ => rfl⟩

theorem lockRelease_same {mutex : ℕ} (released : d.lockRelease mutex = some d') :
    SameLists d d' := by
  obtain ⟨entry, -, rfl⟩ := Option.map_eq_some_iff.mp released
  exact ⟨rfl, rfl, rfl, rfl, rfl, rfl, fun _ => rfl⟩

theorem setBarrier_same {bar : ℕ} {entry : BarrierEntry}
    (heads : entry.head = (d.barriers bar).head) (rounds : entry.rounds = (d.barriers bar).rounds) :
    SameLists d (d.setBarrier bar entry) := by
  have keeps : ∀ other, ((d.setBarrier bar entry).barriers other).head = (d.barriers other).head ∧
      ((d.setBarrier bar entry).barriers other).rounds = (d.barriers other).rounds := by
    intro other
    show (Function.update d.barriers bar entry other).head = _ ∧
      (Function.update d.barriers bar entry other).rounds = _
    by_cases here : other = bar
    · subst here
      rw [Function.update_self]
      exact ⟨heads, rounds⟩
    · rw [Function.update_of_ne here]
      exact ⟨rfl, rfl⟩
  refine ⟨rfl, ?_, rfl, rfl, rfl, rfl, fun other => (keeps other).2⟩
  funext p
  cases p with
  | ring => rfl
  | cond c => rfl
  | barrier other => exact (keeps other).1

theorem realBarrierWait_same {bar : ℕ} : SameLists d (d.realBarrierWait bar) := by
  simp only [Determ.realBarrierWait]
  split <;> exact setBarrier_same rfl rfl

/-- The token may be anywhere in the ring. -/
theorem RingInv.passToken (inv : RingInv d pc bound lists) {token : ℕ}
    (inside : ∀ thread ∈ lists .ring, token ∈ lists .ring) :
    RingInv { d with tokenpos := some token } pc bound lists :=
  { inv with token := fun thread member => ⟨token, inside thread member, rfl⟩ }

theorem RingInv.putToken (inv : RingInv d pc bound lists) : RingInv d.putToken pc bound lists := by
  refine { inv with token := fun thread member => ?_ }
  obtain ⟨token, inRing, here⟩ := inv.token thread member
  refine ⟨d.links.next token, (inv.family.list .ring).ring.next_mem inRing, ?_⟩
  show d.tokenpos.map d.links.next = _
  rw [here, Option.map_some]

/-! ## Operations that move threads between lists -/

theorem family_deactivate (family : Family d.links (head d) lists) (member : me ∈ lists .ring) :
    Family (d.deactivate me).links (head (d.deactivate me))
      (Function.update lists .ring ((lists .ring).erase me)) := by
  refine Family.of_same (Family.removeEntry family member) rfl ?_
  funext p
  cases p with
  | ring =>
    rw [Function.update_self]
    rfl
  | cond c =>
    rw [Function.update_of_ne (by nofun)]
    rfl
  | barrier bar =>
    rw [Function.update_of_ne (by nofun)]
    rfl

theorem insertBehindToken_eq {token : ℕ} (here : d.tokenpos = some token) :
    d.insertBehindToken me = { d with links := insertHead d.links me token } := by
  simp only [Determ.insertBehindToken, here]

theorem head_setCond {cond : ℕ} {entry : CondEntry} :
    head (d.setCond cond entry) = Function.update (head d) (.cond cond) entry.head := by
  funext p
  cases p with
  | ring =>
    rw [Function.update_of_ne (by nofun)]
    rfl
  | barrier bar =>
    rw [Function.update_of_ne (by nofun)]
    rfl
  | cond c =>
    show (Function.update d.conds cond entry c).head = _
    by_cases here : c = cond
    · subst here
      rw [Function.update_self, Function.update_self]
    · have different : Place.cond c ≠ Place.cond cond := fun same => here (Place.cond.inj same)
      rw [Function.update_of_ne here, Function.update_of_ne different]
      rfl

theorem head_setBarrier {bar : ℕ} {entry : BarrierEntry} :
    head (d.setBarrier bar entry) = Function.update (head d) (.barrier bar) entry.head := by
  funext p
  cases p with
  | ring =>
    rw [Function.update_of_ne (by nofun)]
    rfl
  | cond c =>
    rw [Function.update_of_ne (by nofun)]
    rfl
  | barrier b =>
    show (Function.update d.barriers bar entry b).head = _
    by_cases here : b = bar
    · subst here
      rw [Function.update_self, Function.update_self]
    · have different : Place.barrier b ≠ Place.barrier bar :=
        fun same => here (Place.barrier.inj same)
      rw [Function.update_of_ne here, Function.update_of_ne different]
      rfl

/-- The threads of the lists are the same, but for where one of them is. -/
def Relocated (me : ℕ) (destination : Option Place) (lists lists' : Place → List ℕ) : Prop :=
  ∀ p thread, thread ∈ lists' p ↔ if thread = me then destination = some p else thread ∈ lists p

theorem relocated_leave {links : DoublyLinked.Links ℕ} {heads : Place → Option ℕ} {q : Place}
    (family : Family links heads lists) (member : me ∈ lists q) :
    Relocated me none lists (Function.update lists q ((lists q).erase me)) := by
  intro p thread
  have nodup : (lists q).Nodup := (family.list q).ring.nodup
  rw [mem_update_iff, nodup.mem_erase_iff]
  split
  · next here =>
    subst here
    have elsewhere : p ≠ q → thread ∉ lists p :=
      fun other inside => other (family.apart p q thread inside member)
    simp only [ne_eq, not_true_eq_false, false_and, and_false, false_or, reduceCtorEq, iff_false,
      not_and]
    exact elsewhere
  · next different =>
    by_cases here : p = q
    · subst here
      simp [different]
    · simp [here]

/-- A thread that is in no list has already left. -/
theorem relocated_self (absent : ∀ p, me ∉ lists p) : Relocated me none lists lists := by
  intro p thread
  split
  · next here =>
    subst here
    exact iff_of_false (absent p) nofun
  · exact Iff.rfl

theorem Relocated.trans {lists' lists'' : Place → List ℕ} {p p' : Option Place}
    (first : Relocated me p lists lists') (second : Relocated me p' lists' lists'') :
    Relocated me p' lists lists'' := by
  intro q thread
  rw [second, first]
  split <;> rfl

theorem relocated_queue {lists' : Place → List ℕ} {p : Place}
    (left : Relocated me none lists lists') :
    Relocated me (some p) lists (Function.update lists' p (lists' p ++ [me])) := by
  intro q thread
  rw [mem_update_iff, List.mem_append, List.mem_singleton, left, left]
  by_cases here : q = p
  · subst here
    split <;> simp_all
  · have other : some p ≠ some q := fun same => here (Option.some.inj same).symm
    split <;> simp_all

theorem relocated_behind {token : ℕ} (member : token ∈ lists .ring) (fresh : ∀ p, me ∉ lists p) :
    Relocated me (some .ring) lists
      (Function.update lists .ring (behind token [me] (lists .ring))) := by
  intro p thread
  rw [mem_update_iff, mem_behind member, List.mem_singleton]
  by_cases here : p = .ring
  · subst here
    split <;> simp_all
  · have other : some Place.ring ≠ some p := fun same => here (Option.some.inj same).symm
    split <;> simp_all

/-- One thread goes on to `new`, with a new entry. -/
theorem Books.update (books : Books d pc bound) {new : Pc} (present : pc me ≠ .absent)
    (present' : new ≠ .absent)
    (entries : ∀ thread ≠ me, d'.entries thread = d.entries thread)
    (rounds : ∀ bar, (d.barriers bar).rounds ≤ (d'.barriers bar).rounds)
    (inBarrier : ∀ bar round, new.InBarrier bar round → round ≤ (d'.barriers bar).rounds)
    (joining : ∀ guest, (d'.status me = .joining ∧
      (d'.entries me).joineeThreadIndex = guest) ↔ new = .joinWait guest)
    (exited : d'.status me = .exit → new = .exited)
    (cond : ∀ thread ≠ me, d'.cond thread = d.cond thread)
    (waiting : d'.status me = .condWaiting → ∃ mutex, new = .condWaiting (d'.cond me) mutex) :
    Books d' (Function.update pc me new) bound where
  -- By cases on the thread: the books of `me` are given, those of the others are the old ones.
  rounds thread bar round waits := by
    by_cases here : thread = me
    · subst here
      rw [Function.update_self] at waits
      exact inBarrier bar round waits
    · rw [Function.update_of_ne here] at waits
      exact (books.rounds thread bar round waits).trans (rounds bar)
  joining thread guest := by
    by_cases here : thread = me
    · subst here
      rw [Function.update_self]
      exact joining guest
    · rw [Function.update_of_ne here, Determ.status, entries thread here]
      exact books.joining thread guest
  exited thread gone := by
    by_cases here : thread = me
    · subst here
      rw [Function.update_self]
      exact exited gone
    · rw [Function.update_of_ne here]
      rw [Determ.status, entries thread here] at gone
      exact books.exited thread gone
  waiting thread present asleep := by
    by_cases here : thread = me
    · subst here
      rw [Function.update_self]
      exact waiting asleep
    · rw [Function.update_of_ne here] at present ⊢
      rw [Determ.status, entries thread here] at asleep
      rw [cond thread here]
      exact books.waiting thread present asleep
  fresh thread := by
    by_cases here : thread = me
    · subst here
      rw [Function.update_self]
      exact iff_of_false present' fun beyond => present ((books.fresh thread).mpr beyond)
    · rw [Function.update_of_ne here]
      exact books.fresh thread

theorem RingInv.relocate {lists' : Place → List ℕ} {new : Pc} {bound' : ℕ}
    (inv : RingInv d pc bound lists) (books : Books d' (Function.update pc me new) bound')
    (family : Family d'.links (head d') lists')
    (relocated : Relocated me (place d' me new) lists lists')
    (others : ∀ thread ≠ me, place d' thread (pc thread) = place d thread (pc thread))
    (token : ∀ thread ∈ lists' .ring, ∃ token ∈ lists' .ring, d'.tokenpos = some token)
    (waiters : ∀ cond,
      (d'.conds cond).waiters = (lists' (.cond cond)).length + (d'.conds cond).cancelled) :
    RingInv d' (Function.update pc me new) bound' lists' :=
  { books with
    family, token, waiters
    placed := by
      intro p thread
      rw [relocated]
      split
      · next here => rw [here, Function.update_self]
      · next different =>
        rw [Function.update_of_ne different, others thread different]
        exact inv.placed p thread }

/-- The places of the other threads, when the entry of one that stays alive changes. -/
theorem place_others (alive : d.status me ≠ .exit) (alive' : d'.status me ≠ .exit)
    (entries : ∀ thread ≠ me, d'.entries thread = d.entries thread)
    (rounds : ∀ bar, (d'.barriers bar).rounds = (d.barriers bar).rounds) {thread : ℕ}
    (different : thread ≠ me) {at_ : Pc} : place d' thread at_ = place d thread at_ := by
  refine place_congr ?_ (fun guest _ => ?_) rounds
  · rw [Determ.status, entries thread different, Determ.status]
  · by_cases here : guest = me
    · subst here
      exact iff_of_false alive' alive
    · rw [Determ.status, entries guest here, Determ.status]

/-- The token goes to whoever follows the thread that leaves. -/
theorem token_leave (family : Family d.links (head d) lists) (member : me ∈ lists .ring) :
    ∀ thread ∈ Function.update lists .ring ((lists .ring).erase me) .ring,
      d.links.next me ∈ Function.update lists .ring ((lists .ring).erase me) .ring := by
  intro thread inside
  rw [Function.update_self] at inside ⊢
  exact next_mem_erase (family.list .ring).ring member (List.ne_nil_of_mem inside)

theorem setStatus_entries_of_ne {thread : ℕ} {status : Status} (different : thread ≠ me) :
    (d.setStatus me status).entries thread = d.entries thread := Function.update_of_ne different _ _

theorem setStatus_status_self {status : Status} : (d.setStatus me status).status me = status := by
  show (Function.update d.entries me _ me).status = _
  rw [Function.update_self]

/-- A thread in the program or with the token is in the ring. -/
theorem RingInv.inRing (inv : RingInv d pc bound lists) (plain : (pc me).Plain) :
    me ∈ lists .ring := (inv.placed .ring me).mpr (place_of_plain plain)

theorem RingInv.alive (inv : RingInv d pc bound lists) (plain : (pc me).Plain) :
    d.status me ≠ .exit := by
  intro gone
  rw [inv.exited me gone] at plain
  exact plain.elim

/-- Such a thread waits for no condition, and its entry says so. -/
theorem RingInv.awake (inv : RingInv d pc bound lists) (plain : (pc me).Plain) :
    d.status me ≠ .condWaiting := by
  intro asleep
  have present : pc me ≠ .absent := by
    intro absent
    rw [absent] at plain
    exact plain.elim
  obtain ⟨mutex, waits⟩ := inv.waiting me present asleep
  rw [waits] at plain
  exact plain.elim

theorem Pc.Plain.present (plain : (pc me).Plain) : pc me ≠ .absent := by
  intro absent
  rw [absent] at plain
  exact plain.elim

/-- Take a thread out of the ring and pass the token on: what stays to be said is where the
thread belongs now. -/
theorem RingInv.leave (inv : RingInv d pc bound lists) (plain : (pc me).Plain) :
    Family (d.deactivate me).links (head (d.deactivate me))
        (Function.update lists .ring ((lists .ring).erase me)) ∧
      Relocated me none lists (Function.update lists .ring ((lists .ring).erase me)) ∧
      ∀ thread ∈ Function.update lists .ring ((lists .ring).erase me) .ring,
        d.links.next me ∈ Function.update lists .ring ((lists .ring).erase me) .ring :=
  have member := inv.inRing plain
  ⟨family_deactivate inv.family member, relocated_leave inv.family member,
    token_leave inv.family member⟩

/-- `sigwait`: out of the ring, into no list. -/
theorem RingInv.sigWait (inv : RingInv d pc bound lists) (plain : (pc me).Plain) :
    ∃ lists', RingInv (d.sigWait me) (Function.update pc me .sigWaiting) bound lists' := by
  obtain ⟨family, relocated, token⟩ := inv.leave plain
  have same := SameLists.of_fenceOnly (Determ.decrFence_only (d.deactivate me))
  have entries : (d.sigWait me).entries = d.entries := same.entries
  have rounds : ∀ bar, ((d.sigWait me).barriers bar).rounds = (d.barriers bar).rounds :=
    same.rounds
  have alive := inv.alive plain
  have alive' : (d.sigWait me).status me ≠ .exit := by
    rw [Determ.status, entries]
    exact alive
  refine ⟨_, inv.relocate ?_ (Family.of_same family same.links same.head) relocated ?_ ?_ ?_⟩
  · refine inv.toBooks.update plain.present nofun (fun thread _ => by rw [entries]) ?_ ?_ ?_ ?_
      (fun thread _ => congrFun same.cond thread) ?_
    · exact fun bar => (rounds bar).ge
    · rintro bar round (waits | ⟨released, waits⟩) <;> cases waits
    · intro guest
      rw [Determ.status, entries]
      refine (inv.joining me guest).trans (iff_of_false ?_ nofun)
      intro joins
      rw [joins] at plain
      exact plain.elim
    · exact fun gone => absurd gone alive'
    · intro asleep
      rw [Determ.status, entries] at asleep
      exact absurd asleep (inv.awake plain)
  · exact fun thread different =>
      place_others alive alive' (fun _ _ => by rw [entries]) rounds different
  · exact fun thread inside => ⟨_, token thread inside, rfl⟩
  · intro cond
    have conds : (d.sigWait me).conds = d.conds := same.conds
    rw [Function.update_of_ne (by nofun), conds]
    exact inv.waiters cond

theorem Relocated.absent {lists' : Place → List ℕ} (left : Relocated me none lists lists') :
    ∀ p, me ∉ lists' p := by
  intro p inside
  have none_eq := (left p me).mp inside
  rw [if_pos rfl] at none_eq
  cases none_eq

/-- The books of a thread that goes to sleep in a list. -/
theorem Books.sleep (books : Books d pc bound) {new : Pc} {status : Status}
    (present : pc me ≠ .absent) (present' : new ≠ .absent)
    (entries : d'.entries = (d.setStatus me status).entries)
    (rounds : ∀ bar, (d'.barriers bar).rounds = (d.barriers bar).rounds)
    (inBarrier : ∀ bar round, new.InBarrier bar round → round ≤ (d.barriers bar).rounds)
    (notJoining : status ≠ .joining) (notWaiting : ∀ guest, new ≠ .joinWait guest)
    (notExit : status ≠ .exit) (cond : ∀ thread ≠ me, d'.cond thread = d.cond thread)
    (waiting : status = .condWaiting → ∃ mutex, new = .condWaiting (d'.cond me) mutex) :
    Books d' (Function.update pc me new) bound := by
  have mine : d'.status me = status := by
    rw [Determ.status, entries]
    exact setStatus_status_self
  refine books.update present present' ?_ (fun bar => (rounds bar).ge) ?_ ?_ ?_ cond ?_
  · intro thread different
    rw [entries]
    exact setStatus_entries_of_ne different
  · intro bar round waits
    rw [rounds]
    exact inBarrier bar round waits
  · intro guest
    rw [mine]
    exact iff_of_false (fun both => notJoining both.1) (notWaiting guest)
  · intro gone
    exact absurd (mine.symm.trans gone) notExit
  · exact fun asleep => waiting (mine.symm.trans asleep)

/-- `cond_wait`: out of the ring, to the end of the queue. -/
theorem RingInv.condWait (inv : RingInv d pc bound lists) (plain : (pc me).Plain)
    (cond mutex : ℕ) : ∃ lists', RingInv (d.condWait me cond)
      (Function.update pc me (.condWaiting cond mutex)) bound lists' := by
  -- Out of the ring first, then to the end of the queue, as the code does it.
  obtain ⟨family, relocated, token⟩ := inv.leave plain
  have queued := Family.insertTail (p := .cond cond) family relocated.absent
  have relocated' := relocated_queue (p := .cond cond) relocated
  let d₁ := d.deactivate me
  let tail := insertTail d₁.links me (d₁.conds cond).head
  let queue : CondEntry :=
    { d₁.conds cond with waiters := (d₁.conds cond).waiters + 1, head := tail.2 }
  let d₂ := Determ.setStatus
    { { d₁ with links := tail.1 }.setCond cond queue with
      cond := Function.update d.cond me cond } me .condWaiting
  -- The fence is told last; it leaves lists and entries.
  have same : SameLists d₂ d₂.decrFence := SameLists.of_fenceOnly (Determ.decrFence_only d₂)
  have heads : head d₂ = Function.update (head d₁) (.cond cond) tail.2 := by
    show head ({ d₁ with links := tail.1 }.setCond cond queue) = _
    exact head_setCond
  have entries : (d.condWait me cond).entries = (d.setStatus me .condWaiting).entries :=
    same.entries
  have rounds : ∀ bar, ((d.condWait me cond).barriers bar).rounds = (d.barriers bar).rounds :=
    same.rounds
  have mine : (d.condWait me cond).status me = .condWaiting := by
    rw [Determ.status, entries]
    exact setStatus_status_self
  refine ⟨_, inv.relocate ?_ (Family.of_same queued same.links (same.head.trans heads)) ?_ ?_ ?_ ?_⟩
  · refine inv.toBooks.sleep plain.present nofun entries rounds ?_ (by decide)
      nofun (by decide) ?_ ?_
    · rintro bar round (waits | ⟨released, waits⟩) <;> cases waits
    · exact fun thread different =>
        (congrFun same.cond thread).trans (Function.update_of_ne different _ _)
    · intro _
      have mine : (d.condWait me cond).cond me = cond :=
        (congrFun same.cond me).trans (Function.update_self ..)
      exact ⟨mutex, by rw [mine]⟩
  · have here : place (d.condWait me cond) me (.condWaiting cond mutex) = some (.cond cond) := by
      refine if_neg ?_
      rw [mine]
      decide
    rw [here]
    exact relocated'
  · intro thread different
    refine place_others (inv.alive plain) ?_ ?_ rounds different
    · rw [mine]
      decide
    · intro other ne
      rw [entries]
      exact setStatus_entries_of_ne ne
  · intro thread inside
    rw [Function.update_of_ne (by nofun)] at inside ⊢
    exact ⟨_, token thread inside, rfl⟩
  · -- One waiter more in this queue; the other queues are as before.
    intro c
    have conds : (d.condWait me cond).conds = Function.update d.conds cond queue := same.conds
    rw [conds]
    by_cases here : c = cond
    · subst here
      rw [Function.update_self, Function.update_self, List.length_append,
        Function.update_of_ne (by nofun), List.length_singleton]
      have before := inv.waiters c
      show (d.conds c).waiters + 1 = _ + (d.conds c).cancelled
      omega
    · have different : Place.cond c ≠ Place.cond cond := fun same => here (Place.cond.inj same)
      rw [Function.update_of_ne here, Function.update_of_ne different,
        Function.update_of_ne (by nofun)]
      exact inv.waiters c

end Tthread.Xrun
