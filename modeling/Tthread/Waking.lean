/-
# Signals and broadcasts

The token holder wakes the waiters of a condition variable, one signal after the other or all
at once. A signal takes the first waiter and puts it right behind the token, in front of those
that were woken before; a broadcast splices the queue in as it is. Everything else comes out
the same.
-/

import Tthread.RingMoves

namespace Tthread.Waking

open DoublyLinked EntryList Xrun

/-- The token is at `token`, `rest` come behind it in the ring, and `q` wait, the oldest
first. -/
structure Queued (d : Determ) (cond token : ℕ) (rest q : List ℕ) : Prop where
  tokenpos : d.tokenpos = some token
  ring : d.links.Ring ↑(token :: rest)
  queue : IsList d.links (d.conds cond).head q
  waiters : (d.conds cond).waiters = q.length
  apart : ∀ thread ∈ q, thread ∉ token :: rest

/-- The order of the active threads behind the token. -/
def RingOrder (d : Determ) (order : List ℕ) : Prop :=
  ∃ token, d.tokenpos = some token ∧ d.links.Ring ↑(token :: order)

/-- The ring, the queue, the count of the waiters, the statuses and the fence are the same. -/
structure SameOutcome (cond : ℕ) (d d' : Determ) : Prop where
  ring : ∀ order, RingOrder d order ↔ RingOrder d' order
  queue : ∀ q, IsList d.links (d.conds cond).head q ↔ IsList d'.links (d'.conds cond).head q
  waiters : (d.conds cond).waiters = (d'.conds cond).waiters
  status : ∀ thread, d.status thread = d'.status thread
  maxthreads : d.maxthreads = d'.maxthreads

/-- So many signals, one after the other. -/
def signals (d : Determ) (cond n : ℕ) : Determ := (fun d => d.condSignal cond)^[n] d

/-- As many signals as there are waiters do what one broadcast does, and the waiters follow the
token in the order in which they started to wait. -/
def SignalsAsBroadcast (d : Determ) (cond : ℕ) (rest q : List ℕ) : Prop :=
  SameOutcome cond (signals d cond q.length) (d.condBroadcast cond) ∧
    RingOrder (signals d cond q.length) (q ++ rest)

variable {d : Determ} {cond token first : ℕ} {rest q order order' : List ℕ}

/-! ## The order of a ring -/

/-- The links fix the order behind an entry. -/
theorem ring_order_unique {links : Links ℕ} (ring : links.Ring ↑(token :: order))
    (ring' : links.Ring ↑(token :: order')) : order = order' := by
  have list : IsList links (some token) (token :: order) := ⟨rfl, ring⟩
  have list' : IsList links (some token) (token :: order') := ⟨rfl, ring'⟩
  have length := (list.perm list').length_eq
  have same := calc token :: order
    _ = List.iterate links.next token (token :: order).length := ring.path.iterate.symm
    _ = List.iterate links.next token (token :: order').length := by rw [length]
    _ = token :: order' := ring'.path.iterate
  exact List.tail_eq_of_cons_eq same

theorem Queued.ringOrder_iff (queued : Queued d cond token rest q) :
    RingOrder d order ↔ order = rest := by
  constructor
  · rintro ⟨holder, here, ring⟩
    obtain rfl := Option.some.inj (here.symm.trans queued.tokenpos)
    exact ring_order_unique ring queued.ring
  · rintro rfl
    exact ⟨token, queued.tokenpos, queued.ring⟩

/-! ## One signal -/

/-- **One signal.** The oldest waiter comes right behind the token. -/
theorem Queued.condSignal (queued : Queued d cond token rest (first :: q)) :
    Queued (d.condSignal cond) cond token (first :: rest) q := by
  have head : (d.conds cond).head = some first := queued.queue.head
  have somebody : (d.conds cond).waiters ≠ 0 := by
    rw [queued.waiters, List.length_cons]
    exact Nat.succ_ne_zero _
  have away : first ∉ token :: rest := queued.apart first List.mem_cons_self
  have nodup := List.nodup_cons.mp queued.queue.ring.nodup
  -- the queue without its first entry, and then the ring with one more
  have list : IsList d.links (some first) (first :: q) := head ▸ queued.queue
  have removed := removeEntry_isList list List.mem_cons_self
  rw [List.erase_cons_head] at removed
  have kept : (removeEntry d.links first (some first)).1.Ring ↑(token :: rest) := by
    have same : ∀ a ∈ token :: rest, Same d.links (removeEntry d.links first (some first)).1 a := by
      intro a inRing
      apply removeEntry_same list.ring List.mem_cons_self
      exact fun waits => queued.apart a waits inRing
    exact queued.ring.congr (fun a member => (same a member).1) fun a member => (same a member).2
  rw [condSignal_first queued.tokenpos head somebody]
  refine ⟨queued.tokenpos, insertHead_ring kept away, ?_, ?_, ?_⟩
  · show IsList _ (Function.update d.conds cond _ cond).head q
    rw [Function.update_self]
    apply removed.congr
    intro a waits
    apply insertHead_same kept List.mem_cons_self
    · exact queued.apart a (List.mem_cons_of_mem first waits)
    · rintro rfl
      exact nodup.1 waits
  · show (Function.update d.conds cond _ cond).waiters = q.length
    rw [Function.update_self]
    show (d.conds cond).waiters - 1 = q.length
    rw [queued.waiters, List.length_cons, Nat.add_sub_cancel]
  · intro a waits inRing
    rcases List.mem_cons.mp inRing with rfl | inRing
    · exact queued.apart a (List.mem_cons_of_mem first waits) List.mem_cons_self
    · rcases List.mem_cons.mp inRing with rfl | inRest
      · exact nodup.1 waits
      · exact queued.apart a (List.mem_cons_of_mem first waits) (List.mem_cons_of_mem token inRest)

theorem Queued.condSignal_status (queued : Queued d cond token rest (first :: q)) (thread : ℕ) :
    (d.condSignal cond).status thread = if thread = first then .ready else d.status thread := by
  have somebody : (d.conds cond).waiters ≠ 0 := by
    rw [queued.waiters, List.length_cons]
    exact Nat.succ_ne_zero _
  have woken := (condSignal_woken queued.tokenpos queued.queue.head somebody).entries thread
  rw [Determ.status, woken]
  by_cases same : thread = first
  · rw [if_pos (List.mem_singleton.mpr same), if_pos same]
  · rw [if_neg fun member => same (List.mem_singleton.mp member), if_neg same]
    rfl

theorem Queued.condSignal_maxthreads (queued : Queued d cond token rest (first :: q)) :
    (d.condSignal cond).maxthreads = Determ.increased d.maxthreads 1 := by
  have somebody : (d.conds cond).waiters ≠ 0 := by
    rw [queued.waiters, List.length_cons]
    exact Nat.succ_ne_zero _
  rw [condSignal_first queued.tokenpos queued.queue.head somebody]
  rfl

/-! ## All signals, and one broadcast -/

theorem signals_succ (d : Determ) (cond n : ℕ) :
    signals d cond (n + 1) = signals (d.condSignal cond) cond n := Function.iterate_succ_apply _ n d

/-- **As many signals as waiters.** By induction on the queue: each signal puts its waiter in
front of those before. -/
theorem Queued.signals (queued : Queued d cond token rest q) :
    Queued (signals d cond q.length) cond token (q.reverse ++ rest) [] := by
  induction q generalizing d rest with
  | nil => exact queued
  | cons first q ih =>
    rw [List.length_cons, signals_succ, List.reverse_cons, List.append_assoc]
    exact ih queued.condSignal

theorem Queued.signals_status (queued : Queued d cond token rest q) (thread : ℕ) :
    (Waking.signals d cond q.length).status thread =
      if thread ∈ q then .ready else d.status thread := by
  induction q generalizing d rest with
  | nil => rfl
  | cons first q ih =>
    rw [List.length_cons, signals_succ, ih queued.condSignal, queued.condSignal_status]
    by_cases same : thread = first
    · rw [if_pos same, if_pos (List.mem_cons.mpr (.inl same)), ite_self]
    · simp only [List.mem_cons, same, false_or, if_false]

theorem Queued.signals_maxthreads (queued : Queued d cond token rest q) (some : q ≠ []) :
    (Waking.signals d cond q.length).maxthreads = Determ.increased d.maxthreads q.length := by
  induction q generalizing d rest with
  | nil => exact absurd rfl some
  | cons first q ih =>
    rw [List.length_cons, signals_succ]
    cases q with
    | nil => exact queued.condSignal_maxthreads
    | cons second q =>
      rw [ih queued.condSignal (List.cons_ne_nil second q), queued.condSignal_maxthreads]
      unfold Determ.increased
      rw [Nat.mod_add_mod, Nat.add_right_comm, Nat.add_assoc]

/-- **One broadcast.** The queue comes behind the token as it is. -/
theorem Queued.condBroadcast (queued : Queued d cond token rest q) (some : q ≠ []) :
    Queued (d.condBroadcast cond) cond token (q ++ rest) [] ∧
      (∀ thread, (d.condBroadcast cond).status thread =
        if thread ∈ q then .ready else d.status thread) ∧
      (d.condBroadcast cond).maxthreads = Determ.increased d.maxthreads q.length := by
  obtain ⟨first, later, rfl⟩ := List.exists_cons_of_ne_nil some
  have head : (d.conds cond).head = .some first := queued.queue.head
  have somebody : (d.conds cond).waiters ≠ 0 := by
    rw [queued.waiters, List.length_cons]
    exact Nat.succ_ne_zero _
  have woken := condBroadcast_woken queued.tokenpos head somebody queued.queue.ring
    queued.waiters.ge
  have list : IsList d.links (.some first) (first :: later) := head ▸ queued.queue
  have moved := moveWholeList_ring queued.ring list queued.apart
  refine ⟨?_, ?_, ?_⟩
  · obtain ⟨entries, broadcast, -⟩ := condBroadcast_first queued.tokenpos head somebody
    rw [broadcast]
    refine ⟨queued.tokenpos, moved, ?_, ?_, nofun⟩
    · show IsList _ (Function.update d.conds cond _ cond).head []
      rw [Function.update_self]
      exact IsList.nil
    · show (Function.update d.conds cond _ cond).waiters = 0
      rw [Function.update_self]
  · intro thread
    rw [Determ.status, woken.entries]
    split <;> rfl
  · obtain ⟨entries, broadcast, -⟩ := condBroadcast_first queued.tokenpos head somebody
    rw [broadcast, ← queued.waiters]
    rfl

/-- Only the order of the ring can tell signals from a broadcast. -/
theorem Queued.sameOutcome (queued : Queued d cond token rest q) (some : q ≠ [])
    (orders : q.reverse = q) : SameOutcome cond (Waking.signals d cond q.length)
      (d.condBroadcast cond) := by
  have signalled := queued.signals
  obtain ⟨broadcast, status, maxthreads⟩ := queued.condBroadcast some
  refine ⟨fun order => ?_, fun l => ?_, ?_, fun thread => ?_, ?_⟩
  · rw [signalled.ringOrder_iff, broadcast.ringOrder_iff, orders]
  · have empty : ∀ d', Queued d' cond token (q ++ rest) [] →
        (IsList d'.links (d'.conds cond).head l ↔ l = []) := by
      intro d' queued'
      constructor
      · exact fun list => (list.perm queued'.queue).eq_nil
      · rintro rfl
        exact queued'.queue
    rw [orders] at signalled
    rw [empty _ signalled, empty _ broadcast]
  · rw [signalled.waiters, broadcast.waiters]
  · rw [queued.signals_status, status]
  · rw [queued.signals_maxthreads some, maxthreads]

/-- Signalling as often as there are waiters is broadcasting if and only if there is at most
one. -/
theorem signalsAsBroadcast_iff (queued : Queued d cond token rest q) :
    SignalsAsBroadcast d cond rest q ↔ q.length ≤ 1 := by
  have signalled := queued.signals
  constructor
  · rintro ⟨-, inOrder⟩
    have orders : q ++ rest = q.reverse ++ rest := signalled.ringOrder_iff.mp inOrder
    have reversed := List.append_cancel_right orders
    have nodup := queued.queue.ring.nodup
    -- the first waiter would be the last one too
    cases q with
    | nil => exact Nat.zero_le 1
    | cons first later =>
      cases later using List.reverseRecOn with
      | nil => exact le_rfl
      | append_singleton middle last =>
        rw [List.reverse_cons, List.reverse_append] at reversed
        have same : first = last := (List.cons.inj reversed).1
        refine absurd ?_ (List.nodup_cons.mp nodup).1
        exact List.mem_append_right middle (List.mem_singleton.mpr same)
  · intro few
    have orders : q.reverse = q := by
      match q, few with
      | [], _ => rfl
      | [_], _ => rfl
    refine ⟨?_, signalled.ringOrder_iff.mpr (by rw [orders])⟩
    by_cases none : q = []
    · subst none
      have idle : d.condBroadcast cond = d := by
        have head : (d.conds cond).head = Option.none := queued.queue.head
        simp only [Determ.condBroadcast, head]
      rw [idle]
      exact ⟨fun _ => Iff.rfl, fun _ => Iff.rfl, rfl, fun _ => rfl, rfl⟩
    · exact queued.sameOutcome none orders

/-- Threads 0 to 2 are in the ring, and the token is at one of them. -/
def threeThreads (token : ℕ) : Determ :=
  { (((Determ.initial 1 fun _ => 0).registerMaster 0).registerThread 1 0).registerThread 2 0 with
    tokenpos := some token }

/-- Thread 1 waits, and thread 2 has the token. -/
def oneWaiter : Determ := (threeThreads 1).condWait 1 7

/-- Thread 2 waits as well, and thread 0 has the token. -/
def twoWaiters : Determ := oneWaiter.condWait 2 7

theorem signalsAsBroadcast_oneWaiter : SignalsAsBroadcast oneWaiter 7 [0] [1] := by
  have queued : Queued oneWaiter 7 2 [0] [1] :=
    ⟨by decide +kernel, Links.ring_cons_iff.mpr (by decide +kernel),
      ⟨by decide +kernel, Links.ring_cons_iff.mpr (by decide +kernel)⟩,
      by decide +kernel, by decide +kernel⟩
  exact (signalsAsBroadcast_iff queued).mpr le_rfl

/-- Two signals leave thread 2, which came second, behind the token. -/
theorem not_signalsAsBroadcast_twoWaiters : ¬ ∀ d cond token rest q, Queued d cond token rest q →
    SignalsAsBroadcast d cond rest q := by
  intro all
  have queued : Queued twoWaiters 7 0 [] [1, 2] :=
    ⟨by decide +kernel, Links.ring_cons_iff.mpr (by decide +kernel),
      ⟨by decide +kernel, Links.ring_cons_iff.mpr (by decide +kernel)⟩,
      by decide +kernel, by decide +kernel⟩
  obtain ⟨-, token, here, ring⟩ := all twoWaiters 7 0 [] [1, 2] queued
  have holder : (signals twoWaiters 7 2).tokenpos = some 0 := by decide +kernel
  obtain rfl := Option.some.inj (holder.symm.trans here)
  have next : (signals twoWaiters 7 2).links.next 0 = 2 := by decide +kernel
  have second := ring.next_head
  rw [List.length_cons, List.length_singleton, next] at second
  cases second

end Tthread.Waking
