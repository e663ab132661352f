/-
# What the sections under the token share

A thread that has the token changes the ring, the queues and the books of mutexes and exits. The
counters of the fence and the real barriers are left out: they decide when threads go on, and not
what their sections do. Each operation of `determ` is a function of what is shared, provided that
the books of its threads are in order.
-/

import Tthread.CondOwner

namespace Tthread

open EntryList DoublyLinked

@[ext]
structure Shared where
  links : Links ℕ
  activelist : Option ℕ
  tokenpos : Option ℕ
  conds : ℕ → CondEntry
  /-- without those that wait in the real barrier -/
  barriers : ℕ → BarrierEntry
  tidParent : ℕ → ℕ
  exited : ℕ → Bool
  /-- the first thread waits for the second, which has not exited -/
  joins : ℕ → ℕ → Bool
  acquired : ℕ → Bool

namespace Shared

variable (v : Shared)

def putToken : Shared := { v with tokenpos := v.tokenpos.map v.links.next }

def deactivate (threadindex : ℕ) : Shared :=
  let (links, activelist) := removeEntry v.links threadindex v.activelist
  { v with links, activelist }

def insertBehindToken (threadindex : ℕ) : Shared :=
  match v.tokenpos with
  | some header => { v with links := insertHead v.links threadindex header }
  | none => v

/-- A new thread, at the end of the active list. -/
def registerThread (threadindex parentindex : ℕ) : Shared :=
  let (links, activelist) := insertTail v.links threadindex v.activelist
  { v with
    links, activelist
    tokenpos := if v.tokenpos = none then some threadindex else v.tokenpos
    tidParent := Function.update v.tidParent threadindex parentindex }

/-- The joiner leaves the ring unless the joinee has exited. -/
def join (guestindex myindex : ℕ) : Shared :=
  if v.exited guestindex then v
  else
    let v := { v.deactivate myindex with
      joins := fun thread guest =>
        if thread = myindex then guest = guestindex else v.joins thread guest }
    if v.tokenpos = some myindex ∧ v.activelist ≠ none then v.putToken else v

def deregisterThread (threadindex : ℕ) : Shared :=
  let parent := v.tidParent threadindex
  let v := if v.joins parent threadindex then v.insertBehindToken parent else v
  let nextentry := v.links.next threadindex
  { v.deactivate threadindex with
    exited := Function.update v.exited threadindex true
    joins := fun thread guest =>
      if thread = threadindex ∨ guest = threadindex then false else v.joins thread guest
    tokenpos := some nextentry }

def lockAcquire (mutex : ℕ) : Shared :=
  { v with acquired := Function.update v.acquired mutex true }

def lockRelease (mutex : ℕ) : Shared :=
  { v with acquired := Function.update v.acquired mutex false }

def condWait (threadindex cond : ℕ) : Shared :=
  let next := v.links.next threadindex
  let v := v.deactivate threadindex
  let condentry := v.conds cond
  let (links, head) := insertTail v.links threadindex condentry.head
  { v with
    links
    conds := Function.update v.conds cond { condentry with waiters := condentry.waiters + 1, head }
    tokenpos := some next }

def condSignal (cond : ℕ) : Shared :=
  let condentry := v.conds cond
  match condentry.head with
  | some entry =>
      if condentry.waiters = 0 then v
      else
        let (links, head) := removeEntry v.links entry condentry.head
        { { v with links }.insertBehindToken entry with
          conds := Function.update v.conds cond
            { condentry with waiters := condentry.waiters - 1, head } }
  | none => v

def condBroadcast (cond : ℕ) : Shared :=
  let condentry := v.conds cond
  match condentry.head, v.tokenpos with
  | some _, some token =>
      if condentry.waiters = 0 then v
      else { v with
        links := moveWholeList v.links token condentry.head
        conds := Function.update v.conds cond ⟨0, none, 0⟩ }
  | _, _ => v

def barrierWait (bar threadindex : ℕ) : Shared :=
  let barentry := v.barriers bar
  if barentry.threads + 1 = barentry.maxthreads then
    match v.tokenpos with
    | some token =>
        let links := moveWholeList v.links token barentry.head
        let completed := { barentry with threads := 0, head := none, rounds := barentry.rounds + 1 }
        { v with
          links
          barriers := Function.update v.barriers bar completed
          tokenpos := some (links.next threadindex) }
    | none => v
  else
    let nextentry := v.links.next threadindex
    let v := v.deactivate threadindex
    let (links, head) := insertTail v.links threadindex barentry.head
    { v with
      links
      barriers := Function.update v.barriers bar
        { barentry with threads := barentry.threads + 1, head }
      tokenpos := some nextentry }

end Shared

namespace Determ

/-- What is shared, with nobody in the real barriers. -/
def shared (d : Determ) : Shared where
  links := d.links
  activelist := d.activelist
  tokenpos := d.tokenpos
  conds := d.conds
  barriers bar := { d.barriers bar with arrived := 0, released := 0 }
  tidParent thread := (d.entries thread).tidParent
  exited thread := d.status thread = .exit
  joins thread guest := d.status thread = .joining ∧
    (d.entries thread).joineeThreadIndex = guest ∧ d.status guest ≠ .exit
  acquired := d.lockIsacquired

end Determ

namespace Xrun

open Determ DoublyLinked

variable {d d' : Determ} {pc : ℕ → Pc} {bound me : ℕ} {lists : Place → List ℕ}

/-! ## Operations that leave the books of the threads alone -/

/-- Nobody's parent changes, and nobody exits or begins to wait for an exit. -/
structure SameBooks (d d' : Determ) : Prop where
  tidParent : ∀ thread, (d'.entries thread).tidParent = (d.entries thread).tidParent
  exited : ∀ thread, d'.status thread = .exit ↔ d.status thread = .exit
  joining : ∀ thread guest, (d'.status thread = .joining ∧
    (d'.entries thread).joineeThreadIndex = guest) ↔
      (d.status thread = .joining ∧ (d.entries thread).joineeThreadIndex = guest)

theorem SameBooks.of_entries (same : d'.entries = d.entries) : SameBooks d d' := by
  refine ⟨fun thread => by rw [same], fun thread => ?_, fun thread guest => ?_⟩
  · rw [Determ.status, same, Determ.status]
  · rw [Determ.status, same, Determ.status]

/-- The thread is neither gone nor waiting for another one. -/
structure Present (d : Determ) (thread : ℕ) : Prop where
  exited : d.status thread ≠ .exit
  joining : d.status thread ≠ .joining

/-- The entry of a thread that stays present changes. -/
theorem SameBooks.of_update {entry : ThreadEntry} (present : Present d me)
    (entries : d'.entries = Function.update d.entries me entry)
    (parent : entry.tidParent = (d.entries me).tidParent) (exited : entry.status ≠ .exit)
    (joining : entry.status ≠ .joining) : SameBooks d d' := by
  have mine : d'.entries me = entry := by rw [entries, Function.update_self]
  have others : ∀ thread, thread ≠ me → d'.entries thread = d.entries thread := by
    intro thread other
    rw [entries, Function.update_of_ne other]
  refine ⟨fun thread => ?_, fun thread => ?_, fun thread guest => ?_⟩
  · by_cases here : thread = me
    · rw [here, mine, parent]
    · rw [others thread here]
  · by_cases here : thread = me
    · rw [here, Determ.status, mine]
      exact iff_of_false exited present.exited
    · rw [Determ.status, others thread here, Determ.status]
  · by_cases here : thread = me
    · rw [here, Determ.status, mine]
      exact iff_of_false (fun both => joining both.1) fun both => present.joining both.1
    · rw [Determ.status, others thread here, Determ.status]

theorem SameBooks.trans {d'' : Determ} (first : SameBooks d d') (second : SameBooks d' d'') :
    SameBooks d d'' where
  tidParent thread := (second.tidParent thread).trans (first.tidParent thread)
  exited thread := (second.exited thread).trans (first.exited thread)
  joining thread guest := (second.joining thread guest).trans (first.joining thread guest)

/-- Only lists, mutexes and the like are different. -/
theorem SameBooks.shared (same : SameBooks d d') : d'.shared = { d'.shared with
    tidParent := d.shared.tidParent
    exited := d.shared.exited
    joins := d.shared.joins } := by
  have gone : d'.shared.exited = d.shared.exited :=
    funext fun thread => decide_eq_decide.mpr (same.exited thread)
  have waits : d'.shared.joins = d.shared.joins := by
    refine funext fun thread => funext fun guest => decide_eq_decide.mpr ?_
    rw [← and_assoc, ← and_assoc, same.joining, ne_eq, ne_eq, same.exited]
  have parents : d'.shared.tidParent = d.shared.tidParent := funext same.tidParent
  rw [← gone, ← waits, ← parents]

theorem shared_of_fenceOnly (only : FenceOnly d d') : d'.shared = d.shared := by
  rw [only.eq]
  rfl

/-- The token is put somewhere after the fence has shrunk. -/
theorem shared_leaves (token : Option ℕ) :
    ({ d.decrFence with tokenpos := token } : Determ).shared =
      { d.shared with tokenpos := token } := by
  rw [← shared_of_fenceOnly (decrFence_only d)]
  rfl

theorem shared_startFence (threads : ℕ) : (d.startFence threads).shared = d.shared :=
  shared_of_fenceOnly (startFence_only d threads)

theorem shared_putToken : d.putToken.shared = d.shared.putToken := rfl

theorem shared_setBarrier (bar : ℕ) (entry : BarrierEntry) :
    (d.setBarrier bar entry).shared = { d.shared with
      barriers := Function.update d.shared.barriers bar
        { entry with arrived := 0, released := 0 } } := by
  have barriers : (d.setBarrier bar entry).shared.barriers =
      Function.update d.shared.barriers bar { entry with arrived := 0, released := 0 } := by
    funext other
    show ({ Function.update d.barriers bar entry other with arrived := 0, released := 0 } :
      BarrierEntry) = _
    by_cases here : other = bar
    · subst here
      rw [Function.update_self, Function.update_self]
    · rw [Function.update_of_ne here, Function.update_of_ne here]
      rfl
  rw [← barriers]
  rfl

theorem shared_realBarrierWait (bar : ℕ) : (d.realBarrierWait bar).shared = d.shared := by
  have entered : ∀ entry : BarrierEntry, { entry with arrived := 0, released := 0 } =
      d.shared.barriers bar → (d.setBarrier bar entry).shared = d.shared := by
    intro entry same
    rw [shared_setBarrier, same, Function.update_eq_self]
  unfold Determ.realBarrierWait
  dsimp only
  split
  · exact entered _ rfl
  · exact entered _ rfl

/-! ## Mutexes -/

/-- Nothing but a mark is different. -/
theorem shared_marks {mutex : ℕ} {mark : Bool} (others : d'.shared = { d.shared with
      acquired := d'.lockIsacquired }) (mine : d'.lockIsacquired mutex = mark)
    (marks : ∀ word ≠ mutex, d'.lockIsacquired word = d.lockIsacquired word) :
    d'.shared = { d.shared with acquired := Function.update d.shared.acquired mutex mark } := by
  have acquired : d'.lockIsacquired = Function.update d.shared.acquired mutex mark := by
    funext word
    by_cases here : word = mutex
    · subst here
      rw [Function.update_self, mine]
    · rw [Function.update_of_ne here, marks word here]
      rfl
  rw [others, acquired]

theorem shared_lockIsowner {mutex : ℕ} : (d.lockIsowner mutex me).1.shared = d.shared := by
  have marks : (d.lockIsowner mutex me).1.lockIsacquired = d.lockIsacquired :=
    funext fun word => lockIsowner_marks word
  have others : (d.lockIsowner mutex me).1.shared = { d.shared with
      acquired := (d.lockIsowner mutex me).1.lockIsacquired } := by
    unfold Determ.lockIsowner
    split
    · rfl
    · split
      · split <;> rfl
      · rfl
  rw [others, marks]
  rfl

theorem shared_lockRelease {mutex : ℕ} (released : d.lockRelease mutex = some d') :
    d'.shared = d.shared.lockRelease mutex := by
  obtain ⟨mine, marks⟩ := lockRelease_marks released
  obtain ⟨entry, -, rfl⟩ := Option.map_eq_some_iff.mp released
  exact shared_marks rfl mine marks

/-- A mutex that is free is given to whoever asks for it. -/
def Gives (d : Determ) (mutex me : ℕ) : Prop :=
  d.lockIsacquired mutex = false → (d.lockAcquire mutex me).2 = true

instance (d : Determ) (mutex me : ℕ) : Decidable (Gives d mutex me) :=
  inferInstanceAs (Decidable (_ → _))

theorem shared_lockAcquire {mutex : ℕ} (gives : Gives d mutex me) :
    (d.lockAcquire mutex me).1.shared = d.shared.lockAcquire mutex := by
  obtain ⟨-, mine, marks⟩ := lockAcquire_spec d mutex me
  refine shared_marks rfl (mine.trans ?_) marks
  cases free : d.lockIsacquired mutex with
  | true => rfl
  | false => exact gives free

/-! ## Queues -/

theorem shared_condWait (present : Present d me) (cond : ℕ) :
    (d.condWait me cond).shared = d.shared.condWait me cond := by
  let condentry := d.conds cond
  let tail := insertTail (d.deactivate me).links me condentry.head
  let waiting := { d.deactivate me with links := tail.1 }.setCond cond
    { condentry with waiters := condentry.waiters + 1, head := tail.2 }
  let asleep := { waiting with cond := Function.update d.cond me cond }.setStatus me .condWaiting
  have same : SameBooks d asleep := .of_update present rfl rfl (by simp) (by simp)
  have left : (d.condWait me cond).shared = { asleep.shared with
      tokenpos := some (d.links.next me) } := shared_leaves _
  rw [left, same.shared]
  rfl

/-- Waiters that are woken keep their books. -/
theorem RingInv.sameBooks (inv : RingInv d pc bound lists) {threads : List ℕ} {cond : ℕ}
    (woken : Woken d d' threads) (waiting : ∀ thread ∈ threads, thread ∈ lists (.cond cond)) :
    SameBooks d d' where
  tidParent thread := by
    rw [woken.entries]
    split <;> rfl
  exited thread := inv.woken_exit woken waiting thread
  joining thread guest :=
    ((inv.books_woken woken waiting).joining thread guest).trans (inv.joining thread guest).symm

theorem shared_condSignal (inv : RingInv d pc bound lists) {token : ℕ}
    (here : d.tokenpos = some token) (cond : ℕ) :
    (d.condSignal cond).shared = d.shared.condSignal cond := by
  cases queue : lists (.cond cond) with
  | nil =>
    have empty : (d.conds cond).head = none := by
      refine (inv.family.list (.cond cond)).head.trans ?_
      rw [queue, List.head?_nil]
    rw [(inv.queue_nil queue).1, Shared.condSignal]
    simp only [Determ.shared, empty]
  | cons entry rest =>
    obtain ⟨first, somebody, -, -⟩ := inv.queue_cons queue
    have same : SameBooks d (d.condSignal cond) :=
      inv.sameBooks (condSignal_woken here first somebody) fun thread member => by
        rw [List.mem_singleton.mp member, queue]
        exact List.mem_cons_self
    have result : d.shared.condSignal cond = { d.shared with
        links := insertHead (EntryList.removeEntry d.links entry (some entry)).1 entry token
        conds := Function.update d.conds cond { d.conds cond with
          waiters := (d.conds cond).waiters - 1
          head := (EntryList.removeEntry d.links entry (some entry)).2 } } := by
      simp only [Shared.condSignal, Determ.shared, Shared.insertBehindToken, first, here,
        if_neg somebody]
    rw [same.shared, result, condSignal_first here first somebody]
    rfl

theorem shared_condBroadcast (inv : RingInv d pc bound lists) {token : ℕ}
    (here : d.tokenpos = some token) (cond : ℕ) :
    (d.condBroadcast cond).shared = d.shared.condBroadcast cond := by
  cases queue : lists (.cond cond) with
  | nil =>
    have empty : (d.conds cond).head = none := by
      refine (inv.family.list (.cond cond)).head.trans ?_
      rw [queue, List.head?_nil]
    rw [(inv.queue_nil queue).2, Shared.condBroadcast]
    simp only [Determ.shared, empty]
  | cons entry rest =>
    obtain ⟨first, somebody, ring, round⟩ := inv.queue_cons queue
    have same : SameBooks d (d.condBroadcast cond) :=
      inv.sameBooks (condBroadcast_woken here first somebody ring round) fun thread member =>
        queue ▸ member
    have result : d.shared.condBroadcast cond = { d.shared with
        links := moveWholeList d.links token (some entry)
        conds := Function.update d.conds cond ⟨0, none, 0⟩ } := by
      simp only [Shared.condBroadcast, Determ.shared, first, here, if_neg somebody]
    obtain ⟨entries, broadcast, -⟩ := condBroadcast_first here first somebody
    rw [same.shared, result, broadcast]
    rfl

theorem shared_barrierWait (present : Present d me) (bar : ℕ) :
    (d.barrierWait bar me).shared = d.shared.barrierWait bar me := by
  let barentry := d.barriers bar
  by_cases last : barentry.threads + 1 = barentry.maxthreads
  · cases here : d.tokenpos with
    | none =>
      have stays : d.barrierWait bar me = d := by
        simp only [Determ.barrierWait, here]
        exact if_pos last
      have stays' : d.shared.barrierWait bar me = d.shared := by
        simp only [Shared.barrierWait, Determ.shared, here]
        exact if_pos last
      rw [stays, stays']
    | some token =>
      let links := moveWholeList d.links token barentry.head
      let completed := { barentry with threads := 0, head := none, rounds := barentry.rounds + 1 }
      let merged := ({ d with links }.incrFence (barentry.maxthreads - 1)).setBarrier bar completed
      have result : d.barrierWait bar me = { merged with tokenpos := some (links.next me) } := by
        simp only [Determ.barrierWait, here]
        exact if_pos last
      have left : ({ merged with tokenpos := some (links.next me) } : Determ).shared =
          { merged.shared with tokenpos := some (links.next me) } := rfl
      have result' : d.shared.barrierWait bar me = { d.shared with
          links
          barriers := Function.update d.shared.barriers bar
            { completed with arrived := 0, released := 0 }
          tokenpos := some (links.next me) } := by
        simp only [Shared.barrierWait, Determ.shared, here]
        exact if_pos last
      rw [result, left, shared_setBarrier, result']
      rfl
  · let tail := insertTail (d.deactivate me).links me barentry.head
    let entered := { d.deactivate me with links := tail.1 }.setBarrier bar
      { barentry with threads := barentry.threads + 1, head := tail.2 }
    have same : SameBooks entered (entered.setStatus me .barrWaiting) :=
      .of_update ⟨present.exited, present.joining⟩ rfl rfl (by simp) (by simp)
    have left : (d.barrierWait bar me).shared = { (entered.setStatus me .barrWaiting).shared with
        tokenpos := some (d.links.next me) } := by
      have result : d.barrierWait bar me = { (entered.setStatus me .barrWaiting).decrFence with
          tokenpos := some (d.links.next me) } := if_neg last
      rw [result, shared_leaves]
    have right : d.shared.barrierWait bar me = { entered.shared with
        tokenpos := some (d.links.next me) } := by
      rw [shared_setBarrier]
      exact if_neg last
    rw [left, same.shared, right]
    rfl

/-! ## Threads that come and go -/

/-- The entry of a thread that has not exited changes. -/
theorem shared_entry (alive : d.status me ≠ .exit) {entry : ThreadEntry}
    (exited : entry.status ≠ .exit) :
    ({ d with entries := Function.update d.entries me entry } : Determ).shared = { d.shared with
      tidParent := Function.update d.shared.tidParent me entry.tidParent
      joins := fun thread guest =>
        if thread = me then
          entry.status = .joining ∧ entry.joineeThreadIndex = guest ∧ d.status guest ≠ .exit
        else d.shared.joins thread guest } := by
  have gone : ∀ thread, (Function.update d.entries me entry thread).status = .exit ↔
      d.status thread = .exit := by
    intro thread
    by_cases here : thread = me
    · rw [here, Function.update_self]
      exact iff_of_false exited alive
    · rw [Function.update_of_ne here]
      rfl
  have parents : (fun thread => (Function.update d.entries me entry thread).tidParent) =
      Function.update d.shared.tidParent me entry.tidParent := by
    funext thread
    by_cases here : thread = me
    · rw [here, Function.update_self, Function.update_self]
    · rw [Function.update_of_ne here, Function.update_of_ne here]
      rfl
  have waits : ∀ thread guest, decide (
      (Function.update d.entries me entry thread).status = .joining ∧
      (Function.update d.entries me entry thread).joineeThreadIndex = guest ∧
        (Function.update d.entries me entry guest).status ≠ .exit) =
      if thread = me then
        decide (entry.status = .joining ∧ entry.joineeThreadIndex = guest ∧ d.status guest ≠ .exit)
      else d.shared.joins thread guest := by
    intro thread guest
    by_cases here : thread = me
    · rw [if_pos here, here, Function.update_self]
      exact decide_eq_decide.mpr (by rw [ne_eq, gone])
    · rw [if_neg here, Function.update_of_ne here]
      exact decide_eq_decide.mpr (by rw [ne_eq, gone]; rfl)
  exact Shared.ext rfl rfl rfl rfl rfl parents
    (funext fun thread => decide_eq_decide.mpr (gone thread))
    (funext fun thread => funext fun guest => waits thread guest) rfl

/-- A joiner passes the token on if it has it and somebody is active. -/
theorem shared_joinBlock : (d.joinBlock me).shared =
    if d.tokenpos = some me ∧ d.activelist ≠ none then d.shared.putToken else d.shared := by
  have only := decrFence_only d
  have tokenpos : d.decrFence.tokenpos = d.tokenpos := by rw [only.eq]
  have activelist : d.decrFence.activelist = d.activelist := by rw [only.eq]
  unfold Determ.joinBlock
  dsimp only
  rw [tokenpos, activelist]
  split
  · rw [shared_putToken, shared_of_fenceOnly only]
  · exact shared_of_fenceOnly only

theorem shared_join (present : Present d me) (guest : ℕ) :
    (d.join guest me).1.shared = d.shared.join guest me ∧
      (d.join guest me).2 = !d.shared.exited guest := by
  by_cases gone : d.status guest = .exit
  · have exited : d.shared.exited guest = true := decide_eq_true gone
    have result : d.join guest me = (d.setStatus me .ready, false) := if_neg (not_not_intro gone)
    have same : SameBooks d (d.setStatus me .ready) :=
      .of_update present rfl rfl (by simp) (by simp)
    rw [result, exited, Shared.join, if_pos exited]
    refine ⟨?_, rfl⟩
    rw [same.shared]
    rfl
  · have there : d.shared.exited guest = false := decide_eq_false gone
    let joining : ThreadEntry :=
      { d.entries me with status := .joining, joineeThreadIndex := guest }
    let left : Determ := { d.deactivate me with entries := Function.update d.entries me joining }
    have result : d.join guest me = (left.joinBlock me, true) := if_pos gone
    have shared : left.shared = { d.shared.deactivate me with
        joins := fun thread other =>
          if thread = me then other = guest else d.shared.joins thread other } := by
      have entry := shared_entry (d := d.deactivate me) present.exited
        (show joining.status ≠ .exit by simp [joining])
      refine entry.trans ?_
      have parents : Function.update d.shared.tidParent me joining.tidParent = d.shared.tidParent :=
        Function.update_eq_self me _
      have waits : ∀ other, decide (joining.status = .joining ∧ joining.joineeThreadIndex = other ∧
          d.status other ≠ .exit) = decide (other = guest) := by
        intro other
        refine decide_eq_decide.mpr ⟨fun both => both.2.1.symm, ?_⟩
        rintro rfl
        exact ⟨rfl, rfl, gone⟩
      refine Shared.ext rfl rfl rfl rfl rfl parents rfl
        (funext fun thread => funext fun other => ?_) rfl
      by_cases here : thread = me
      · exact (if_pos here).trans ((waits other).trans (if_pos here).symm)
      · exact (if_neg here).trans (if_neg here).symm
    rw [result, there, Shared.join, there]
    refine ⟨?_, rfl⟩
    rw [shared_joinBlock, shared]
    rfl

/-- A joiner whose section is over. -/
theorem shared_joinWoken (inv : RingInv d pc bound lists) {guest : ℕ}
    (waits : pc me = .joinWait guest) : (d.joinWoken guest me).1.shared = d.shared := by
  have only := incrFence_only d 1
  have same : (d.incrFence 1).shared = d.shared := shared_of_fenceOnly only
  by_cases gone : d.status guest = .exit
  · have result : (d.joinWoken guest me).1 = (d.incrFence 1).setStatus me .ready := by
      have gone' : ¬(d.incrFence 1).status guest ≠ .exit := not_not_intro gone
      simp only [Determ.joinWoken, if_neg gone']
    have alive : d.status me ≠ .exit := fun exit => by
      have impossible := inv.exited me exit
      rw [waits] at impossible
      cases impossible
    have entry := shared_entry (d := d.incrFence 1) alive
      (show ({ d.entries me with status := .ready } : ThreadEntry).status ≠ .exit by simp)
    have parents : Function.update (d.incrFence 1).shared.tidParent me (d.entries me).tidParent =
        (d.incrFence 1).shared.tidParent := Function.update_eq_self me _
    -- the joinee is gone, so that the joiner waits for nobody
    have mine : ∀ other, (d.incrFence 1).shared.joins me other = false := by
      intro other
      refine decide_eq_false ?_
      rintro ⟨joining, mine, there⟩
      have waits' := (inv.joining me other).mp ⟨joining, mine⟩
      rw [waits] at waits'
      cases waits'
      exact there gone
    rw [result, ← same]
    refine entry.trans (Shared.ext rfl rfl rfl rfl rfl parents rfl
      (funext fun thread => funext fun other => ?_) rfl)
    by_cases here : thread = me
    · refine (if_pos here).trans ?_
      rw [here, mine other]
      exact decide_eq_false fun both => by cases both.1
    · exact if_neg here
  · have result : (d.joinWoken guest me).1 = (d.incrFence 1).joinBlock me := by
      have there : (d.incrFence 1).status guest ≠ .exit := gone
      simp only [Determ.joinWoken, if_pos there]
    -- somebody else has the token if somebody is active
    have passive : ¬((d.incrFence 1).tokenpos = some me ∧ (d.incrFence 1).activelist ≠ none) := by
      rintro ⟨here, somebody⟩
      have nonempty : lists .ring ≠ [] := fun empty => by
        refine somebody ((inv.family.list .ring).head.trans ?_)
        rw [empty, List.head?_nil]
      obtain ⟨first, member⟩ := List.exists_mem_of_ne_nil _ nonempty
      obtain ⟨token, inside, there⟩ := inv.token first member
      obtain rfl : token = me := Option.some.inj (there.symm.trans here)
      have placed := (inv.placed .ring token).mp inside
      rw [waits] at placed
      simp only [place, if_neg gone] at placed
      cases placed
    rw [result, shared_joinBlock, if_neg passive, same]

theorem shared_insertBehindToken (thread : ℕ) :
    (d.insertBehindToken thread).shared = d.shared.insertBehindToken thread := by
  cases here : d.tokenpos with
  | none => simp only [Determ.insertBehindToken, Shared.insertBehindToken, Determ.shared, here]
  | some token =>
    simp only [Determ.insertBehindToken, Shared.insertBehindToken, Determ.shared, here]
    rfl

/-- A thread leaves the ring and exits, and the token is put somewhere. -/
theorem shared_exit (token : Option ℕ) :
    ({ (d.deactivate me).setStatus me .exit with tokenpos := token } : Determ).shared =
      { d.shared.deactivate me with
        exited := Function.update d.shared.exited me true
        joins := fun thread guest =>
          if thread = me ∨ guest = me then false else d.shared.joins thread guest
        tokenpos := token } := by
  let entries := Function.update d.entries me { d.entries me with status := .exit }
  have mine : (entries me).status = .exit := by
    show (Function.update d.entries me _ me).status = _
    rw [Function.update_self]
  have others : ∀ thread, thread ≠ me → entries thread = d.entries thread := fun thread other =>
    Function.update_of_ne other _ _
  refine Shared.ext rfl rfl rfl rfl rfl (funext fun thread => ?_) (funext fun thread => ?_)
    (funext fun thread => funext fun guest => ?_) rfl
  · show (entries thread).tidParent = (d.entries thread).tidParent
    by_cases here : thread = me
    · show (Function.update d.entries me _ thread).tidParent = _
      rw [here, Function.update_self]
    · rw [others thread here]
  · show decide ((entries thread).status = .exit) = Function.update d.shared.exited me true thread
    by_cases here : thread = me
    · rw [here, Function.update_self, mine]
      rfl
    · rw [Function.update_of_ne here, others thread here]
      rfl
  · show decide ((entries thread).status = .joining ∧ (entries thread).joineeThreadIndex = guest ∧
      (entries guest).status ≠ .exit) =
        if thread = me ∨ guest = me then false else d.shared.joins thread guest
    by_cases here : thread = me
    · rw [if_pos (.inl here), here, mine]
      exact decide_eq_false fun both => by cases both.1
    · by_cases there : guest = me
      · rw [if_pos (.inr there), there, mine]
        exact decide_eq_false fun both => both.2.2 rfl
      · rw [if_neg (not_or.mpr ⟨here, there⟩), others thread here, others guest there]
        rfl

theorem shared_deregisterThread (present : Present d me) :
    (d.deregisterThread me).shared = d.shared.deregisterThread me := by
  let parent := (d.entries me).tidParent
  have joins : d.shared.joins parent me = true ↔
      d.status parent = .joining ∧ (d.entries parent).joineeThreadIndex = me := by
    refine decide_eq_true_iff.trans ?_
    rw [← and_assoc]
    exact and_iff_left present.exited
  let d₁ := if d.status parent = .joining ∧ (d.entries parent).joineeThreadIndex = me then
    d.insertBehindToken parent else d
  have woken : d₁.shared = if d.shared.joins parent me = true then
      d.shared.insertBehindToken parent else d.shared := by
    by_cases waits : d.status parent = .joining ∧ (d.entries parent).joineeThreadIndex = me
    · rw [if_pos (joins.mpr waits), show d₁ = d.insertBehindToken parent from if_pos waits]
      exact shared_insertBehindToken parent
    · rw [if_neg (mt joins.mp waits), show d₁ = d from if_neg waits]
  let d₂ := if 0 < d₁.alivethreads then
    ({ d₁ with alivethreads := d₁.alivethreads - 1 } : Determ).decrFence else d₁
  have shrunk : d₂.shared = d₁.shared := by
    refine shared_of_fenceOnly ?_
    show FenceOnly d₁ (if _ then _ else _)
    split
    · exact FenceOnly.trans ⟨rfl⟩ (decrFence_only _)
    · exact FenceOnly.refl d₁
  have result : d.deregisterThread me =
      { (d₂.deactivate me).setStatus me .exit with tokenpos := some (d₂.links.next me) } := rfl
  rw [result, shared_exit, show d₂.links = d₂.shared.links from rfl, shrunk, woken]
  rfl

theorem shared_registerThread (inv : RingInv d pc bound lists) (parent : ℕ) :
    (d.registerThread bound parent).shared = d.shared.registerThread bound parent := by
  have new : pc bound = .absent := (inv.fresh bound).mpr le_rfl
  have alive : d.status bound ≠ .exit := fun gone => by
    rw [inv.exited bound gone] at new
    cases new
  have mine : ∀ other, d.shared.joins bound other = false := by
    intro other
    refine decide_eq_false ?_
    rintro ⟨joining, mine, -⟩
    rw [(inv.joining bound other).mp ⟨joining, mine⟩] at new
    cases new
  let tail := insertTail d.links bound d.activelist
  let listed : Determ := { d with
    links := tail.1
    activelist := tail.2
    tokenpos := if d.tokenpos = none then some bound else d.tokenpos
    wait := Function.update d.wait bound false }
  have entry := shared_entry (d := listed) alive
    (show (⟨.ready, parent, 0⟩ : ThreadEntry).status ≠ .exit by simp)
  refine entry.trans (Shared.ext rfl rfl rfl rfl rfl rfl rfl
    (funext fun thread => funext fun other => ?_) rfl)
  by_cases here : thread = bound
  · refine (if_pos here).trans ?_
    rw [here]
    exact (decide_eq_false fun both => by cases both.1).trans (mine other).symm
  · exact if_neg here

end Xrun

end Tthread
