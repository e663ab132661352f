/-
# Joining

A thread that joins another one leaves the ring and waits until that one has exited. All joiners
wait on one condition variable and test the status of their joinees. The exiting thread puts one
thread back into the ring, its creator, and only if that is the thread that joins it.

So a joiner that created its joinee comes behind the exiting thread, gets the token from it and
returns. Any other one stays outside of the ring.
-/

import Tthread.Handshake

namespace Tthread.Xrun

open Transition EntryList DoublyLinked

variable {s s' : State} {d d' : Determ} {pc : ℕ → Pc} {bound me thread guest joiner : ℕ}
  {lists : Place → List ℕ} {label : Label}

/-! ## The active ring -/

/-- The links lead from the head of the active list to the thread. -/
def InRing (d : Determ) (thread : ℕ) : Prop :=
  ∃ first, d.activelist = some first ∧ ∃ n, d.links.next^[n] first = thread

/-- Once round the ring, or further. -/
theorem inRing_iff {l : List ℕ} (list : IsList d.links d.activelist l) :
    InRing d thread ↔ thread ∈ l := by
  have heads := list.head
  cases l with
  | nil =>
    rw [List.head?_nil] at heads
    refine iff_of_false ?_ List.not_mem_nil
    rintro ⟨first, head, -⟩
    cases heads.symm.trans head
  | cons first rest =>
    rw [List.head?_cons] at heads
    have ring := list.ring
    constructor
    · rintro ⟨head, here, n, rfl⟩
      obtain rfl := Option.some.inj (heads.symm.trans here)
      induction n with
      | zero => exact List.mem_cons_self
      | succ n ih =>
        rw [Function.iterate_succ_apply']
        exact ring.next_mem ih
    · intro member
      obtain ⟨n, -, rfl⟩ := List.mem_iterate.mp ((ring.mem_iterate le_rfl).mpr member)
      exact ⟨first, heads, n, rfl⟩

theorem RingInv.inRing_iff (inv : RingInv d pc bound lists) :
    InRing d thread ↔ thread ∈ lists .ring := Xrun.inRing_iff (inv.family.list .ring)

/-- Who is in the ring can be told from what the threads do. -/
theorem RingInv.inRing_iff_active (inv : RingInv d pc bound lists) :
    InRing d thread ↔ place d thread (pc thread) = some .ring :=
  inv.inRing_iff.trans (inv.placed .ring thread)

/-! ## What is wanted of a join -/

/-- The joiner has the place in the ring that the exiting thread had, and the token. -/
structure PutBack (d d' : Determ) (joiner me : ℕ) : Prop where
  place : ∃ rest : List ℕ, d.links.Ring ↑(me :: rest) ∧ d'.links.Ring ↑(joiner :: rest)
  active : InRing d' joiner
  token : d'.tokenpos = some joiner

/-- The thread is active, and as soon as it has the token its own steps lead out of `join`. -/
structure Returning (s : State) (joiner : ℕ) : Prop where
  active : InRing s.determ joiner
  returns : s.determ.tokenpos = some joiner → ∃ n s', system.run s
    (List.replicate n (.exec joiner)) = some s' ∧ s'.pc joiner = .putToken .joined

/-- On the way the thread has returned from `join`. -/
def HasReturned (s : State) (labels : List Label) (joiner : ℕ) : Prop :=
  ∃ front back s', labels = front ++ .exec joiner :: back ∧
    system.run s (front ++ [.exec joiner]) = some s' ∧ s'.pc joiner = .putToken .joined

/-- The exit of `me` puts its joiners back, each returns, whatever the others do, and it puts
nobody back who joins another thread. -/
structure ServesJoiners (Ok : State → Label → Prop) (s s' : State) (me : ℕ) : Prop where
  back : ∀ joiner, s.pc joiner = .joinWait me → PutBack s.determ s'.determ joiner me
  returns : ∀ joiner, s.pc joiner = .joinWait me → ∀ labels t, system.Complies Ok s' labels →
    system.run s' labels = some t → t.killed joiner = false →
    Returning t joiner ∨ HasReturned s' labels joiner
  others : ∀ joiner guest, s.pc joiner = .joinWait guest → guest ≠ me →
    (InRing s'.determ joiner ↔ InRing s.determ joiner)

/-- The thread is about to look whether its joinee has exited. -/
def Joins (s : State) (joiner guest : ℕ) : Prop :=
  s.pc joiner = .work (.join guest) ∧ (s.thread joiner).fenceEnabled = true ∨
    s.pc joiner = .joinEnter guest

/-- Joins work: of a thread that exits after the call, and of one that has exited before. -/
structure JoinsWork (Ok : State → Label → Prop) (s : State) : Prop where
  later : ∀ me s', s.pc me = .work .exit → Ok s (.exec me) → system.step s (.exec me) = some s' →
    ServesJoiners Ok s s' me
  earlier : ∀ joiner guest s', Joins s joiner guest → s.determ.status guest = .exit →
    system.step s (.exec joiner) = some s' →
    s'.pc joiner = .putToken .joined ∧ InRing s'.determ joiner

/-- The condition on a step: besides what keeps the ring in order, a thread that is joined has
the token when it exits. Only its creator joins it. -/
def KeepsJoins (s : State) (label : Label) : Prop :=
  KeepsRing s label ∧ ∀ me, label = .exec me → s.pc me = .work .exit →
    (∃ joiner, s.pc joiner = .joinWait me) → s.determ.tokenpos = some me

/-! ## The exit -/

/-- The creator comes behind the exiting thread, which leaves it its place and the token. -/
theorem RingInv.putsBack (inv : RingInv d pc bound lists) (plain : (pc me).Plain)
    (joins : pc (d.entries me).tidParent = .joinWait me) (here : d.tokenpos = some me) :
    (∃ rest : List ℕ, d.links.Ring ↑(me :: rest) ∧
      (d.deregisterThread me).links.Ring ↑((d.entries me).tidParent :: rest)) ∧
      (d.deregisterThread me).tokenpos = some (d.entries me).tidParent := by
  let parent := (d.entries me).tidParent
  -- The creator waits for `me`, and a thread that waits is not in the ring.
  have absent : parent ∉ lists .ring := by
    intro member
    have impossible := (inv.placed .ring parent).mp member
    rw [joins] at impossible
    simp only [Xrun.place, if_neg (inv.alive plain)] at impossible
    cases impossible
  obtain ⟨rest, rotated, ring⟩ := (inv.family.list .ring).ring.startAt (inv.inRing plain)
  have fresh : parent ∉ me :: rest := fun member => absent (rotated.mem_iff.mpr member)
  -- First the creator is put behind `me`, where the token is.
  let links := insertHead d.links parent me
  have inserted : links.Ring ↑(me :: parent :: rest) := insertHead_ring ring fresh
  -- Then the fence is told that one thread less is alive; the lists stay as they are.
  let d₁ := { d with links }
  let d₂ := if 0 < d₁.alivethreads then
    ({ d₁ with alivethreads := d₁.alivethreads - 1 } : Determ).decrFence else d₁
  have only : Determ.FenceOnly d₁ d₂ := by
    show Determ.FenceOnly d₁ (if _ then _ else _)
    split
    · exact Determ.FenceOnly.trans ⟨rfl⟩ (Determ.decrFence_only _)
    · exact Determ.FenceOnly.refl d₁
  have same : d₂.links = links := (SameLists.of_fenceOnly only).links
  -- The test of `deregisterThread` holds, as the creator joins this very thread.
  have woken : (if d.status parent = .joining ∧ (d.entries parent).joineeThreadIndex = me then
      d.insertBehindToken parent else d) = d₁ := by
    rw [if_pos ((inv.joining parent me).mpr joins), insertBehindToken_eq here]
  have result : d.deregisterThread me =
      { (d₂.deactivate me).setStatus me .exit with tokenpos := some (d₂.links.next me) } := by
    simp only [Determ.deregisterThread]
    rw [woken]
  -- The creator is in the ring too, so `me` is not its only member.
  have several : ¬EntryList.Alone links me :=
    fun alone => List.cons_ne_nil _ _ ((alone_iff inserted).mp alone)
  have removed : (d.deregisterThread me).links =
      links.link (links.prev me) (links.next me) := by
    rw [result]
    show (removeEntry d₂.links me d₂.activelist).1 = _
    rw [same, removeEntry_linked several]
  -- The one behind `me` is the creator: it takes the place, and the token.
  have next : links.next me = parent := (Option.some.inj inserted.next_head).symm
  refine ⟨⟨rest, ring, ?_⟩, ?_⟩
  · rw [removed]
    exact inserted.unlink (List.cons_ne_nil _ _)
  · rw [result]
    show some (d₂.links.next me) = _
    rw [same, next]

/-! ## Who has exited -/

/-- Whoever has exited stays so. -/
def StayGone (d d' : Determ) : Prop := ∀ thread, d.status thread = .exit → d'.status thread = .exit

theorem StayGone.refl (d : Determ) : StayGone d d := fun _ => id

theorem StayGone.of_entries (entries : d'.entries = d.entries) : StayGone d d' := by
  intro thread gone
  rwa [Determ.status, entries]

/-- The entry of a thread changes that is still there. -/
theorem StayGone.of_others (alive : d.status me ≠ .exit)
    (entries : ∀ thread ≠ me, d'.entries thread = d.entries thread) : StayGone d d' := by
  intro thread gone
  have different : thread ≠ me := fun same => alive (same ▸ gone)
  rwa [Determ.status, entries thread different]

theorem StayGone.trans {d'' : Determ} (first : StayGone d d') (second : StayGone d' d'') :
    StayGone d d'' := fun thread gone => second thread (first thread gone)

/-- A change that is only made in one case. -/
theorem StayGone.ite {d'' : Determ} {p : Prop} [Decidable p] (before : StayGone d d')
    (change : StayGone d' d'') : StayGone d (if p then d'' else d') := by
  split
  · exact before.trans change
  · exact before

theorem join_stayGone (alive : d.status me ≠ .exit) : StayGone d (d.join guest me).1 := by
  refine .of_others alive fun thread different => ?_
  unfold Determ.join
  split
  · exact (congrFun joinBlock_counts.entries thread).trans (Function.update_of_ne different _ _)
  · exact setStatus_entries_of_ne different

theorem joinWoken_stayGone (alive : d.status me ≠ .exit) :
    StayGone d (d.joinWoken guest me).1 := by
  refine .of_others alive fun thread different => ?_
  unfold Determ.joinWoken
  dsimp only
  split
  · exact congrFun joinBlock_counts.entries thread
  · exact setStatus_entries_of_ne different

theorem setStatus_exit_stayGone : StayGone d (d.setStatus me .exit) := by
  intro thread gone
  by_cases here : thread = me
  · subst here
    exact setStatus_status_self
  · rwa [Determ.status, setStatus_entries_of_ne here]

/-- Whether the creator is put back or not. -/
theorem deregisterThread_entries :
    (d.deregisterThread me).entries = (d.setStatus me .exit).entries := by
  have woken : ∀ parent, (if d.status parent = .joining ∧
      (d.entries parent).joineeThreadIndex = me then d.insertBehindToken parent else d).entries =
        d.entries := by
    intro parent
    split
    · exact insertBehindToken_untouched.entries
    · rfl
  have left : ∀ d₁ : Determ, (if 0 < d₁.alivethreads then
      Determ.decrFence { d₁ with alivethreads := d₁.alivethreads - 1 } else d₁).entries =
        d₁.entries := by
    intro d₁
    split
    · exact decrFence_counts.entries
    · rfl
  simp only [Determ.deregisterThread, Determ.setStatus, Determ.deactivate]
  rw [left, woken]

theorem deregisterThread_stayGone : StayGone d (d.deregisterThread me) :=
  StayGone.trans setStatus_exit_stayGone (.of_entries deregisterThread_entries)

theorem barrierWait_stayGone (alive : d.status me ≠ .exit) (bar : ℕ) :
    StayGone d (d.barrierWait bar me) := by
  by_cases last : (d.barriers bar).threads + 1 = (d.barriers bar).maxthreads
  · refine .of_entries ?_
    unfold Determ.barrierWait
    dsimp only
    rw [if_pos last]
    split <;> rfl
  · refine .of_others alive fun thread different => ?_
    rw [(barrierWait_counts last).entries]
    exact setStatus_entries_of_ne different

theorem RingInv.condSignal_stayGone (inv : RingInv d pc bound lists) (cond : ℕ) :
    StayGone d (d.condSignal cond) := by
  unfold Determ.condSignal
  dsimp only
  split
  · next entry first =>
    split
    · exact .refl d
    · -- the first waiter is still there
      have member : entry ∈ lists (.cond cond) :=
        List.mem_of_mem_head? ((inv.family.list (.cond cond)).head.symm.trans first)
      obtain ⟨⟨mutex, waits⟩, -⟩ := inv.waits member
      have alive : d.status entry ≠ .exit := by
        intro gone
        cases waits.symm.trans (inv.exited entry gone)
      refine .of_others alive fun thread different => ?_
      refine (Function.update_of_ne different _ _).trans ?_
      exact congrFun insertBehindToken_untouched.entries thread
  · exact .refl d

theorem RingInv.condBroadcast_stayGone (inv : RingInv d pc bound lists) (plain : (pc me).Plain)
    (cond : ℕ) : StayGone d (d.condBroadcast cond) := by
  obtain ⟨token, -, here⟩ := inv.token me (inv.inRing plain)
  cases queue : lists (.cond cond) with
  | nil =>
    rw [(inv.queue_nil queue).2]
    exact .refl d
  | cons entry rest =>
    obtain ⟨first, somebody, ring, round⟩ := inv.queue_cons queue
    have woken := condBroadcast_woken here first somebody ring round
    exact fun thread gone => (inv.woken_exit woken (fun _ member => queue ▸ member) thread).mpr gone

theorem cancel_stayGone (target : ℕ) : StayGone d (d.cancel target) := by
  unfold Determ.cancel
  split
  · refine StayGone.trans (.ite (.ite ?_ ?_) ?_) setStatus_exit_stayGone
    · exact .of_entries rfl
    · exact .of_entries rfl
    · exact .of_entries rfl
  · exact .refl d

theorem RingInv.perform_stayGone (inv : RingInv d pc bound lists) {t : Thread} {work : Work}
    (at_ : pc me = .work work) : StayGone d (Xrun.perform d t me work).1 := by
  have plain : (pc me).Plain := by
    rw [at_]
    trivial
  have alive := inv.alive plain
  cases work with
  | spawn => exact .refl d
  | join guest =>
    simp only [Xrun.perform]
    split
    · exact join_stayGone alive
    · exact .of_entries rfl
  | lock mutex => exact .of_entries rfl
  | signal cond => exact inv.condSignal_stayGone cond
  | broadcast cond => exact inv.condBroadcast_stayGone plain cond
  | barrier bar => exact barrierWait_stayGone alive bar
  | sigWait => exact .of_entries sigWait_counts.entries
  | cancel target =>
    simp only [Xrun.perform]
    split
    · exact .refl d
    · exact cancel_stayGone target
  | exit => exact deregisterThread_stayGone

/-- No step of a call brings back a thread that has exited. -/
theorem RingInv.exec_stayGone (inv : RingInv d pc bound lists) {t : Thread} (here : pc me = t.pc)
    {result : Determ × Thread} (moved : Xrun.exec d t me = some result) : StayGone d result.1 := by
  unfold Xrun.exec at moved
  cases at_ : t.pc <;> rw [at_] at moved here
  case absent | waitParentNotify | user | sigWaiting | exited => cases moved
  case registered | notify work | lockSingle mutex | lockFast mutex | putToken after
      | closeFence | condAcquire mutex =>
    obtain rfl := Option.some.inj moved
    exact .of_entries rfl
  case waitChildRegistered =>
    simp only at moved
    split at moved <;> (obtain rfl := Option.some.inj moved; exact .of_entries rfl)
  case parentSleeping | getToken work | joinToken | condToken mutex
      | barrierBlocked bar round released =>
    obtain rfl := Option.some.inj (Option.ite_none_right_eq_some.mp moved).2
    exact .of_entries rfl
  case startFence work =>
    obtain rfl := Option.some.inj moved
    exact .of_entries rfl
  case lockIsowner mutex =>
    obtain rfl := Option.some.inj moved
    exact .of_entries lockIsowner_same.entries
  case fence pos after =>
    obtain ⟨⟨d', next⟩, waits, rfl⟩ := Option.map_eq_some_iff.mp moved
    have same := (SameLists.of_fenceOnly (Determ.waitFence_only waits)).entries
    cases next <;> exact .of_entries same
  case work work =>
    obtain rfl := Option.some.inj (Option.ite_none_left_eq_some.mp moved).2
    exact inv.perform_stayGone here
  -- `join` changes the status of the joiner, and that thread has not exited.
  case joinEnter guest =>
    obtain rfl := Option.some.inj moved
    have plain : (pc me).Plain := by
      rw [here]
      trivial
    exact join_stayGone (inv.alive plain)
  case joinWait guest =>
    obtain rfl := Option.some.inj moved
    refine joinWoken_stayGone fun gone => ?_
    cases here.symm.trans (inv.exited me gone)
  case condWaiting cond mutex =>
    simp only at moved
    split at moved
    · obtain rfl := Option.some.inj moved
      exact .of_entries rfl
    · obtain ⟨d', released, rfl⟩ := Option.map_eq_some_iff.mp moved
      exact .of_entries (lockRelease_same released).entries
  case barrierEnter bar round =>
    obtain rfl := Option.some.inj moved
    exact .of_entries realBarrierWait_same.entries

theorem RingInv.step_stayGone (inv : RingInv s.determ s.pc s.threadIndex lists)
    (stepped : Xrun.step s label = some s') : StayGone s.determ s'.determ := by
  have move := move_of_step stepped
  cases label with
  | call me c =>
    obtain ⟨⟨user, -⟩, move⟩ := Option.ite_none_right_eq_some.mp move
    obtain ⟨result, called, rfl⟩ := Option.map_eq_some_iff.mp move
    -- A thread in the program has not exited.
    have alive : s.determ.status me ≠ .exit := by
      intro gone
      cases user.symm.trans (inv.exited me gone)
    show StayGone s.determ result.1
    cases c with
    | mutexUnlock mutex =>
      simp only [Xrun.call] at called
      split at called
      · obtain ⟨d', released, rfl⟩ := Option.map_eq_some_iff.mp called
        exact .of_entries (lockRelease_same released).entries
      · obtain rfl := Option.some.inj called
        exact .refl _
    | condWait cond mutex =>
      obtain ⟨d', released, rfl⟩ := Option.map_eq_some_iff.mp called
      refine StayGone.trans ?_ (.of_entries (lockRelease_same released).entries)
      refine .of_others alive fun thread different => ?_
      rw [(condWait_counts cond).entries]
      exact setStatus_entries_of_ne different
    | _ =>
      obtain rfl := Option.some.inj called
      exact .refl _
  | exec me =>
    obtain ⟨result, executed, rfl⟩ := Option.map_eq_some_iff.mp move
    have here : s.pc me = (s.thread me).pc := rfl
    exact inv.exec_stayGone here executed
  | childRegister parent =>
    obtain ⟨-, rfl⟩ := guarded move
    -- The number of the new thread was unused, and an unused entry has not exited.
    have alive : s.determ.status s.threadIndex ≠ .exit := by
      intro gone
      have absent := (inv.fresh s.threadIndex).mpr le_rfl
      cases absent.symm.trans (inv.exited _ gone)
    exact .of_others alive fun thread different => Function.update_of_ne different _ _
  | cloneFails me =>
    obtain ⟨-, rfl⟩ := guarded move
    exact .refl _
  | spuriousReturn me =>
    simp only [Xrun.move] at move
    split at move
    · obtain rfl := Option.some.inj move
      exact .refl _
    · obtain rfl := Option.some.inj move
      exact .of_entries rfl
    · cases move
  | sigwaitReturns me =>
    obtain ⟨-, rfl⟩ := guarded move
    exact .of_entries sigWaitWoken_counts.entries
  | sigwaitFails me =>
    obtain ⟨-, rfl⟩ := guarded move
    exact .refl _

/-! ## The way out of `join` -/

/-- The joinee has exited and the joiner has not returned. -/
def Leaving (s : State) (joiner guest : ℕ) : Prop :=
  s.pc joiner = .joinWait guest ∧ s.determ.status guest = .exit ∨ s.pc joiner = .joinToken

/-- A thread that waits neither for its parent nor for a condition stays where it is while
others take steps. -/
theorem others_pc_of_awake (parent : s.pc thread ≠ .waitParentNotify)
    (awake : s.determ.status thread ≠ .condWaiting) : (s.others me).pc thread = s.pc thread := by
  unfold State.pc at parent ⊢
  rw [others_thread]
  split
  · exact congrArg Thread.pc (if_neg parent)
  · split
    · unfold announce
      split <;> rfl
    · split
      · exact if_neg awake
      · rfl

/-- A joiner moves by its own steps alone. -/
theorem RingInv.joiner_stays (inv : RingInv s.determ s.pc s.threadIndex lists)
    (joins : s.pc joiner = .joinWait guest ∨ s.pc joiner = .joinToken)
    (stepped : Xrun.step s label = some s') (others : label.thread ≠ some joiner) :
    s'.pc joiner = s.pc joiner := by
  -- Others move a thread only if it sleeps for its parent or for a condition variable.
  have present : s.pc joiner ≠ .absent := by
    rcases joins with at_ | at_ <;> (rw [at_]; nofun)
  have parent : s.pc joiner ≠ .waitParentNotify := by
    rcases joins with at_ | at_ <;> (rw [at_]; nofun)
  have awake : s.determ.status joiner ≠ .condWaiting := by
    intro asleep
    obtain ⟨mutex, waits⟩ := inv.waiting joiner present asleep
    rcases joins with at_ | at_ <;> cases at_.symm.trans waits
  have updated : ∀ {me : ℕ} {s₁ : State} {result : Determ × Thread}, label.thread = some me →
      s₁.pc joiner = s.pc joiner → (s₁.update me result).pc joiner = s.pc joiner := by
    intro me s₁ result mine same
    -- A step of another thread writes the record of that thread.
    have different : joiner ≠ me := fun here => others (here ▸ mine)
    rw [update_pc, Function.update_of_ne different, same]
  have move := move_of_step stepped
  cases label with
  | call me c =>
    obtain ⟨-, move⟩ := Option.ite_none_right_eq_some.mp move
    obtain ⟨result, -, rfl⟩ := Option.map_eq_some_iff.mp move
    exact updated rfl rfl
  | exec me =>
    obtain ⟨result, -, rfl⟩ := Option.map_eq_some_iff.mp move
    have mine : (Label.exec me).thread = some me := rfl
    exact updated mine (others_pc_of_awake parent awake)
  | childRegister parent =>
    obtain ⟨-, rfl⟩ := guarded move
    have different : joiner ≠ s.threadIndex := by
      intro new
      exact present ((inv.fresh joiner).mpr new.ge)
    exact congrArg Thread.pc (Function.update_of_ne different _ _)
  | cloneFails me | sigwaitReturns me | sigwaitFails me =>
    obtain ⟨-, rfl⟩ := guarded move
    exact updated rfl rfl
  | spuriousReturn me =>
    simp only [Xrun.move] at move
    split at move
    · obtain rfl := Option.some.inj move
      exact updated rfl rfl
    · obtain rfl := Option.some.inj move
      exact updated rfl rfl
    · cases move

/-- A thread that is not killed takes its next step. -/
theorem step_exec (alive : s.killed me = false) {result : Determ × Thread}
    (executed : Xrun.exec s.determ (s.thread me) me = some result) :
    ∃ s', system.step s (.exec me) = some s' ∧ s'.determ = result.1 ∧ s'.thread me = result.2 := by
  let s' : State := { (s.others me).update me result with
    forks := if (s.thread me).pc = .work .spawn then me :: s.forks else s.forks }
  have mine : s'.thread me = result.2 := Function.update_self ..
  refine ⟨s', ?_, rfl, mine⟩
  show (if Option.any (fun me => (s.thread me).killed) (some me) then none else move s (.exec me)) =
    _
  have awake : ¬Option.any (fun me => (s.thread me).killed) (some me) = true :=
    Bool.eq_false_iff.mp alive
  rw [if_neg awake]
  simp only [move, executed, Option.map_some]
  rfl

/-- The loop of `join` ends. -/
theorem exec_joinWait {t : Thread} (at_ : t.pc = .joinWait guest)
    (gone : d.status guest = .exit) :
    Xrun.exec d t me = some (((d.incrFence 1).setStatus me .ready), t.goto .joinToken) := by
  have out : ¬(d.incrFence 1).status guest ≠ .exit := fun there => there gone
  simp only [Xrun.exec, at_, Determ.joinWoken, if_neg out]
  rfl

theorem exec_joinToken {t : Thread} (at_ : t.pc = .joinToken) (here : d.tokenpos = some me) :
    Xrun.exec d t me = some (d, t.goto (.putToken .joined)) := by
  simp only [Xrun.exec, at_, if_pos here]

/-- Others do not bring a joiner back to its wait, and its own steps lead it out. -/
theorem Leaving.step (leaving : Leaving s joiner guest)
    (inv : RingInv s.determ s.pc s.threadIndex lists) (stepped : Xrun.step s label = some s') :
    Leaving s' joiner guest ∨ label = .exec joiner ∧ s'.pc joiner = .putToken .joined := by
  by_cases mine : label.thread = some joiner
  · have move := move_of_step stepped
    -- The thread is at one of the two steps of the wait, so no label but `exec` is its own.
    have there : ∀ {at_ : Pc}, (s.thread joiner).pc = at_ → at_ = .joinWait guest ∨
        at_ = .joinToken := by
      rintro at_ rfl
      exact leaving.imp And.left id
    cases label with
    | exec me =>
      obtain rfl := Option.some.inj mine
      obtain ⟨result, executed, rfl⟩ := Option.map_eq_some_iff.mp move
      have arrived : ((s.others me).update me result).pc me = result.2.pc := by
        rw [update_pc, Function.update_self]
      -- The first step leads to the token, as the guest has exited; the second ends the wait.
      rcases leaving with ⟨at_, gone⟩ | at_
      · obtain rfl := Option.some.inj ((exec_joinWait at_ gone).symm.trans executed)
        exact .inl (.inr arrived)
      · have here : s.determ.tokenpos = some me := by
          have at_' : (s.thread me).pc = .joinToken := at_
          simp only [Xrun.exec, at_', Option.ite_none_right_eq_some] at executed
          exact executed.1
        obtain rfl := Option.some.inj ((exec_joinToken at_ here).symm.trans executed)
        exact .inr ⟨rfl, arrived⟩
    | call me c =>
      obtain rfl := Option.some.inj mine
      obtain ⟨⟨user, -⟩, -⟩ := Option.ite_none_right_eq_some.mp move
      rcases there user with impossible | impossible <;> cases impossible
    | childRegister parent => cases mine
    | cloneFails me | sigwaitReturns me | sigwaitFails me =>
      obtain rfl := Option.some.inj mine
      obtain ⟨at_, -⟩ := guarded move
      rcases there at_ with impossible | impossible <;> cases impossible
    | spuriousReturn me =>
      obtain rfl := Option.some.inj mine
      simp only [Xrun.move] at move
      split at move
      · next at_ => rcases there at_ with impossible | impossible <;> cases impossible
      · next at_ => rcases there at_ with impossible | impossible <;> cases impossible
      · cases move
  · -- Others leave the joiner where it is, and who has exited stays so.
    have stays := inv.joiner_stays (leaving.imp And.left id) stepped mine
    refine .inl ?_
    rcases leaving with ⟨at_, gone⟩ | at_
    · exact .inl ⟨stays.trans at_, inv.step_stayGone stepped guest gone⟩
    · exact .inr (stays.trans at_)

/-- A joiner that is leaving is active, and returns as soon as it has the token. -/
theorem Leaving.returning (leaving : Leaving s joiner guest)
    (inv : RingInv s.determ s.pc s.threadIndex lists) (alive : s.killed joiner = false) :
    Returning s joiner := by
  have last : ∀ {s : State}, s.pc joiner = .joinToken → s.killed joiner = false →
      s.determ.tokenpos = some joiner →
      ∃ s', system.step s (.exec joiner) = some s' ∧ s'.pc joiner = .putToken .joined := by
    intro s at_ alive here
    obtain ⟨s', stepped, -, thread⟩ := step_exec alive (exec_joinToken at_ here)
    exact ⟨s', stepped, congrArg Thread.pc thread⟩
  rcases leaving with ⟨at_, gone⟩ | at_
  · refine ⟨inv.inRing_iff_active.mpr ?_, fun here => ?_⟩
    · rw [at_]
      exact if_pos gone
    · obtain ⟨s₁, first, determ, thread⟩ := step_exec alive (exec_joinWait at_ gone)
      have alive' : s₁.killed joiner = false := (congrArg Thread.killed thread).trans alive
      obtain ⟨s₂, second, returned⟩ := last (congrArg Thread.pc thread) alive' (determ ▸ here)
      refine ⟨2, s₂, ?_, returned⟩
      show (system.step s _).bind _ = _
      rw [first]
      show (system.step s₁ _).bind _ = _
      rw [second]
      rfl
  · refine ⟨inv.inRing_iff_active.mpr ?_, fun here => ?_⟩
    · rw [at_]
      rfl
    · obtain ⟨s₁, stepped, returned⟩ := last at_ alive here
      refine ⟨1, s₁, ?_, returned⟩
      show (system.step s _).bind _ = _
      rw [stepped]
      rfl

theorem ringInv_of_keepsJoins (reach : system.Reachable KeepsJoins s) :
    ∃ lists, RingInv s.determ s.pc s.threadIndex lists :=
  ringInv_of_keepsRing (reach.mono fun _ _ keeps => keeps.1)

/-- Along a run it goes on leaving until it has returned. -/
theorem Leaving.run (leaving : Leaving s joiner guest) (reach : system.Reachable KeepsJoins s)
    {labels : List Label} {t : State} (complies : system.Complies KeepsJoins s labels)
    (execution : system.run s labels = some t) :
    Leaving t joiner guest ∨ HasReturned s labels joiner := by
  induction labels generalizing s with
  | nil =>
    obtain rfl := Option.some.inj execution
    exact .inl leaving
  | cons label rest ih =>
    obtain ⟨middle, stepped, tail⟩ := Option.bind_eq_some_iff.mp execution
    obtain ⟨lists, inv⟩ := ringInv_of_keepsJoins reach
    rcases leaving.step inv stepped with leaving' | ⟨rfl, returned⟩
    · rcases ih leaving' (.step label reach complies.1 stepped)
        (complies.2 middle stepped) tail with
        still | ⟨front, back, s', rfl, ran, returned⟩
      · exact .inl still
      · refine .inr ⟨label :: front, back, s', rfl, ?_, returned⟩
        show (system.step s label).bind _ = _
        rw [stepped]
        exact ran
    · refine .inr ⟨[], rest, middle, rfl, ?_, returned⟩
      show (system.step s _).bind _ = _
      rw [stepped]
      rfl

/-! ## Joins over whole runs -/

/-- The exit of a thread, under the condition. -/
theorem servesJoiners_of_keepsJoins (reach : system.Reachable KeepsJoins s)
    (at_ : s.pc me = .work .exit) (keeps : KeepsJoins s (.exec me))
    (stepped : system.step s (.exec me) = some s') : ServesJoiners KeepsJoins s s' me := by
  obtain ⟨before, inv⟩ := ringInv_of_keepsJoins reach
  obtain ⟨after, inv'⟩ := inv.step (targets_of_reachable reach) keeps.1 stepped
  have reach' : system.Reachable KeepsJoins s' := .step _ reach keeps stepped
  have plain : (s.pc me).Plain := by
    rw [at_]
    trivial
  have left : s'.determ = s.determ.deregisterThread me := by
    obtain ⟨result, executed, rfl⟩ := Option.map_eq_some_iff.mp (move_of_step stepped)
    have here : (s.thread me).pc = .work .exit := at_
    simp only [Xrun.exec, here] at executed
    obtain rfl := Option.some.inj executed
    rfl
  have exited : s'.determ.status me = .exit := by
    rw [left, Determ.status, deregisterThread_entries]
    exact setStatus_status_self
  -- The waiting threads are not `me`, who is at its exit.
  have waits :
      ∀ {thread guest}, s.pc thread = .joinWait guest → s'.pc thread = .joinWait guest := by
    intro thread guest joins
    refine (inv.joiner_stays (.inl joins) stepped ?_).trans joins
    intro same
    obtain rfl : me = thread := Option.some.inj same
    cases at_.symm.trans joins
  constructor
  · intro joiner joins
    -- By the condition the joiner is the creator, and the token is with `me`.
    have creator := keeps.1
    simp only [KeepsRing, at_] at creator
    obtain rfl := creator joiner joins
    have here := keeps.2 me rfl at_ ⟨_, joins⟩
    obtain ⟨place, token⟩ := inv.putsBack plain joins here
    refine ⟨left ▸ place, inv'.inRing_iff_active.mpr ?_, left ▸ token⟩
    rw [waits joins]
    exact if_pos exited
  · -- Whatever comes after: the joiner is still on its way out, or it has returned.
    intro joiner joins labels t complies execution alive
    have leaving : Leaving s' joiner me := .inl ⟨waits joins, exited⟩
    rcases leaving.run reach' complies execution with still | returned
    · obtain ⟨later, inv⟩ := ringInv_of_keepsJoins (reach'.follow complies execution)
      exact .inl (still.returning inv alive)
    · exact .inr returned
  · -- Those who wait for another guest are where they were.
    intro joiner guest joins other
    rw [inv.inRing_iff_active, inv'.inRing_iff_active, waits joins, joins]
    have same : s'.determ.status guest = s.determ.status guest := by
      rw [left, Determ.status, deregisterThread_entries]
      exact congrArg ThreadEntry.status (setStatus_entries_of_ne other)
    simp only [Xrun.place, same]

/-- A joiner whose joinee has exited before does not leave the ring. -/
theorem passes_of_keepsJoins (reach : system.Reachable KeepsJoins s)
    (joins : Joins s joiner guest) (gone : s.determ.status guest = .exit)
    (stepped : system.step s (.exec joiner) = some s') :
    s'.pc joiner = .putToken .joined ∧ InRing s'.determ joiner := by
  obtain ⟨lists, inv⟩ := ringInv_of_keepsJoins reach
  have keeps : KeepsRing s (.exec joiner) := by
    rcases joins with ⟨at_, -⟩ | at_ <;> simp only [KeepsRing, at_]
  obtain ⟨lists', inv'⟩ := inv.step (targets_of_reachable reach) keeps stepped
  have passes : (s.determ.join guest joiner).2 = false := by
    unfold Determ.join
    rw [if_neg (fun there => there gone)]
  have returned : s'.pc joiner = .putToken .joined := by
    obtain ⟨result, executed, rfl⟩ := Option.map_eq_some_iff.mp (move_of_step stepped)
    have arrived : ((s.others joiner).update joiner result).pc joiner = result.2.pc := by
      rw [update_pc, Function.update_self]
    refine arrived.trans ?_
    rcases joins with ⟨at_, fenced⟩ | at_
    · have here : (s.thread joiner).pc = .work (.join guest) := at_
      simp only [Xrun.exec, here] at executed
      obtain rfl := Option.some.inj (Option.ite_none_left_eq_some.mp executed).2
      simp only [Xrun.perform, if_pos fenced, Thread.goto, passes]
      rfl
    · have here : (s.thread joiner).pc = .joinEnter guest := at_
      simp only [Xrun.exec, here] at executed
      obtain rfl := Option.some.inj executed
      simp only [Thread.goto, passes]
      rfl
  refine ⟨returned, inv'.inRing_iff_active.mpr ?_⟩
  rw [returned]
  rfl

/-- **Joining.** In every run whose steps all meet the condition, joins work: whether the joinee
exits after the call or has exited before, the joiner is in the ring and returns. -/
theorem joinsWork_of_keepsJoins (reach : system.Reachable KeepsJoins s) : JoinsWork KeepsJoins s :=
  ⟨fun _ _ at_ keeps stepped => servesJoiners_of_keepsJoins reach at_ keeps stepped,
    fun _ _ _ joins gone stepped => passes_of_keepsJoins reach joins gone stepped⟩

theorem keepsRing_keepsJoins (s : State) (label : Label) (keeps : keepsRing s label = true) :
    KeepsJoins s label := by
  refine ⟨keepsRing_sound s label keeps, ?_⟩
  rintro me rfl at_ -
  simp [keepsRing, at_] at keeps

/-- The first thread creates another one and joins it, which is about to exit. -/
def joinsItsChild : List Label := [.call 0 .spawn, .exec 0, .childRegister 0, .exec 0, .exec 1,
  .exec 0, .call 0 (.join 1), .exec 0, .exec 0, .call 1 .exit, .exec 1, .exec 1]

theorem joinsWork_itsChild : ∃ s, system.Reachable KeepsJoins s ∧ s.pc 0 = .joinWait 1 ∧
    s.pc 1 = .work .exit ∧ JoinsWork KeepsJoins s := by
  have run : (system.runIf keepsRing (start 2 fun _ => 2) joinsItsChild).any fun s =>
      s.pc 0 = .joinWait 1 ∧ s.pc 1 = .work .exit := by decide +kernel
  obtain ⟨s, execution, facts⟩ := (Option.any_eq_true _ _).mp run
  obtain ⟨joins, exits⟩ := of_decide_eq_true facts
  have start : system.Reachable KeepsJoins (start 2 fun _ => 2) := .init ⟨2, _, Nat.two_pos, rfl⟩
  have reach := start.runIf keepsRing_keepsJoins execution
  exact ⟨s, reach, joins, exits, joinsWork_of_keepsJoins reach⟩

/-- A thread joins its sibling, which is about to exit. -/
def joinsItsSibling : List Label := [.call 0 .spawn, .exec 0, .childRegister 0, .exec 0, .exec 1,
  .exec 0, .call 0 .spawn, .exec 0, .childRegister 0, .exec 0, .exec 2, .exec 0,
  .call 0 (.mutexLock 6), .exec 0, .exec 0, .exec 0, .exec 0, .exec 0, .call 1 (.join 2), .exec 1,
  .call 2 .exit, .exec 2, .exec 0, .exec 0, .exec 0, .call 0 (.mutexUnlock 6), .exec 0, .exec 0,
  .exec 1, .exec 0, .exec 1, .exec 1, .exec 2]

/-- The joiner is not put back: its creator, which joins nobody, is alone in the ring. -/
theorem not_joinsWork_sibling :
    ¬ ∀ s, system.Reachable AnyStep s → JoinsWork AnyStep s := by
  intro work
  have run : (system.run (start 2 fun _ => 2) joinsItsSibling).any fun s =>
      s.pc 1 = .joinWait 2 ∧ s.pc 2 = .work .exit ∧ (system.step s (.exec 2)).any fun s' =>
        s'.determ.activelist = some 0 ∧ s'.determ.links.next 0 = 0 := by decide +kernel
  obtain ⟨s, execution, facts⟩ := (Option.any_eq_true _ _).mp run
  obtain ⟨joins, exits, move⟩ := of_decide_eq_true facts
  obtain ⟨s', stepped, facts⟩ := (Option.any_eq_true _ _).mp move
  obtain ⟨head, alone⟩ := of_decide_eq_true facts
  have start : system.Reachable AnyStep (start 2 fun _ => 2) := .init ⟨2, _, Nat.two_pos, rfl⟩
  have served := (work s (start.run execution)).later 2 s' exits trivial stepped
  obtain ⟨first, here, n, reached⟩ := (served.back 1 joins).active
  obtain rfl := Option.some.inj (head.symm.trans here)
  rw [Function.iterate_fixed alone] at reached
  cases reached

end Tthread.Xrun
