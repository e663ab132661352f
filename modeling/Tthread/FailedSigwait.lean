/-
# A sigwait that fails

`sig_wait` takes its thread out of the ring, lowers the fence and passes the token on before it
calls `sigwait`. If that fails, it returns at once, without what it does otherwise: the thread goes
on with the program, but is in no list and not counted. When it asks for the token the next time, it
waits as long as the others keep the ring and one of them is active.

That is shown by hiding what the thread does: for the others it might as well still sleep.
-/

import Tthread.Joining

namespace Tthread.Xrun

open Transition EntryList

/-! ## Being back -/

/-- With the second state the thread is a member of the ring, and one more is counted than before
its call returned. -/
structure Rejoined (s s' : State) (thread : ℕ) : Prop where
  ring : InRing s'.determ thread
  counted : s'.determ.maxthreads = Determ.increased s.determ.maxthreads 1

/-- The thread sleeps in `sigwait`, as far as the others can tell. -/
def State.hide (s : State) (me : ℕ) : State :=
  { s with thread := Function.update s.thread me ((s.thread me).goto .sigWaiting) }

/-- In the program, or on the way to the token. -/
def Pc.Asks : Pc → Prop
  | .user | .lockIsowner _ | .lockSingle _ | .lockFast _ | .fence _ (.getToken _)
  | .getToken _ => True
  | _ => False

/-- The fence is enabled, and the token is not held for a mutex. -/
structure Thread.Asks (t : Thread) : Prop where
  fenceEnabled : t.fenceEnabled = true
  tokenHolding : t.tokenHolding = false
  pc : t.pc.Asks

/-- Somebody is active, the others keep the ring, and the thread does not wait for a condition, for
which it would have to hold the token. -/
def GoesOn (me : ℕ) (s : State) (label : Label) : Prop :=
  s.determ.activelist ≠ none ∧ (∀ cond mutex, label ≠ .call me (.condWait cond mutex)) ∧
    (label.thread ≠ some me → KeepsRing (s.hide me) label)

/-- The thread goes on, and the ring is what it is while the thread sleeps. -/
structure Stranded (s : State) (me : ℕ) : Prop where
  asks : (s.thread me).Asks
  ring : ∃ lists, RingInv s.determ (s.hide me).pc s.threadIndex lists
  targets : Targets s

variable {s s' : State} {d d' : Determ} {t : Thread} {me other : ℕ} {lists : Place → List ℕ}
  {label : Label} {result : Determ × Thread}

/-! ## Hiding a thread -/

theorem hide_thread_of_ne (different : other ≠ me) : (s.hide me).thread other = s.thread other :=
  Function.update_of_ne different _ _

theorem hide_pc : (s.hide me).pc = Function.update s.pc me .sigWaiting := by
  have updated : (s.update me (s.determ, (s.thread me).goto .sigWaiting)).pc = _ := update_pc
  exact updated

/-- A thread that is in no list has no token either, as long as somebody has. -/
theorem Stranded.outside (stranded : Stranded s me) : ¬ InRing s.determ me ∧
    (s.determ.activelist ≠ none → s.determ.tokenpos ≠ some me) := by
  obtain ⟨lists, inv⟩ := stranded.ring
  have list : IsList s.determ.links s.determ.activelist (lists .ring) := inv.family.list .ring
  have absent : me ∉ lists .ring := by
    rw [inv.placed, hide_pc, Function.update_self]
    exact nofun
  refine ⟨fun member => absent (inv.inRing_iff.mp member), fun active at_ => ?_⟩
  cases members : lists .ring with
  | nil =>
    rw [members] at list
    exact active list.head
  | cons a rest =>
    obtain ⟨token, member, here⟩ := inv.token a (by rw [members]; exact List.mem_cons_self)
    obtain rfl := Option.some.inj (here.symm.trans at_)
    exact absent member

/-! ## Steps of the thread -/

theorem asks_getLockAgain {mutex : ℕ} (enabled : t.fenceEnabled = true)
    (free : t.tokenHolding = false) : (t.getLockAgain mutex).Asks := by
  unfold Thread.getLockAgain
  rw [free]
  exact ⟨enabled, free, trivial⟩

theorem pc_asks_ite {p : Prop} [Decidable p] {a b : Pc} (yes : a.Asks) (no : b.Asks) :
    (if p then a else b).Asks := by
  split <;> assumption

theorem asks_ite {p : Prop} [Decidable p] {t' : Thread} (yes : t.Asks) (no : t'.Asks) :
    (if p then t else t').Asks := by
  split <;> assumption

/-- A call goes to the fence first, or is about a mutex. -/
theorem call_asks {c : Call} (asks : t.Asks)
    (noWait : ∀ cond mutex, c ≠ .condWait cond mutex) (move : Xrun.call d t me c = some result) :
    SameLists d result.1 ∧ result.2.Asks := by
  obtain ⟨enabled, free, pc⟩ := asks
  have idle := SameLists.refl d
  cases c with
  | condWait cond mutex => exact absurd rfl (noWait cond mutex)
  | mutexUnlock mutex =>
    simp only [Xrun.call, enabled, if_true] at move
    obtain ⟨d', released, rfl⟩ := Option.map_eq_some_iff.mp move
    refine ⟨lockRelease_same released, ?_⟩
    simp only [free, Bool.false_eq_true, and_false, if_false]
    exact ⟨rfl, rfl, pc⟩
  | spawn | join guest | mutexLock mutex | barrierWait bar =>
    simp only [Xrun.call, enabled, if_true] at move
    obtain rfl := Option.some.inj move
    exact ⟨idle, enabled, free, trivial⟩
  | condSignal cond | condBroadcast cond =>
    simp only [Xrun.call, enabled, free, if_true, Bool.false_eq_true, if_false] at move
    obtain rfl := Option.some.inj move
    exact ⟨idle, enabled, free, trivial⟩
  | cancel target =>
    simp only [Xrun.call, free, Bool.false_eq_true, if_false] at move
    obtain rfl := Option.some.inj move
    exact ⟨idle, enabled, free, trivial⟩
  | sigWait | exit =>
    obtain rfl := Option.some.inj move
    exact ⟨idle, enabled, free, trivial⟩

/-- Without the token the call goes no further than to where it waits for it. -/
theorem exec_asks (asks : t.Asks) (noToken : d.tokenpos ≠ some me)
    (move : Xrun.exec d t me = some result) : SameLists d result.1 ∧ result.2.Asks := by
  obtain ⟨enabled, free, pc⟩ := asks
  have idle := SameLists.refl d
  unfold Xrun.exec at move
  cases at_ : t.pc with
  | user =>
    rw [at_] at move
    cases move
  | lockIsowner mutex =>
    rw [at_] at move
    obtain rfl := Option.some.inj move
    exact ⟨lockIsowner_same, enabled, free, pc_asks_ite trivial trivial⟩
  | lockSingle mutex =>
    rw [at_] at move
    obtain rfl := Option.some.inj move
    exact ⟨idle, asks_ite ⟨enabled, free, trivial⟩ (asks_getLockAgain enabled free)⟩
  | lockFast mutex =>
    rw [at_] at move
    obtain rfl := Option.some.inj move
    exact ⟨lockAcquire_same, asks_ite ⟨enabled, free, trivial⟩ (asks_getLockAgain enabled free)⟩
  | fence pos after =>
    rw [at_] at move pc
    obtain ⟨⟨d', next⟩, waits, rfl⟩ := Option.map_eq_some_iff.mp move
    have only := SameLists.of_fenceOnly (Determ.waitFence_only waits)
    cases after with
    | getToken work => cases next <;> exact ⟨only, enabled, free, trivial⟩
    | relock | joined | done => exact pc.elim
  | getToken work =>
    rw [at_] at move
    simp only [Option.ite_none_right_eq_some] at move
    exact absurd move.1 noToken
  | _ =>
    rw [at_] at pc
    exact pc.elim

theorem Stranded.keep (stranded : Stranded s me) (same : SameLists s.determ s'.determ)
    (pc : (s'.hide me).pc = (s.hide me).pc) (index : s'.threadIndex = s.threadIndex)
    (asks : (s'.thread me).Asks) (targets : Targets s') : Stranded s' me := by
  obtain ⟨lists, inv⟩ := stranded.ring
  refine ⟨asks, ⟨lists, ?_⟩, targets⟩
  rw [pc, index]
  exact inv.moved same fun _ => .inl rfl

/-- Nothing but the record of the thread changes. -/
theorem update_hide_pc : ((s.update me result).hide me).pc = (s.hide me).pc := by
  rw [hide_pc, hide_pc, update_pc, Function.update_idem]

/-- The thread does nothing to others. -/
theorem others_of_asks (asks : (s.thread me).Asks) : s.others me = s := by
  have pc := asks.pc
  have quiet : (s.thread me).pc.Notifies = false ∧
      (s.thread me).pc.StartsFence (s.thread me).fenceEnabled = false ∧
      ∀ target, ¬ (s.thread me).pc.Cancels target := by
    cases at_ : (s.thread me).pc <;> rw [at_] at pc <;>
      first | exact ⟨rfl, rfl, fun _ => nofun⟩ | exact False.elim pc
  obtain ⟨notifies, starts, cancels⟩ := quiet
  have same : (fun thread => if (s.thread me).pc.Cancels thread then
      kill s.determ thread (s.thread thread) else s.thread thread) = s.thread := by
    funext thread
    exact if_neg (cancels thread)
  simp only [State.others, notifies, starts, Bool.false_eq_true, if_false, same]

/-- The thread itself takes a step. -/
theorem Stranded.own (stranded : Stranded s me) (goes : GoesOn me s label)
    (mine : label.thread = some me) (stepped : Xrun.step s label = some s') : Stranded s' me := by
  have targets := stranded.targets.step stepped
  have move := move_of_step stepped
  have asks := stranded.asks
  have pc := asks.pc
  -- It stands outside the ring, and the token goes round in the ring.
  have noToken := stranded.outside.2 goes.1
  cases label with
  | call _ c =>
    obtain rfl := Option.some.inj mine
    obtain ⟨-, move⟩ := Option.ite_none_right_eq_some.mp move
    obtain ⟨result, called, rfl⟩ := Option.map_eq_some_iff.mp move
    have noWait : ∀ cond mutex, c ≠ .condWait cond mutex :=
      fun cond mutex same => goes.2.1 cond mutex (by rw [same])
    obtain ⟨same, asks'⟩ := call_asks asks noWait called
    refine stranded.keep same update_hide_pc rfl ?_ targets
    change (Function.update s.thread _ result.2 _).Asks
    rwa [Function.update_self]
  | exec _ =>
    obtain rfl := Option.some.inj mine
    obtain ⟨result, executed, rfl⟩ := Option.map_eq_some_iff.mp move
    obtain ⟨same, asks'⟩ := exec_asks asks noToken executed
    rw [others_of_asks asks] at targets ⊢
    refine stranded.keep same ?_ rfl ?_ targets
    · exact update_hide_pc
    · change (Function.update s.thread _ result.2 _).Asks
      rwa [Function.update_self]
  | childRegister parent => cases mine
  -- A thread that asks for the token is at none of these.
  | cloneFails _ | sigwaitReturns _ | sigwaitFails _ =>
    obtain rfl := Option.some.inj mine
    obtain ⟨at_, -⟩ := Option.ite_none_right_eq_some.mp move
    rw [at_] at pc
    exact pc.elim
  | spuriousReturn _ =>
    obtain rfl := Option.some.inj mine
    simp only [Xrun.move] at move
    split at move
    · next at_ =>
      rw [at_] at pc
      exact pc.elim
    · next at_ =>
      rw [at_] at pc
      exact pc.elim
    · cases move

/-! ## Steps of the others -/

/-- What the step of another thread does to the record: it may be counted, or killed. -/
theorem others_record (other : ℕ) (present : (s.thread me).pc ≠ .waitParentNotify)
    (awake : s.determ.status me ≠ .condWaiting) :
    ((s.others other).thread me).pc = (s.thread me).pc ∧
      ((s.others other).thread me).fenceEnabled = (s.thread me).fenceEnabled ∧
      ((s.others other).thread me).tokenHolding = (s.thread me).tokenHolding := by
  rw [others_thread]
  split
  · rw [wakeChild, if_neg present]
    exact ⟨rfl, rfl, rfl⟩
  · split
    · unfold announce
      split <;> exact ⟨rfl, rfl, rfl⟩
    · split
      · exact ⟨if_neg awake, rfl, rfl⟩
      · exact ⟨rfl, rfl, rfl⟩

/-- The others do the same while the thread sleeps. -/
theorem hide_others (different : other ≠ me) (present : (s.thread me).pc ≠ .waitParentNotify)
    (there : (s.thread me).pc ≠ .absent) (awake : s.determ.status me ≠ .condWaiting) :
    (s.hide me).others other = (s.others other).hide me := by
  have frame : ∀ s : State, s.others other = { s with thread := (s.others other).thread } := by
    intro s
    unfold State.others
    dsimp only
    split
    · rfl
    · split <;> rfl
  have records : ((s.hide me).others other).thread = ((s.others other).hide me).thread := by
    funext thread
    rw [others_thread, hide_thread_of_ne different]
    by_cases here : thread = me
    · subst here
      change _ = Function.update (s.others other).thread thread
        (((s.others other).thread thread).goto .sigWaiting) thread
      have mine : (s.hide thread).thread thread = (s.thread thread).goto .sigWaiting :=
        Function.update_self ..
      rw [Function.update_self, others_thread, mine]
      split
      · rw [wakeChild, wakeChild, if_neg present, if_neg nofun]
      · split
        · have asleep : ((s.thread thread).goto .sigWaiting).pc ≠ .absent := nofun
          rw [announce, announce]
          by_cases child : (s.determ.entries thread).tidParent = other
          · exact (if_pos ⟨child, asleep⟩).trans (by rw [if_pos ⟨child, there⟩]; rfl)
          · exact (if_neg fun both => child both.1).trans
              (by rw [if_neg fun both => child both.1])
        · split
          · have still : (s.hide thread).determ.status thread ≠ .condWaiting := awake
            simp only [kill, Thread.goto, if_neg still]
          · rfl
    · have mine : ((s.others other).hide me).thread thread = (s.others other).thread thread :=
        hide_thread_of_ne here
      rw [mine, others_thread, hide_thread_of_ne here]
      rfl
  rw [frame (s.hide me), records, frame s]
  rfl

theorem hide_update (different : other ≠ me) :
    (s.hide me).update other result = (s.update other result).hide me := by
  have mine : (s.update other result).thread me = s.thread me :=
    Function.update_of_ne (Ne.symm different) _ _
  simp only [State.hide, mine]
  simp only [State.update, Function.update_comm different]

/-- **The others do the same** while the thread sleeps. -/
theorem hide_step (different : label.thread ≠ some me)
    (present : (s.thread me).pc ≠ .waitParentNotify) (there : (s.thread me).pc ≠ .absent)
    (awake : s.determ.status me ≠ .condWaiting) (fresh : me ≠ s.threadIndex)
    (stepped : Xrun.step s label = some s') : Xrun.step (s.hide me) label = some (s'.hide me) := by
  have alive : ¬ (label.thread.any fun me => (s.thread me).killed) = true :=
    (Option.ite_none_left_eq_some.mp stepped).1
  have move := move_of_step stepped
  -- Only the record of `me` is hidden, and none of these steps is its own.
  have records : ∀ other, label.thread = some other →
      (s.hide me).thread other = s.thread other := by
    intro other mine
    apply hide_thread_of_ne
    rintro rfl
    exact different mine
  have hidden : ¬ (label.thread.any fun me' => ((s.hide me).thread me').killed) = true := by
    cases mine : label.thread with
    | none => exact Bool.false_ne_true
    | some other =>
      rw [mine] at alive
      rw [Option.any_some, records other mine]
      exact alive
  suffices Xrun.move (s.hide me) label = some (s'.hide me) from (if_neg hidden).trans this
  cases label with
  | call other c =>
    have apart : other ≠ me := fun same => different (congrArg some same)
    obtain ⟨⟨user, allowed⟩, move⟩ := Option.ite_none_right_eq_some.mp move
    obtain ⟨result, called, rfl⟩ := Option.map_eq_some_iff.mp move
    have allowed' : c.Allowed (s.hide me) other := by cases c <;> exact allowed
    rw [Xrun.move, records other rfl, if_pos ⟨user, allowed'⟩]
    change (Xrun.call s.determ (s.thread other) other c).map _ = _
    rw [called, Option.map_some, hide_update apart]
  | exec other =>
    have apart : other ≠ me := fun same => different (congrArg some same)
    obtain ⟨result, executed, rfl⟩ := Option.map_eq_some_iff.mp move
    rw [Xrun.move, records other rfl]
    change (Xrun.exec s.determ (s.thread other) other).map _ = _
    rw [executed, Option.map_some, hide_others apart present there awake, hide_update apart]
    rfl
  | childRegister parent =>
    obtain ⟨known, rfl⟩ := guarded move
    -- The child of `me` copies nothing of what is hidden.
    have child : childRecord ((s.hide me).thread parent) = childRecord (s.thread parent) := by
      by_cases here : parent = me
      · subst here
        have mine : (s.hide parent).thread parent = (s.thread parent).goto .sigWaiting :=
          Function.update_self ..
        rw [mine]
        rfl
      · rw [hide_thread_of_ne here]
    have mine : Function.update s.thread s.threadIndex (childRecord (s.thread parent)) me =
        s.thread me := Function.update_of_ne fresh _ _
    refine (if_pos known).trans ?_
    rw [child]
    simp only [State.hide, mine]
    rw [Function.update_comm fresh]
  | cloneFails other =>
    have apart : other ≠ me := fun same => different (congrArg some same)
    obtain ⟨at_, rfl⟩ := guarded move
    rw [Xrun.move, records other rfl, if_pos at_]
    exact congrArg some (hide_update apart)
  | spuriousReturn other =>
    have apart : other ≠ me := fun same => different (congrArg some same)
    simp only [Xrun.move] at move ⊢
    rw [records other rfl]
    split at move
    · obtain rfl := Option.some.inj move
      exact congrArg some (hide_update apart)
    · obtain rfl := Option.some.inj move
      exact congrArg some (hide_update apart)
    · cases move
  | sigwaitReturns other =>
    have apart : other ≠ me := fun same => different (congrArg some same)
    obtain ⟨at_, rfl⟩ := guarded move
    rw [Xrun.move, records other rfl, if_pos at_]
    exact congrArg some (hide_update apart)
  | sigwaitFails other =>
    have apart : other ≠ me := fun same => different (congrArg some same)
    obtain ⟨at_, rfl⟩ := guarded move
    rw [Xrun.move, records other rfl, if_pos at_]
    exact congrArg some (hide_update apart)

/-- The record of the thread says the same after a step of the others. -/
theorem asks_of_others (asks : (s.thread me).Asks) (different : label.thread ≠ some me)
    (awake : s.determ.status me ≠ .condWaiting) (fresh : me ≠ s.threadIndex)
    (stepped : Xrun.step s label = some s') : (s'.thread me).Asks := by
  have move := move_of_step stepped
  -- A thread that asks for the token is not a child that waits for its parent.
  have present : (s.thread me).pc ≠ .waitParentNotify := by
    intro at_
    have pc := asks.pc
    rw [at_] at pc
    exact pc
  have updated : ∀ (s : State) other result, other ≠ me →
      (s.update other result).thread me = s.thread me :=
    fun s other result apart => Function.update_of_ne (Ne.symm apart) _ _
  cases label with
  | call other c =>
    have apart : other ≠ me := fun same => different (congrArg some same)
    obtain ⟨-, move⟩ := Option.ite_none_right_eq_some.mp move
    obtain ⟨result, -, rfl⟩ := Option.map_eq_some_iff.mp move
    rwa [updated s other result apart]
  | exec other =>
    have apart : other ≠ me := fun same => different (congrArg some same)
    obtain ⟨result, -, rfl⟩ := Option.map_eq_some_iff.mp move
    change (((s.others other).update other result).thread me).Asks
    rw [updated _ other result apart]
    -- Others may announce it or kill it; what it asks for stays.
    obtain ⟨pc, enabled, free⟩ := others_record other present awake
    exact ⟨enabled.trans asks.fenceEnabled, free.trans asks.tokenHolding, pc ▸ asks.pc⟩
  | childRegister parent =>
    obtain ⟨-, rfl⟩ := guarded move
    change (Function.update s.thread s.threadIndex _ me).Asks
    rwa [Function.update_of_ne fresh]
  | cloneFails other | sigwaitReturns other | sigwaitFails other =>
    have apart : other ≠ me := fun same => different (congrArg some same)
    obtain ⟨-, rfl⟩ := guarded move
    rwa [updated s other _ apart]
  | spuriousReturn other =>
    have apart : other ≠ me := fun same => different (congrArg some same)
    simp only [Xrun.move] at move
    split at move
    · obtain rfl := Option.some.inj move
      rwa [updated s other _ apart]
    · obtain rfl := Option.some.inj move
      rwa [updated s other _ apart]
    · cases move

/-- Another thread takes a step. -/
theorem Stranded.others (stranded : Stranded s me) (goes : GoesOn me s label)
    (different : label.thread ≠ some me) (stepped : Xrun.step s label = some s') :
    Stranded s' me := by
  obtain ⟨asks, ⟨lists, inv⟩, targets⟩ := stranded
  have hidden : (s.hide me).pc me = .sigWaiting := by rw [hide_pc, Function.update_self]
  have there : (s.hide me).pc me ≠ .absent := by rw [hidden]; exact nofun
  have awake : s.determ.status me ≠ .condWaiting := by
    intro asleep
    obtain ⟨mutex, waits⟩ := inv.waiting me there asleep
    rw [hidden] at waits
    cases waits
  have fresh : me ≠ s.threadIndex := by
    have known : ¬ s.threadIndex ≤ me := fun unborn => there ((inv.fresh me).mpr unborn)
    omega
  have named : ∀ pc : Pc, ¬ pc.Asks → (s.thread me).pc ≠ pc := by
    rintro _ silent rfl
    exact silent asks.pc
  have move := hide_step different (named _ id) (named _ id) awake fresh stepped
  have targets' : Targets (s.hide me) := by
    intro thread target pending
    rw [hide_pc] at pending
    by_cases here : thread = me
    · rw [here, Function.update_self] at pending
      cases pending
    · rw [Function.update_of_ne here] at pending
      exact targets thread target pending
  exact ⟨asks_of_others asks different awake fresh stepped,
    RingInv.step inv targets' (goes.2.2 different) move, targets.step stepped⟩

/-! ## Failing -/

/-- A thread that has been killed does not come back from `sigwait`. -/
theorem fails_cases (fails : system.step s (.sigwaitFails me) = some s') :
    s.pc me = .sigWaiting ∧ s' = s.update me (s.determ, (s.thread me).goto .user) := by
  obtain ⟨at_, rfl⟩ := guarded (move_of_step fails)
  exact ⟨at_, rfl⟩

theorem increased_ne (n : ℕ) : n ≠ Determ.increased n 1 := by
  unfold Determ.increased
  intro same
  have small := Nat.mod_lt (n + 1) (Nat.two_pow_pos 64)
  omega

/-- **A thread whose `sigwait` has failed is stranded.** -/
theorem Stranded.of_fails (reach : system.Reachable KeepsRing s)
    (enabled : (s.thread me).fenceEnabled = true) (free : (s.thread me).tokenHolding = false)
    (fails : system.step s (.sigwaitFails me) = some s') : Stranded s' me := by
  obtain ⟨lists, inv⟩ := ringInv_of_keepsRing reach
  have targets := (targets_of_reachable reach).step fails
  obtain ⟨at_, rfl⟩ := fails_cases fails
  refine ⟨?_, ⟨lists, ?_⟩, targets⟩
  · change (Function.update s.thread me _ me).Asks
    rw [Function.update_self]
    exact ⟨enabled, free, trivial⟩
  · have same : Function.update s.pc me .sigWaiting = s.pc := by
      rw [← at_, Function.update_eq_self]
    rw [update_hide_pc, hide_pc, same]
    exact inv

/-- In a run of the others and of the next call, the thread stays stranded. -/
theorem Stranded.run (stranded : Stranded s me) {labels : List Label}
    (complies : system.Complies (GoesOn me) s labels)
    (execution : system.run s labels = some s') : Stranded s' me := by
  induction labels generalizing s with
  | nil =>
    obtain rfl := Option.some.inj execution
    exact stranded
  | cons label rest ih =>
    obtain ⟨middle, move, tail⟩ := Option.bind_eq_some_iff.mp execution
    have next : Stranded middle me := by
      by_cases mine : label.thread = some me
      · exact stranded.own complies.1 mine move
      · exact stranded.others complies.1 mine move
    exact ih next (complies.2 middle move) tail

/-- **A `sigwait` that fails never leaves the scheduler intact.** When it returns, its thread is not
a counted member of the ring. If the ring was in order before, the thread stays outside of it and
does not get the token, however the others keep the ring and whatever it calls next. -/
theorem not_rejoined_of_fails (fails : system.step s (.sigwaitFails me) = some s') :
    ¬ Rejoined s s' me ∧ (TokenRing s → ¬ InRing s'.determ me) ∧
      (system.Reachable KeepsRing s → (s.thread me).fenceEnabled = true →
        (s.thread me).tokenHolding = false → ∀ labels s'',
        system.Complies (GoesOn me) s' labels → system.run s' labels = some s'' →
        ¬ InRing s''.determ me ∧
          (s''.determ.activelist ≠ none → s''.determ.tokenpos ≠ some me)) := by
  refine ⟨fun rejoined => ?_, fun inOrder member => ?_, ?_⟩
  · have counted := rejoined.counted
    obtain ⟨-, rfl⟩ := fails_cases fails
    exact increased_ne _ counted
  · obtain ⟨at_, rfl⟩ := fails_cases fails
    obtain ⟨lists, family, members, -⟩ := inOrder
    have active : Active s me := (members me).mp ((inRing_iff (family.list .ring)).mp member)
    rw [Active, at_] at active
    cases active
  · intro reach enabled free labels s'' complies execution
    exact ((Stranded.of_fails reach enabled free fails).run complies execution).outside

/-- The first thread creates another one, which waits for a signal once both are counted. -/
def childSleeps : List Label :=
  [.call 0 .spawn, .exec 0, .childRegister 0, .exec 1, .exec 0, .call 0 (.mutexLock 0), .exec 0,
    .exec 0, .call 1 .sigWait, .exec 1, .exec 0, .exec 0, .exec 0, .exec 0, .exec 0,
    .call 0 (.mutexUnlock 0), .exec 0, .exec 1, .exec 1, .exec 1, .exec 1]

/-- It comes back without a signal, and signals a condition itself. -/
theorem not_rejoined_child : ∃ s s' s'', system.Reachable KeepsRing s ∧
    system.step s (.sigwaitFails 1) = some s' ∧
    system.run s' [.call 1 (.condSignal 0), .exec 1] = some s'' ∧
    ¬ Rejoined s s' 1 ∧ ¬ InRing s'.determ 1 ∧ ¬ InRing s''.determ 1 := by
  have run : (system.runIf keepsRing (start 2 fun _ => 2) childSleeps).any fun s =>
      ((s.thread 1).fenceEnabled = true ∧ (s.thread 1).tokenHolding = false) ∧
        (system.step s (.sigwaitFails 1)).any fun s' => s'.determ.activelist ≠ none ∧
          (system.step s' (.call 1 (.condSignal 0))).any fun s₁ =>
            s₁.determ.activelist ≠ none ∧ (system.step s₁ (.exec 1)).isSome := by decide +kernel
  obtain ⟨s, execution, facts⟩ := (Option.any_eq_true _ _).mp run
  obtain ⟨⟨enabled, free⟩, failed⟩ := of_decide_eq_true facts
  obtain ⟨s', fails, rest⟩ := (Option.any_eq_true _ _).mp failed
  obtain ⟨active, called⟩ := of_decide_eq_true rest
  obtain ⟨s₁, first, rest⟩ := (Option.any_eq_true _ _).mp called
  obtain ⟨active₁, goes⟩ := of_decide_eq_true rest
  obtain ⟨s'', second⟩ := Option.isSome_iff_exists.mp goes
  have start : system.Reachable KeepsRing (start 2 fun _ => 2) := .init ⟨2, _, Nat.two_pos, rfl⟩
  have reach := start.runIf keepsRing_sound execution
  have labels : system.run s' [.call 1 (.condSignal 0), .exec 1] = some s'' := by
    rw [System.run_cons, first, Option.bind_some, System.run_cons, second]
    rfl
  have complies : system.Complies (GoesOn 1) s' [.call 1 (.condSignal 0), .exec 1] := by
    refine ⟨⟨active, nofun, absurd rfl⟩, fun middle move => ⟨⟨?_, nofun, absurd rfl⟩, ?_⟩⟩
    · obtain rfl := Option.some.inj (first.symm.trans move)
      exact active₁
    · exact fun _ _ => trivial
  obtain ⟨rejoined, member, later⟩ := not_rejoined_of_fails fails
  exact ⟨s, s', s'', reach, fails, labels, rejoined, member (tokenRing_of_keepsRing reach),
    (later reach enabled free _ _ complies labels).1⟩

/-- The only thread is gone from the ring for good. -/
theorem not_rejoined_alone : ¬ ∀ s s' me, system.Reachable AnyStep s →
    system.step s (.sigwaitFails me) = some s' → Rejoined s s' me := by
  intro rejoins
  have run : (system.run (start 1 fun _ => 2)
      [.call 0 .sigWait, .exec 0, .exec 0, .exec 0]).any fun s =>
      (system.step s (.sigwaitFails 0)).any fun s' => s'.determ.activelist = none := by
    decide +kernel
  obtain ⟨s, execution, failed⟩ := (Option.any_eq_true _ _).mp run
  obtain ⟨s', fails, empty⟩ := (Option.any_eq_true _ _).mp failed
  have start : system.Reachable AnyStep (start 1 fun _ => 2) := .init ⟨1, _, Nat.one_pos, rfl⟩
  obtain ⟨first, head, -⟩ := (rejoins s s' 0 (start.run execution) fails).ring
  exact Option.some_ne_none first (head.symm.trans (of_decide_eq_true empty))

end Tthread.Xrun
