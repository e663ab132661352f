/-
# Mutual exclusion and the marks of mutexes

A mutex is marked while a thread is between `mutex_lock` and `mutex_unlock`, if both calls do the
bookkeeping. `mutex_lock` leaves it out in a thread that is alone, and `mutex_unlock` in a thread
whose fence is off, which is also the case behind the creation of a thread; so a mutex that is
held across the creation or the end of other threads has a mark too few or one too many. A thread
that has ended keeps what it has locked.
-/

import Tthread.CondOwner

namespace Tthread.Xrun

open Transition

/-- The thread is in `mutex_lock` or `cond_wait` with this mutex. -/
def Pc.InCallOn (mutex : ℕ) : Pc → Prop
  | .startFence (.lock word) | .notify (.lock word) | .lockIsowner word | .lockSingle word
  | .lockFast word | .fence _ (.getToken (.lock word)) | .fence _ (.relock word)
  | .getToken (.lock word) | .work (.lock word) | .putToken (.relock word)
  | .condWaiting _ word | .condToken word | .condAcquire word => word = mutex
  | _ => False

instance (mutex : ℕ) : DecidablePred (Pc.InCallOn mutex) := fun pc => by
  unfold Pc.InCallOn
  split <;> infer_instance

/-- A mutex has one holder. With two threads alive and none of them in a call on it, it is marked
just when it has one. -/
structure Excludes (s : State) : Prop where
  single : ∀ thread other mutex, mutex ∈ s.holding thread → mutex ∈ s.holding other →
    thread = other
  agrees : ∀ thread other mutex, thread ≠ other → ¬Gone s thread → ¬Gone s other →
    (∀ caller, ¬Gone s caller → ¬(s.pc caller).InCallOn mutex) →
      (s.determ.lockIsacquired mutex = true ↔ ∃ holder, mutex ∈ s.holding holder)

/-- A thread unlocks and waits with a mutex that it has. It locks without a mark only where it is
alone and no thread before it has kept the mutex, unlocks without the bookkeeping only what is not
marked, and creates threads only with marked mutexes on hand. A wait goes on, and ends, while
the mutex is free, and ends within the budget. -/
def KeepsMarks (s : State) : Label → Prop
  | .call me (.mutexLock mutex) =>
      (s.thread me).fenceEnabled = false → (s.thread me).childrenThreadsCount = 0 →
        Alone s me ∧ ∀ other < s.threadIndex, mutex ∈ s.holding other → other = me
  | .call me (.mutexUnlock mutex) => mutex ∈ s.holding me ∧
      ((s.thread me).fenceEnabled = false → s.determ.lockIsacquired mutex = false)
  | .call me (.condWait _ mutex) => mutex ∈ s.holding me
  | .exec me =>
      match s.pc me with
      | .work .spawn => ∀ mutex ∈ s.holding me, s.determ.lockIsacquired mutex = true
      | .condWaiting _ mutex =>
          s.determ.status me ≠ .ready → s.determ.lockIsacquired mutex = false
      | .condAcquire mutex => ¬Refuses s.determ mutex me
      | _ => True
  | _ => True

instance (s : State) : DecidablePred (KeepsMarks s) := fun label => by
  induction label using Label.casesOn with
  | call me call => induction call using Call.casesOn <;> dsimp only [KeepsMarks] <;> infer_instance
  | exec me =>
    dsimp only [KeepsMarks]
    induction s.pc me using Pc.casesOn with
    | work work => induction work using Work.casesOn <;> dsimp only <;> infer_instance
    | _ => dsimp only; infer_instance
  | _ => dsimp only [KeepsMarks]; infer_instance

/-- A mutex has one holder, which has marked it unless it is alone, and a marked mutex has one. -/
structure MarkInv (s : State) : Prop where
  marked : ∀ thread, ∀ mutex ∈ s.holding thread,
    s.determ.lockIsacquired mutex = true ∨ Alone s thread
  single : ∀ thread other mutex, mutex ∈ s.holding thread → mutex ∈ s.holding other →
    thread = other
  holder : ∀ mutex, s.determ.lockIsacquired mutex = true → ∃ thread, mutex ∈ s.holding thread

/-! ## Marks that are cleared -/

section

variable {d : Determ} {t : Thread} {me mutex : ℕ} {result : Determ × Thread}

/-- What `mutex_unlock` and `cond_wait` leave behind. -/
theorem call_clears {c : Call} (called : call d t me c = some result)
    (drop : c = .mutexUnlock mutex ∧ (t.fenceEnabled = false → d.lockIsacquired mutex = false) ∨
      ∃ cond, c = .condWait cond mutex) : result.1.lockIsacquired mutex = false := by
  rcases drop with ⟨rfl, unmarked⟩ | ⟨cond, rfl⟩
  · simp only [call] at called
    split at called
    · obtain ⟨d', released, rfl⟩ := Option.map_eq_some_iff.mp called
      exact (lockRelease_marks released).1
    · next off =>
      obtain rfl := Option.some.inj called
      exact unmarked (Bool.eq_false_iff.mpr off)
  · obtain ⟨d', released, rfl⟩ := Option.map_eq_some_iff.mp called
    exact (lockRelease_marks released).1

/-- A wait that goes on clears the mark of its mutex. -/
theorem exec_clears {cond : ℕ} (at_ : t.pc = .condWaiting cond mutex)
    (asleep : d.status me ≠ .ready) (moved : exec d t me = some result) :
    result.1.lockIsacquired mutex = false := by
  simp only [exec, at_, if_neg asleep] at moved
  obtain ⟨d', released, rfl⟩ := Option.map_eq_some_iff.mp moved
  exact (lockRelease_marks released).1

end

/-! ## What a step preserves -/

variable {s s' : State} {me mutex : ℕ} {result : Determ × Thread}

/-- What a step of one thread has to show. -/
theorem MarkInv.change (inv : MarkInv s) (known : me < s.threadIndex) (awake : ¬Gone s me)
    (aside : Aside s s' me)
    (marks : ∀ other ≠ me, ∀ word ∈ s.holding other,
      s.determ.lockIsacquired word = true → s'.determ.lockIsacquired word = true)
    (mine : ∀ word ∈ s'.holding me, s'.determ.lockIsacquired word = true ∨ Alone s' me)
    (only : ∀ word ∈ s'.holding me, ∀ other ≠ me, word ∉ s.holding other)
    (holder : ∀ word, s'.determ.lockIsacquired word = true →
      word ∈ s'.holding me ∨ ∃ other ≠ me, word ∈ s.holding other) : MarkInv s' := by
  constructor
  · intro thread word held
    by_cases here : thread = me
    · subst here
      exact mine word held
    · rw [aside.holding thread here] at held
      rcases inv.marked thread word held with marked | alone
      · exact .inl (marks thread here word held marked)
      · exact absurd alone (not_alone known awake here)
  · intro thread other word held held'
    by_cases here : thread = me
    · subst here
      by_contra different
      have there : other ≠ thread := Ne.symm different
      rw [aside.holding other there] at held'
      exact only word held other there held'
    · rw [aside.holding thread here] at held
      by_cases there : other = me
      · subst there
        exact absurd held (only word held' thread here)
      · rw [aside.holding other there] at held'
        exact inv.single thread other word held held'
  · intro word marked
    rcases holder word marked with held | ⟨other, different, held⟩
    · exact ⟨me, held⟩
    · exact ⟨other, by rwa [aside.holding other different]⟩

/-- A mutex without a mark has no holder beside a thread that takes steps. -/
theorem MarkInv.nobody_of_free (inv : MarkInv s) (known : me < s.threadIndex)
    (awake : ¬Gone s me) (free : s.determ.lockIsacquired mutex = false) {other : ℕ}
    (different : other ≠ me) : mutex ∉ s.holding other := by
  intro held
  rcases inv.marked other mutex held with marked | alone
  · rw [free] at marked
    cases marked
  · exact not_alone known awake different alone

/-- Who has a marked mutex, as seen from one thread. -/
theorem MarkInv.holder_of (inv : MarkInv s) (me : ℕ)
    (marked : s.determ.lockIsacquired mutex = true) :
    mutex ∈ s.holding me ∨ ∃ other ≠ me, mutex ∈ s.holding other := by
  obtain ⟨thread, held⟩ := inv.holder mutex marked
  by_cases here : thread = me
  · exact .inl (here ▸ held)
  · exact .inr ⟨thread, here, held⟩

/-- What a thread has is still marked, or the thread is still alone. -/
theorem MarkInv.held_after (inv : MarkInv s) (aside : Aside s s' me)
    (index : s'.threadIndex = s.threadIndex)
    (forks : s'.forks = s.forks ∨ ∀ word ∈ s.holding me, s.determ.lockIsacquired word = true)
    {word : ℕ}
    (mark : s.determ.lockIsacquired word = true → s'.determ.lockIsacquired word = true)
    (held : word ∈ s.holding me) : s'.determ.lockIsacquired word = true ∨ Alone s' me := by
  rcases forks with same | all
  · rcases inv.marked me word held with marked | alone
    · exact .inl (mark marked)
    · exact .inr (alone.step aside same index)
  · exact .inl (mark (all word held))

/-- A step that leaves all mutexes alone. -/
theorem MarkInv.keeps (inv : MarkInv s) (known : me < s.threadIndex) (awake : ¬Gone s me)
    (aside : Aside s s' me) (index : s'.threadIndex = s.threadIndex)
    (forks : s'.forks = s.forks ∨ ∀ word ∈ s.holding me, s.determ.lockIsacquired word = true)
    (marks : ∀ word, s'.determ.lockIsacquired word = s.determ.lockIsacquired word)
    (holding : s'.holding me = s.holding me) : MarkInv s' := by
  refine inv.change known awake aside (fun _ _ word _ marked => (marks word).trans marked)
    (fun word held => ?_) (fun word held other different held' => ?_) fun word marked => ?_
  · rw [holding] at held
    exact inv.held_after aside index forks ((marks word).trans ·) held
  · rw [holding] at held
    exact different (inv.single other me word held' held)
  · rw [holding]
    exact inv.holder_of me ((marks word).symm.trans marked)

/-- A thread takes a mutex without a mark, and marks it. -/
theorem MarkInv.takes (inv : MarkInv s) (known : me < s.threadIndex) (awake : ¬Gone s me)
    (aside : Aside s s' me) (index : s'.threadIndex = s.threadIndex)
    (forks : s'.forks = s.forks ∨ ∀ word ∈ s.holding me, s.determ.lockIsacquired word = true)
    (free : s.determ.lockIsacquired mutex = false) (mark : s'.determ.lockIsacquired mutex = true)
    (marks : ∀ word ≠ mutex, s'.determ.lockIsacquired word = s.determ.lockIsacquired word)
    (holding : s'.holding me = insert mutex (s.holding me)) : MarkInv s' := by
  have still : ∀ word, s.determ.lockIsacquired word = true →
      s'.determ.lockIsacquired word = true := by
    intro word marked
    by_cases here : word = mutex
    · rw [here]
      exact mark
    · exact (marks word here).trans marked
  refine inv.change known awake aside (fun _ _ word _ => still word) (fun word held => ?_)
    (fun word held other different held' => ?_) fun word marked => ?_
  · rw [holding] at held
    rcases Finset.mem_insert.mp held with rfl | before
    · exact .inl mark
    · exact inv.held_after aside index forks (still word) before
  · rw [holding] at held
    rcases Finset.mem_insert.mp held with rfl | before
    · exact inv.nobody_of_free known awake free different held'
    · exact different (inv.single other me word held' before)
  · rw [holding, Finset.mem_insert]
    by_cases here : word = mutex
    · exact .inl (.inl here)
    · rcases inv.holder_of me ((marks word here).symm.trans marked) with mine | theirs
      · exact .inl (.inr mine)
      · exact .inr theirs

/-- A thread gives a mutex back, and the mark is gone. -/
theorem MarkInv.drops (inv : MarkInv s) (known : me < s.threadIndex) (awake : ¬Gone s me)
    (aside : Aside s s' me) (index : s'.threadIndex = s.threadIndex)
    (forks : s'.forks = s.forks) (held : mutex ∈ s.holding me)
    (clear : s'.determ.lockIsacquired mutex = false)
    (marks : ∀ word ≠ mutex, s'.determ.lockIsacquired word = s.determ.lockIsacquired word)
    (holding : s'.holding me = (s.holding me).erase mutex) : MarkInv s' := by
  refine inv.change known awake aside (fun other different word held' marked => ?_)
    (fun word member => ?_) (fun word member other different held' => ?_) fun word marked => ?_
  · have apart : word ≠ mutex := by
      rintro rfl
      exact different (inv.single other me word held' held)
    exact (marks word apart).trans marked
  · rw [holding] at member
    obtain ⟨apart, before⟩ := Finset.mem_erase.mp member
    exact inv.held_after aside index (.inl forks) ((marks word apart).trans ·) before
  · rw [holding] at member
    exact different (inv.single other me word held' (Finset.mem_erase.mp member).2)
  · have apart : word ≠ mutex := by
      rintro rfl
      exact absurd (marked.symm.trans clear) nofun
    rw [holding, Finset.mem_erase]
    rcases inv.holder_of me ((marks word apart).symm.trans marked) with mine | theirs
    · exact .inl ⟨apart, mine⟩
    · exact .inr theirs

theorem MarkInv.exec (inv : MarkInv s) (kept : WellKept s) (keeps : KeepsMarks s (.exec me))
    (awake : ¬Gone s me) (executed : Xrun.exec s.determ (s.thread me) me = some result) :
    MarkInv { (s.others me).update me result with
      forks := if (s.thread me).pc = .work .spawn then me :: s.forks else s.forks } := by
  have known : me < s.threadIndex := kept.known (exec_known executed)
  let forks := if (s.thread me).pc = .work .spawn then me :: s.forks else s.forks
  let s' : State := { (s.others me).update me result with forks }
  have aside : Aside s s' me := aside_others forks
  have index : s'.threadIndex = s.threadIndex := others_threadIndex s me
  have holding : s'.holding me = result.2.holding :=
    congrArg Thread.holding (Function.update_self ..)
  have clones : forks = s.forks ∨ ∀ word ∈ s.holding me, s.determ.lockIsacquired word = true := by
    by_cases at_ : s.pc me = .work .spawn
    · simp only [KeepsMarks, at_] at keeps
      exact .inr keeps
    · exact .inl (if_neg at_)
  show MarkInv s'
  cases exec_mutex executed with
  | keeps marks same => exact inv.keeps known awake aside index clones marks (holding.trans same)
  | takes mutex free mark marks same =>
    exact inv.takes known awake aside index clones free mark marks (holding.trans same)
  | ignores mutex at_ refused =>
    have here : s.pc me = .condAcquire mutex := at_
    simp only [KeepsMarks, here] at keeps
    exact absurd refused keeps
  | reopens cond mutex at_ asleep marks same =>
    have here : s.pc me = .condWaiting cond mutex := at_
    simp only [KeepsMarks, here] at keeps
    -- the mark that the wait clears was not set
    refine inv.keeps known awake aside index clones (fun word => ?_) (holding.trans same)
    by_cases there : word = mutex
    · rw [there, keeps asleep]
      exact exec_clears at_ asleep executed
    · exact marks word there

theorem MarkInv.call (inv : MarkInv s) (kept : WellKept s) {c : Call}
    (keeps : KeepsMarks s (.call me c)) (awake : ¬Gone s me) (user : (s.thread me).pc = .user)
    (called : Xrun.call s.determ (s.thread me) me c = some result) :
    MarkInv (s.update me result) := by
  have here : s.pc me = .user := user
  have known : me < s.threadIndex := kept.known (by rw [here]; nofun)
  have aside : Aside s (s.update me result) me := aside_update
  have holding : (s.update me result).holding me = result.2.holding :=
    congrArg Thread.holding (Function.update_self ..)
  cases call_mutex called with
  | keeps marks same =>
    exact inv.keeps known awake aside rfl (.inl rfl) marks (holding.trans same)
  | unmarked mutex off none marks same =>
    -- By the condition nobody has the mutex, and a thread outside the fence is alone.
    obtain ⟨alone, nobody⟩ := keeps off none
    refine inv.change known awake aside (fun _ _ word _ marked => (marks word).trans marked)
      (fun word _ => .inr (alone.step aside rfl rfl)) (fun word held other different held' => ?_)
      fun word marked => ?_
    · rw [holding, same] at held
      rcases Finset.mem_insert.mp held with rfl | before
      · -- A number beyond the threads holds nothing.
        have below : other < s.threadIndex := by
          by_contra beyond
          have fresh := kept.fresh other (not_lt.mp beyond)
          have empty : s.holding other = ∅ := congrArg Thread.holding fresh
          rw [empty] at held'
          exact Finset.notMem_empty _ held'
        exact different (nobody other below held')
      · exact different (inv.single other me word held' before)
    · rw [holding, same, Finset.mem_insert]
      rcases inv.holder_of me ((marks word).symm.trans marked) with mine | theirs
      · exact .inl (.inr mine)
      · exact .inr theirs
  | drops mutex drop marks same =>
    have held : mutex ∈ s.holding me := by
      rcases drop with rfl | ⟨cond, rfl⟩
      · exact keeps.1
      · exact keeps
    -- The mark is cleared when the mutex is given up, as nobody has it twice.
    have clear : result.1.lockIsacquired mutex = false := by
      refine call_clears called ?_
      rcases drop with rfl | waits
      · exact .inl ⟨rfl, keeps.2⟩
      · exact .inr waits
    exact inv.drops known awake aside rfl rfl held clear marks (holding.trans same)

/-- A new thread has no mutex, and with one on its way nobody was alone. -/
theorem MarkInv.childRegister (inv : MarkInv s) (kept : WellKept s) {parent : ℕ}
    (forked : parent ∈ s.forks) (record : Thread) (empty : record.holding = ∅) : MarkInv {
      determ := s.determ.registerThread s.threadIndex parent
      thread := Function.update s.thread s.threadIndex record
      threadIndex := s.threadIndex + 1
      forks := s.forks.erase parent } := by
  let s' : State := {
    determ := s.determ.registerThread s.threadIndex parent
    thread := Function.update s.thread s.threadIndex record
    threadIndex := s.threadIndex + 1
    forks := s.forks.erase parent }
  have holding : ∀ thread, s'.holding thread = s.holding thread := by
    intro thread
    by_cases here : thread = s.threadIndex
    · subst here
      have mine : s'.thread s.threadIndex = record := Function.update_self ..
      have fresh : s.holding s.threadIndex = ∅ :=
        congrArg Thread.holding (kept.fresh s.threadIndex le_rfl)
      exact (congrArg Thread.holding mine).trans (empty.trans fresh.symm)
    · have theirs : s'.thread thread = s.thread thread := Function.update_of_ne here ..
      exact congrArg Thread.holding theirs
  show MarkInv s'
  constructor
  · intro thread word held
    rw [holding] at held
    rcases inv.marked thread word held with marked | alone
    · exact .inl marked
    · rw [alone.1] at forked
      cases forked
  · intro thread other word held held'
    rw [holding] at held held'
    exact inv.single thread other word held held'
  · intro word marked
    obtain ⟨thread, held⟩ := inv.holder word marked
    exact ⟨thread, by rwa [holding]⟩

theorem MarkInv.step (inv : MarkInv s) (kept : WellKept s) {label : Label}
    (keeps : KeepsMarks s label) (stepped : Xrun.step s label = some s') : MarkInv s' := by
  cases stepKind stepped with
  | call awake user called => exact inv.call kept keeps awake user called
  | exec awake executed => exact inv.exec kept keeps awake executed
  | childRegister forked => exact inv.childRegister kept forked _ rfl
  | goes awake present locks holding =>
    exact inv.keeps (kept.known present) awake aside_update rfl (.inl rfl)
      (lockIsacquired_of_locks locks)
      ((congrArg Thread.holding (Function.update_self ..)).trans holding)

theorem start_markInv (cores : ℕ) (counts : ℕ → ℕ) : MarkInv (start cores counts) := by
  have nothing : ∀ thread mutex, mutex ∉ (start cores counts).holding thread := by
    intro thread mutex held
    by_cases here : thread = 0
    · subst here
      exact Finset.notMem_empty mutex held
    · have absent := (start_wellKept cores counts).fresh thread (Nat.one_le_iff_ne_zero.mpr here)
      rw [show (start cores counts).holding thread = ∅ from congrArg Thread.holding absent] at held
      exact Finset.notMem_empty mutex held
  constructor
  · exact fun thread mutex held => absurd held (nothing thread mutex)
  · exact fun thread _ mutex held => absurd held (nothing thread mutex)
  · intro mutex marked
    cases marked

/-- In every run whose steps all meet the condition, marks and holders belong together. -/
theorem markInv_of_keepsMarks (reach : system.Reachable KeepsMarks s) : MarkInv s := by
  induction reach with
  | init initial =>
    obtain ⟨cores, counts, -, rfl⟩ := initial
    exact start_markInv cores counts
  | step label prior keeps move ih => exact ih.step (wellKept_of_reachable prior) keeps move

/-- **Mutual exclusion.** In every run whose steps all meet the condition, a mutex has one holder,
and is marked just when it has one. -/
theorem excludes_of_marks (reach : system.Reachable KeepsMarks s) : Excludes s := by
  have inv := markInv_of_keepsMarks reach
  have kept := wellKept_of_reachable reach
  have below : ∀ thread, ¬Gone s thread → thread < s.threadIndex := by
    intro thread awake
    refine kept.known fun absent => awake ?_
    exact .inl absent
  refine ⟨inv.single, fun thread other mutex different awake awake' _ => ?_⟩
  constructor
  · exact inv.holder mutex
  · rintro ⟨holder, held⟩
    rcases inv.marked holder mutex held with marked | alone
    · exact marked
    · -- nobody is alone with two threads alive
      by_cases here : holder = thread
      · exact absurd alone (not_alone (below other awake') awake' fun same =>
          different (here.symm.trans same))
      · exact absurd alone (not_alone (below thread awake) awake here)

end Tthread.Xrun
