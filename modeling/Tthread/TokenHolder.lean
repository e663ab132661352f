/-
# Who has the token

A thread has the token from `getToken` to `putToken`, and beyond that as long as its flags
say so: `_token_holding` is set while it holds mutexes, and with `_fence_enabled` off it
counts as the only thread that runs. Only a thread that has the token passes it on, provided
that no operation passes it on behind the back of the flags.

Commits rely on the token. `spawn` commits before it waits for the token.
-/

import Tthread.TokenRing

namespace Tthread.Xrun

open Transition

/-- The flags of the thread say that it has the token. -/
def Thread.claims (t : Thread) : Bool := t.tokenHolding || !t.fenceEnabled

/-- The thread has the token: what it does shows it or, where that leaves it open, its flags. -/
def Thread.hasToken (t : Thread) : Bool :=
  match t.pc with
  | .work _ | .putToken _ | .joinEnter _ | .condAcquire _ => true
  | .absent | .exited | .fence _ (.relock _) | .joinWait _ | .joinToken | .condWaiting ..
  | .condToken _ => false
  | _ => t.claims

/-- A child that waits for its parent claims nothing, and the fence is on for a thread that
asks for a mutex. -/
def Thread.Flags (t : Thread) : Prop :=
  match t.pc with
  | .registered | .waitParentNotify => t.claims = false
  | .notify _ | .lockIsowner _ | .lockSingle _ | .lockFast _ | .fence _ (.relock _)
  | .fence _ (.getToken (.lock _)) | .getToken (.lock _) | .work (.lock _)
  | .putToken (.relock _) | .putToken (.getToken (.lock _)) => t.fenceEnabled = true
  | _ => True

/-- The condition on a step of `me`. Where it passes the token on and its flags go on saying
that it has it, it is alone in the ring. A joiner that turns the fence off has the token. -/
def KeepsFlags (d : Determ) (t : Thread) (me : ℕ) : Prop :=
  match t.pc with
  | .putToken (.relock _) => True
  | .putToken _ | .work .sigWait => t.claims = true → d.links.next me = me
  | .work (.barrier bar) =>
      t.claims = true → d.links.next me = me ∧ (d.barriers bar).head = none
  | .closeFence => d.isSingleAliveThread = true → d.tokenpos = some me
  | _ => True

/-- The condition on a step. Besides, only a thread whose flags say that it has the token
waits for a condition variable. -/
def KeepsToken (s : State) : Label → Prop
  | .exec me => KeepsFlags s.determ (s.thread me) me
  | .call me (.condWait ..) => (s.thread me).claims = true
  | _ => True

instance (d : Determ) (t : Thread) (me : ℕ) : Decidable (KeepsFlags d t me) := by
  unfold KeepsFlags
  split <;> infer_instance

instance (s : State) : DecidablePred (KeepsToken s) := fun label => by
  induction label using Label.casesOn with
  | call me call => induction call using Call.casesOn <;> dsimp only [KeepsToken] <;> infer_instance
  | _ => dsimp only [KeepsToken]; infer_instance

/-- Every thread that has the token is the one it points to. -/
structure TokenInv (s : State) : Prop where
  held : ∀ thread, (s.thread thread).hasToken = true → s.determ.tokenpos = some thread
  flags : ∀ thread, (s.thread thread).Flags

section

variable {d d' : Determ} {t : Thread} {me mutex : ℕ} {result : Determ × Thread}

/-! ## Where the token goes -/

theorem FenceOnly.tokenpos (only : Determ.FenceOnly d d') : d'.tokenpos = d.tokenpos := by
  rw [only.eq]

theorem condSignal_tokenpos (cond : ℕ) : (d.condSignal cond).tokenpos = d.tokenpos := by
  simp only [Determ.condSignal]
  split
  · split
    · rfl
    · show (Determ.insertBehindToken _ _).tokenpos = _
      unfold Determ.insertBehindToken
      split <;> rfl
  · rfl

theorem wakeWaiters_tokenpos (entry n : ℕ) : (d.wakeWaiters entry n).tokenpos = d.tokenpos := by
  induction n generalizing d entry with
  | zero => rfl
  | succ n ih => exact ih _

theorem condBroadcast_tokenpos (cond : ℕ) : (d.condBroadcast cond).tokenpos = d.tokenpos := by
  simp only [Determ.condBroadcast]
  split
  · split
    · rfl
    · exact wakeWaiters_tokenpos _ _
  · rfl

theorem cancel_tokenpos (target : ℕ) : (d.cancel target).tokenpos = d.tokenpos := by
  unfold Determ.cancel
  split
  · dsimp only
    split <;> split <;> rfl
  · rfl

/-- Only a joiner that has the token passes it on. -/
theorem joinBlock_tokenpos :
    (d.joinBlock me).tokenpos = d.tokenpos ∨ d.tokenpos = some me := by
  have same := FenceOnly.tokenpos (Determ.decrFence_only d)
  unfold Determ.joinBlock
  dsimp only
  split
  · next both => exact .inr (same.symm.trans both.1)
  · exact .inl same

/-- A joiner that does not block keeps the token where it is. -/
theorem join_tokenpos (guest : ℕ) :
    ((d.join guest me).1.tokenpos = d.tokenpos ∨ d.tokenpos = some me) ∧
      ((d.join guest me).2 = false → (d.join guest me).1.tokenpos = d.tokenpos) := by
  unfold Determ.join
  split
  · exact ⟨joinBlock_tokenpos, nofun⟩
  · exact ⟨.inl rfl, fun _ => rfl⟩

theorem joinWoken_tokenpos (guest : ℕ) :
    (d.joinWoken guest me).1.tokenpos = d.tokenpos ∨ d.tokenpos = some me := by
  unfold Determ.joinWoken
  dsimp only
  split
  · exact joinBlock_tokenpos
  · exact .inl rfl

/-- The token stays with a thread that is alone in the ring. -/
theorem barrierWait_tokenpos {bar : ℕ} (alone : d.links.next me = me)
    (empty : (d.barriers bar).head = none) (here : d.tokenpos = some me) :
    (d.barrierWait bar me).tokenpos = some me := by
  simp only [Determ.barrierWait, here, empty]
  split
  · exact congrArg some alone
  · exact congrArg some alone

/-! ## One step -/

/-- What a step of a thread that meets the condition shows about the token. -/
structure TokenStep (d : Determ) (me : ℕ) (result : Determ × Thread) : Prop where
  others : result.1.tokenpos = d.tokenpos ∨ d.tokenpos = some me ∨ d.tokenpos = none
  mine : result.2.hasToken = true → result.1.tokenpos = some me
  flags : result.2.Flags

/-- A step that leaves the token where it is. -/
theorem TokenStep.stay {t' : Thread} (same : d'.tokenpos = d.tokenpos)
    (mine : t'.hasToken = true → d.tokenpos = some me) (flags : t'.Flags) :
    TokenStep d me (d', t') := ⟨.inl same, fun has => same.trans (mine has), flags⟩

/-- A step of a thread that has the token and gives up its claim, or keeps both. -/
theorem TokenStep.pass {t' : Thread} (here : d.tokenpos = some me)
    (mine : t'.hasToken = true → d'.tokenpos = some me) (flags : t'.Flags) :
    TokenStep d me (d', t') := ⟨.inr (.inl here), mine, flags⟩

theorem TokenStep.ite {p : Prop} [Decidable p] {yes no : Thread}
    (first : p → TokenStep d me (d', yes)) (second : ¬p → TokenStep d me (d', no)) :
    TokenStep d me (d', if p then yes else no) := by
  split
  · next holds => exact first holds
  · next fails => exact second fails

theorem TokenStep.gotoIte {p : Prop} [Decidable p] {yes no : Pc}
    (first : p → TokenStep d me (d', t.goto yes)) (second : ¬p → TokenStep d me (d', t.goto no)) :
    TokenStep d me (d', t.goto (if p then yes else no)) := by
  split
  · next holds => exact first holds
  · next fails => exact second fails

/-- On to get the mutex again, with the flags as they are. -/
theorem getLockAgain_token (fenced : t.fenceEnabled = true)
    (mine : t.claims = true → d.tokenpos = some me) (same : d'.tokenpos = d.tokenpos) :
    TokenStep d me (d', t.getLockAgain mutex) := by
  unfold Thread.getLockAgain
  split
  · next holds => exact .stay same (fun _ => mine (by simp [Thread.claims, holds])) fenced
  · exact .stay same mine fenced

theorem passed_token {pos : Determ.FencePos} {after : After}
    (flags : (t.goto (.fence pos after)).Flags)
    (mine : (t.goto (.fence pos after)).hasToken = true → d.tokenpos = some me)
    (same : d'.tokenpos = d.tokenpos) : TokenStep d me (d', t.passed after) := by
  cases after with
  | getToken work =>
    refine .stay same mine ?_
    cases work <;> exact flags
  | relock mutex =>
    have fenced : t.fenceEnabled = true := flags
    have waits : t.passed (.relock mutex) = { t with
        tokenHolding := false, pc := .fence .enter (.getToken (.lock mutex)) } := rfl
    have nothing : (t.passed (.relock mutex)).hasToken = false := by
      rw [waits]
      simp [Thread.hasToken, Thread.claims, fenced]
    rw [waits] at nothing ⊢
    exact .stay same (fun has => absurd (nothing.symm.trans has) nofun) fenced
  | joined | done => exact .stay same mine trivial

/-- The first section of `join`. -/
theorem joinSection_token {guest : ℕ} (here : d.tokenpos = some me) : TokenStep d me
    ((d.join guest me).1, t.goto (if (d.join guest me).2 then .joinWait guest
      else .putToken .joined)) :=
  .gotoIte (fun _ => .pass here nofun trivial) fun passes =>
    .stay ((join_tokenpos guest).2 (Bool.eq_false_iff.mpr passes)) (fun _ => here) trivial

/-- The section that needs the token. -/
theorem perform_token {w : Work} (at_ : t.pc = .work w) (flags : t.Flags)
    (keeps : KeepsFlags d t me) (here : d.tokenpos = some me) :
    TokenStep d me (perform d t me w) := by
  -- Both conditions are read at the counter of the thread.
  unfold Thread.Flags at flags
  unfold KeepsFlags at keeps
  rw [at_] at flags keeps
  cases w with
  | spawn => exact .stay rfl (fun _ => here) trivial
  | join guest =>
    simp only [perform]
    split
    · exact joinSection_token here
    · exact .stay rfl (fun _ => here) trivial
  | lock mutex =>
    simp only [perform]
    split
    · exact .stay rfl (fun _ => here) trivial
    · exact .stay rfl (fun _ => here) flags
  | signal cond =>
    refine .stay (condSignal_tokenpos cond) (fun _ => here) ?_
    unfold Thread.signalled
    split <;> trivial
  | broadcast cond =>
    refine .stay (condBroadcast_tokenpos cond) (fun _ => here) ?_
    unfold Thread.signalled
    split <;> trivial
  -- A caller that claims the token after the barrier is the only one of the ring.
  | barrier bar =>
    refine .pass here (fun claims => ?_) trivial
    obtain ⟨alone, empty⟩ := keeps claims
    exact barrierWait_tokenpos alone empty here
  | sigWait => exact .pass here (fun claims => congrArg some (keeps claims)) trivial
  | cancel target =>
    simp only [perform]
    split
    · refine .stay rfl (fun _ => here) ?_
      unfold Thread.Flags
      rw [at_]
      trivial
    · refine .stay (cancel_tokenpos target) (fun _ => here) ?_
      unfold Thread.signalled
      split <;> trivial
  | exit => exact .pass here (fun claims => by cases claims) trivial

/-- The next step of a call. -/
theorem exec_token (executed : exec d t me = some result) (flags : t.Flags)
    (keeps : KeepsFlags d t me) (mine : t.hasToken = true → d.tokenpos = some me) :
    TokenStep d me result := by
  unfold exec at executed
  -- The conditions are kept as they are too, for the steps that only hand them on.
  have flags₀ := flags
  have keeps₀ := keeps
  have mine₀ := mine
  unfold Thread.Flags at flags
  unfold KeepsFlags at keeps
  unfold Thread.hasToken at mine
  cases at_ : t.pc with
  | absent | waitParentNotify | user | sigWaiting | exited =>
    rw [at_] at executed
    cases executed
  | registered =>
    rw [at_] at executed flags mine
    obtain rfl := Option.some.inj executed
    exact .stay rfl mine flags
  | waitChildRegistered =>
    rw [at_] at executed mine
    simp only at executed
    split at executed
    · obtain rfl := Option.some.inj executed
      exact .stay rfl mine trivial
    · obtain rfl := Option.some.inj executed
      exact .stay rfl mine trivial
  | parentSleeping =>
    rw [at_] at executed mine
    simp only [Option.ite_none_right_eq_some, Option.some.injEq] at executed
    obtain ⟨-, rfl⟩ := executed
    exact .stay rfl mine trivial
  | startFence w =>
    rw [at_] at executed mine
    obtain rfl := Option.some.inj executed
    refine .stay rfl (fun claims => mine ?_) rfl
    simp only [Thread.hasToken, Thread.claims, Bool.not_true, Bool.or_false] at claims
    simp [Thread.claims, claims]
  | notify w =>
    rw [at_] at executed mine flags
    obtain rfl := Option.some.inj executed
    cases w with
    | lock mutex => exact .stay rfl mine flags
    | _ => exact .stay rfl mine trivial
  | lockIsowner mutex =>
    rw [at_] at executed mine flags
    obtain rfl := Option.some.inj executed
    have same : (d.lockIsowner mutex me).1.tokenpos = d.tokenpos := lockIsowner_same.tokenpos
    exact .gotoIte (fun _ => .stay same mine flags) fun _ => .stay same mine flags
  | lockSingle mutex =>
    rw [at_] at executed mine flags
    obtain rfl := Option.some.inj executed
    exact .ite (fun _ => .stay rfl mine flags) fun _ => getLockAgain_token flags mine rfl
  | lockFast mutex =>
    rw [at_] at executed mine flags
    obtain rfl := Option.some.inj executed
    have same : (d.lockAcquire mutex me).1.tokenpos = d.tokenpos := lockAcquire_same.tokenpos
    exact .ite (fun _ => .stay same mine trivial) fun _ => getLockAgain_token flags mine same
  -- The fence says nothing of the token; what counts is where the thread goes after it.
  | fence pos after =>
    rw [at_] at executed
    obtain ⟨⟨d', next⟩, waits, rfl⟩ := Option.map_eq_some_iff.mp executed
    have same : d'.tokenpos = d.tokenpos := FenceOnly.tokenpos (Determ.waitFence_only waits)
    have here : t.goto (.fence pos after) = t := by rw [← at_]; rfl
    cases next with
    | none => exact passed_token (here.symm ▸ flags₀) (here.symm ▸ mine₀) same
    | some pos' =>
      rw [at_] at flags mine
      cases after with
      | getToken w => cases w <;> exact .stay same mine flags
      | _ => exact .stay same mine flags
  | getToken w =>
    rw [at_] at executed flags
    simp only [Option.ite_none_right_eq_some, Option.some.injEq] at executed
    obtain ⟨here, rfl⟩ := executed
    cases w <;> exact .stay rfl (fun _ => here) flags
  | work w =>
    rw [at_] at executed mine
    obtain rfl := Option.some.inj (Option.ite_none_left_eq_some.mp executed).2
    exact perform_token at_ flags₀ keeps₀ (mine rfl)
  -- Whoever puts the token back and claims to have it still must be alone.
  | putToken after =>
    rw [at_] at executed mine flags keeps
    obtain rfl := Option.some.inj executed
    have here := mine rfl
    have passed : d.putToken.tokenpos = some (d.links.next me) := by
      unfold Determ.putToken
      rw [here]
      rfl
    cases after with
    | relock mutex => exact .pass here nofun flags
    | getToken w =>
      refine .pass here (fun claims => ?_) ?_
      · rw [passed, keeps claims]
      · cases w <;> exact flags
    | joined | done =>
      refine .pass here (fun claims => ?_) trivial
      rw [passed, keeps claims]
  | joinEnter guest =>
    rw [at_] at executed mine
    obtain rfl := Option.some.inj executed
    exact joinSection_token (mine rfl)
  | joinWait guest =>
    -- Only a joiner that has the token moves it.
    rw [at_] at executed
    obtain rfl := Option.some.inj executed
    have moves : (d.joinWoken guest me).1.tokenpos = d.tokenpos ∨ d.tokenpos = some me :=
      joinWoken_tokenpos guest
    exact .gotoIte (fun _ => ⟨moves.imp_right .inl, nofun, trivial⟩)
      fun _ => ⟨moves.imp_right .inl, nofun, trivial⟩
  | joinToken =>
    rw [at_] at executed
    simp only [Option.ite_none_right_eq_some, Option.some.injEq] at executed
    obtain ⟨here, rfl⟩ := executed
    exact .stay rfl (fun _ => here) trivial
  | closeFence =>
    rw [at_] at executed mine keeps
    obtain rfl := Option.some.inj executed
    exact .ite (fun single => .stay rfl (fun _ => keeps single) trivial)
      fun _ => .stay rfl mine trivial
  | condWaiting cond mutex =>
    rw [at_] at executed
    simp only at executed
    split at executed
    · obtain rfl := Option.some.inj executed
      exact .stay rfl nofun trivial
    · obtain ⟨d', released, rfl⟩ := Option.map_eq_some_iff.mp executed
      exact .stay (lockRelease_same released).tokenpos mine₀ flags₀
  | condToken mutex =>
    rw [at_] at executed
    simp only [Option.ite_none_right_eq_some, Option.some.injEq] at executed
    obtain ⟨here, rfl⟩ := executed
    exact .stay rfl (fun _ => here) trivial
  | condAcquire mutex =>
    rw [at_] at executed mine
    obtain rfl := Option.some.inj executed
    exact .stay lockAcquire_same.tokenpos (fun _ => mine rfl) trivial
  | barrierEnter bar round =>
    rw [at_] at executed mine
    obtain rfl := Option.some.inj executed
    have same : (d.realBarrierWait bar).tokenpos = d.tokenpos := realBarrierWait_same.tokenpos
    exact .gotoIte (fun _ => .stay same mine trivial) fun _ => .stay same mine trivial
  | barrierBlocked bar round released =>
    rw [at_] at executed mine
    simp only [Option.ite_none_right_eq_some, Option.some.injEq] at executed
    obtain ⟨-, rfl⟩ := executed
    exact .stay rfl mine trivial

/-- A call, up to its first step. -/
theorem call_token {c : Call} (called : call d t me c = some result) (user : t.pc = .user)
    (waits : ∀ cond mutex, c = .condWait cond mutex → t.claims = true)
    (mine : t.claims = true → d.tokenpos = some me) : TokenStep d me result := by
  -- The calls that return at once leave the claim of the caller.
  have stays : ∀ t' : Thread, t'.pc = .user → t'.claims = t.claims → TokenStep d me (d, t') := by
    intro t' user' same
    refine .stay rfl ?_ ?_
    · unfold Thread.hasToken
      rw [user', same]
      exact mine
    · unfold Thread.Flags
      rw [user']
      trivial
  cases c with
  | spawn | join guest =>
    obtain rfl := Option.some.inj called
    refine .ite (fun _ => .stay rfl mine trivial) fun off => .stay rfl (fun _ => mine ?_) trivial
    simp [Thread.claims, Bool.eq_false_iff.mpr off]
  | mutexLock mutex =>
    obtain rfl := Option.some.inj called
    refine .ite (fun on => .stay rfl mine on) fun _ => .ite (fun _ => .stay rfl mine trivial) ?_
    exact fun _ => .stay rfl mine trivial
  | mutexUnlock mutex =>
    simp only [call] at called
    split at called
    · obtain ⟨d', released, rfl⟩ := Option.map_eq_some_iff.mp called
      have same : d'.tokenpos = d.tokenpos := (lockRelease_same released).tokenpos
      refine .ite (fun last => .stay same (fun _ => mine ?_) trivial) fun _ => .stay same ?_ ?_
      · simp [Thread.claims, last.2]
      · unfold Thread.hasToken
        rw [user]
        exact mine
      · unfold Thread.Flags
        rw [user]
        trivial
    · obtain rfl := Option.some.inj called
      exact stays _ user rfl
  -- `cond_wait` gives the token up, and the caller no longer claims it.
  | condWait cond mutex =>
    obtain ⟨d', released, rfl⟩ := Option.map_eq_some_iff.mp called
    exact .pass (mine (waits cond mutex rfl)) (fun claims => by cases claims) trivial
  | condSignal cond | condBroadcast cond =>
    obtain rfl := Option.some.inj called
    refine .ite (fun _ => .ite (fun holds => .stay rfl (fun _ => mine ?_) trivial) fun _ =>
      .stay rfl mine trivial) fun _ => stays t user rfl
    simp [Thread.claims, holds]
  | barrierWait bar =>
    obtain rfl := Option.some.inj called
    exact .ite (fun _ => .stay rfl mine trivial) fun _ =>
      .ite (fun _ => stays t user rfl) fun _ => .stay rfl mine trivial
  | sigWait | exit =>
    obtain rfl := Option.some.inj called
    exact .stay rfl mine trivial
  | cancel target =>
    obtain rfl := Option.some.inj called
    refine .ite (fun holds => .stay rfl (fun _ => mine ?_) trivial) fun _ => .stay rfl mine trivial
    simp [Thread.claims, holds]

end

section

variable {s s' : State} {d : Determ} {me : ℕ} {result : Determ × Thread}

/-- A thread that another one acts on comes by no token. -/
theorem others_token (flags : ∀ thread, (s.thread thread).Flags) (thread : ℕ) :
    (((s.others me).thread thread).hasToken = true → (s.thread thread).hasToken = true) ∧
      ((s.others me).thread thread).Flags := by
  have mine := flags thread
  rw [others_thread]
  split
  · unfold wakeChild
    split
    · next asleep =>
      unfold Thread.Flags at mine
      rw [asleep] at mine
      have nothing : ((s.thread thread).goto .user).hasToken = false := mine
      rw [nothing]
      exact ⟨nofun, trivial⟩
    · exact ⟨id, mine⟩
  · split
    · unfold announce
      split
      · exact ⟨id, mine⟩
      · exact ⟨id, mine⟩
    · split
      · unfold kill
        split
        · exact ⟨nofun, trivial⟩
        · exact ⟨id, mine⟩
      · exact ⟨id, mine⟩

/-- The step of one thread keeps the token in order for all. -/
theorem TokenInv.update (held : ∀ thread, (s.thread thread).hasToken = true →
      d.tokenpos = some thread) (flags : ∀ thread, (s.thread thread).Flags)
    (step : TokenStep d me result) : TokenInv (s.update me result) := by
  refine ⟨fun thread has => ?_, fun thread => ?_⟩
  · change (Function.update s.thread me result.2 thread).hasToken = true at has
    show result.1.tokenpos = some thread
    by_cases here : thread = me
    · rw [here, Function.update_self] at has
      rw [here]
      exact step.mine has
    · rw [Function.update_of_ne here] at has
      have there := held thread has
      rcases step.others with same | mine | nobody
      · exact same.trans there
      · exact absurd (Option.some.inj (there.symm.trans mine)) here
      · exact absurd (there.symm.trans nobody) nofun
  · show (Function.update s.thread me result.2 thread).Flags
    by_cases here : thread = me
    · rw [here, Function.update_self]
      exact step.flags
    · rw [Function.update_of_ne here]
      exact flags thread

/-- **Step.** -/
theorem TokenInv.step (inv : TokenInv s) {label : Label} (keeps : KeepsToken s label)
    (stepped : Xrun.step s label = some s') : TokenInv s' := by
  have move := move_of_step stepped
  cases label with
  | call me c =>
    obtain ⟨⟨user, -⟩, move⟩ := Option.ite_none_right_eq_some.mp move
    obtain ⟨result, called, rfl⟩ := Option.map_eq_some_iff.mp move
    refine TokenInv.update inv.held inv.flags (call_token called user ?_ ?_)
    · -- The condition is about the caller of `cond_wait`.
      rintro cond mutex rfl
      exact keeps
    · have mine := inv.held me
      unfold Thread.hasToken at mine
      rw [user] at mine
      exact mine
  | exec me =>
    obtain ⟨result, executed, rfl⟩ := Option.map_eq_some_iff.mp move
    have next : TokenInv ((s.others me).update me result) :=
      TokenInv.update (fun thread has => inv.held thread ((others_token inv.flags thread).1 has))
        (fun thread => (others_token inv.flags thread).2)
        (exec_token executed (inv.flags me) keeps (inv.held me))
    exact ⟨next.held, next.flags⟩
  | childRegister parent =>
    obtain ⟨-, rfl⟩ := guarded move
    refine ⟨fun thread has => ?_, fun thread => ?_⟩
    · -- The new thread claims nothing, and it takes the token from nobody.
      change (Function.update s.thread s.threadIndex _ thread).hasToken = true at has
      by_cases here : thread = s.threadIndex
      · rw [here, Function.update_self] at has
        cases has
      · rw [Function.update_of_ne here] at has
        have there := inv.held thread has
        show (if s.determ.tokenpos = none then some s.threadIndex else s.determ.tokenpos) = _
        rw [there, if_neg (by nofun)]
    · show (Function.update s.thread s.threadIndex _ thread).Flags
      by_cases here : thread = s.threadIndex
      · rw [here, Function.update_self]
        exact rfl
      · rw [Function.update_of_ne here]
        exact inv.flags thread
  | cloneFails me =>
    obtain ⟨at_, rfl⟩ := guarded move
    have here : s.determ.tokenpos = some me := by
      apply inv.held
      unfold Thread.hasToken
      rw [at_]
    exact TokenInv.update inv.held inv.flags (.stay rfl (fun _ => here) trivial)
  | spuriousReturn me =>
    have mine := inv.held me
    have flags := inv.flags me
    unfold Thread.hasToken at mine
    simp only [Xrun.move] at move
    split at move
    · next at_ =>
      obtain rfl := Option.some.inj move
      rw [at_] at mine
      exact TokenInv.update inv.held inv.flags (.stay rfl mine trivial)
    · next at_ =>
      obtain rfl := Option.some.inj move
      rw [at_] at mine
      exact TokenInv.update inv.held inv.flags (.stay rfl mine trivial)
    · cases move
  | sigwaitReturns me =>
    obtain ⟨at_, rfl⟩ := guarded move
    have mine := inv.held me
    unfold Thread.hasToken at mine
    rw [at_] at mine
    refine TokenInv.update inv.held inv.flags ?_
    -- The ring is empty and the thread gets the token, or it is put behind who has it.
    cases token : s.determ.tokenpos with
    | none =>
      refine ⟨.inr (.inr token), fun _ => ?_, trivial⟩
      simp only [Determ.sigWaitWoken, token]
      rfl
    | some other =>
      refine .stay ?_ mine trivial
      simp only [Determ.sigWaitWoken, token, Determ.insertBehindToken]
      rfl
  | sigwaitFails me =>
    obtain ⟨at_, rfl⟩ := guarded move
    have mine := inv.held me
    unfold Thread.hasToken at mine
    rw [at_] at mine
    exact TokenInv.update inv.held inv.flags (.stay rfl mine trivial)

theorem start_tokenInv (cores : ℕ) (counts : ℕ → ℕ) : TokenInv (start cores counts) := by
  constructor
  · intro thread has
    change (Function.update (fun _ => absentThread) 0 _ thread).hasToken = true at has
    by_cases here : thread = 0
    · rw [here]
      rfl
    · rw [Function.update_of_ne here] at has
      cases has
  · intro thread
    show (Function.update (fun _ => absentThread) 0 _ thread).Flags
    by_cases here : thread = 0
    · rw [here, Function.update_self]
      trivial
    · rw [Function.update_of_ne here]
      trivial

/-- **Run.** In every run whose steps all meet the condition, a thread that has the token is
the one it points to. -/
theorem tokenInv_of_keepsToken {Ok : State → Label → Prop}
    (sound : ∀ s label, Ok s label → KeepsToken s label) (reach : system.Reachable Ok s) :
    TokenInv s := by
  refine reach.invariant TokenInv ?_ fun s label s' inv ok stepped =>
    inv.step (sound s label ok) stepped
  rintro _ ⟨cores, counts, -, rfl⟩
  exact start_tokenInv cores counts

/-! ## Commits -/

/-- The thread that is inside `commit` or `finalcommit` on its way to the step. `mutex_unlock`
and a failed `lock_acquire` commit before they put the token. -/
def committer (s : State) : Label → Option ℕ
  | .call me .spawn | .call me (.condWait ..) => some me
  | .exec me =>
      match s.pc me with
      | .getToken (.lock _) | .putToken (.relock _) | .putToken .done | .work (.join _)
      | .work (.signal _) | .work (.broadcast _) | .work (.barrier _) | .work .sigWait
      | .work (.cancel _) | .work .exit => some me
      | _ => none
  | _ => none

/-- In each step that a run may take, whoever commits has the token, and so no two threads
are about to commit. -/
structure CommitsInTurn (Ok : State → Label → Prop) (s : State) : Prop where
  holder : ∀ label me, Ok s label → (system.step s label).isSome → committer s label = some me →
    s.determ.tokenpos = some me
  single : ∀ first second me other, Ok s first → Ok s second → (system.step s first).isSome →
    (system.step s second).isSome → committer s first = some me →
    committer s second = some other → me = other

/-- The condition on a step. Besides, a thread whose fence is on creates threads only while
it holds the token for a mutex. -/
def KeepsCommits (s : State) (label : Label) : Prop :=
  KeepsToken s label ∧
    match label with
    | .call me .spawn => (s.thread me).claims = true
    | _ => True

instance (s : State) : DecidablePred (KeepsCommits s) := fun label => by
  unfold KeepsCommits
  split <;> infer_instance

/-- A thread on its way out of a commit has the token. -/
theorem TokenInv.committer (inv : TokenInv s) {label : Label} (keeps : KeepsCommits s label)
    (enabled : (system.step s label).isSome) (commits : committer s label = some me) :
    s.determ.tokenpos = some me := by
  obtain ⟨s', stepped⟩ := Option.isSome_iff_exists.mp enabled
  have move := move_of_step stepped
  -- a thread in the program has the token if its flags say so
  have calls : ∀ thread, (s.thread thread).pc = .user → (s.thread thread).claims = true →
      s.determ.tokenpos = some thread := by
    intro thread user claims
    apply inv.held
    unfold Thread.hasToken
    rwa [user]
  cases label with
  | call thread c =>
    obtain ⟨⟨user, -⟩, -⟩ := Option.ite_none_right_eq_some.mp move
    cases c with
    | spawn =>
      obtain rfl := Option.some.inj commits
      exact calls thread user keeps.2
    | condWait cond mutex =>
      obtain rfl := Option.some.inj commits
      exact calls thread user keeps.1
    | _ => cases commits
  | exec thread =>
    have mine := inv.held thread
    obtain ⟨result, executed, -⟩ := Option.map_eq_some_iff.mp move
    unfold Xrun.committer at commits
    unfold Thread.hasToken at mine
    have at_ : s.pc thread = (s.thread thread).pc := rfl
    simp only at commits
    split at commits
    · next mutex waits =>
      obtain rfl := Option.some.inj commits
      rw [at_] at waits
      simp only [exec, waits, Option.ite_none_right_eq_some] at executed
      exact executed.1
    all_goals first
      | (next waits =>
          obtain rfl := Option.some.inj commits
          rw [at_] at waits
          rw [waits] at mine
          exact mine rfl)
      | cases commits
  | _ => cases commits

/-- **Only the token holder commits.** In every run whose steps all meet the condition, a
commit is made by the thread that the token points to. -/
theorem commitsInTurn_of_keepsCommits (reach : system.Reachable KeepsCommits s) :
    CommitsInTurn KeepsCommits s := by
  have inv := tokenInv_of_keepsToken (fun _ _ keeps => keeps.1) reach
  refine ⟨fun label me keeps enabled => inv.committer keeps enabled, ?_⟩
  intro first second me other keeps keeps' enabled enabled' commits commits'
  have mine := inv.committer keeps enabled commits
  have theirs := inv.committer keeps' enabled' commits'
  exact Option.some.inj (mine.symm.trans theirs)

end

/-- The first thread creates another one and starts the fence with its first mutex; both of
them ask for the token. -/
def bothAsk : List Label := [.call 0 .spawn, .exec 0, .childRegister 0, .exec 1, .exec 0,
  .call 0 (.mutexLock 8), .exec 0, .exec 0, .exec 0, .exec 0, .exec 0,
  .call 1 (.mutexLock 9), .exec 1, .exec 1, .exec 1]

/-- The first thread takes the mutex with the token and gives it back. -/
def locksAndUnlocks : List Label :=
  bothAsk ++ [.exec 0, .exec 0, .exec 0, .exec 0, .call 0 (.mutexUnlock 8)]

/-- It commits before it puts the token. -/
theorem commitsInTurn_unlock : ∃ s, system.Reachable KeepsCommits s ∧
    s.pc 0 = .putToken .done ∧ committer s (.exec 0) = some 0 ∧ CommitsInTurn KeepsCommits s := by
  have run : (system.runIf (fun s label => decide (KeepsCommits s label)) (start 2 fun _ => 2)
      locksAndUnlocks).any fun s =>
        s.pc 0 = .putToken .done ∧ committer s (.exec 0) = some 0 := by decide +kernel
  obtain ⟨s, execution, facts⟩ := (Option.any_eq_true _ _).mp run
  obtain ⟨at_, commits⟩ := of_decide_eq_true facts
  have start : system.Reachable KeepsCommits (start 2 fun _ => 2) := .init ⟨2, _, Nat.two_pos, rfl⟩
  have reach := start.runIf (fun _ _ => of_decide_eq_true) execution
  exact ⟨s, reach, at_, commits, commitsInTurn_of_keepsCommits reach⟩

/-- The child creates a thread while its parent waits at the fence: it commits without the
token. -/
theorem not_commitsInTurn_nested : ¬ ∀ s, system.Reachable AnyStep s → 2 ≤ s.determ.maxthreads →
    Active s 0 → Active s 1 → CommitsInTurn AnyStep s := by
  intro inTurn
  have run : (system.run (start 2 fun _ => 2) (bothAsk.take 11)).any fun s =>
      (2 ≤ s.determ.maxthreads ∧ Active s 0 ∧ Active s 1) ∧ s.determ.tokenpos = some 0 ∧
        (system.step s (.call 1 .spawn)).isSome := by decide +kernel
  obtain ⟨s, execution, facts⟩ := (Option.any_eq_true _ _).mp run
  obtain ⟨⟨running, parent, child⟩, token, enabled⟩ := of_decide_eq_true facts
  have start : system.Reachable AnyStep (start 2 fun _ => 2) := .init ⟨2, _, Nat.two_pos, rfl⟩
  have turn := inTurn s (start.run execution) running parent child
  have here := turn.holder (.call 1 .spawn) 1 trivial enabled rfl
  rw [token] at here
  cases here

end Tthread.Xrun
