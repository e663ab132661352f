/-
# The homes of the pages

A fetch looks its pages up in the domains of the CPUs and hands the ones it does not find to
the placement policy. As long as a page is put into one domain only, and one where it is found
again, no page gets a second home. First touch and magic placement do so. Random placement
puts every page into the domain of the thunk as well as into the one that was drawn, so that
it keeps pages single exactly as long as the two are the same.
-/

import Mathlib.Tactic.Push
import Tthread.Racksim

namespace Tthread.Racksim

namespace Execution

/-! ## Where pages are put -/

section Pages

variable {Time : Type} [Clock Time] {x : Execution Time} {s s' : State Time} {task : Task}
  {own d p : ℕ} {draw : ℕ → ℕ}
  {pages : Finset ℕ}

/-- What is left are the pages that no other domain has. -/
theorem mem_search_left {numas : ℕ → Finset ℕ} {domains : List ℕ} :
    p ∈ (search numas own domains pages).2 ↔
      p ∈ pages ∧ ∀ d ∈ domains, own ≠ d → p ∉ numas d := by
  induction domains generalizing pages with
  | nil => simp [search]
  | cons domain rest ih =>
    rw [search, List.forall_mem_cons]
    split_ifs with same none
    · rw [ih]
      simp [same]
    · have apart : p ∈ pages → p ∉ numas domain := fun asked home =>
        Finset.notMem_empty p (none ▸ Finset.mem_inter.mpr ⟨home, asked⟩)
      rw [ih]
      tauto
    · rw [ih, Finset.mem_sdiff, Finset.mem_inter]
      tauto

/-- The policy puts a page into a domain. -/
def PutIn (x : Execution Time) (draw : ℕ → ℕ) (own p d : ℕ) : Prop :=
  match x.initPage with
  | .firstTouch => d = own
  | .magic => d = 1
  | .random => d < x.arch.domains ∧ (d = own ∨ draw p % x.arch.domains = d)

omit [Clock Time] in
theorem mem_addPages {domain : ℕ} :
    p ∈ (s.addPages domain pages).numas d ↔ p ∈ s.numas d ∨ p ∈ pages ∧ d = domain := by
  simp only [State.addPages, Function.update_apply]
  split_ifs with same
  · rw [Finset.mem_union, same]
    simp
  · simp [same]

theorem move_numas {other : ℕ × Finset ℕ} (moved : x.move task own s other = .ok s') :
    s'.numas = s.numas := by
  obtain ⟨-, rfl⟩ := move_ok.mp moved
  rfl

theorem mem_scatter {src : ℕ} (scattered : x.scatter draw task own pages s src = .ok s') :
    p ∈ s'.numas d ↔
      p ∈ s.numas d ∨ p ∈ pages ∧ d = src ∧ (d = own ∨ draw p % x.arch.domains = d) := by
  simp only [scatter] at scattered
  split_ifs at scattered with other
  · rw [move_numas scattered, mem_addPages, Finset.mem_filter]
    constructor
    · rintro (home | ⟨⟨asked, drawn⟩, rfl⟩)
      · exact .inl home
      · exact .inr ⟨asked, rfl, .inr drawn⟩
    · rintro (home | ⟨asked, rfl, rfl | drawn⟩)
      · exact .inl home
      · exact absurd rfl other
      · exact .inr ⟨⟨asked, drawn⟩, rfl⟩
  · rw [not_not] at other
    obtain rfl := Except.ok.inj scattered
    rw [mem_addPages, ← other]
    tauto

theorem mem_foldlM_scatter {domains : List ℕ}
    (scattered : domains.foldlM (x.scatter draw task own pages) s = .ok s') :
    p ∈ s'.numas d ↔
      p ∈ s.numas d ∨ p ∈ pages ∧ d ∈ domains ∧ (d = own ∨ draw p % x.arch.domains = d) := by
  induction domains generalizing s with
  | nil =>
    obtain rfl := Except.ok.inj scattered
    simp
  | cons src rest ih =>
    rw [List.foldlM_cons, Folds.bind_ok] at scattered
    obtain ⟨middle, first, tail⟩ := scattered
    rw [ih tail, mem_scatter first, List.mem_cons]
    tauto

theorem mem_place (placed : x.place draw task own pages s = .ok s') :
    p ∈ s'.numas d ↔ p ∈ s.numas d ∨ p ∈ pages ∧ x.PutIn draw own p d := by
  simp only [place] at placed
  split at placed
  · next policy =>
    obtain rfl := Except.ok.inj placed
    simp only [PutIn, policy, mem_addPages]
  · next policy =>
    have put : x.PutIn draw own p d ↔ d = 1 := by simp only [PutIn, policy]
    rw [put]
    split_ifs at placed with other
    · rw [move_numas placed, mem_addPages]
    · obtain rfl := Except.ok.inj placed
      rw [mem_addPages, not_not.mp other]
  · next policy => simp only [PutIn, policy, mem_foldlM_scatter placed, List.mem_range]

/-- The policy has a domain for every page. -/
theorem exists_putIn (inside : own < x.arch.domains)
    (placed : x.place draw task own pages s = .ok s') :
    ∃ d < x.arch.domains, x.PutIn draw own p d := by
  simp only [place] at placed
  split at placed
  · next policy => exact ⟨own, inside, by simp only [PutIn, policy]⟩
  · next policy =>
    split_ifs at placed with other present
    · exact ⟨1, present, by simp only [PutIn, policy]⟩
    · exact ⟨1, not_not.mp other ▸ inside, by simp only [PutIn, policy]⟩
  · next policy => exact ⟨own, inside, by simp only [PutIn, policy, inside, true_or, and_self]⟩

/-- No CPU has the page in its domain. -/
def Unfound (x : Execution Time) (s : State Time) (p : ℕ) : Prop := ∀ d ∈ x.cpus, p ∉ s.numas d

/-- A fetch puts the pages that are found nowhere where the policy wants them. -/
theorem mem_scheduleComm (kind : task.kind = .comm) (cpu : own ∈ x.cpus)
    (inside : own < x.arch.domains) (scheduled : x.scheduleComm draw task own s = .ok s') :
    (∀ p d, p ∈ s'.numas d ↔
        p ∈ s.numas d ∨ (p ∈ x.needs task ∧ x.Unfound s p) ∧ x.PutIn draw own p d) ∧
      ∀ p ∈ x.needs task, ∃ d < x.arch.domains, p ∈ s'.numas d := by
  have left : ∀ p, p ∈ (x.finds s.numas task own).2 ↔ p ∈ x.needs task ∧ x.Unfound s p := by
    intro p
    simp only [finds, asks, kind]
    rw [mem_search_left, Finset.mem_sdiff, and_assoc]
    refine and_congr_right fun _ => ?_
    constructor
    · intro beside other member home
      by_cases same : own = other
      · exact beside.1 (same ▸ home)
      · exact beside.2 other member same home
    · exact fun nowhere => ⟨nowhere own cpu, fun other member _ => nowhere other member⟩
  obtain ⟨others, -, middle, placed, rfl⟩ := (scheduleComm_ok kind).mp scheduled
  -- a page that some CPU finds stays there
  have found : ∀ p, ¬ x.Unfound s p → ∃ d < x.arch.domains, p ∈ s.numas d := by
    intro p known
    simp only [Unfound, not_forall, not_not] at known
    obtain ⟨d, member, home⟩ := known
    by_cases same : own = d
    · exact ⟨d, same ▸ inside, home⟩
    · exact ⟨d, others d member same, home⟩
  simp only [← left]
  split_ifs at placed with none
  · obtain rfl := Except.ok.inj placed
    have away : ∀ p, p ∉ (x.finds s.numas task own).2 :=
      fun p member => Finset.notMem_empty p (none ▸ member)
    refine ⟨fun p d => (or_iff_left fun put => away p put.1).symm, fun p needed => ?_⟩
    exact found p fun unfound => away p ((left p).mpr ⟨needed, unfound⟩)
  · have pages : ∀ p d, p ∈ middle.numas d ↔ p ∈ s.numas d ∨
        p ∈ (x.finds s.numas task own).2 ∧ x.PutIn draw own p d := fun p d => (mem_place placed :)
    refine ⟨pages, fun p needed => ?_⟩
    by_cases known : x.Unfound s p
    · obtain ⟨d, inside, put⟩ := exists_putIn (p := p) inside placed
      exact ⟨d, inside, (pages p d).mpr (.inr ⟨(left p).mpr ⟨needed, known⟩, put⟩)⟩
    · obtain ⟨d, inside, home⟩ := found p known
      exact ⟨d, inside, (pages p d).mpr (.inl home)⟩

/-- Only a fetch changes the pages of the domains. -/
theorem schedule_numas (scheduled : x.schedule draw task s = .ok s') :
    (task.kind = .comm ∧ ∃ own ∈ x.cpus, x.cpus[(x.prog.data task.tid).cpu]? = some own ∧
        (∀ p d, p ∈ s'.numas d ↔
          p ∈ s.numas d ∨ (p ∈ x.needs task ∧ x.Unfound s p) ∧ x.PutIn draw own p d) ∧
        ∀ p ∈ x.needs task, ∃ d < x.arch.domains, p ∈ s'.numas d) ∨
      task.kind ≠ .comm ∧ s'.numas = s.numas := by
  simp only [schedule] at scheduled
  split at scheduled
  · next _ kind =>
    obtain ⟨own, domain, scheduled⟩ := Folds.bind_ok.mp scheduled
    obtain ⟨present, inside⟩ := ownDomain_ok.mp domain
    have cpu := List.mem_of_getElem? present
    exact .inl ⟨kind, own, cpu, present, mem_scheduleComm kind cpu inside scheduled⟩
  · next _ kind =>
    split_ifs at scheduled
    obtain rfl := Except.ok.inj scheduled
    exact .inr ⟨by rw [kind]; decide, rfl⟩
  · next kind _ =>
    obtain ⟨own, -, scheduled⟩ := Folds.bind_ok.mp scheduled
    obtain ⟨-, -, rfl⟩ := (scheduleCommit_ok kind).mp scheduled
    exact .inr ⟨by rw [kind]; decide, rfl⟩
  · next kind _ =>
    obtain rfl := Except.ok.inj scheduled
    exact .inr ⟨by rw [kind]; decide, rfl⟩

/-- A task that waits for its domain is scheduled if there is such a domain. -/
theorem own_lt_of_schedule (kind : task.kind = .comm)
    (present : x.cpus[(x.prog.data task.tid).cpu]? = some own)
    (scheduled : x.schedule draw task s = .ok s') : own < x.arch.domains := by
  simp only [schedule, kind] at scheduled
  obtain ⟨found, domain, -⟩ := Folds.bind_ok.mp scheduled
  obtain ⟨same, inside⟩ := ownDomain_ok.mp domain
  obtain rfl := Option.some.inj (present.symm.trans same)
  exact inside

end Pages

/-! ## One home for each page -/

section Homes

variable {Time : Type} [Clock Time]

/-- No page has two homes, and each page of a fetch that was scheduled has one. -/
structure OneHome (x : Execution Time) (s : State Time) : Prop where
  single : ∀ p d e, p ∈ s.numas d → p ∈ s.numas e → d = e
  placed : ∀ task ∈ s.scheduled, task.kind = .comm → ∀ p ∈ x.needs task,
    ∃ d < x.arch.domains, p ∈ s.numas d

/-- A fetch that is scheduled without an exception draws the domain of its own thunk for each page
without a home, if it draws. -/
def DrawsOwn (x : Execution Time) (s : State Time) (label : Label) : Prop :=
  ∀ choice draw task own p after, label = .pop choice draw → s.ready[choice]? = some task →
    task.kind = .comm → x.cpus[(x.prog.data task.tid).cpu]? = some own → p ∈ x.needs task →
    (∀ d, p ∉ s.numas d) → x.initPage = .random → x.step s label = some after →
    (∀ message, after.phase ≠ .raised message) → draw p % x.arch.domains = own

/-- The domains where pages end up: domain 1 under the magic policy, else the ones of CPUs. -/
def IsHome (x : Execution Time) (d : ℕ) : Prop :=
  match x.initPage with
  | .magic => d = 1
  | _ => d ∈ x.cpus

/-- One home for each page, and one where it is found. -/
structure Settled (x : Execution Time) (s : State Time) : Prop extends x.OneHome s where
  home : ∀ p d, p ∈ s.numas d → x.IsHome d

end Homes

section Steps

variable {Time : Type} [Clock Time] {x : Execution Time} {s s' : State Time} {label : Label}

theorem visit_numas {device : Device} {event : ℕ} (visited : x.visit s device event = some s') :
    s'.numas = s.numas ∧ s'.scheduled = s.scheduled := by
  obtain ⟨rfl, -⟩ | ⟨_, -, -, rfl⟩ | ⟨_, -, taken⟩ | ⟨_, after, -, -, taken, rfl⟩ :=
    visit_cases visited
  · exact ⟨rfl, rfl⟩
  · exact ⟨rfl, rfl⟩
  · obtain ⟨_, -, rfl⟩ := take_cases taken
    exact ⟨rfl, rfl⟩
  · obtain ⟨_, -, rfl⟩ := take_cases taken
    exact ⟨rfl, rfl⟩

/-- Pages and scheduled tasks change when a task is popped, and then only. -/
theorem step_numas (move : x.step s label = some s') :
    (∃ choice draw task popped, label = .pop choice draw ∧ s.ready[choice]? = some task ∧
        popped.numas = s.numas ∧ s'.scheduled = task :: s.scheduled ∧
        x.schedule draw task popped = .ok s' ∧ ∀ message, s'.phase ≠ .raised message) ∨
      s'.numas = s.numas ∧ s'.scheduled = s.scheduled := by
  cases label with
  | test =>
    obtain ⟨-, ⟨-, rfl⟩ | ⟨-, -, rfl⟩⟩ := step_test move <;> exact .inr ⟨rfl, rfl⟩
  | pop choice draw =>
    obtain ⟨task, phase, ready, ⟨message, -, rfl⟩ | scheduled⟩ := step_pop move
    · exact .inr ⟨rfl, rfl⟩
    · obtain ⟨entries, same, -, -⟩ := schedule_booked scheduled
      refine .inl ⟨choice, draw, task, _, rfl, ready, ?_, ?_, scheduled, fun message raised => ?_⟩
      · rfl
      · rw [same]
        rfl
      · rw [same] at raised
        exact absurd (phase.symm.trans raised) (by simp)
  | start =>
    obtain ⟨-, -, rfl⟩ := step_start move
    exact .inr ⟨rfl, rfl⟩
  | visit choice event =>
    obtain ⟨_, _, after, -, -, visited, rfl⟩ := step_visit move
    obtain ⟨pages, tasks⟩ := visit_numas visited
    exact .inr ⟨pages, tasks⟩
  | complete =>
    obtain ⟨-, ⟨-, rfl⟩ | ⟨_, -, rfl⟩⟩ := step_complete move <;> exact .inr ⟨rfl, rfl⟩
  | ring choice =>
    obtain ⟨_, _, _, alarm, -, -, -, -, rfl⟩ := step_ring move
    refine .inr ?_
    obtain _ | (_ | _ | _) := alarm.callback <;> exact ⟨rfl, rfl⟩
  | release =>
    obtain ⟨_, last, finished, -, -, ⟨-, rfl⟩ | ⟨-, -, -, rfl⟩ | ⟨-, -, rfl⟩⟩ := step_release move
    · exact .inr ⟨rfl, rfl⟩
    · exact .inr ⟨rfl, rfl⟩
    · obtain ⟨_, _, released⟩ := @foldl_release Time x { s with now := last } finished
      rw [released]
      exact .inr ⟨rfl, rfl⟩

/-- Pages stay where they are. -/
theorem step_numas_subset (move : x.step s label = some s') {p d : ℕ} (home : p ∈ s.numas d) :
    p ∈ s'.numas d := by
  obtain ⟨_, _, task, popped, -, -, same, -, scheduled, -⟩ | ⟨same, -⟩ := step_numas move
  · rw [← same] at home
    obtain ⟨-, _, -, -, placed, -⟩ | ⟨-, kept⟩ := schedule_numas scheduled
    · exact (placed p d).mpr (.inl home)
    · exact kept ▸ home
  · exact same ▸ home

theorem run_numas_subset {labels : List Label} (execution : x.system.run s labels = some s')
    {p d : ℕ} (home : p ∈ s.numas d) : p ∈ s'.numas d := by
  induction labels generalizing s with
  | nil => exact Option.some.inj execution ▸ home
  | cons label rest ih =>
    obtain ⟨middle, move, tail⟩ := Option.bind_eq_some_iff.mp execution
    exact ih tail (step_numas_subset move home)

omit [Clock Time] in
/-- Where a page has its home, no CPU misses it, unless the magic policy finds it again. -/
theorem Settled.nowhere (settled : x.Settled s) {p d : ℕ} (unfound : x.Unfound s p)
    (home : p ∈ s.numas d) : x.initPage = .magic ∧ d = 1 := by
  have there := settled.home p d home
  rw [IsHome] at there
  split at there
  · next policy => exact ⟨policy, there⟩
  · exact absurd home (unfound d there)

omit [Clock Time] in
/-- Without a draw for another domain, all pages without a home get the same one. -/
theorem putIn_unique {draw : ℕ → ℕ} {own p d e : ℕ}
    (draws : x.initPage = .random → draw p % x.arch.domains = own)
    (first : x.PutIn draw own p d) (second : x.PutIn draw own p e) : d = e := by
  rw [PutIn] at first second
  split at first
  · next policy =>
    simp only [policy] at second
    rw [first, second]
  · next policy =>
    simp only [policy] at second
    rw [first, second]
  · next policy =>
    simp only [policy] at second
    have drawn := draws policy
    omega

/-- A step that draws no other domain keeps one home for each page. -/
theorem Settled.step (settled : x.Settled s) (draws : x.DrawsOwn s label)
    (move : x.step s label = some s') : x.Settled s' := by
  obtain ⟨choice, draw, task, popped, rfl, ready, same, tasks, scheduled, calm⟩ | ⟨same, tasks⟩ :=
    step_numas move
  · -- the homes of the scheduled tasks stay
    have stays : ∀ other ∈ s.scheduled, other.kind = .comm → ∀ p ∈ x.needs other,
        ∃ d < x.arch.domains, p ∈ s'.numas d := by
      intro other member kind p needed
      obtain ⟨d, inside, home⟩ := settled.placed other member kind p needed
      exact ⟨d, inside, step_numas_subset move home⟩
    obtain ⟨kind, own, cpu, present, pages, all⟩ | ⟨kind, kept⟩ := schedule_numas scheduled
    · have kept : ∀ p, x.Unfound popped p ↔ x.Unfound s p := fun p => by
        rw [Unfound, Unfound, same]
      simp only [same, kept] at pages
      have own_draw : ∀ p, p ∈ x.needs task → x.Unfound s p → x.initPage = .random →
          draw p % x.arch.domains = own := by
        intro p needed unfound policy
        refine draws choice draw task own p s' rfl ready kind present needed (fun d home => ?_)
          policy move calm
        have magic := (settled.nowhere unfound home).1
        rw [policy] at magic
        cases magic
      have old_new : ∀ p d e, p ∈ s.numas d → x.Unfound s p → x.PutIn draw own p e → d = e := by
        intro p d e home unfound put
        obtain ⟨policy, rfl⟩ := settled.nowhere unfound home
        simp only [PutIn, policy] at put
        exact put.symm
      refine ⟨⟨fun p d e first second => ?_, ?_⟩, fun p d home => ?_⟩
      · obtain first | ⟨⟨needed, unfound⟩, put⟩ := (pages p d).mp first
        · obtain second | ⟨⟨_, unfound⟩, put⟩ := (pages p e).mp second
          · exact settled.single p d e first second
          · exact old_new p d e first unfound put
        · obtain second | ⟨-, put'⟩ := (pages p e).mp second
          · exact (old_new p e d second unfound put).symm
          · exact putIn_unique (own_draw p needed unfound) put put'
      · rw [tasks, List.forall_mem_cons]
        exact ⟨fun _ => all, stays⟩
      · obtain old | ⟨⟨needed, unfound⟩, put⟩ := (pages p d).mp home
        · exact settled.home p d old
        · have drawn := own_draw p needed unfound
          simp only [PutIn, IsHome] at put ⊢
          split at put
          · next policy => simp only [policy]; exact put ▸ cpu
          · next policy => simp only [policy]; exact put
          · next policy =>
            simp only [policy]
            have := drawn policy
            obtain rfl : d = own := by omega
            exact cpu
    · rw [same] at kept
      refine ⟨⟨by rw [kept]; exact settled.single, ?_⟩, by rw [kept]; exact settled.home⟩
      rw [tasks, List.forall_mem_cons]
      exact ⟨fun comm => absurd comm kind, stays⟩
  · refine ⟨⟨by rw [same]; exact settled.single, ?_⟩, by rw [same]; exact settled.home⟩
    rw [same, tasks]
    exact settled.placed

/-- A fetch that draws another domain gives a page two homes. -/
theorem two_homes_of_draws (draws : ¬ x.DrawsOwn s label)
    (move : x.step s label = some s') : ∃ p d e, d ≠ e ∧ p ∈ s'.numas d ∧ p ∈ s'.numas e := by
  simp only [DrawsOwn, not_forall] at draws
  obtain ⟨choice, draw, task, own, p, after, rfl, ready, kind, present, needed, homeless, policy,
    moved, calm, other⟩ := draws
  obtain rfl := Option.some.inj (move.symm.trans moved)
  obtain ⟨again, -, chosen, ⟨message, -, rfl⟩ | scheduled⟩ := step_pop move
  · exact absurd rfl (calm message)
  · obtain rfl := Option.some.inj (ready.symm.trans chosen)
    obtain ⟨-, found, -, same, pages, -⟩ | ⟨comm, -⟩ := schedule_numas scheduled
    · obtain rfl := Option.some.inj (present.symm.trans same)
      have inside := own_lt_of_schedule kind present scheduled
      have put : ∀ d, x.PutIn draw own p d → p ∈ s'.numas d := fun d put =>
        (pages p d).mpr (.inr ⟨⟨needed, fun d _ => homeless d⟩, put⟩)
      refine ⟨p, draw p % x.arch.domains, own, other, put _ ?_, put _ ?_⟩
      · simp only [PutIn, policy]
        exact ⟨Nat.mod_lt _ (Nat.zero_lt_of_lt inside), .inr trivial⟩
      · simp only [PutIn, policy]
        exact ⟨inside, .inl trivial⟩
    · exact absurd kind comm

/-- **One home for each page.** A run keeps it exactly if no fetch in it draws another domain
than its own for a page without a home. -/
theorem oneHome_iff_of_settled (settled : x.Settled s) {labels : List Label}
    (execution : x.system.run s labels = some s') :
    x.OneHome s' ↔ x.system.Complies x.DrawsOwn s labels := by
  induction labels generalizing s with
  | nil =>
    obtain rfl := Option.some.inj execution
    exact iff_of_true settled.toOneHome trivial
  | cons label rest ih =>
    obtain ⟨middle, move, tail⟩ := Option.bind_eq_some_iff.mp execution
    by_cases draws : x.DrawsOwn s label
    · rw [ih (settled.step draws move) tail]
      constructor
      · intro complies
        refine ⟨draws, fun other moved => ?_⟩
        obtain rfl := Option.some.inj (move.symm.trans moved)
        exact complies
      · exact fun complies => complies.2 middle move
    · refine iff_of_false (fun home => ?_) (fun complies => draws complies.1)
      obtain ⟨p, d, e, apart, first, second⟩ := two_homes_of_draws draws move
      -- pages never leave a domain, so that the two homes stay
      exact apart (home.single p d e (run_numas_subset tail first) (run_numas_subset tail second))

theorem settled_initial (entry : Task) : x.Settled (x.initial entry) where
  single := fun p _ _ home => absurd home (Finset.notMem_empty p)
  placed := fun _ member => absurd member List.not_mem_nil
  home := fun p _ home => absurd home (Finset.notMem_empty p)

theorem oneHome_iff_drawsOwn {start : State Time} (init : x.system.Init start) {labels : List Label}
    (execution : x.system.run start labels = some s) :
    x.OneHome s ↔ x.system.Complies x.DrawsOwn start labels := by
  obtain ⟨entry, -, rfl⟩ := init
  exact oneHome_iff_of_settled (settled_initial entry) execution

end Steps

/-! ## A draw for the own domain, and one for the other -/

/-- Two thunks that share a page, under random placement. -/
def exampleExecution : Execution ExactTime where
  arch := .pair
  prog := .chain fun n => n - 1
  initPage := .random
  commit := .noMove

/-- The first fetch draws its own domain for its page. -/
theorem oneHome_ownDraw :
    ∃ s, exampleExecution.system.run (exampleExecution.initial ⟨.comm, (0, 1)⟩)
      [.test, .pop 0 fun _ => 0] = some s ∧ exampleExecution.OneHome s := by
  obtain ⟨s, execution⟩ := Option.isSome_iff_exists.mp
    (show (exampleExecution.system.run (exampleExecution.initial ⟨.comm, (0, 1)⟩)
      [.test, .pop 0 fun _ => 0]).isSome = true by decide +kernel)
  refine ⟨s, execution, (oneHome_iff_drawsOwn ⟨_, by decide, rfl⟩ execution).mpr ?_⟩
  constructor
  · rintro _ _ _ _ _ _ ⟨⟩
  intro middle (move : exampleExecution.step (exampleExecution.initial ⟨.comm, (0, 1)⟩) .test = _)
  refine ⟨?_, fun _ _ => trivial⟩
  obtain ⟨-, ⟨-, rfl⟩ | ⟨-, none, -⟩⟩ := step_test move
  · rintro _ _ task own p _ same ready - present - - - - -
    cases same
    obtain rfl := Option.some.inj ready
    exact Option.some.inj present
  · cases none

/-- It draws the other one, and the page is in both. -/
theorem not_oneHome :
    ¬ ∀ (x : Execution ExactTime) (start s : State ExactTime) (labels : List Label),
      x.system.Init start →
      x.system.run start labels = some s → x.OneHome s := by
  intro claim
  obtain ⟨s, execution, both⟩ := (Option.any_eq_true _ _).mp
    (show (exampleExecution.system.run (exampleExecution.initial ⟨.comm, (0, 1)⟩)
      [.test, .pop 0 fun _ => 1]).any (fun s => decide (7 ∈ s.numas 0 ∧ 7 ∈ s.numas 1)) = true by
        decide +kernel)
  obtain ⟨first, second⟩ := of_decide_eq_true both
  have home := claim exampleExecution _ s _ ⟨_, by decide, rfl⟩ execution
  exact absurd (home.single 7 0 1 first second) (by decide)

end Execution

end Tthread.Racksim
