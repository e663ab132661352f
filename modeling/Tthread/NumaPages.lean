/-
# The pages of the NUMA simulator

Before a task is run, the pages that it accesses are looked up in the domains of all
workstations. For every workstation of another domain that has some of them, a task is created
that copies these pages. The pages that no domain has are put into the one of the task, so a page
never gets a second home. But the pages are looked up once more for every workstation that shares
a domain, and so they are copied once for each of them.
-/

import Mathlib.Algebra.Order.BigOperators.Group.Finset
import Mathlib.Data.Finset.Card
import Mathlib.Data.Multiset.AddSub
import Mathlib.Data.Set.Card
import Tthread.Numasim

namespace Tthread.Numasim

/-! ## The simulator -/

/-- `PAGE_COEFF` -/
def pageCoeff : ℕ := 32

def namelen : ℕ := 80

/-- `snprintf` to a name. -/
def snprintf (text : String) : String := String.ofList (text.toList.take (namelen - 1))

/-- The domains of the workstations, in the order of the list of workstations. -/
abbrev Platform := List ℕ

/-- The pages of each `numa_data`. -/
abbrev Residency := ℕ → Finset ℕ

/-- What `init_platform` builds. -/
def initPlatform : Residency := fun _ => ∅

/-- The domain of the workstation with this number. -/
def Platform.domainOf (platform : Platform) (cpu : ℤ) : Option ℕ :=
  if 0 ≤ cpu then platform[cpu.toNat]? else none

/-- The task that is scheduled, and the two that are created for a workstation. -/
inductive SDTask
  | task
  | comp (workstation : ℕ)
  | comm (workstation : ℕ)

/-- What is asked of the simulation library, and the pushes to `state->all`. -/
inductive Call
  | createCompSeq (created : SDTask) (name : String) (amount : ℕ)
  | createCommE2e (created : SDTask) (name : String) (amount : ℕ)
  | push (pushed : SDTask)
  | dependencyAdd (name : String) (src dst : SDTask)
  | schedulev (scheduled : SDTask) (workstation : ℕ)

/-- The tasks that take pages from the domain of a workstation. -/
def fetchFrom (name : String) (i pages : ℕ) : List Call :=
  [.createCompSeq (.comp i) (snprintf ("dep-" ++ name)) 0,
    .push (.comp i),
    .createCommE2e (.comm i) (snprintf ("comm-" ++ name)) (pages * pageCoeff),
    .push (.comm i),
    .dependencyAdd (snprintf ("dep-comm-" ++ name)) (.comp i) (.comm i),
    .dependencyAdd (snprintf ("comm-task-" ++ name)) (.comm i) .task,
    .schedulev (.comp i) i]

/-- The body of the loop over the workstations. The multiset is the vector `asked_pages`, which is
sorted before it is read. -/
def askWorkstation (name : String) (numa : Residency) (own : ℕ) (pageDemand : Finset ℕ)
    (found : List Call × Multiset ℕ) (workstation : ℕ × ℕ) : List Call × Multiset ℕ :=
  let (domain, i) := workstation
  let result := numa domain ∩ pageDemand
  if 0 < result.card then
    (found.1 ++ if domain ≠ own then fetchFrom name i result.card else [], found.2 + result.val)
  else found

/-- `schedule_pages` for a task and its name, if the workstation of the task is there. -/
def schedulePages (platform : Platform) (name : String) (task : Task) (numa : Residency) :
    Option (List Call × Residency) := do
  let own ← platform.domainOf task.cpu
  if task.accessSet.card = 0 then
    return ([], numa)
  let (calls, askedPages) :=
    platform.zipIdx.foldl (askWorkstation name numa own task.accessSet) ([], 0)
  let rest := (task.accessSet.val - askedPages).toFinset
  return (calls, Function.update numa own (numa own ∪ rest))

/-! ## What has to be copied -/

/-- The amount of a communication. -/
def Call.transferred : Call → ℕ
  | .createCommE2e _ _ amount => amount
  | _ => 0

/-- Each page is in at most one domain. -/
def Unique (numa : Residency) : Prop := ∀ p d e, p ∈ numa d → p ∈ numa e → d = e

/-- Each page of the task that another domain has is copied once; the pages that no domain has are
put into the one of the task, and no other page is moved. -/
structure Transfers (numa numa' : Residency) (own : ℕ) (demand : Finset ℕ) (calls : List Call) :
    Prop where
  total : (calls.map Call.transferred).sum =
    pageCoeff * {p | p ∈ demand ∧ ∃ d, d ≠ own ∧ p ∈ numa d}.ncard
  placed : ∀ p d, p ∈ numa' d ↔ p ∈ numa d ∨ d = own ∧ p ∈ demand ∧ ∀ e, p ∉ numa e
  unique : Unique numa'

/-- A task is scheduled as it should be. -/
def TransfersOnce (platform : Platform) (numa : Residency) (job : String × Task) : Prop :=
  ∃ own calls numa', platform.domainOf job.2.cpu = some own ∧
    schedulePages platform job.1 job.2 numa = some (calls, numa') ∧
    Transfers numa numa' own job.2.accessSet calls

/-- Each other domain that has pages of the task is the one of a single workstation. -/
def OneWorkstation (platform : Platform) (numa : Residency) (job : String × Task) : Prop :=
  ∀ own, platform.domainOf job.2.cpu = some own →
    ∀ d, d ≠ own → (numa d ∩ job.2.accessSet).Nonempty → platform.count d = 1

/-- Something holds before each task of a run. -/
def Throughout (platform : Platform) (holds : Residency → String × Task → Prop) :
    Residency → List (String × Task) → Prop
  | _, [] => True
  | numa, job :: rest => holds numa job ∧
      ∀ calls numa', schedulePages platform job.1 job.2 numa = some (calls, numa') →
        Throughout platform holds numa' rest

/-! ## One pass over the workstations -/

variable {platform : Platform} {numa numa' : Residency} {own : ℕ} {demand : Finset ℕ}
  {name : String} {calls : List Call} {job : String × Task} {p d : ℕ}

theorem transferred_fetchFrom (i pages : ℕ) :
    ((fetchFrom name i pages).map Call.transferred).sum = pageCoeff * pages := by
  simp [fetchFrom, Call.transferred, Nat.mul_comm]

/-- How many workstations a page is copied from. -/
def copies (numa : Residency) (own p : ℕ) (platform : Platform) : ℕ :=
  platform.countP fun d => d ≠ own ∧ p ∈ numa d

/-- A workstation adds the pages of its domain that are asked for, if the domain is another one. -/
theorem transferred_askWorkstation (found : List Call × Multiset ℕ) (workstation : ℕ × ℕ) :
    ((askWorkstation name numa own demand found workstation).1.map Call.transferred).sum =
      (found.1.map Call.transferred).sum +
        pageCoeff * ∑ p ∈ demand, copies numa own p [workstation.1] := by
  obtain ⟨domain, i⟩ := workstation
  have counted : ∑ p ∈ demand, copies numa own p [domain] =
      if domain ≠ own then (numa domain ∩ demand).card else 0 := by
    by_cases other : domain ≠ own
    · rw [if_pos other, Finset.inter_comm, ← Finset.filter_mem_eq_inter, Finset.card_filter]
      simp [copies, other, List.countP_singleton]
    · simp [copies, other]
  rw [counted, askWorkstation]
  split_ifs with some_ other other
  · rw [List.map_append, List.sum_append, transferred_fetchFrom]
  · simp
  · have empty : (numa domain ∩ demand).card = 0 := by omega
    rw [empty, Nat.mul_zero, Nat.add_zero]
  · simp

/-- The copies that a pass over workstations asks for. -/
theorem transferred_foldl {workstations : List (ℕ × ℕ)} (found : List Call × Multiset ℕ) :
    (((workstations.foldl (askWorkstation name numa own demand) found)).1.map
        Call.transferred).sum =
      (found.1.map Call.transferred).sum +
        pageCoeff * ∑ p ∈ demand, copies numa own p (workstations.map Prod.fst) := by
  induction workstations generalizing found with
  | nil => simp [copies]
  | cons workstation rest ih =>
    have split : ∀ p, copies numa own p ((workstation :: rest).map Prod.fst) =
        copies numa own p [workstation.1] + copies numa own p (rest.map Prod.fst) := by
      intro p
      rw [List.map_cons, copies, ← List.singleton_append, List.countP_append]
      rfl
    rw [List.foldl_cons, ih, transferred_askWorkstation, Finset.sum_congr rfl fun p _ => split p,
      Finset.sum_add_distrib, Nat.mul_add, Nat.add_assoc]

/-- The pages that a pass finds are those of the domains of its workstations. -/
theorem mem_asked_foldl {workstations : List (ℕ × ℕ)} (found : List Call × Multiset ℕ) :
    p ∈ (workstations.foldl (askWorkstation name numa own demand) found).2 ↔
      p ∈ found.2 ∨ p ∈ demand ∧ ∃ workstation ∈ workstations, p ∈ numa workstation.1 := by
  induction workstations generalizing found with
  | nil => simp
  | cons workstation rest ih =>
    have step : p ∈ (askWorkstation name numa own demand found workstation).2 ↔
        p ∈ found.2 ∨ p ∈ numa workstation.1 ∩ demand := by
      by_cases some_ : 0 < (numa workstation.1 ∩ demand).card
      · rw [askWorkstation, if_pos some_, Multiset.mem_add, Finset.mem_val]
      · have empty : numa workstation.1 ∩ demand = ∅ := by simpa using some_
        rw [askWorkstation, if_neg some_, empty]
        simp
    rw [List.foldl_cons, ih, step, Finset.mem_inter]
    simp only [List.mem_cons, exists_eq_or_imp]
    tauto

/-! ## One task -/

/-- No workstation has the page in its domain. -/
def Unfound (platform : Platform) (numa : Residency) (p : ℕ) : Prop := ∀ d ∈ platform, p ∉ numa d

/-- All that is done for a task: every page is copied from all workstations of other domains that
have it, and is put into the domain of the task if no workstation has it. -/
theorem schedulePages_spec (numa : Residency)
    (workstation : platform.domainOf job.2.cpu = some own) :
    ∃ calls numa', schedulePages platform job.1 job.2 numa = some (calls, numa') ∧
      (calls.map Call.transferred).sum =
        pageCoeff * ∑ p ∈ job.2.accessSet, copies numa own p platform ∧
      ∀ p d, p ∈ numa' d ↔
        p ∈ numa d ∨ d = own ∧ p ∈ job.2.accessSet ∧ Unfound platform numa p := by
  -- Without pages nothing is asked for; else one pass over all workstations does it.
  by_cases empty : job.2.accessSet.card = 0
  · have none_ : job.2.accessSet = ∅ := Finset.card_eq_zero.1 empty
    refine ⟨[], numa, ?_, ?_, ?_⟩
    · simp [schedulePages, workstation, none_]
    · simp [none_]
    · simp [none_]
  · cases pass : platform.zipIdx.foldl (askWorkstation job.1 numa own job.2.accessSet) ([], 0) with
    | mk calls asked =>
      have total : (calls.map Call.transferred).sum =
          pageCoeff * ∑ p ∈ job.2.accessSet, copies numa own p platform := by
        have first : (platform.zipIdx.foldl (askWorkstation job.1 numa own job.2.accessSet)
            ([], 0)).1 = calls := congrArg Prod.fst pass
        rw [← first, transferred_foldl, List.zipIdx_map_fst]
        simp
      -- The pass collects the pages that some workstation has.
      have found : ∀ p, p ∈ asked ↔ p ∈ job.2.accessSet ∧ ∃ d ∈ platform, p ∈ numa d := by
        intro p
        have second : (platform.zipIdx.foldl (askWorkstation job.1 numa own job.2.accessSet)
            ([], 0)).2 = asked := congrArg Prod.snd pass
        have listed : ∀ d, d ∈ platform ↔ ∃ i, (d, i) ∈ platform.zipIdx := by
          intro d
          rw [← List.zipIdx_map_fst 0 platform, List.mem_map]
          simp
        rw [← second, mem_asked_foldl]
        simp [listed]
      refine ⟨calls, Function.update numa own
        (numa own ∪ (job.2.accessSet.val - asked).toFinset), ?_, ?_, fun p d => ?_⟩
      · simp only [schedulePages, workstation, Option.bind_eq_bind, Option.bind_some,
          if_neg empty, pass]
        rfl
      · exact total
      · rw [Function.update_apply]
        split_ifs with same
        · subst same
          -- A page is put where the task runs if it was not collected.
          rw [Finset.mem_union, Multiset.mem_toFinset,
            Multiset.mem_sub_of_nodup job.2.accessSet.nodup, found, Finset.mem_val]
          simp only [Unfound]
          push Not
          tauto
        · simp [same]

theorem Platform.mem_of_domainOf {cpu : ℤ} (workstation : platform.domainOf cpu = some own) :
    own ∈ platform := by
  rw [domainOf] at workstation
  split_ifs at workstation
  exact List.mem_of_getElem? workstation

/-! ## Homes -/

/-- A page with a home in another domain is copied from every workstation there. -/
theorem Unique.copies_eq (unique : Unique numa) (home : p ∈ numa d) (other : d ≠ own) :
    copies numa own p platform = platform.count d := by
  rw [copies, List.count]
  refine List.countP_congr fun e _ => ?_
  rw [decide_eq_true_iff, beq_iff_eq]
  constructor
  · rintro ⟨-, there⟩
    exact unique p e d there home
  · rintro rfl
    exact ⟨other, home⟩

/-- No other page is copied. -/
theorem copies_eq_zero (nowhere : ∀ d, d ≠ own → p ∉ numa d) : copies numa own p platform = 0 := by
  refine List.countP_eq_zero.2 fun d _ => ?_
  rw [decide_eq_true_iff]
  rintro ⟨other, home⟩
  exact nowhere d other home

/-- All pages that are asked for have homes with workstations. -/
def Seen (platform : Platform) (numa : Residency) (demand : Finset ℕ) : Prop :=
  ∀ p ∈ demand, ∀ d, p ∈ numa d → d ∈ platform

/-- What no workstation has is nowhere if the homes have workstations, and only then. -/
theorem Unique.placed_iff_seen (unique : Unique numa) (inside : own ∈ platform)
    (placed : ∀ p d, p ∈ numa' d ↔ p ∈ numa d ∨ d = own ∧ p ∈ demand ∧ Unfound platform numa p) :
    (∀ p d, p ∈ numa' d ↔ p ∈ numa d ∨ d = own ∧ p ∈ demand ∧ ∀ e, p ∉ numa e) ↔
      Seen platform numa demand := by
  constructor
  · intro right p asked d home
    by_contra outside
    have unfound : Unfound platform numa p := fun e member there =>
      outside (unique p e d there home ▸ member)
    have moved : p ∈ numa' own := (placed p own).2 (Or.inr ⟨rfl, asked, unfound⟩)
    rcases (right p own).1 moved with there | ⟨-, -, nowhere⟩
    · exact outside (unique p own d there home ▸ inside)
    · exact nowhere d home
  · intro seen p d
    rw [placed]
    refine or_congr_right (and_congr_right fun _ => and_congr_right fun asked => ?_)
    constructor
    · intro unfound e home
      exact unfound e (seen p asked e home) home
    · intro nowhere e _
      exact nowhere e

/-- A page that was nowhere gets its only home. -/
theorem Unique.placed (unique : Unique numa)
    (placed : ∀ p d, p ∈ numa' d ↔ p ∈ numa d ∨ d = own ∧ p ∈ demand ∧ ∀ e, p ∉ numa e) :
    Unique numa' := by
  intro p d e first second
  rcases (placed p d).1 first with home | ⟨rfl, -, nowhere⟩
  · rcases (placed p e).1 second with home' | ⟨-, -, nowhere⟩
    · exact unique p d e home home'
    · exact absurd home (nowhere d)
  · rcases (placed p e).1 second with home' | ⟨rfl, -, -⟩
    · exact absurd home' (nowhere e)
    · rfl

open Classical in
/-- The pages to copy, one by one. -/
theorem ncard_away : {p | p ∈ demand ∧ ∃ d, d ≠ own ∧ p ∈ numa d}.ncard =
    ∑ p ∈ demand, if ∃ d, d ≠ own ∧ p ∈ numa d then 1 else 0 := by
  rw [← Finset.card_filter, ← Set.ncard_coe_finset, Finset.coe_filter]

open Classical in
/-- If every page to copy is found, the copies are right only if each has one workstation. -/
theorem Unique.total_iff (unique : Unique numa) (seen : Seen platform numa demand) :
    ∑ p ∈ demand, copies numa own p platform =
        {p | p ∈ demand ∧ ∃ d, d ≠ own ∧ p ∈ numa d}.ncard ↔
      ∀ d, d ≠ own → (numa d ∩ demand).Nonempty → platform.count d = 1 := by
  have enough : ∀ p ∈ demand, (if ∃ d, d ≠ own ∧ p ∈ numa d then 1 else 0) ≤
      copies numa own p platform := by
    intro p asked
    split_ifs with away
    · obtain ⟨d, other, home⟩ := away
      rw [unique.copies_eq home other]
      exact List.one_le_count_iff.2 (seen p asked d home)
    · exact Nat.zero_le _
  rw [ncard_away, eq_comm, Finset.sum_eq_sum_iff_of_le enough]
  constructor
  · rintro single d other ⟨p, member⟩
    obtain ⟨home, asked⟩ := Finset.mem_inter.1 member
    rw [← unique.copies_eq home other, ← single p asked, if_pos ⟨d, other, home⟩]
  · intro single p asked
    split_ifs with away
    · obtain ⟨d, other, home⟩ := away
      rw [unique.copies_eq home other]
      exact (single d other ⟨p, Finset.mem_inter.2 ⟨home, asked⟩⟩).symm
    · push Not at away
      exact (copies_eq_zero away).symm

/-! ## The tasks -/

/-- A task is scheduled as it should be if all other domains with pages of it have one workstation,
and only then. -/
theorem transfersOnce_iff (unique : Unique numa)
    (workstation : platform.domainOf job.2.cpu = some own) :
    TransfersOnce platform numa job ↔ OneWorkstation platform numa job := by
  obtain ⟨calls, numa', done, total, placed⟩ := schedulePages_spec numa workstation
  have inside := Platform.mem_of_domainOf workstation
  constructor
  · rintro ⟨own₁, calls₁, numa₁, workstation₁, done₁, transfers⟩ own₂ workstation₂
    obtain rfl := Option.some.inj (workstation.symm.trans workstation₁)
    obtain rfl := Option.some.inj (workstation.symm.trans workstation₂)
    obtain ⟨rfl, rfl⟩ := Prod.mk.inj (Option.some.inj (done.symm.trans done₁))
    have seen := (unique.placed_iff_seen inside placed).1 transfers.placed
    have counted := Nat.eq_of_mul_eq_mul_left (by decide) (total.symm.trans transfers.total)
    exact (unique.total_iff seen).1 counted
  · intro single
    have single := single own workstation
    have seen : Seen platform numa job.2.accessSet := by
      intro p asked d home
      by_cases same : d = own
      · exact same ▸ inside
      · have once := single d same ⟨p, Finset.mem_inter.2 ⟨home, asked⟩⟩
        exact List.one_le_count_iff.1 once.ge
    have right := (unique.placed_iff_seen inside placed).2 seen
    refine ⟨own, calls, numa', workstation, done, ⟨?_, right, unique.placed right⟩⟩
    rw [total, (unique.total_iff seen).2 single]

/-! ## Runs from the start -/

/-- Pages are kept in domains of workstations. -/
def Housed (platform : Platform) (numa : Residency) : Prop := ∀ p d, p ∈ numa d → d ∈ platform

theorem housed_initPlatform : Housed platform initPlatform := fun p _ home =>
  absurd home (Finset.notMem_empty p)

theorem unique_initPlatform : Unique initPlatform := fun p _ _ home =>
  absurd home (Finset.notMem_empty p)

/-- A task puts pages into its own domain only. -/
theorem Housed.schedulePages (housed : Housed platform numa)
    (done : schedulePages platform job.1 job.2 numa = some (calls, numa')) :
    Housed platform numa' ∧ (Unique numa → Unique numa') := by
  cases workstation : platform.domainOf job.2.cpu with
  | none => simp [Numasim.schedulePages, workstation] at done
  | some own =>
    obtain ⟨calls', numa₁, done', -, placed⟩ := schedulePages_spec numa workstation
    obtain ⟨rfl, rfl⟩ := Prod.mk.inj (Option.some.inj (done.symm.trans done'))
    have inside := Platform.mem_of_domainOf workstation
    have seen : Seen platform numa job.2.accessSet := fun p _ d home => housed p d home
    refine ⟨fun p d home => ?_, fun unique => ?_⟩
    · rcases (placed p d).1 home with before | ⟨rfl, -⟩
      · exact housed p d before
      · exact inside
    · exact unique.placed ((unique.placed_iff_seen inside placed).2 seen)

/-- Whatever the platform looks like, no page gets a second home. -/
theorem unique_throughout {jobs : List (String × Task)} (unique : Unique numa)
    (housed : Housed platform numa) :
    Throughout platform (fun numa _ => Unique numa) numa jobs := by
  induction jobs generalizing numa with
  | nil => trivial
  | cons job rest ih =>
    refine ⟨unique, fun calls numa' done => ?_⟩
    obtain ⟨housed', unique'⟩ := housed.schedulePages done
    exact ih (unique' unique) housed'

/-- Where no two workstations share a domain, no page is copied twice. -/
theorem oneWorkstation_throughout {jobs : List (String × Task)} (apart : platform.Nodup)
    (housed : Housed platform numa) :
    Throughout platform (OneWorkstation platform) numa jobs := by
  induction jobs generalizing numa with
  | nil => trivial
  | cons job rest ih =>
    refine ⟨?_, fun calls numa' done => ih (housed.schedulePages done).1⟩
    rintro own - d - ⟨p, member⟩
    exact List.count_eq_one_of_mem apart (housed p d (Finset.mem_inter.1 member).1)

/-! ## Runs -/

/-- In a run all tasks are scheduled as they should be if, before each of them, all other domains
with pages of it have one workstation, and only then. -/
theorem transfers_throughout_iff {jobs : List (String × Task)} (unique : Unique numa)
    (inside : ∀ job ∈ jobs, (platform.domainOf job.2.cpu).isSome) :
    Throughout platform (TransfersOnce platform) numa jobs ↔
      Throughout platform (OneWorkstation platform) numa jobs := by
  induction jobs generalizing numa with
  | nil => exact Iff.rfl
  | cons job rest ih =>
    obtain ⟨own, workstation⟩ := Option.isSome_iff_exists.1 (inside job List.mem_cons_self)
    rw [Throughout, Throughout, transfersOnce_iff unique workstation]
    refine and_congr_right fun single => forall₃_congr fun calls numa' done => ?_
    have once := (transfersOnce_iff unique workstation).2 single
    obtain ⟨_, _, _, _, done', transfers⟩ := once
    obtain ⟨rfl, rfl⟩ := Prod.mk.inj (Option.some.inj (done.symm.trans done'))
    exact ih transfers.unique fun job member => inside job (List.mem_cons_of_mem _ member)

/-- Two tasks, the second of which needs a page that the first one had. -/
def passOn : List (String × Task) :=
  [("first", { Task.new 1 0 with accessSet := {7} }),
    ("second", { Task.new 0 1 with accessSet := {7} })]

/-- A page is copied once if its domain has one workstation. -/
theorem transfers_apart : Throughout [0, 1] (TransfersOnce [0, 1]) initPlatform passOn :=
  (transfers_throughout_iff unique_initPlatform (by decide)).2
    (oneWorkstation_throughout (by decide) housed_initPlatform)

/-- Two workstations share the domain of the page, which is copied from both. -/
theorem not_transfers_shared :
    ¬ Throughout [0, 1, 1] (TransfersOnce [0, 1, 1]) initPlatform passOn := by
  intro right
  have workstation : Platform.domainOf [0, 1, 1] passOn[0].2.cpu = some 1 := rfl
  obtain ⟨calls, numa, done, -, placed⟩ := schedulePages_spec initPlatform workstation
  have home : 7 ∈ numa 1 := by
    refine (placed 7 1).2 (Or.inr ⟨rfl, Finset.mem_singleton_self 7, fun d _ => ?_⟩)
    exact Finset.notMem_empty 7
  have unique : Unique numa := by
    obtain ⟨_, _, _, _, done', transfers⟩ := right.1
    obtain ⟨rfl, rfl⟩ := Prod.mk.inj (Option.some.inj (done.symm.trans done'))
    exact transfers.unique
  have second := (right.2 calls numa done).1
  have single := (transfersOnce_iff unique rfl).1 second 0 rfl 1 (by decide)
    ⟨7, Finset.mem_inter.2 ⟨home, Finset.mem_singleton_self 7⟩⟩
  exact absurd single (by decide)

end Tthread.Numasim
