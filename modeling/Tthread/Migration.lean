/-
# Placing thunks on the least conflicting CPUs

`MmcpMigration` takes the thunks by priority. For each it looks for the CPUs of its list
with the fewest placed thunks that run beside it, raising the number it looks for until some
CPU has it, and takes the one that is nearest to the pages. The distance is asked for with
CPU 0 and with the numbers of the domains in the place of CPUs, which raises an exception
unless CPU 0 is in the list, every domain has a CPU of its number, and these are linked with
the CPUs of the list.
-/

import Mathlib.Algebra.Order.BigOperators.Group.List
import Mathlib.Data.List.Sort
import Mathlib.Data.Prod.Lex
import Tthread.Racksim

namespace Tthread.Racksim

open Folds

/-- The nodes of `nx.DiGraph(prog.edges)`. -/
def Programm.nodes {Time : Type} (prog : Programm Time) : List ThunkId :=
  prog.thunks.filter fun t => ∃ e ∈ prog.edges, e.1 = t ∨ e.2 = t

/-- `MmcpMigration` with the program and the machine it is called for, and the answers of the
graph library. -/
structure MmcpMigration (Time : Type) where
  prog : Programm Time
  arch : Architecture Time
  /-- `prog.concurrent` -/
  concurrent : ThunkId → Finset ThunkId
  cpulist : List ℕ
  /-- `nx.topological_sort(dag)` -/
  topological : List ThunkId
  /-- the nodes of `nx.bfs_tree(dag, t)` -/
  bfsTree : ThunkId → List ThunkId
  /-- `nx.betweenness_centrality(rack.arch.numa_g)` -/
  bc : ℕ → ℚ
  /-- `nx.shortest_path_length(rack.arch.numa_g, ...)`; `none` if there is no path -/
  pathLength : ℕ → ℕ → Option ℕ
  nonempty : prog.edges ≠ []
  sorts : topological.Perm prog.nodes
  some_cpu : cpulist ≠ []
  valid : ∀ cpu ∈ cpulist, cpu < arch.cpu2numa.length

/-- What ends `schedule_to_processors` without a schedule. -/
inductive Fault
  | keyError
  | indexError
  | noPath
  /-- the search has not come to an end -/
  | searching
  deriving DecidableEq

/-- `schedule` and `sched_rws`. -/
structure Schedule where
  thunks : ℕ → Finset ThunkId
  rws : ℕ → Finset ℕ

namespace MmcpMigration

variable {Time : Type} (m : MmcpMigration Time)

/-! ## The order -/

def pages (t : ThunkId) : Finset ℕ := (m.prog.data t).rs ∪ (m.prog.data t).ws

/-- `rel_priorities[t]` -/
def relPriority (t : ThunkId) : ℕ :=
  ((m.bfsTree t).foldl (fun pages v => pages ∪ m.pages v) ∅).card

/-- The sum of the differences to all priorities. -/
def priority (t : ThunkId) : ℤ :=
  (m.prog.nodes.map fun v => (m.relPriority t : ℤ) - m.relPriority v).sum

/-- The sort key of `order_thunks`. -/
def key (t : ThunkId) : ℤ ×ₗ ℤ := toLex (m.priority t, -(t.1 : ℤ))

/-- `order_thunks` -/
def orderThunks : List ThunkId := m.topological.insertionSort fun t u => m.key u ≤ m.key t

/-! ## The placement -/

/-- `len(schedule[p] & prog.concurrent[t.tid])` -/
def conflicts (s : Schedule) (t : ThunkId) (p : ℕ) : ℕ := (s.thunks p ∩ m.concurrent t).card

/-- The loop that looks for `allowed_p`, for a number of rounds. -/
def allowed (s : Schedule) (t : ThunkId) : ℕ → ℕ → Except Fault (List ℕ)
  | 0, _ => .error .searching
  | rounds + 1, rate =>
    let found := m.cpulist.filter fun p => m.conflicts s t p = rate
    -- nobody has so few: look for one more
    if found = [] then allowed s t rounds (rate + 1) else .ok found

/-- The term of domain `o` in the cost of CPU `p`. -/
def costAt (s : Schedule) (t : ThunkId) (p o : ℕ) : Except Fault ℕ :=
  -- `sched_rws[0]`, whichever domain the loop is at
  if 0 ∈ m.cpulist then
    match m.arch.cpu2numa[p]?, m.arch.cpu2numa[o]? with
    | some here, some there =>
      match m.pathLength here there with
      | some length => .ok ((s.rws 0 ∩ m.pages t).card * length)
      | none => .error .noPath
    | _, _ => .error .indexError
  else .error .keyError

/-- `cost` -/
def cost (s : Schedule) (t : ThunkId) (p : ℕ) : Except Fault ℕ :=
  (List.range m.arch.domains).foldlM (fun sum o => (m.costAt s t p o).map (sum + ·)) 0

/-- One round of the loop over the sorted CPUs, with `min_cost` and `min_p`. -/
def consider (s : Schedule) (t : ThunkId) (best : ℕ × Option ℕ) (p : ℕ) :
    Except Fault (ℕ × Option ℕ) :=
  (m.cost s t p).map fun cost =>
    -- the first of the CPUs with the least cost is taken
    if best.2 = none ∨ cost < best.1 then (cost, some p) else best

/-- `cpu2numa(p)` for a CPU of the list -/
def domainOf (p : ℕ) : ℕ := m.arch.cpu2numa.getD p 0

/-- The CPUs in the order of the loop. The keys are those of the domains that exist. -/
def sorted (allowed : List ℕ) : Except Fault (List ℕ) :=
  if ∀ p ∈ allowed, m.domainOf p < m.arch.domains then
    .ok (allowed.insertionSort fun p q => m.bc (m.domainOf q) ≤ m.bc (m.domainOf p))
  else .error .keyError

/-- Put a thunk on a CPU. -/
def put (s : Schedule) (p : ℕ) (t : ThunkId) : Schedule where
  thunks := Function.update s.thunks p (insert t (s.thunks p))
  rws := Function.update s.rws p (s.rws p ∪ m.pages t)

/-- The body of the loop over the thunks. -/
def place (rounds : ℕ) (s : Schedule) (t : ThunkId) : Except Fault Schedule := do
  let found ← m.allowed s t rounds 0
  let order ← m.sorted found
  let best ← order.foldlM (m.consider s t) (0, none)
  match best.2 with
  | some p => .ok (m.put s p t)
  | none => .error .keyError

/-- The sets in front of the loop. -/
def unplaced : Schedule where
  thunks _ := ∅
  rws _ := ∅

/-- The loops that set the CPUs of the thunks. -/
def assign (s : Schedule) : ThunkId → ThunkData Time :=
  m.cpulist.eraseDups.foldl
    (fun data cpu tid => if tid ∈ s.thunks cpu then { data tid with cpu := cpu } else data tid)
    m.prog.data

/-- `schedule_to_processors`, with the searches for `allowed_p` cut off after some rounds.
The result is the schedule and what has become of the thunks. -/
def scheduleToProcessors (rounds : ℕ) (priorities : List ThunkId) :
    Except Fault (Schedule × (ThunkId → ThunkData Time)) :=
  (priorities.foldlM (m.place rounds) unplaced).map fun s => (s, m.assign s)

/-- `schedule` -/
def schedule (rounds : ℕ) : Except Fault (Schedule × (ThunkId → ThunkData Time)) :=
  m.scheduleToProcessors rounds m.orderThunks

/-! ## What it is for -/

/-- The thunks among some that a choice of CPUs puts on one, and that run beside a thunk. -/
def beside (cpu : ThunkId → ℕ) (placed : List ThunkId) (t : ThunkId) (p : ℕ) : Finset ThunkId :=
  placed.toFinset.filter fun u => cpu u = p ∧ u ∈ m.concurrent t

/-- A choice of CPUs of the list for some thunks, made one after the other, each with the
fewest thunks placed before that run beside the thunk. -/
structure LeastConflicting (cpu : ThunkId → ℕ) (priorities : List ThunkId) : Prop where
  listed : ∀ t ∈ priorities, cpu t ∈ m.cpulist
  least : ∀ before t after, priorities = before ++ t :: after → ∀ q ∈ m.cpulist,
    (m.beside cpu before t (cpu t)).card ≤ (m.beside cpu before t q).card

/-- The schedule and the thunks agree on such a choice, and the other thunks are as before. -/
structure Places (s : Schedule) (data : ThunkId → ThunkData Time) : Prop where
  choice : m.LeastConflicting (fun t => (data t).cpu) m.orderThunks
  one : ∀ t ∈ m.prog.nodes, ∀ p, t ∈ s.thunks p ↔ p = (data t).cpu
  set : ∀ t, data t = { m.prog.data t with cpu := (data t).cpu }
  kept : ∀ t ∉ m.prog.nodes, data t = m.prog.data t

/-- The domains of the CPUs exist, and the distances that are asked for. -/
def Measured : Prop :=
  (∀ p ∈ m.cpulist, m.domainOf p < m.arch.domains) ∧
    0 ∈ m.cpulist ∧ m.arch.domains ≤ m.arch.cpu2numa.length ∧
    ∀ p ∈ m.cpulist, ∀ o < m.arch.domains, (m.pathLength (m.domainOf p) (m.domainOf o)).isSome

variable {m} {s s' : Schedule} {t : ThunkId} {p q rate rounds : ℕ} {found : List ℕ}
  {best : ℕ × Option ℕ} {cpu : ThunkId → ℕ} {placed : List ThunkId}

theorem mem_orderThunks : t ∈ m.orderThunks ↔ t ∈ m.prog.nodes :=
  (List.perm_insertionSort _ _).mem_iff.trans m.sorts.mem_iff

theorem nodup_orderThunks : m.orderThunks.Nodup := by
  have nodes : m.prog.nodes.Nodup := m.prog.distinct.filter _
  exact (List.perm_insertionSort _ _).nodup_iff.mpr (m.sorts.nodup_iff.mpr nodes)

/-! ## The search -/

/-- The search ends with the CPUs that have the least number. -/
theorem allowed_least (below : ∀ p ∈ m.cpulist, rate ≤ m.conflicts s t p)
    (enough : ∃ p ∈ m.cpulist, m.conflicts s t p < rate + rounds) :
    ∃ found, m.allowed s t rounds rate = .ok found ∧ found ≠ [] ∧
      ∀ p ∈ found, p ∈ m.cpulist ∧ ∀ q ∈ m.cpulist, m.conflicts s t p ≤ m.conflicts s t q := by
  induction rounds generalizing rate with
  | zero =>
    obtain ⟨p, member, small⟩ := enough
    exact absurd (below p member) (by omega)
  | succ rounds ih =>
    rw [allowed]
    split_ifs with none_found
    · refine ih (fun p member => ?_) (enough.imp fun p small => ⟨small.1, by omega⟩)
      have other : m.conflicts s t p ≠ rate := by
        simpa using List.filter_eq_nil_iff.mp none_found p member
      have above := below p member
      omega
    · refine ⟨_, rfl, none_found, fun p member => ?_⟩
      obtain ⟨listed, same⟩ := List.mem_filter.mp member
      refine ⟨listed, fun q other => ?_⟩
      rw [of_decide_eq_true same]
      exact below q other

theorem allowed_ok (enough : (m.concurrent t).card < rounds) :
    ∃ found, m.allowed s t rounds 0 = .ok found ∧ found ≠ [] ∧
      ∀ p ∈ found, p ∈ m.cpulist ∧ ∀ q ∈ m.cpulist, m.conflicts s t p ≤ m.conflicts s t q := by
  obtain ⟨p, member⟩ := List.exists_mem_of_ne_nil _ m.some_cpu
  have bound : m.conflicts s t p ≤ (m.concurrent t).card :=
    Finset.card_le_card Finset.inter_subset_right
  exact allowed_least (fun _ _ => Nat.zero_le _) ⟨p, member, by omega⟩

/-! ## The costs -/

/-- The term of a domain is defined if CPU 0 is listed and a path leads to the CPU of its
number. -/
theorem costAt_ok (listed : p ∈ m.cpulist) {o : ℕ} :
    (∃ c, m.costAt s t p o = .ok c) ↔
      0 ∈ m.cpulist ∧ o < m.arch.cpu2numa.length ∧
        (m.pathLength (m.domainOf p) (m.domainOf o)).isSome := by
  have valid := m.valid p listed
  rw [costAt, domainOf, domainOf]
  by_cases zero : 0 ∈ m.cpulist
  · rw [if_pos zero]
    by_cases named : o < m.arch.cpu2numa.length
    · simp only [List.getElem?_eq_getElem valid, List.getElem?_eq_getElem named,
        List.getD_eq_getElem?_getD, Option.getD_some]
      cases m.pathLength m.arch.cpu2numa[p] m.arch.cpu2numa[o] with
      | none => simp
      | some length => simp [zero, named]
    · simp [List.getElem?_eq_getElem valid, named]
  · simp [zero]

/-- All costs are defined exactly if the distances are. -/
theorem measured_iff (inside : ∀ p ∈ m.cpulist, m.domainOf p < m.arch.domains) :
    m.Measured ↔ ∀ p ∈ m.cpulist, ∃ c, m.cost s t p = .ok c := by
  have terms : (∀ p ∈ m.cpulist, ∃ c, m.cost s t p = .ok c) ↔
      ∀ p ∈ m.cpulist, ∀ o < m.arch.domains, 0 ∈ m.cpulist ∧ o < m.arch.cpu2numa.length ∧
        (m.pathLength (m.domainOf p) (m.domainOf o)).isSome := by
    refine forall₂_congr fun p listed => ?_
    rw [cost, exists_foldlM_map]
    simp only [List.mem_range]
    exact forall₂_congr fun o _ => costAt_ok listed
  rw [terms]
  constructor
  · rintro ⟨-, zero, numbers, paths⟩ p listed o domain
    exact ⟨zero, by omega, paths p listed o domain⟩
  · intro all
    obtain ⟨p, listed⟩ := List.exists_mem_of_ne_nil _ m.some_cpu
    have positive := Nat.zero_lt_of_lt (inside p listed)
    refine ⟨inside, (all p listed 0 positive).1, ?_,
      fun q other o domain => (all q other o domain).2.2⟩
    have last := (all p listed (m.arch.domains - 1) (Nat.sub_one_lt positive.ne')).2.1
    omega

/-- The loop over the CPUs keeps one of them. -/
theorem foldlM_consider {list : List ℕ} {start : ℕ × Option ℕ}
    (loop : list.foldlM (m.consider s t) start = .ok best) :
    (best.2 = none → list = [] ∧ start.2 = none) ∧
      ∀ p, best.2 = some p → p ∈ list ∨ start.2 = some p := by
  induction list generalizing start with
  | nil =>
    obtain rfl := Except.ok.inj loop
    exact ⟨fun nothing => ⟨rfl, nothing⟩, fun p taken => .inr taken⟩
  | cons first rest ih =>
    rw [List.foldlM_cons, bind_ok] at loop
    obtain ⟨next, considered, loop⟩ := loop
    obtain ⟨c, -, chosen⟩ := map_ok.mp considered
    have kept : next.2 = some first ∨ next.2 = start.2 ∧ start.2 ≠ none := by
      rw [← chosen]
      split_ifs with better
      · exact .inl rfl
      · exact .inr ⟨rfl, fun nothing => better (.inl nothing)⟩
    obtain ⟨empty, from_rest⟩ := ih loop
    constructor
    · intro nothing
      obtain ⟨-, untaken⟩ := empty nothing
      obtain taken | ⟨same, taken⟩ := kept
      · exact absurd (taken.symm.trans untaken) nofun
      · exact absurd (same.symm.trans untaken) taken
    · intro p taken
      obtain later | before := from_rest p taken
      · exact .inl (List.mem_cons_of_mem _ later)
      · obtain here | ⟨same, -⟩ := kept
        · exact .inl (Option.some.inj (before.symm.trans here) ▸ List.mem_cons_self)
        · exact .inr (same.symm.trans before)

/-- The CPUs can be sorted if their domains exist. -/
theorem sorted_ok : (∃ order, m.sorted found = .ok order) ↔
    ∀ p ∈ found, m.domainOf p < m.arch.domains := by
  rw [sorted]
  split_ifs with inside
  · exact iff_of_true ⟨_, rfl⟩ inside
  · exact iff_of_false (fun ⟨_, failed⟩ => by cases failed) inside

theorem sorted_perm {order : List ℕ} (sort : m.sorted found = .ok order) : order.Perm found := by
  rw [sorted] at sort
  split_ifs at sort
  obtain rfl := Except.ok.inj sort
  exact List.perm_insertionSort _ _

/-! ## One thunk -/

/-- A thunk goes to a CPU with the fewest conflicts. -/
theorem place_ok (measured : m.Measured) (enough : (m.concurrent t).card < rounds) :
    ∃ p ∈ m.cpulist, m.place rounds s t = .ok (m.put s p t) ∧
      ∀ q ∈ m.cpulist, m.conflicts s t p ≤ m.conflicts s t q := by
  obtain ⟨found, search, some_found, least⟩ := allowed_ok (s := s) enough
  obtain ⟨order, sort⟩ := sorted_ok.mpr fun p member => measured.1 p (least p member).1
  have perm := sorted_perm sort
  have costs : ∀ p ∈ order, ∃ c, m.cost s t p = .ok c := by
    intro p member
    exact (measured_iff measured.1).mp measured p (least p (perm.mem_iff.mp member)).1
  have run : ∃ best, order.foldlM (m.consider s t) (0, none) = .ok best :=
    exists_foldlM_map.mpr costs
  obtain ⟨best, loop⟩ := run
  obtain ⟨empty, kept⟩ := foldlM_consider loop
  cases taken : best.2 with
  | none => exact absurd (perm.symm.trans ((empty taken).1 ▸ .refl _)).eq_nil some_found
  | some p =>
    have member : p ∈ found := perm.mem_iff.mp ((kept p taken).resolve_right nofun)
    refine ⟨p, (least p member).1, ?_, (least p member).2⟩
    rw [place, bind_ok]
    refine ⟨found, search, ?_⟩
    rw [bind_ok]
    refine ⟨order, sort, ?_⟩
    rw [bind_ok]
    refine ⟨best, loop, ?_⟩
    rw [taken]

/-- The first thunk has every CPU of the list to choose from, so all costs are asked for. -/
theorem measured_of_place (first : m.place rounds unplaced t = .ok s') : m.Measured := by
  rw [place, bind_ok] at first
  obtain ⟨found, search, first⟩ := first
  obtain ⟨order, sort, first⟩ := bind_ok.mp first
  obtain ⟨best, loop, -⟩ := bind_ok.mp first
  cases rounds with
  | zero => cases search
  | succ rounds =>
    have all : m.cpulist.filter (fun p => m.conflicts unplaced t p = 0) = m.cpulist := by
      refine List.filter_eq_self.mpr fun p _ => ?_
      simp [conflicts, unplaced]
    rw [allowed, all] at search
    simp only [if_neg m.some_cpu] at search
    obtain rfl := Except.ok.inj search
    have costs := exists_foldlM_map.mp ⟨best, loop⟩
    refine (measured_iff (sorted_ok.mp ⟨order, sort⟩)).mpr fun p listed => costs p ?_
    exact (sorted_perm sort).mem_iff.mpr listed

/-! ## All thunks -/

theorem beside_congr {cpu' : ThunkId → ℕ} (agree : ∀ u ∈ placed, cpu u = cpu' u) :
    m.beside cpu placed t p = m.beside cpu' placed t p := by
  refine Finset.filter_congr fun u member => ?_
  rw [agree u (List.mem_toFinset.mp member)]

/-- Only the CPUs of the listed thunks matter. -/
theorem LeastConflicting.congr {cpu' : ThunkId → ℕ} (choice : m.LeastConflicting cpu placed)
    (agree : ∀ u ∈ placed, cpu u = cpu' u) : m.LeastConflicting cpu' placed where
  listed u member := agree u member ▸ choice.listed u member
  least before u after split q other := by
    have here : u ∈ placed := split ▸ List.mem_append_right _ List.mem_cons_self
    have front : ∀ v ∈ before, cpu v = cpu' v := fun v member =>
      agree v (split ▸ List.mem_append_left _ member)
    rw [← agree u here, ← beside_congr front, ← beside_congr front]
    exact choice.least before u after split q other

theorem LeastConflicting.concat (choice : m.LeastConflicting cpu placed)
    (listed : cpu t ∈ m.cpulist) (least : ∀ q ∈ m.cpulist,
      (m.beside cpu placed t (cpu t)).card ≤ (m.beside cpu placed t q).card) :
    m.LeastConflicting cpu (placed ++ [t]) where
  listed u member := by
    obtain old | new := List.mem_append.mp member
    · exact choice.listed u old
    · exact List.mem_singleton.mp new ▸ listed
  least before u after split q other := by
    obtain rfl | ⟨after, last, rfl⟩ := List.eq_nil_or_concat after
    · obtain ⟨rfl, same⟩ := List.append_inj' split rfl
      obtain rfl := (List.cons.inj same).1
      exact least q other
    · rw [List.concat_eq_append, ← List.cons_append, ← List.append_assoc] at split
      obtain ⟨old, -⟩ := List.append_inj' split rfl
      exact choice.least before u after old q other

/-- The sets of a schedule after some thunks. -/
structure Placed (m : MmcpMigration Time) (cpu : ThunkId → ℕ) (placed : List ThunkId)
    (s : Schedule) :
    Prop where
  choice : m.LeastConflicting cpu placed
  sets : ∀ p u, u ∈ s.thunks p ↔ u ∈ placed ∧ cpu u = p

theorem placed_unplaced : Placed m cpu [] unplaced where
  choice :=
    { listed := fun _ member => absurd member List.not_mem_nil
      least := fun before _ _ split => by cases before <;> cases split }
  sets p u := by simp [unplaced]

/-- The conflicts that are counted are the thunks placed before that run beside. -/
theorem Placed.conflicts (state : Placed m cpu placed s) :
    m.conflicts s t p = (m.beside cpu placed t p).card := by
  rw [MmcpMigration.conflicts, beside]
  congr 1
  ext u
  simp only [Finset.mem_inter, state.sets, Finset.mem_filter, List.mem_toFinset, and_assoc]

theorem Placed.put (state : Placed m cpu placed s) (new : t ∉ placed) (listed : p ∈ m.cpulist)
    (least : ∀ q ∈ m.cpulist, m.conflicts s t p ≤ m.conflicts s t q) :
    Placed m (Function.update cpu t p) (placed ++ [t]) (m.put s p t) := by
  have agree : ∀ u ∈ placed, cpu u = Function.update cpu t p u := by
    intro u member
    rw [Function.update_of_ne (ne_of_mem_of_not_mem member new)]
  have updated : ∀ q, m.conflicts s t q = (m.beside (Function.update cpu t p) placed t q).card := by
    intro q
    rw [state.conflicts, beside_congr agree]
  constructor
  · refine (state.choice.congr agree).concat ?_ fun q other => ?_
    · rwa [Function.update_self]
    · rw [Function.update_self, ← updated, ← updated]
      exact least q other
  · intro q u
    simp only [MmcpMigration.put, List.mem_append, List.mem_singleton]
    by_cases here : u = t
    · subst here
      have unset : u ∉ s.thunks q := fun member => new ((state.sets q u).mp member).1
      by_cases same : q = p
      · subst same
        simp
      · simp [Function.update_of_ne same, unset, Ne.symm same]
    · rw [Function.update_of_ne here]
      by_cases same : q = p
      · subst same
        simp [state.sets, here]
      · simp [Function.update_of_ne same, state.sets, here]

theorem Placed.run (state : Placed m cpu placed s) (measured : m.Measured) {rest : List ThunkId}
    (nodup : (placed ++ rest).Nodup) (enough : ∀ t ∈ rest, (m.concurrent t).card < rounds) :
    ∃ cpu s', rest.foldlM (m.place rounds) s = .ok s' ∧ Placed m cpu (placed ++ rest) s' := by
  induction rest generalizing cpu placed s with
  | nil => exact ⟨cpu, s, rfl, (List.append_nil placed).symm ▸ state⟩
  | cons t rest ih =>
    obtain ⟨p, listed, put, least⟩ := place_ok (s := s) measured (enough t List.mem_cons_self)
    have new : t ∉ placed := fun member =>
      List.disjoint_of_nodup_append nodup member List.mem_cons_self
    rw [List.append_cons] at nodup
    obtain ⟨cpu, s', run, state⟩ := ih (state.put new listed least) nodup fun u member =>
      enough u (List.mem_cons_of_mem _ member)
    refine ⟨cpu, s', ?_, ?_⟩
    · rw [List.foldlM_cons, put]
      exact run
    · rwa [List.append_cons]

/-- The last loops set the CPUs that the schedule says. -/
theorem Placed.foldl_assign (state : Placed m cpu placed s) (cpus : List ℕ)
    (data : ThunkId → ThunkData Time) :
    cpus.foldl (fun data cpu tid =>
        if tid ∈ s.thunks cpu then { data tid with cpu := cpu } else data tid) data t =
      if t ∈ placed ∧ cpu t ∈ cpus then { data t with cpu := cpu t } else data t := by
  induction cpus generalizing data with
  | nil => simp
  | cons p rest ih =>
    rw [List.foldl_cons, ih]
    simp only [state.sets, List.mem_cons]
    by_cases known : t ∈ placed
    · by_cases here : cpu t = p
      · simp [known, here]
      · simp [known, here]
    · simp [known]

theorem Placed.places (state : Placed m cpu m.orderThunks s) : m.Places s (m.assign s) := by
  have value : ∀ t, m.assign s t =
      if t ∈ m.orderThunks then { m.prog.data t with cpu := cpu t } else m.prog.data t := by
    intro t
    rw [assign, state.foldl_assign]
    by_cases known : t ∈ m.orderThunks
    · have listed := state.choice.listed t known
      simp [known, listed]
    · simp [known]
  have chosen : ∀ t ∈ m.orderThunks, (m.assign s t).cpu = cpu t := by
    intro t known
    rw [value, if_pos known]
  exact
    { choice := state.choice.congr fun t known => (chosen t known).symm
      one := fun t node p => by
        have known := mem_orderThunks.mpr node
        rw [state.sets, chosen t known]
        exact ⟨fun ⟨_, same⟩ => same.symm, fun same => ⟨known, same.symm⟩⟩
      set := fun t => by
        rw [value]
        split_ifs <;> rfl
      kept := fun t other => by
        rw [value, if_neg (mem_orderThunks.not.mpr other)] }

theorem orderThunks_ne_nil : m.orderThunks ≠ [] := by
  obtain ⟨e, member⟩ := List.exists_mem_of_ne_nil _ m.nonempty
  have node : e.1 ∈ m.prog.nodes :=
    List.mem_filter.mpr ⟨(m.prog.inside e member).1, decide_eq_true ⟨e, member, .inl rfl⟩⟩
  exact List.ne_nil_of_mem (mem_orderThunks.mpr node)

theorem measured_of_schedule {result : Schedule × (ThunkId → ThunkData Time)}
    (done : m.schedule rounds = .ok result) : m.Measured := by
  obtain ⟨s, run, -⟩ := map_ok.mp done
  obtain ⟨t, rest, order⟩ := List.exists_cons_of_ne_nil m.orderThunks_ne_nil
  rw [order, List.foldlM_cons, bind_ok] at run
  obtain ⟨middle, first, -⟩ := run
  exact measured_of_place first

/-- **The thunks get their least conflicting CPUs exactly if the distances are defined.** -/
theorem places_iff_measured (m : MmcpMigration Time) :
    (∃ rounds s data, m.schedule rounds = .ok (s, data) ∧ m.Places s data) ↔ m.Measured := by
  constructor
  · rintro ⟨rounds, s, data, done, -⟩
    exact measured_of_schedule done
  · intro measured
    have enough : ∀ t ∈ m.orderThunks, (m.concurrent t).card <
        (m.orderThunks.map fun t => (m.concurrent t).card).sum + 1 := by
      intro t member
      exact Nat.lt_succ_of_le (List.le_sum_of_mem (List.mem_map_of_mem member))
    have start : Placed m (fun _ => 0) [] unplaced := placed_unplaced
    have nodup : ([] ++ m.orderThunks).Nodup := m.nodup_orderThunks
    obtain ⟨cpu, s, run, state⟩ := start.run measured nodup enough
    exact ⟨_, s, m.assign s, map_ok.mpr ⟨s, run, rfl⟩, state.places⟩

/-- The chain of two thunks on the machine with two domains. -/
def pair (cpulist : List ℕ) (some_cpu : cpulist ≠ []) (valid : ∀ cpu ∈ cpulist, cpu < 2) :
    MmcpMigration ExactTime where
  prog := .chain fun n => n - 1
  arch := .pair
  concurrent _ := ∅
  cpulist := cpulist
  topological := [(0, 1), (0, 2)]
  bfsTree t := if t = (0, 1) then [(0, 1), (0, 2)] else [t]
  bc _ := 0
  pathLength i j := some (if i = j then 0 else 1)
  nonempty := by decide
  sorts := by decide
  some_cpu := some_cpu
  valid := valid

/-- Both CPUs are listed. -/
theorem places_bothCpus :
    ∃ rounds s data,
      (pair [1, 0] (by decide) (by decide)).schedule rounds = .ok (s, data) ∧
        (pair [1, 0] (by decide) (by decide)).Places s data :=
  (places_iff_measured _).mpr ⟨by decide, by decide, by decide, by decide⟩

/-- The list with the second CPU alone. -/
theorem not_places_secondCpu :
    ¬ ∃ rounds s data,
      (pair [1] (by decide) (by decide)).schedule rounds = .ok (s, data) ∧
        (pair [1] (by decide) (by decide)).Places s data := by
  rintro ⟨rounds, s, data, done, -⟩
  have zero : 0 ∈ [1] := (measured_of_schedule done).2.1
  exact absurd zero (by decide)

end MmcpMigration

end Tthread.Racksim
