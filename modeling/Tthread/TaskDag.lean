/-
# The graph of tasks

`TaskDAG` takes the redundant edges out of the graph of thunks and puts three tasks in the
place of each thunk. The reduction deletes edges from the graph that its loops and its lazy
depth-first search walk over; an iterator over the neighbours of a node raises an exception
when their number has changed. Only edges from the node of the outer loop are deleted, and no
search behind it comes back to that node.
-/

import Mathlib.Data.Finset.Dedup
import Mathlib.Logic.Relation
import Tthread.Library.Folds
import Tthread.Library.Redundant
import Tthread.Racksim

namespace Tthread.Racksim.TaskDAG

open Folds Redundant Relation

/-! ## The graph of thunks -/

/-- The edges of a program, as `nx.DiGraph` takes them. -/
abbrev Edges := List (ThunkId × ThunkId)

/-- The neighbours of each node in a graph that changes. -/
abbrev Graph := ThunkId → List ThunkId

/-- `nx.DiGraph(dict(thunkEdges))`, whose dictionaries may have any order. -/
structure DiGraph (thunkEdges : Edges) where
  nodes : List ThunkId
  adj : Graph
  mem_nodes : ∀ t, t ∈ nodes ↔ ∃ e ∈ thunkEdges, e.1 = t ∨ e.2 = t
  mem_adj : ∀ a b, b ∈ adj a ↔ (a, b) ∈ thunkEdges
  nodes_nodup : nodes.Nodup
  adj_nodup : ∀ a, (adj a).Nodup

/-- The graph with the order of the edges. -/
def DiGraph.ofEdges (thunkEdges : Edges) : DiGraph thunkEdges where
  nodes := (thunkEdges.map Prod.fst ++ thunkEdges.map Prod.snd).dedup
  adj t := ((thunkEdges.filter fun e => e.1 = t).map Prod.snd).dedup
  mem_nodes t := by
    simp only [List.mem_dedup, List.mem_append, List.mem_map, ← exists_or, ← and_or_left]
  mem_adj a b := by simp
  nodes_nodup := List.nodup_dedup _
  adj_nodup _ := List.nodup_dedup _

def Graph.Edge (g : Graph) (a b : ThunkId) : Prop := b ∈ g a

/-- `if g.has_edge(a, b): g.remove_edge(a, b)` -/
def Graph.removeEdge (g : Graph) (a b : ThunkId) : Graph :=
  if b ∈ g a then Function.update g a ((g a).filter (· ≠ b)) else g

/-! ## The reduction -/

/-- An exception. -/
inductive Error
  | dictionaryChangedSize
  | moreThanOneSuccessor (tid : ThunkId)
  deriving DecidableEq

/-- An iterator over the neighbours of a node: their number when it was made, and those that
are left. -/
structure Iter where
  node : ThunkId
  size : ℕ
  rest : List ThunkId

/-- `iter(G[node])` -/
def iter (g : Graph) (node : ThunkId) : Iter where
  node := node
  size := (g node).length
  rest := g node

/-- The steps that the iterators of a stack have left. -/
def left (stack : List Iter) : ℕ := (stack.map fun it => it.rest.length + 1).sum

/-- The loop of `nx.dfs_preorder_nodes` with the nodes that are not visited, and the body of
the reduction for each node that it yields. -/
def dfs (n1 : ThunkId) (g : Graph) (fresh : Finset ThunkId) :
    List Iter → Except Error Graph
  | [] => .ok g
  | ⟨node, size, rest⟩ :: stack =>
    if (g node).length ≠ size then .error .dictionaryChangedSize
    else
      match rest with
      | [] => dfs n1 g fresh stack
      | child :: rest =>
        if child ∈ fresh then
          let g := g.removeEdge n1 child
          dfs n1 g (fresh.erase child) (iter g child :: ⟨node, size, rest⟩ :: stack)
        else dfs n1 g fresh (⟨node, size, rest⟩ :: stack)
termination_by stack => (fresh.card, left stack)
decreasing_by
  · exact Prod.Lex.right _ (by simp [left])
  · exact Prod.Lex.left _ _ (Finset.card_erase_lt_of_mem ‹_›)
  · exact Prod.Lex.right _ (by simp [left])

/-- The loop over the nodes behind `n3`. The search yields `n3` itself first. -/
def visit (nodes : List ThunkId) (n1 : ThunkId) (g : Graph) (n3 : ThunkId) : Except Error Graph :=
  let g := g.removeEdge n1 n3
  dfs n1 g (nodes.toFinset.erase n3) [iter g n3]

/-- The body of the loop over `n1`. `successors` returns a list that deletions do not change. -/
def reduceNode (nodes : List ThunkId) (g : Graph) (n1 : ThunkId) : Except Error Graph :=
  let g := g.removeEdge n1 n1
  (g n1).foldlM (fun g n2 => (g n2).foldlM (visit nodes n1) g) g

/-- `__transitive_reduction` of the graph of a program. -/
def transitiveReduction {thunkEdges : Edges} (G : DiGraph thunkEdges) : Except Error Graph :=
  G.nodes.foldlM (reduceNode G.nodes) G.adj

/-! ## The graph of tasks -/

/-- The edges that the loop of `__init__` adds for a thunk. -/
def tasksOf (nodes : List ThunkId) (g : Graph) (tid : ThunkId) : List (Task × Task) :=
  [(⟨.comm, tid⟩, ⟨.thunk, tid⟩), (⟨.thunk, tid⟩, ⟨.commit, tid⟩)] ++
    ((nodes.filter fun t => tid ∈ g t).map fun t => (⟨.thunk, t⟩, ⟨.comm, tid⟩)) ++
    (g tid).map fun t => (⟨.commit, tid⟩, ⟨.comm, t⟩)

/-- The edges of `dag`. -/
def dagOf (nodes : List ThunkId) (g : Graph) : List (Task × Task) :=
  nodes.flatMap (tasksOf nodes g)

/-- `dag.successors` -/
def successors (dag : List (Task × Task)) (task : Task) : List Task :=
  ((dag.filter fun e => e.1 = task).map Prod.snd).dedup

/-- The check at the end of `__init__`. -/
def verify (nodes : List ThunkId) (dag : List (Task × Task)) : Except Error Unit :=
  nodes.forM fun tid =>
    if 1 < (successors dag ⟨.comm, tid⟩).length then .error (.moreThanOneSuccessor tid)
    else .ok ()

/-- `TaskDAG`, as the edges of its `dag`. -/
def init {thunkEdges : Edges} (G : DiGraph thunkEdges) : Except Error (List (Task × Task)) := do
  let g ← transitiveReduction G
  let dag := dagOf G.nodes g
  verify G.nodes dag
  return dag

/-! ## Paths -/

/-- A path along the edges of a program. -/
def Path (thunkEdges : Edges) : ThunkId → ThunkId → Prop :=
  TransGen fun a b => (a, b) ∈ thunkEdges

/-- A path in the graph of tasks. -/
def TaskPath (dag : List (Task × Task)) : Task → Task → Prop :=
  TransGen fun u v => (u, v) ∈ dag

/-- Some number of edges, or none, lead from one node to another. -/
def Graph.Reach (g : Graph) : ThunkId → ThunkId → Prop := ReflTransGen g.Edge

/-! ## The search -/

section Search

variable {nodes rest : List ThunkId} {g g₀ g' : Graph} {n1 n3 a b child node : ThunkId}
  {fresh : Finset ThunkId} {stack : List Iter} {size : ℕ}

theorem mem_removeEdge : b ∈ g.removeEdge n1 child n1 ↔ b ∈ g n1 ∧ b ≠ child := by
  rw [Graph.removeEdge]
  split_ifs with edge
  · rw [Function.update_self, List.mem_filter, decide_eq_true_iff]
  · exact ⟨fun member => ⟨member, fun same => edge (same ▸ member)⟩, And.left⟩

theorem removeEdge_of_ne (other : a ≠ n1) : g.removeEdge n1 child a = g a := by
  rw [Graph.removeEdge]
  split_ifs
  · rw [Function.update_of_ne other]
  · rfl

/-- The state of the search behind `n3` while the edges of `n1` to what it yields are deleted.
Neighbours that are still to be visited wait in the iterator of their node. -/
structure Walk (nodes : List ThunkId) (g₀ : Graph) (n1 n3 : ThunkId) (g : Graph)
    (fresh : Finset ThunkId) (stack : List Iter) : Prop where
  others : ∀ a, a ≠ n1 → g a = g₀ a
  pruned : ∀ b, b ∈ g n1 ↔ b ∈ g₀ n1 ∧ b ∈ fresh
  root : n3 ∉ fresh
  reached : ∀ b ∈ nodes, b ∉ fresh → g₀.Reach n3 b
  iterators : ∀ it ∈ stack, it.node ∈ nodes ∧ it.node ∉ fresh ∧
    it.size = (g₀ it.node).length ∧ ∀ w ∈ it.rest, w ∈ g₀ it.node
  pending : ∀ v ∈ nodes, v ∉ fresh → ∀ w ∈ g₀ v, w ∈ fresh → ∃ it ∈ stack, it.node = v ∧ w ∈ it.rest

/-- The edges from one node to some others are gone. -/
structure Prunes (g : Graph) (n1 : ThunkId) (gone : ThunkId → Prop) (g' : Graph) : Prop where
  others : ∀ a, a ≠ n1 → g' a = g a
  here : ∀ b, b ∈ g' n1 ↔ b ∈ g n1 ∧ ¬ gone b

/-- An iterator at its end is dropped. -/
theorem Walk.drop (walk : Walk nodes g₀ n1 n3 g fresh (⟨node, size, []⟩ :: stack)) :
    Walk nodes g₀ n1 n3 g fresh stack where
  others := walk.others
  pruned := walk.pruned
  root := walk.root
  reached := walk.reached
  iterators it member := walk.iterators it (List.mem_cons_of_mem _ member)
  pending v inside old w edge new := by
    obtain ⟨it, member, same, waits⟩ := walk.pending v inside old w edge new
    obtain rfl | below := List.mem_cons.mp member
    · exact absurd waits List.not_mem_nil
    · exact ⟨it, below, same, waits⟩

/-- A neighbour that has been visited is passed over. -/
theorem Walk.skip (walk : Walk nodes g₀ n1 n3 g fresh (⟨node, size, child :: rest⟩ :: stack))
    (seen : child ∉ fresh) : Walk nodes g₀ n1 n3 g fresh (⟨node, size, rest⟩ :: stack) where
  others := walk.others
  pruned := walk.pruned
  root := walk.root
  reached := walk.reached
  iterators it member := by
    obtain rfl | below := List.mem_cons.mp member
    · obtain ⟨inside, old, whole, part⟩ := walk.iterators _ List.mem_cons_self
      exact ⟨inside, old, whole, fun w later => part w (List.mem_cons_of_mem _ later)⟩
    · exact walk.iterators it (List.mem_cons_of_mem _ below)
  pending v inside old w edge new := by
    obtain ⟨it, member, same, waits⟩ := walk.pending v inside old w edge new
    obtain rfl | below := List.mem_cons.mp member
    · obtain rfl | later := List.mem_cons.mp waits
      · exact absurd new seen
      · exact ⟨_, List.mem_cons_self, same, later⟩
    · exact ⟨it, List.mem_cons_of_mem _ below, same, waits⟩

/-- The edges of the nodes on the stack are as they were. -/
theorem Walk.unchanged (away : ¬ g₀.Reach n3 n1) (walk : Walk nodes g₀ n1 n3 g fresh stack)
    {it : Iter} (member : it ∈ stack) : it.node ≠ n1 ∧ g it.node = g₀ it.node := by
  obtain ⟨inside, old, -, -⟩ := walk.iterators it member
  have other : it.node ≠ n1 := by
    intro same
    exact away (same ▸ walk.reached it.node inside old)
  exact ⟨other, walk.others it.node other⟩

/-- A new neighbour is yielded, and the edge to it goes. -/
theorem Walk.push (closed : ∀ v ∈ nodes, ∀ w ∈ g₀ v, w ∈ nodes) (away : ¬ g₀.Reach n3 n1)
    (walk : Walk nodes g₀ n1 n3 g fresh (⟨node, size, child :: rest⟩ :: stack))
    (new : child ∈ fresh) :
    Walk nodes g₀ n1 n3 (g.removeEdge n1 child) (fresh.erase child)
      (iter (g.removeEdge n1 child) child :: ⟨node, size, rest⟩ :: stack) := by
  obtain ⟨inside, old, whole, part⟩ := walk.iterators _ List.mem_cons_self
  have edge : child ∈ g₀ node := part child List.mem_cons_self
  have child_inside : child ∈ nodes := closed node inside child edge
  have child_reached : g₀.Reach n3 child := (walk.reached node inside old).tail edge
  -- The walk starts behind the edge and cannot come back to its source.
  have child_other : child ≠ n1 := fun same => away (same ▸ child_reached)
  -- So the edges of the child are those of the graph at the start.
  have child_edges : g.removeEdge n1 child child = g₀ child := by
    rw [removeEdge_of_ne child_other, walk.others child child_other]
  have visited : ∀ v, v ∉ fresh.erase child → v = child ∨ v ∉ fresh := by
    intro v gone
    by_cases same : v = child
    · exact .inl same
    · exact .inr fun still => gone (Finset.mem_erase.mpr ⟨same, still⟩)
  constructor
  · intro a other
    rw [removeEdge_of_ne other, walk.others a other]
  · intro b
    rw [mem_removeEdge, walk.pruned, Finset.mem_erase]
    tauto
  · exact fun member => walk.root (Finset.mem_of_mem_erase member)
  · intro b member gone
    obtain rfl | before := visited b gone
    · exact child_reached
    · exact walk.reached b member before
  · -- The new iterator holds all edges of the child, and the one below has one fewer left.
    intro it member
    obtain rfl | member := List.mem_cons.mp member
    · refine ⟨child_inside, Finset.notMem_erase child fresh, ?_, ?_⟩
      · exact congrArg List.length child_edges
      · exact fun w waits => child_edges ▸ waits
    · obtain rfl | below := List.mem_cons.mp member
      · exact ⟨inside, fun member => old (Finset.mem_of_mem_erase member), whole,
          fun w later => part w (List.mem_cons_of_mem _ later)⟩
      · obtain ⟨inside, old, whole, part⟩ := walk.iterators it (List.mem_cons_of_mem _ below)
        exact ⟨inside, fun member => old (Finset.mem_of_mem_erase member), whole, part⟩
  · -- A new neighbour of the child waits in the new iterator; the others wait where they did.
    intro v member gone w edge still
    obtain ⟨unlike, w_fresh⟩ := Finset.mem_erase.mp still
    obtain rfl | before := visited v gone
    · refine ⟨_, List.mem_cons_self, rfl, ?_⟩
      show w ∈ g.removeEdge n1 v v
      rwa [child_edges]
    · obtain ⟨it, waits_in, same, waits⟩ := walk.pending v member before w edge w_fresh
      obtain rfl | below := List.mem_cons.mp waits_in
      · have later : w ∈ rest := (List.mem_cons.mp waits).resolve_left unlike
        exact ⟨_, List.mem_cons_of_mem _ List.mem_cons_self, same, later⟩
      · exact ⟨it, List.mem_cons_of_mem _ (List.mem_cons_of_mem _ below), same, waits⟩

/-- A search that is over has yielded what it can reach. -/
theorem Walk.prunes (closed : ∀ v ∈ nodes, ∀ w ∈ g₀ v, w ∈ nodes)
    (walk : Walk nodes g₀ n1 n3 g fresh []) (root : n3 ∈ nodes) (start : n1 ∈ nodes) :
    Prunes g₀ n1 (g₀.Reach n3) g where
  others := walk.others
  here b := by
    have visited : ∀ v, g₀.Reach n3 v → v ∈ nodes ∧ v ∉ fresh := by
      intro v path
      induction path with
      | refl => exact ⟨root, walk.root⟩
      | tail _ edge ih =>
        refine ⟨closed _ ih.1 _ edge, fun new => ?_⟩
        obtain ⟨_, member, -⟩ := walk.pending _ ih.1 ih.2 _ edge new
        exact absurd member List.not_mem_nil
    rw [walk.pruned]
    constructor
    · rintro ⟨edge, new⟩
      exact ⟨edge, fun path => (visited b path).2 new⟩
    · rintro ⟨edge, unreached⟩
      refine ⟨edge, ?_⟩
      by_contra old
      exact unreached (walk.reached b (closed n1 start b edge) old)

/-- The search ends without an exception. -/
theorem Walk.dfs (closed : ∀ v ∈ nodes, ∀ w ∈ g₀ v, w ∈ nodes) (away : ¬ g₀.Reach n3 n1)
    (walk : Walk nodes g₀ n1 n3 g fresh stack) (root : n3 ∈ nodes)
    (start : n1 ∈ nodes) :
    ∃ g', dfs n1 g fresh stack = .ok g' ∧ Prunes g₀ n1 (g₀.Reach n3) g' := by
  fun_induction TaskDAG.dfs n1 g fresh stack with
  | case1 g fresh => exact ⟨g, rfl, walk.prunes closed root start⟩
  | case2 g fresh node size rest stack changed =>
    have same := (walk.unchanged away List.mem_cons_self).2
    have whole := (walk.iterators _ List.mem_cons_self).2.2.1
    simp only at same whole
    exact absurd (by rw [same, whole]) changed
  | case3 g fresh node size stack same ih => exact ih walk.drop
  | case4 g fresh node size stack same child rest new next ih =>
    exact ih (walk.push closed away new)
  | case5 g fresh node size stack same child rest seen ih => exact ih (walk.skip seen)

/-- The nodes behind `n3` lose their edges from `n1`. -/
theorem visit_prunes (closed : ∀ v ∈ nodes, ∀ w ∈ g v, w ∈ nodes) (away : ¬ g.Reach n3 n1)
    (root : n3 ∈ nodes) (start : n1 ∈ nodes) :
    ∃ g', visit nodes n1 g n3 = .ok g' ∧ Prunes g n1 (g.Reach n3) g' := by
  have other : n3 ≠ n1 := fun same => away (same ▸ .refl)
  have edges : g.removeEdge n1 n3 n3 = g n3 := removeEdge_of_ne other
  have visited : ∀ v ∈ nodes, v ∉ nodes.toFinset.erase n3 → v = n3 := by
    intro v inside gone
    by_contra unlike
    exact gone (Finset.mem_erase.mpr ⟨unlike, List.mem_toFinset.mpr inside⟩)
  have walk : Walk nodes g n1 n3 (g.removeEdge n1 n3) (nodes.toFinset.erase n3)
      [iter (g.removeEdge n1 n3) n3] := by
    constructor
    · exact fun a unlike => removeEdge_of_ne unlike
    · intro b
      rw [mem_removeEdge, Finset.mem_erase, List.mem_toFinset]
      exact and_congr_right fun edge => ⟨fun unlike => ⟨unlike, closed n1 start b edge⟩, And.left⟩
    · exact Finset.notMem_erase n3 _
    · intro b inside gone
      exact visited b inside gone ▸ .refl
    · intro it member
      obtain rfl := List.mem_singleton.mp member
      refine ⟨root, Finset.notMem_erase n3 _, congrArg List.length edges, ?_⟩
      exact fun w waits => edges ▸ waits
    · intro v inside gone w edge _
      obtain rfl := visited v inside gone
      refine ⟨_, List.mem_singleton_self _, rfl, ?_⟩
      show w ∈ g.removeEdge n1 v v
      rwa [edges]
  exact walk.dfs closed away root start

end Search

/-! ## The loops -/

section Loops

variable {nodes : List ThunkId} {g g₀ g' g'' : Graph} {n1 n2 n3 a b : ThunkId}
  {gone also : ThunkId → Prop}

theorem Prunes.refl : Prunes g n1 (fun _ => False) g where
  others _ _ := rfl
  here _ := by rw [not_false_eq_true, and_true]

theorem Prunes.trans (first : Prunes g n1 gone g') (then_also : Prunes g' n1 also g'') :
    Prunes g n1 (fun b => gone b ∨ also b) g'' where
  others a other := (then_also.others a other).trans (first.others a other)
  here b := by
    rw [then_also.here, first.here]
    tauto

theorem Prunes.subset (prunes : Prunes g n1 gone g') (edge : b ∈ g' a) : b ∈ g a := by
  by_cases here : a = n1
  · subst here
    exact ((prunes.here b).mp edge).1
  · rwa [← prunes.others a here]

/-- What cannot reach the node sees no difference. -/
theorem Prunes.reach (prunes : Prunes g n1 gone g') (away : ¬ g.Reach n3 n1) :
    g'.Reach n3 = g.Reach n3 := by
  funext b
  refine propext (reach_congr fun a path b => ?_)
  have other : a ≠ n1 := fun same => away (same ▸ path)
  rw [Graph.Edge, Graph.Edge, prunes.others a other]

/-- A loop each of whose rounds deletes some edges of a node. -/
theorem Prunes.foldlM {round : Graph → ThunkId → Except Error Graph}
    {each : ThunkId → ThunkId → Prop} {list : List ThunkId} (prunes : Prunes g₀ n1 gone g)
    (rounds : ∀ k ∈ list, ∀ g gone, Prunes g₀ n1 gone g →
      ∃ g', round g k = .ok g' ∧ Prunes g n1 (each k) g') :
    ∃ g', list.foldlM round g = .ok g' ∧
      Prunes g₀ n1 (fun b => gone b ∨ ∃ k ∈ list, each k b) g' := by
  induction list generalizing g gone with
  | nil => exact ⟨g, rfl, by simpa using prunes⟩
  | cons k rest ih =>
    obtain ⟨middle, first, deleted⟩ := rounds k List.mem_cons_self g gone prunes
    obtain ⟨g', later, all⟩ := ih (prunes.trans deleted) fun k member =>
      rounds k (List.mem_cons_of_mem _ member)
    refine ⟨g', ?_, ?_⟩
    · rw [List.foldlM_cons, first]
      exact later
    · simpa only [List.exists_mem_cons_iff, or_assoc] using all

theorem longPath_iff : LongPath g.Edge n1 b ↔ ∃ n2 ∈ g n1, ∃ n3 ∈ g n2, g.Reach n3 b := by
  constructor
  · rintro ⟨c, front, back⟩
    obtain ⟨n2, edge, path⟩ := TransGen.head'_iff.mp front
    obtain ⟨n3, next, rest⟩ := TransGen.head'_iff.mp (TransGen.trans_right path back)
    exact ⟨n2, edge, n3, next, rest⟩
  · rintro ⟨n2, edge, n3, next, rest⟩
    exact ⟨n2, .single edge, TransGen.head' next rest⟩

/-- A node loses its redundant edges. -/
theorem reduceNode_prunes (closed : ∀ v ∈ nodes, ∀ w ∈ g v, w ∈ nodes)
    (acyclic : ∀ a, ¬ TransGen g.Edge a a) (start : n1 ∈ nodes) :
    ∃ g', reduceNode nodes g n1 = .ok g' ∧ Prunes g n1 (LongPath g.Edge n1) g' := by
  have no_loop : g.removeEdge n1 n1 = g := if_neg fun edge => acyclic n1 (.single edge)
  -- nothing behind the node leads back to it
  have away : ∀ n2 ∈ g n1, ∀ n3 ∈ g n2, ¬ g.Reach n3 n1 := fun n2 edge n3 next path =>
    acyclic n1 (TransGen.head edge (TransGen.head' next path))
  have inner : ∀ n2 ∈ g n1, ∀ middle gone, Prunes g n1 gone middle →
      ∃ g', (middle n2).foldlM (visit nodes n1) middle = .ok g' ∧
        Prunes middle n1 (fun b => ∃ n3 ∈ g n2, g.Reach n3 b) g' := by
    intro n2 edge middle gone prunes
    have other : n2 ≠ n1 := fun same => acyclic n1 (.single (same ▸ edge))
    have searches : ∀ n3 ∈ g n2, ∀ now gone', Prunes middle n1 gone' now →
        ∃ g', visit nodes n1 now n3 = .ok g' ∧ Prunes now n1 (g.Reach n3) g' := by
      intro n3 next now gone' deleted
      have whole := prunes.trans deleted
      have same := whole.reach (away n2 edge n3 next)
      have inside : n3 ∈ nodes := closed n2 (closed n1 start n2 edge) n3 next
      rw [← same]
      refine visit_prunes (fun v member w step => closed v member w (whole.subset step)) ?_
        inside start
      rw [same]
      exact away n2 edge n3 next
    obtain ⟨g', run, all⟩ :=
      (Prunes.refl : Prunes middle n1 (fun _ => False) middle).foldlM searches
    refine ⟨g', ?_, ?_⟩
    · rw [prunes.others n2 other]
      exact run
    · simpa only [false_or] using all
  obtain ⟨g', run, all⟩ := (Prunes.refl : Prunes g n1 (fun _ => False) g).foldlM inner
  refine ⟨g', ?_, ?_⟩
  · rw [reduceNode, no_loop]
    exact run
  · simp only [false_or, ← longPath_iff] at all
    exact all

end Loops

/-! ## The reduced graph -/

section Reduced

variable {thunkEdges : Edges} {G : DiGraph thunkEdges} {done rest : List ThunkId} {g g' : Graph}
  {a b n1 : ThunkId}

/-- The edges of a program as a relation. -/
def EdgeOf (thunkEdges : Edges) (a b : ThunkId) : Prop := (a, b) ∈ thunkEdges

theorem DiGraph.left_mem (edge : EdgeOf thunkEdges a b) : a ∈ G.nodes :=
  (G.mem_nodes a).mpr ⟨_, edge, .inl rfl⟩

theorem DiGraph.right_mem (edge : EdgeOf thunkEdges a b) : b ∈ G.nodes :=
  (G.mem_nodes b).mpr ⟨_, edge, .inr rfl⟩

/-- The graph while some nodes have lost their redundant edges. -/
def Reduced (thunkEdges : Edges) (done : List ThunkId) (g : Graph) : Prop :=
  ∀ a b, b ∈ g a ↔
    EdgeOf thunkEdges a b ∧ (a ∈ done → ¬ LongPath (EdgeOf thunkEdges) a b)

theorem reduced_nil : Reduced thunkEdges [] G.adj := by
  intro a b
  rw [G.mem_adj]
  exact ⟨fun edge => ⟨edge, fun member => absurd member List.not_mem_nil⟩, And.left⟩

/-- There are still the same paths. -/
theorem Reduced.path (reduced : Reduced thunkEdges done g) (acyclic : ∀ t, ¬ Path thunkEdges t t) :
    TransGen g.Edge = Path thunkEdges := by
  have inside : ∀ a b, EdgeOf thunkEdges a b → a ∈ (thunkEdges.map Prod.fst).toFinset :=
    fun a b edge => List.mem_toFinset.mpr (List.mem_map_of_mem edge)
  obtain ⟨rank, up⟩ := exists_rank inside acyclic
  funext a b
  refine propext ⟨(TransGen.mono fun a b edge => ((reduced a b).mp edge).1) a b, ?_⟩
  refine transGen_of_kept up fun a b edge => ?_
  by_cases long : LongPath (EdgeOf thunkEdges) a b
  · exact .inr long
  · exact .inl ((reduced a b).mpr ⟨edge, fun _ => long⟩)

theorem Reduced.longPath (reduced : Reduced thunkEdges done g)
    (acyclic : ∀ t, ¬ Path thunkEdges t t) :
    LongPath g.Edge a b ↔ LongPath (EdgeOf thunkEdges) a b := by
  rw [LongPath, reduced.path acyclic]
  rfl

/-- One more node. -/
theorem Reduced.reduceNode (reduced : Reduced thunkEdges done g)
    (acyclic : ∀ t, ¬ Path thunkEdges t t) (start : n1 ∈ G.nodes) :
    ∃ g', reduceNode G.nodes g n1 = .ok g' ∧
      Reduced thunkEdges (done ++ [n1]) g' := by
  have closed : ∀ v ∈ G.nodes, ∀ w ∈ g v, w ∈ G.nodes := fun v _ w edge =>
    DiGraph.right_mem ((reduced v w).mp edge).1
  obtain ⟨g', run, prunes⟩ := reduceNode_prunes closed
    (fun t loop => acyclic t (reduced.path acyclic ▸ loop)) start
  refine ⟨g', run, fun a b => ?_⟩
  by_cases here : a = n1
  · subst here
    rw [prunes.here, reduced, reduced.longPath acyclic]
    simp only [List.mem_append, List.mem_singleton, or_true, true_imp_iff]
    tauto
  · rw [prunes.others a here, reduced]
    simp [here]

theorem Reduced.foldlM (reduced : Reduced thunkEdges done g)
    (acyclic : ∀ t, ¬ Path thunkEdges t t) (nodes : ∀ n1 ∈ rest, n1 ∈ G.nodes) :
    ∃ g', rest.foldlM (TaskDAG.reduceNode G.nodes) g = .ok g' ∧
      Reduced thunkEdges (done ++ rest) g' := by
  induction rest generalizing done g with
  | nil => exact ⟨g, rfl, (List.append_nil done).symm ▸ reduced⟩
  | cons n1 rest ih =>
    obtain ⟨middle, first, reduced⟩ := reduced.reduceNode acyclic (nodes n1 List.mem_cons_self)
    obtain ⟨g', later, reduced⟩ := ih reduced fun n member =>
      nodes n (List.mem_cons_of_mem _ member)
    refine ⟨g', ?_, ?_⟩
    · rw [List.foldlM_cons, first]
      exact later
    · rwa [List.append_cons]

/-- The reduction of an acyclic graph ends and keeps the edges without a longer path. -/
theorem transitiveReduction_ok (G : DiGraph thunkEdges) (acyclic : ∀ t, ¬ Path thunkEdges t t) :
    ∃ g, transitiveReduction G = .ok g ∧ Reduced thunkEdges G.nodes g :=
  reduced_nil.foldlM acyclic fun _ member => member

end Reduced

/-! ## The tasks -/

section Tasks

variable {nodes : List ThunkId} {g : Graph} {a b t : ThunkId} {u v : Task}

/-- An edge leads through the tasks of one thunk, or from one to the fetch of a next one. -/
theorem mem_dagOf (closed : ∀ a b, b ∈ g a → a ∈ nodes ∧ b ∈ nodes) :
    (u, v) ∈ dagOf nodes g ↔
      (∃ t ∈ nodes, u = ⟨.comm, t⟩ ∧ v = ⟨.thunk, t⟩ ∨ u = ⟨.thunk, t⟩ ∧ v = ⟨.commit, t⟩) ∨
        ∃ a b, b ∈ g a ∧ (u = ⟨.thunk, a⟩ ∨ u = ⟨.commit, a⟩) ∧ v = ⟨.comm, b⟩ := by
  simp only [dagOf, tasksOf, List.mem_flatMap, List.mem_append, List.mem_cons, List.not_mem_nil,
    or_false, List.mem_map, List.mem_filter, decide_eq_true_iff, Prod.mk.injEq]
  constructor
  · rintro ⟨t, inside, (own | ⟨a, ⟨-, edge⟩, rfl, rfl⟩) | ⟨b, edge, rfl, rfl⟩⟩
    · exact .inl ⟨t, inside, own⟩
    · exact .inr ⟨a, t, edge, .inl rfl, rfl⟩
    · exact .inr ⟨t, b, edge, .inr rfl, rfl⟩
  · rintro (⟨t, inside, own⟩ | ⟨a, b, edge, rfl | rfl, rfl⟩)
    · exact ⟨t, inside, .inl (.inl own)⟩
    · exact ⟨b, (closed a b edge).2, .inl (.inr ⟨a, ⟨(closed a b edge).1, edge⟩, rfl, rfl⟩)⟩
    · exact ⟨a, (closed a b edge).1, .inr ⟨b, edge, rfl, rfl⟩⟩

/-- A path of thunks leads from the commit of the first to the fetch of the last. -/
theorem taskPath_of_path (closed : ∀ a b, b ∈ g a → a ∈ nodes ∧ b ∈ nodes)
    (path : TransGen g.Edge a b) :
    TaskPath (dagOf nodes g) ⟨.commit, a⟩ ⟨.comm, b⟩ := by
  have follows : ∀ a b, b ∈ g a → (⟨.commit, a⟩, ⟨.comm, b⟩) ∈ dagOf nodes g := fun a b edge =>
    (mem_dagOf closed).mpr (.inr ⟨a, b, edge, .inr rfl, rfl⟩)
  induction path with
  | single edge => exact .single (follows _ _ edge)
  | @tail c b _ edge ih =>
    have inside := (closed c b edge).1
    have computes : (⟨.comm, c⟩, ⟨.thunk, c⟩) ∈ dagOf nodes g :=
      (mem_dagOf closed).mpr (.inl ⟨c, inside, .inl ⟨rfl, rfl⟩⟩)
    have commits : (⟨.thunk, c⟩, ⟨.commit, c⟩) ∈ dagOf nodes g :=
      (mem_dagOf closed).mpr (.inl ⟨c, inside, .inr ⟨rfl, rfl⟩⟩)
    exact ((ih.tail computes).tail commits).tail (follows c b edge)

/-- A path of tasks follows a path of their thunks. -/
theorem reach_of_taskPath (closed : ∀ a b, b ∈ g a → a ∈ nodes ∧ b ∈ nodes)
    (path : TaskPath (dagOf nodes g) u v) : g.Reach u.tid v.tid := by
  have step : ∀ u v, (u, v) ∈ dagOf nodes g → g.Reach u.tid v.tid := by
    intro u v edge
    obtain ⟨t, -, ⟨rfl, rfl⟩ | ⟨rfl, rfl⟩⟩ | ⟨a, b, next, rfl | rfl, rfl⟩ :=
      (mem_dagOf closed).mp edge
    · exact .refl
    · exact .refl
    · exact .single next
    · exact .single next
  induction path with
  | single edge => exact step _ _ edge
  | tail _ edge ih => exact ih.trans (step _ _ edge)

theorem mem_successors {dag : List (Task × Task)} : v ∈ successors dag u ↔ (u, v) ∈ dag := by
  simp [successors]

/-- The only successor of a fetch is the computation of its thunk. -/
theorem eq_of_mem_successors (closed : ∀ a b, b ∈ g a → a ∈ nodes ∧ b ∈ nodes)
    (member : v ∈ successors (dagOf nodes g) ⟨.comm, t⟩) : v = ⟨.thunk, t⟩ := by
  obtain ⟨t', -, ⟨same, rfl⟩ | ⟨other, -⟩⟩ | ⟨a, b, -, other | other, -⟩ :=
    (mem_dagOf closed).mp (mem_successors.mp member)
  · rw [(Task.mk.inj same).2]
  · cases other
  · cases other
  · cases other

/-- The last check finds no fetch with two successors. -/
theorem verify_ok (closed : ∀ a b, b ∈ g a → a ∈ nodes ∧ b ∈ nodes) :
    verify nodes (dagOf nodes g) = .ok () := by
  refine forM_ok fun tid _ => if_neg (not_lt.mpr ?_)
  have nodup : (successors (dagOf nodes g) ⟨.comm, tid⟩).Nodup := List.nodup_dedup _
  rw [← List.toFinset_card_of_nodup nodup]
  refine Finset.card_le_one.mpr fun v first w second => ?_
  rw [eq_of_mem_successors closed (List.mem_toFinset.mp first),
    eq_of_mem_successors closed (List.mem_toFinset.mp second)]

/-- The tasks of a program with the reduced edges have the successors of the graph of tasks. -/
theorem mem_programm_successors {Time : Type} {prog : Programm Time}
    (edges : ∀ a b, (a, b) ∈ prog.edges ↔ b ∈ g a)
    (closed : ∀ a b, b ∈ g a → a ∈ nodes ∧ b ∈ nodes) (inside : u.tid ∈ nodes) :
    v ∈ prog.successors u ↔ v ∈ successors (dagOf nodes g) u := by
  have outs : ∀ t, v ∈ prog.outThunks t ↔ ∃ b, b ∈ g t ∧ v = ⟨.comm, b⟩ := by
    intro t
    simp only [Programm.outThunks, List.mem_map, List.mem_filter, decide_eq_true_iff]
    constructor
    · rintro ⟨⟨a, b⟩, ⟨edge, rfl⟩, rfl⟩
      exact ⟨b, (edges a b).mp edge, rfl⟩
    · rintro ⟨b, edge, rfl⟩
      exact ⟨(t, b), ⟨(edges t b).mpr edge, rfl⟩, rfl⟩
  rw [mem_successors, mem_dagOf closed]
  obtain ⟨kind, t⟩ := u
  change t ∈ nodes at inside
  cases kind with
  | comm => simp [Programm.successors, inside, -Prod.exists]
  | thunk => simp [Programm.successors, outs, inside, -Prod.exists]
  | commit => simp [Programm.successors, outs, -Prod.exists]

end Tasks

/-! ## The order of the thunks -/

/-- The reduced graph has no redundant edge, and the graph of tasks the order of the thunks. -/
structure KeepsOrder (thunkEdges : Edges) (g : Graph) (dag : List (Task × Task)) : Prop where
  order : ∀ a b, a ≠ b → (Path thunkEdges a b ↔ TaskPath dag ⟨.commit, a⟩ ⟨.comm, b⟩)
  reduced : ∀ a b, b ∈ g a → ¬ LongPath (fun a b => (a, b) ∈ thunkEdges) a b

/-- **The graph of tasks preserves the order of the thunks without a redundant edge.** -/
theorem keepsOrder {thunkEdges : Edges} (G : DiGraph thunkEdges)
    (acyclic : ∀ t, ¬ Path thunkEdges t t) :
    ∃ g dag, transitiveReduction G = .ok g ∧ init G = .ok dag ∧
      KeepsOrder thunkEdges g dag := by
  obtain ⟨g, run, reduced⟩ := transitiveReduction_ok G acyclic
  have closed : ∀ a b, b ∈ g a → a ∈ G.nodes ∧ b ∈ G.nodes := by
    intro a b edge
    have given := ((reduced a b).mp edge).1
    exact ⟨DiGraph.left_mem given, DiGraph.right_mem given⟩
  refine ⟨g, dagOf G.nodes g, run, ?_, ?_, ?_⟩
  · rw [init, bind_ok]
    refine ⟨g, run, ?_⟩
    rw [bind_ok]
    exact ⟨(), verify_ok closed, rfl⟩
  · intro a b unlike
    rw [← reduced.path acyclic]
    constructor
    · exact taskPath_of_path closed
    · intro path
      obtain same | longer := reflTransGen_iff_eq_or_transGen.mp (reach_of_taskPath closed path)
      · exact absurd same.symm unlike
      · exact longer
  · intro a b edge
    obtain ⟨given, short⟩ := (reduced a b).mp edge
    exact short (DiGraph.left_mem given)

/-- A chain of three thunks with a shortcut. -/
def shortcut : Edges := [((0, 1), (0, 2)), ((0, 1), (0, 3)), ((0, 2), (0, 3))]

theorem keepsOrder_shortcut :
    ∃ g dag, transitiveReduction (.ofEdges shortcut) = .ok g ∧ init (.ofEdges shortcut) = .ok dag ∧
      KeepsOrder shortcut g dag := by
  have up : ∀ a b, (a, b) ∈ shortcut → a.2 < b.2 := by
    intro a b edge
    simp only [shortcut, List.mem_cons, Prod.mk.injEq, List.not_mem_nil, or_false] at edge
    obtain ⟨rfl, rfl⟩ | ⟨rfl, rfl⟩ | ⟨rfl, rfl⟩ := edge <;> decide
  exact keepsOrder (.ofEdges shortcut) fun t loop => (rank_lt up loop).false

end Tthread.Racksim.TaskDAG
