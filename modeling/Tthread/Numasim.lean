/-
# The task graph of the NUMA simulator

The simulator reads a trace of thunks row by row and builds a graph of tasks, one
for each thunk row. A frontier of finished tasks, at most one for each thread, is
kept on the way: a new task depends on the whole frontier; the end of a task takes
the entries of its parents' threads off the frontier and puts the task on. The graph
is happens-before as long as the entry that an end takes off is not one of a later
thunk than the parent it is taken off for, and no two threads share a packed index.
-/

import Mathlib.Data.Finset.Insert
import Mathlib.Data.List.Induction
import Mathlib.Order.Interval.Finset.Nat
import Std.Data.TreeMap.Lemmas
import Tthread.Dtl
import Tthread.Library.Frontier
import Tthread.Library.Transition

namespace Tthread

namespace Numasim

open Dtl Frontier

/-- `THREAD_OFFSET`. -/
def threadOffset : ℕ := 2 ^ 21

/-- `make_tid` on the `int`s of a row, which become `unsigned`, so that a negative
thunk is too large as well; `none` if the assertion on the thunk fails. -/
def makeTid (thread thunk : ℤ) : Option ℕ :=
  if 0 ≤ thunk ∧ thunk < threadOffset then
    some (((thread % 2 ^ 32).toNat * threadOffset + thunk.toNat) % 2 ^ 32)
  else none

/-- `get_thread`. -/
def getThread (tid : ℕ) : ℕ := tid / threadOffset

/-- `task_data` of a task, with the amount of its computation. -/
structure Task where
  cpu : ℤ
  tid : ℕ
  amount : ℕ
  readSet : Finset ℕ
  writeSet : Finset ℕ
  accessSet : Finset ℕ

/-- `task_data_new` and the creation of a task. -/
def Task.new (cpu : ℤ) (tid : ℕ) : Task where
  cpu := cpu
  tid := tid
  amount := 0
  readSet := ∅
  writeSet := ∅
  accessSet := ∅

/-- A dictionary with keys and tasks. Tasks are named by their place in `order`. -/
abbrev Dict := Std.TreeMap ℕ ℕ

/-- `load_state`, with the dependencies that were added. -/
structure LoadState where
  order : List Task
  cur : Dict
  map : Dict
  finished : Dict
  edges : List (ℕ × ℕ)

/-- `init_state`. The start task is the current one of thread 0. Its entry by `tid`
goes to the same dictionary, under the same four bytes. -/
def initState : LoadState where
  order := [Task.new 0 0]
  cur := ((∅ : Dict).insert 0 0).insert 0 0
  map := ∅
  finished := ∅
  edges := []

/-- The `finished` dictionary after the thread's previous thunk was put on it. -/
def LoadState.release (s : LoadState) (thread : ℕ) : Dict :=
  match s.cur[thread]? with
  | some previous => s.finished.insert thread previous
  | none => s.finished

/-- `add_thunk`. -/
def addThunk (s : LoadState) (tid : ℕ) (cpu : ℤ) : LoadState :=
  let thread := getThread tid
  let task := s.order.length
  -- all that is finished precedes the new task, also the previous thunk of its thread
  let finished := s.release thread
  { order := s.order ++ [Task.new (Int.bmod cpu (2 ^ 32)) tid]
    cur := s.cur.insert thread task
    map := s.map.insert tid task
    finished := finished
    edges := s.edges ++ finished.toList.map fun entry => (entry.2, task) }

/-- `SD_task_get_parents`. -/
def LoadState.parents (s : LoadState) (task : ℕ) : List ℕ :=
  (s.edges.filter fun edge => edge.2 = task).map Prod.fst

/-- The thread in the data of a task. -/
def LoadState.threadOf (s : LoadState) (task : ℕ) : Option ℕ :=
  s.order[task]?.map fun data => getThread data.tid

/-- Take the entry of a parent's thread off. -/
def LoadState.prune (s : LoadState) (finished : Dict) (parent : ℕ) : Dict :=
  match s.threadOf parent with
  | some thread => finished.erase thread
  | none => finished

/-- `add_end`; `none` if no task has the id. -/
def addEnd (s : LoadState) (tid : ℕ) (time : ℕ) : Option LoadState :=
  (s.map[tid]?).map fun task =>
    { s with
      order := s.order.modify task fun data => { data with amount := time }
      -- the task takes the place of its parents
      finished := ((s.parents task).foldl s.prune s.finished).insert (getThread tid) task }

/-- The pages of an access, in the set that `record` adds to. -/
def addAccess (s : LoadState) (tid : ℕ) (record : Task → Task) : Option LoadState :=
  (s.map[tid]?).map fun task => { s with order := s.order.modify task record }

/-- `add_read`. -/
def addRead (s : LoadState) (tid first last : ℕ) : Option LoadState :=
  addAccess s tid fun data =>
    { data with
      readSet := data.readSet ∪ Finset.Icc first last
      accessSet := data.accessSet ∪ Finset.Icc first last }

/-- `add_write`. -/
def addWrite (s : LoadState) (tid first last : ℕ) : Option LoadState :=
  addAccess s tid fun data =>
    { data with
      writeSet := data.writeSet ∪ Finset.Icc first last
      accessSet := data.accessSet ∪ Finset.Icc first last }

/-- One round of the loop of `load_task_graph`. -/
def loadRow (s : LoadState) : Row → Option LoadState
  | .thunk thread thunk cpu => (makeTid thread thunk).map fun tid => addThunk s tid cpu
  | .ended thread thunk time => (makeTid thread thunk).bind fun tid => addEnd s tid time
  | .finish thread thunk => (makeTid thread thunk).map fun _ => s
  | .write thread thunk first last => (makeTid thread thunk).bind fun tid =>
      addWrite s tid first last
  | .read thread thunk first last => (makeTid thread thunk).bind fun tid => addRead s tid first last
  | .other _ => none

/-- `load_task_graph`; `none` if it ends with an error. -/
def load (rows : List Row) : Option LoadState := rows.foldlM loadRow initState

/-! ## Happens-before -/

/-- The task that a thunk row at a place creates. The start task is the first. -/
def taskOf (rows : List Row) (i : ℕ) : ℕ := (rows.take i).countP Row.isThunk + 1

/-- The thunk of row `i` has ended before row `j`. -/
def EndedBefore (rows : List Row) (i j : ℕ) (thread thunk : ℤ) : Prop :=
  ∃ e time, i < e ∧ e < j ∧ rows[e]? = some (.ended thread thunk time)

/-- A later thunk of the thread has followed the one of row `i`, up to row `j`. -/
def FollowedBy (rows : List Row) (i j : ℕ) (thread : ℤ) : Prop :=
  ∃ l thunk cpu, i < l ∧ l ≤ j ∧ rows[l]? = some (.thunk thread thunk cpu)

/-- The graph is happens-before: what has ended before a thunk's row precedes its
task, and what has neither ended nor been followed does not. -/
structure HappensBefore (rows : List Row) (edges : List (ℕ × ℕ)) : Prop where
  covers : ∀ i j thread thunk cpu thread' thunk' cpu', rows[i]? = some (.thunk thread thunk cpu) →
    rows[j]? = some (.thunk thread' thunk' cpu') → EndedBefore rows i j thread thunk →
    Path edges (taskOf rows i) (taskOf rows j)
  only : ∀ i j thread thunk cpu thread' thunk' cpu', rows[i]? = some (.thunk thread thunk cpu) →
    rows[j]? = some (.thunk thread' thunk' cpu') → ¬ EndedBefore rows i j thread thunk →
    ¬ FollowedBy rows i j thread → ¬ Path edges (taskOf rows i) (taskOf rows j)

/-! ## When it is -/

/-- An end row takes no entry off that denotes a later thunk: not later than the
parent for which it is taken off, nor than the task that replaces it. -/
def KeepsFrontier (s : LoadState) : Row → Prop
  | .ended thread thunk _ =>
    ∀ tid task, makeTid thread thunk = some tid → s.map[tid]? = some task →
      (∀ parent ∈ s.parents task, ∀ u, s.threadOf parent = some u →
        ∀ f, s.finished[u]? = some f → f ≤ parent) ∧
      ∀ f, s.finished[getThread tid]? = some f → f ≤ task
  | _ => True

/-- Every row of the trace keeps the frontier. -/
def Follows (rows : List Row) : Prop :=
  ∀ earlier row later, rows = earlier ++ row :: later →
    ∀ s, load earlier = some s → KeepsFrontier s row

/-- No two threads of the trace have indices that the packed ids cannot tell
apart. -/
def DistinctThreads (rows : List Row) : Prop :=
  ∀ row ∈ rows, ∀ row' ∈ rows, ∀ thread thunk thread' thunk', row.id = some (thread, thunk) →
    row'.id = some (thread', thunk') → thread % 2048 = thread' % 2048 → thread = thread'

section Invariant

variable {s s' : LoadState} {tid time task : ℕ} {cpu : ℤ}

/-- The id in the data of a task. -/
def LoadState.tidOf (s : LoadState) (task : ℕ) : Option ℕ := s.order[task]?.map Task.tid

theorem threadOf_eq (s : LoadState) (task : ℕ) :
    s.threadOf task = (s.tidOf task).map getThread := by
  rw [LoadState.threadOf, LoadState.tidOf, Option.map_map]
  rfl

theorem lt_length_of_threadOf {u : ℕ} (known : s.threadOf task = some u) :
    task < s.order.length := by
  obtain ⟨data, found, -⟩ := Option.map_eq_some_iff.mp known
  exact (List.getElem?_eq_some_iff.mp found).1

/-- The tasks on the frontier. -/
def LoadState.frontier (s : LoadState) : Set ℕ := { f | ∃ u : ℕ, s.finished[u]? = some f }

/-- The dictionaries, and the paths along the thunks of one thread. -/
structure LoadInv (s : LoadState) : Prop where
  started : 0 < s.order.length
  forward : Forward s.edges s.order.length
  cur_thread : ∀ {u c : ℕ}, s.cur[u]? = some c → s.threadOf c = some u
  cur_last : ∀ {u c j : ℕ}, s.cur[u]? = some c → s.threadOf j = some u → j ≤ c
  cur_some : ∀ {u j : ℕ}, s.threadOf j = some u → ∃ c, s.cur[u]? = some c
  map_tid : ∀ {tid m : ℕ}, s.map[tid]? = some m → s.tidOf m = some tid
  map_last : ∀ {tid m j : ℕ}, s.map[tid]? = some m → 0 < j → s.tidOf j = some tid → j ≤ m
  map_pos : ∀ {tid m : ℕ}, s.map[tid]? = some m → 0 < m
  finished_thread : ∀ {u f : ℕ}, s.finished[u]? = some f → s.threadOf f = some u
  chain : ∀ {i j u}, i < j → s.threadOf i = some u → s.threadOf j = some u → Path s.edges i j

theorem LoadInv.upto (inv : LoadInv s) {i j u : ℕ} (le : i ≤ j) (thread_i : s.threadOf i = some u)
    (thread_j : s.threadOf j = some u) : Upto s.edges i j := by
  rcases Nat.eq_or_lt_of_le le with rfl | before
  · exact Upto.refl _ _
  · exact (inv.chain before thread_i thread_j).upto

theorem initState_inv : LoadInv initState where
  started := Nat.one_pos
  forward := by simp [Forward, initState]
  cur_thread := by
    intro u c current
    simp only [initState, Std.TreeMap.getElem?_insert] at current
    split_ifs at current with zero
    · obtain rfl := Option.some.inj current
      rw [← Std.compare_eq_iff_eq.mp zero]
      rfl
    · simp at current
  cur_last := by
    intro u c j _ thread
    have only := lt_length_of_threadOf thread
    simp only [initState, List.length_singleton] at only
    omega
  cur_some := by
    intro u j thread
    have only := lt_length_of_threadOf thread
    simp only [initState, List.length_singleton] at only
    obtain rfl : j = 0 := by omega
    obtain rfl : 0 = u := Option.some.inj thread
    exact ⟨0, by simp [initState]⟩
  map_tid := by simp [initState]
  map_last := by simp [initState]
  map_pos := by simp [initState]
  finished_thread := by simp [initState]
  chain := by
    intro i j u before _ thread
    have only := lt_length_of_threadOf thread
    simp only [initState, List.length_singleton] at only
    omega

/-- A change that leaves the tasks' ids, their order and the graph alone. -/
structure SameGraph (s s' : LoadState) : Prop where
  cur : s'.cur = s.cur
  map : s'.map = s.map
  edges : s'.edges = s.edges
  length : s'.order.length = s.order.length
  tidOf : ∀ j, s'.tidOf j = s.tidOf j

theorem SameGraph.threadOf (same : SameGraph s s') (j : ℕ) : s'.threadOf j = s.threadOf j := by
  rw [threadOf_eq, threadOf_eq, same.tidOf]

theorem SameGraph.inv (same : SameGraph s s') (inv : LoadInv s)
    (finished : ∀ {u f : ℕ}, s'.finished[u]? = some f → s.threadOf f = some u) : LoadInv s' where
  started := by
    rw [same.length]
    exact inv.started
  forward := by
    rw [same.edges, same.length]
    exact inv.forward
  cur_thread := by
    intro u c current
    rw [same.threadOf]
    exact inv.cur_thread (same.cur ▸ current)
  cur_last := by
    intro u c j current thread
    rw [same.threadOf] at thread
    exact inv.cur_last (same.cur ▸ current) thread
  cur_some := by
    intro u j thread
    rw [same.threadOf] at thread
    rw [same.cur]
    exact inv.cur_some thread
  map_tid := by
    intro tid m found
    rw [same.tidOf]
    exact inv.map_tid (same.map ▸ found)
  map_last := by
    intro tid m j found later id
    rw [same.tidOf] at id
    exact inv.map_last (same.map ▸ found) later id
  map_pos := fun found => inv.map_pos (same.map ▸ found)
  finished_thread := by
    intro u f entry
    rw [same.threadOf]
    exact finished entry
  chain := by
    intro i j u before thread_i thread_j
    rw [same.threadOf] at thread_i thread_j
    rw [same.edges]
    exact inv.chain before thread_i thread_j

/-- Changing a task's data leaves its id alone. -/
theorem tid_modify (order : List Task) (task j : ℕ) {record : Task → Task}
    (keeps : ∀ data, (record data).tid = data.tid) :
    ((order.modify task record)[j]?).map Task.tid = (order[j]?).map Task.tid := by
  rw [List.getElem?_modify]
  cases order[j]? with
  | none => rfl
  | some data =>
    by_cases here : task = j
    · simp [here, keeps]
    · simp [here]

theorem addAccess_same {record : Task → Task} (added : addAccess s tid record = some s')
    (keeps : ∀ data, (record data).tid = data.tid) : SameGraph s s' ∧ s'.finished = s.finished := by
  obtain ⟨task, -, rfl⟩ := Option.map_eq_some_iff.mp added
  exact ⟨⟨rfl, rfl, rfl, List.length_modify _ _ _, fun j => tid_modify s.order task j keeps⟩, rfl⟩

theorem addEnd_cases (added : addEnd s tid time = some s') :
    ∃ task, s.map[tid]? = some task ∧ SameGraph s s' ∧
      s'.finished = ((s.parents task).foldl s.prune s.finished).insert (getThread tid) task := by
  obtain ⟨task, found, rfl⟩ := Option.map_eq_some_iff.mp added
  refine ⟨task, found, ⟨rfl, rfl, rfl, List.length_modify _ _ _, fun j => ?_⟩, rfl⟩
  exact tid_modify s.order task j fun _ => rfl

/-! ### Thunk rows -/

@[simp] theorem length_addThunk (s : LoadState) (tid : ℕ) (cpu : ℤ) :
    (addThunk s tid cpu).order.length = s.order.length + 1 := by
  simp [addThunk]

theorem tidOf_addThunk (s : LoadState) (tid j : ℕ) (cpu : ℤ) : (addThunk s tid cpu).tidOf j =
    if j < s.order.length then s.tidOf j else if j = s.order.length then some tid else none := by
  simp only [LoadState.tidOf, addThunk]
  split_ifs with old new
  · rw [List.getElem?_append_left old]
  · rw [new, List.getElem?_append_right le_rfl, Nat.sub_self]
    rfl
  · rw [List.getElem?_eq_none (by rw [List.length_append, List.length_singleton]; omega)]
    rfl

theorem threadOf_addThunk_old {j : ℕ} (old : j < s.order.length) :
    (addThunk s tid cpu).threadOf j = s.threadOf j := by
  rw [threadOf_eq, threadOf_eq, tidOf_addThunk, if_pos old]

theorem threadOf_addThunk_new :
    (addThunk s tid cpu).threadOf s.order.length = some (getThread tid) := by
  rw [threadOf_eq, tidOf_addThunk, if_neg (lt_irrefl _), if_pos rfl]
  rfl

/-- A task of a thread is an old one, or the new one. -/
theorem threadOf_addThunk_cases {j u : ℕ} (thread : (addThunk s tid cpu).threadOf j = some u) :
    (j < s.order.length ∧ s.threadOf j = some u) ∨ (j = s.order.length ∧ getThread tid = u) := by
  have bound := lt_length_of_threadOf thread
  rw [length_addThunk] at bound
  rcases Nat.lt_or_ge j s.order.length with old | new
  · rw [threadOf_addThunk_old old] at thread
    exact .inl ⟨old, thread⟩
  · obtain rfl : j = s.order.length := by omega
    rw [threadOf_addThunk_new] at thread
    exact .inr ⟨rfl, Option.some.inj thread⟩

/-- An entry of the frontier to which a new task of the thread is joined: the
thread's previous task, or one that was there. -/
theorem release_cases {thread u f : ℕ} (entry : (s.release thread)[u]? = some f) :
    (u = thread ∧ s.cur[thread]? = some f) ∨ s.finished[u]? = some f := by
  unfold LoadState.release at entry
  cases current : s.cur[thread]? with
  | none =>
    rw [current] at entry
    exact .inr entry
  | some previous =>
    rw [current, Std.TreeMap.getElem?_insert] at entry
    split_ifs at entry with same
    · exact .inl ⟨(Std.compare_eq_iff_eq.mp same).symm, entry⟩
    · exact .inr entry

theorem release_current {thread previous : ℕ} (current : s.cur[thread]? = some previous) :
    (s.release thread)[thread]? = some previous := by
  rw [LoadState.release, current, Std.TreeMap.getElem?_insert_self]

theorem release_other {thread u f : ℕ} (entry : s.finished[u]? = some f)
    (other : u ≠ thread) : (s.release thread)[u]? = some f := by
  unfold LoadState.release
  cases s.cur[thread]? with
  | none => exact entry
  | some previous =>
    rw [Std.TreeMap.getElem?_insert, if_neg (by simpa using other.symm), entry]

/-- The new task depends on the whole frontier. -/
theorem mem_edges_addThunk {a b : ℕ} : (a, b) ∈ (addThunk s tid cpu).edges ↔
    (a, b) ∈ s.edges ∨
      (b = s.order.length ∧ ∃ u : ℕ, (s.release (getThread tid))[u]? = some a) := by
  simp only [addThunk, List.mem_append, List.mem_map, Prod.mk.injEq, Prod.exists]
  constructor
  · rintro (old | ⟨u, f, entry, rfl, rfl⟩)
    · exact .inl old
    · exact .inr ⟨rfl, u, Std.TreeMap.mem_toList_iff_getElem?_eq_some.mp entry⟩
  · rintro (old | ⟨rfl, u, entry⟩)
    · exact .inl old
    · exact .inr ⟨u, a, Std.TreeMap.mem_toList_iff_getElem?_eq_some.mpr entry, rfl, rfl⟩

theorem edges_addThunk_eq (s : LoadState) (tid : ℕ) (cpu : ℤ) : ∃ new : List (ℕ × ℕ),
    (addThunk s tid cpu).edges = s.edges ++ new ∧ ∀ a b, (a, b) ∈ new → b = s.order.length := by
  refine ⟨_, rfl, ?_⟩
  intro a b member
  obtain ⟨entry, -, same⟩ := List.mem_map.mp member
  exact (congrArg Prod.snd same).symm

theorem LoadInv.release_thread (inv : LoadInv s) {thread u f : ℕ}
    (entry : (s.release thread)[u]? = some f) : s.threadOf f = some u := by
  rcases release_cases entry with ⟨rfl, current⟩ | kept
  · exact inv.cur_thread current
  · exact inv.finished_thread kept

/-- The release loses nothing: the entry it replaces is of an earlier thunk of the
thread, or the same. -/
theorem LoadInv.release_covers (inv : LoadInv s) (thread : ℕ) {u f : ℕ}
    (entry : s.finished[u]? = some f) :
    ∃ g, (s.release thread)[u]? = some g ∧ Upto s.edges f g := by
  by_cases same : u = thread
  · subst same
    have of_thread := inv.finished_thread entry
    obtain ⟨previous, current⟩ := inv.cur_some of_thread
    exact ⟨previous, release_current current,
      inv.upto (inv.cur_last current of_thread) of_thread (inv.cur_thread current)⟩
  · exact ⟨f, release_other entry same, Upto.refl _ _⟩

theorem LoadInv.addThunk (inv : LoadInv s) (tid : ℕ) (cpu : ℤ) : LoadInv (addThunk s tid cpu) where
  started := by
    rw [length_addThunk]
    exact Nat.succ_pos _
  forward := by
    intro a b edge
    rw [length_addThunk]
    rcases mem_edges_addThunk.mp edge with old | ⟨rfl, u, entry⟩
    · have before := inv.forward a b old
      omega
    · have before := lt_length_of_threadOf (inv.release_thread entry)
      omega
  cur_thread := by
    intro u c current
    simp only [Numasim.addThunk, Std.TreeMap.getElem?_insert] at current
    split_ifs at current with same
    · obtain rfl := Option.some.inj current
      rw [← Std.compare_eq_iff_eq.mp same]
      exact threadOf_addThunk_new
    · have thread := inv.cur_thread current
      rw [threadOf_addThunk_old (lt_length_of_threadOf thread), thread]
  cur_last := by
    intro u c j current thread
    simp only [Numasim.addThunk, Std.TreeMap.getElem?_insert] at current
    split_ifs at current with same
    · obtain rfl := Option.some.inj current
      have bound := lt_length_of_threadOf thread
      rw [length_addThunk] at bound
      omega
    · rcases threadOf_addThunk_cases thread with ⟨-, old⟩ | ⟨-, new⟩
      · exact inv.cur_last current old
      · exact absurd (Std.compare_eq_iff_eq.mpr new) same
  cur_some := by
    intro u j thread
    simp only [Numasim.addThunk, Std.TreeMap.getElem?_insert]
    split_ifs with same
    · exact ⟨_, rfl⟩
    · rcases threadOf_addThunk_cases thread with ⟨-, old⟩ | ⟨-, new⟩
      · exact inv.cur_some old
      · exact absurd (Std.compare_eq_iff_eq.mpr new) same
  map_tid := by
    intro id m found
    simp only [Numasim.addThunk, Std.TreeMap.getElem?_insert] at found
    split_ifs at found with same
    · obtain rfl := Option.some.inj found
      rw [tidOf_addThunk, if_neg (lt_irrefl _), if_pos rfl, Std.compare_eq_iff_eq.mp same]
    · have known := inv.map_tid found
      have old : m < s.order.length := by
        obtain ⟨data, at_m, -⟩ := Option.map_eq_some_iff.mp known
        exact (List.getElem?_eq_some_iff.mp at_m).1
      rw [tidOf_addThunk, if_pos old, known]
  map_last := by
    intro id m j found later known
    have bound : j < s.order.length + 1 := by
      obtain ⟨data, at_j, -⟩ := Option.map_eq_some_iff.mp known
      have inside := (List.getElem?_eq_some_iff.mp at_j).1
      rwa [length_addThunk] at inside
    simp only [Numasim.addThunk, Std.TreeMap.getElem?_insert] at found
    split_ifs at found with same
    · obtain rfl := Option.some.inj found
      omega
    · rw [tidOf_addThunk] at known
      split_ifs at known with old new
      · exact inv.map_last found later known
      · exact absurd (Std.compare_eq_iff_eq.mpr (Option.some.inj known)) same
  map_pos := by
    intro id m found
    simp only [Numasim.addThunk, Std.TreeMap.getElem?_insert] at found
    split_ifs at found with same
    · obtain rfl := Option.some.inj found
      exact inv.started
    · exact inv.map_pos found
  finished_thread := by
    intro u f entry
    have thread := inv.release_thread entry
    rw [threadOf_addThunk_old (lt_length_of_threadOf thread), thread]
  chain := by
    intro i j u before thread_i thread_j
    obtain ⟨new, edges_eq, into⟩ := edges_addThunk_eq s tid cpu
    rcases threadOf_addThunk_cases thread_j with ⟨old, of_j⟩ | ⟨rfl, rfl⟩
    · rw [threadOf_addThunk_old (before.trans old)] at thread_i
      rw [edges_eq]
      exact (inv.chain before thread_i of_j).append new
    · -- the thread's previous task is joined, and it is behind all earlier ones
      rw [threadOf_addThunk_old before] at thread_i
      obtain ⟨previous, current⟩ := inv.cur_some thread_i
      have reaches := inv.upto (inv.cur_last current thread_i) thread_i (inv.cur_thread current)
      have joined : (previous, s.order.length) ∈ (Numasim.addThunk s tid cpu).edges :=
        mem_edges_addThunk.mpr (.inr ⟨rfl, _, release_current current⟩)
      rw [edges_eq] at joined ⊢
      exact (reaches.append new).path_edge joined

/-! ### End rows -/

theorem mem_parents {parent : ℕ} : parent ∈ s.parents task ↔ (parent, task) ∈ s.edges := by
  simp only [LoadState.parents, List.mem_map, List.mem_filter, decide_eq_true_eq]
  constructor
  · rintro ⟨⟨a, b⟩, ⟨edge, rfl⟩, rfl⟩
    exact edge
  · intro edge
    exact ⟨(parent, task), ⟨edge, rfl⟩, rfl⟩

/-- Pruning takes entries off only. -/
theorem of_prune {parents : List ℕ} {finished : Dict} {u f : ℕ}
    (entry : (parents.foldl s.prune finished)[u]? = some f) : finished[u]? = some f := by
  induction parents generalizing finished with
  | nil => exact entry
  | cons parent rest ih =>
    have before := ih entry
    unfold LoadState.prune at before
    cases known : s.threadOf parent with
    | none =>
      rw [known] at before
      exact before
    | some thread =>
      rw [known, Std.TreeMap.getElem?_erase] at before
      split_ifs at before
      exact before

/-- The entries of other threads than the parents' stay. -/
theorem prune_kept {parents : List ℕ} {finished : Dict} {u f : ℕ} (entry : finished[u]? = some f)
    (other : ∀ parent ∈ parents, s.threadOf parent ≠ some u) :
    (parents.foldl s.prune finished)[u]? = some f := by
  induction parents generalizing finished with
  | nil => exact entry
  | cons parent rest ih =>
    refine ih ?_ fun later member => other later (List.mem_cons_of_mem _ member)
    have apart := other parent List.mem_cons_self
    unfold LoadState.prune
    cases known : s.threadOf parent with
    | none => exact entry
    | some thread =>
      have different : thread ≠ u := fun same => apart (by rw [known, same])
      rw [Std.TreeMap.getElem?_erase, if_neg (by simpa using different), entry]

theorem LoadInv.addEnd (inv : LoadInv s) (added : addEnd s tid time = some s') : LoadInv s' := by
  obtain ⟨task, found, same, finished⟩ := addEnd_cases added
  refine same.inv inv ?_
  intro u f entry
  rw [finished, Std.TreeMap.getElem?_insert] at entry
  split_ifs at entry with here
  · obtain rfl := Option.some.inj entry
    rw [threadOf_eq, inv.map_tid found, Option.map_some, Std.compare_eq_iff_eq.mp here]
  · exact inv.finished_thread (of_prune entry)

/-- The task that ends is on the frontier. -/
theorem addEnd_entry (added : addEnd s tid time = some s') (found : s.map[tid]? = some task) :
    task ∈ s'.frontier := by
  obtain ⟨task', found', -, finished⟩ := addEnd_cases added
  obtain rfl := Option.some.inj (found.symm.trans found')
  exact ⟨getThread tid, by rw [finished, Std.TreeMap.getElem?_insert_self]⟩

/-- What an end puts on the frontier is its task. -/
theorem mem_frontier_addEnd (added : addEnd s tid time = some s') {f : ℕ}
    (member : f ∈ s'.frontier) : s.map[tid]? = some f ∨ f ∈ s.frontier := by
  obtain ⟨task, found, -, finished⟩ := addEnd_cases added
  obtain ⟨u, entry⟩ := member
  rw [finished, Std.TreeMap.getElem?_insert] at entry
  split_ifs at entry
  · exact .inl (by rw [found, entry])
  · exact .inr ⟨u, of_prune entry⟩

/-- **The frontier loses nothing at an end row** that takes off no entry of a later
thunk: what goes has a path to the task that ends, through the parent or along the
thread. -/
theorem LoadInv.addEnd_covers (inv : LoadInv s) (added : Numasim.addEnd s tid time = some s')
    (pruned : ∀ task, s.map[tid]? = some task →
      (∀ parent ∈ s.parents task, ∀ u, s.threadOf parent = some u →
        ∀ f, s.finished[u]? = some f → f ≤ parent) ∧
      ∀ f, s.finished[getThread tid]? = some f → f ≤ task)
    {f : ℕ} (member : f ∈ s.frontier) : Covered s.edges s'.frontier f := by
  obtain ⟨task, found, same, finished⟩ := addEnd_cases added
  obtain ⟨of_parents, of_own⟩ := pruned task found
  have on_frontier := addEnd_entry added found
  obtain ⟨u, entry⟩ := member
  have of_thread := inv.finished_thread entry
  have task_thread : s.threadOf task = some (getThread tid) := by
    rw [threadOf_eq, inv.map_tid found, Option.map_some]
  by_cases own : u = getThread tid
  · subst own
    exact ⟨task, on_frontier, inv.upto (of_own f entry) of_thread task_thread⟩
  · by_cases taken : ∃ parent ∈ s.parents task, s.threadOf parent = some u
    · obtain ⟨parent, is_parent, parent_thread⟩ := taken
      have before := of_parents parent is_parent u parent_thread f entry
      have reaches := inv.upto before of_thread parent_thread
      exact ⟨task, on_frontier, (reaches.path_edge (mem_parents.mp is_parent)).upto⟩
    · push Not at taken
      refine ⟨f, ⟨u, ?_⟩, Upto.refl _ _⟩
      rw [finished, Std.TreeMap.getElem?_insert, if_neg (by simpa using Ne.symm own)]
      exact prune_kept entry taken

end Invariant

section Trace

variable {rows : List Row} {row : Row} {s s' : LoadState} {i j tid : ℕ} {thread thunk : ℤ}

theorem load_concat (rows : List Row) (row : Row) :
    load (rows ++ [row]) = (load rows).bind fun s => loadRow s row := by
  rw [load, List.foldlM_append]
  simp [load]

theorem taskOf_append (inside : i ≤ rows.length) (later : List Row) :
    taskOf (rows ++ later) i = taskOf rows i := by
  rw [taskOf, List.take_append_of_le_length inside, taskOf]

theorem taskOf_length (rows : List Row) :
    taskOf rows rows.length = rows.countP Row.isThunk + 1 := by
  rw [taskOf, List.take_length]

/-- A thunk row raises the count. -/
theorem taskOf_succ {cpu : ℤ} (found : rows[i]? = some (.thunk thread thunk cpu)) :
    taskOf rows (i + 1) = taskOf rows i + 1 := by
  rw [taskOf, taskOf, List.take_add_one, found, List.countP_append]
  rfl

theorem taskOf_mono (rows : List Row) (le : i ≤ j) : taskOf rows i ≤ taskOf rows j := by
  unfold taskOf
  have sublist : (rows.take i).Sublist (rows.take j) := List.take_sublist_take_left le
  have counts := sublist.countP_le (p := Row.isThunk)
  omega

/-- The tasks of thunk rows come in the order of the rows. -/
theorem taskOf_lt {cpu : ℤ} (found : rows[i]? = some (.thunk thread thunk cpu)) (before : i < j) :
    taskOf rows i < taskOf rows j := by
  have next := taskOf_mono rows (Nat.succ_le_of_lt before)
  rw [Nat.succ_eq_add_one, taskOf_succ found] at next
  omega

theorem le_of_taskOf_le {cpu : ℤ} (found : rows[j]? = some (.thunk thread thunk cpu))
    (le : taskOf rows i ≤ taskOf rows j) : i ≤ j := by
  by_contra later
  have before := taskOf_lt found (Nat.lt_of_not_le later)
  omega

/-- Every task but the start task is that of a thunk row. -/
theorem exists_taskOf (rows : List Row) {task : ℕ} (positive : 0 < task)
    (bound : task ≤ rows.countP Row.isThunk) :
    ∃ i thread thunk cpu, rows[i]? = some (.thunk thread thunk cpu) ∧ taskOf rows i = task := by
  induction rows using List.reverseRecOn with
  | nil => simp at bound; omega
  | append_singleton rows row ih =>
    by_cases old : task ≤ rows.countP Row.isThunk
    · obtain ⟨i, thread, thunk, cpu, found, same⟩ := ih old
      have inside := (List.getElem?_eq_some_iff.mp found).1
      refine ⟨i, thread, thunk, cpu, ?_, ?_⟩
      · rw [List.getElem?_append_left inside, found]
      · rw [taskOf_append inside.le, same]
    · rw [List.countP_append, List.countP_singleton] at bound
      cases row with
      | thunk thread thunk cpu =>
        have newest : task = rows.countP Row.isThunk + 1 := by
          simp only [Row.isThunk, if_true] at bound
          omega
        refine ⟨rows.length, thread, thunk, cpu, by simp, ?_⟩
        rw [taskOf_append le_rfl, taskOf_length, newest]
      | _ =>
        simp only [Row.isThunk, Bool.false_eq_true, if_false] at bound
        omega

/-- Rows of the shorter trace are rows of the longer one. -/
theorem getElem?_concat {entry : Row} (found : rows[i]? = some entry) :
    (rows ++ [row])[i]? = some entry := by
  rw [List.getElem?_append_left (List.getElem?_eq_some_iff.mp found).1, found]

theorem of_getElem?_concat {entry : Row} (inside : i < rows.length)
    (found : (rows ++ [row])[i]? = some entry) : rows[i]? = some entry := by
  rwa [List.getElem?_append_left inside] at found

/-- A row of the longer trace is one of the shorter, or the new one. -/
theorem getElem?_concat_cases {entry : Row} (found : (rows ++ [row])[i]? = some entry) :
    rows[i]? = some entry ∨ (i = rows.length ∧ entry = row) := by
  by_cases inside : i < rows.length
  · rw [List.getElem?_append_left inside] at found
    exact .inl found
  · have bound := (List.getElem?_eq_some_iff.mp found).1
    rw [List.length_append, List.length_singleton] at bound
    obtain rfl : i = rows.length := by omega
    rw [List.getElem?_append_right le_rfl, Nat.sub_self] at found
    exact .inr ⟨rfl, (Option.some.inj found).symm⟩

theorem lt_length_of_row {entry : Row} (found : rows[i]? = some entry) : i < rows.length :=
  (List.getElem?_eq_some_iff.mp found).1

theorem EndedBefore.concat (ended : EndedBefore rows i j thread thunk) :
    EndedBefore (rows ++ [row]) i j thread thunk := by
  obtain ⟨e, time, after, before, found⟩ := ended
  exact ⟨e, time, after, before, getElem?_concat found⟩

theorem EndedBefore.of_concat (ended : EndedBefore (rows ++ [row]) i j thread thunk)
    (inside : j ≤ rows.length) : EndedBefore rows i j thread thunk := by
  obtain ⟨e, time, after, before, found⟩ := ended
  rcases getElem?_concat_cases found with old | ⟨rfl, -⟩
  · exact ⟨e, time, after, before, old⟩
  · omega

theorem EndedBefore.mono {k : ℕ} (ended : EndedBefore rows i j thread thunk) (le : j ≤ k) :
    EndedBefore rows i k thread thunk := by
  obtain ⟨e, time, after, before, found⟩ := ended
  exact ⟨e, time, after, before.trans_le le, found⟩

theorem FollowedBy.concat (followed : FollowedBy rows i j thread) :
    FollowedBy (rows ++ [row]) i j thread := by
  obtain ⟨l, thunk, cpu, after, before, found⟩ := followed
  exact ⟨l, thunk, cpu, after, before, getElem?_concat found⟩

theorem FollowedBy.mono {k : ℕ} (followed : FollowedBy rows i j thread) (le : j ≤ k) :
    FollowedBy rows i k thread := by
  obtain ⟨l, thunk, cpu, after, before, found⟩ := followed
  exact ⟨l, thunk, cpu, after, before.trans le, found⟩

/-- What is asked of every row is asked of the rows of a shorter trace. -/
theorem Follows.of_concat (follows : Follows (rows ++ [row])) : Follows rows := by
  intro earlier entry later split
  apply follows earlier entry (later ++ [row])
  rw [split, List.append_assoc, List.cons_append]

theorem Follows.last (follows : Follows (rows ++ [row])) (loaded : load rows = some s) :
    KeepsFrontier s row := follows rows row [] rfl s loaded

theorem DistinctThreads.of_concat (distinct : DistinctThreads (rows ++ [row])) :
    DistinctThreads rows := fun first member second member' =>
  distinct first (List.mem_append_left _ member) second (List.mem_append_left _ member')

end Trace

section Ids

variable {tid : ℕ} {thread thunk thread' thunk' : ℤ}

/-- A packed id keeps the thunk, and the thread up to 2048. -/
theorem makeTid_parts (packed : makeTid thread thunk = some tid) :
    (getThread tid : ℤ) = thread % 2048 ∧ ((tid % threadOffset : ℕ) : ℤ) = thunk := by
  unfold makeTid at packed
  obtain ⟨⟨nonneg, bound⟩, rfl⟩ := Transition.guarded packed
  simp only [getThread, threadOffset] at *
  omega

theorem eq_of_makeTid (packed : makeTid thread thunk = some tid)
    (packed' : makeTid thread' thunk' = some tid) :
    thread % 2048 = thread' % 2048 ∧ thunk = thunk' := by
  obtain ⟨thread_eq, thunk_eq⟩ := makeTid_parts packed
  obtain ⟨thread_eq', thunk_eq'⟩ := makeTid_parts packed'
  exact ⟨thread_eq.symm.trans thread_eq', thunk_eq.symm.trans thunk_eq'⟩

end Ids

section Runs

variable {rows : List Row} {row : Row} {s s' : LoadState}

/-- What a row does: a thunk row, an end row, or nothing to the graph. -/
theorem loadRow_cases (moved : loadRow s row = some s') :
    (∃ thread thunk cpu tid, row = .thunk thread thunk cpu ∧ makeTid thread thunk = some tid ∧
      s' = addThunk s tid cpu) ∨
    (∃ thread thunk time tid, row = .ended thread thunk time ∧ makeTid thread thunk = some tid ∧
      addEnd s tid time = some s') ∨
    (row.isThunk = false ∧ (∀ thread thunk time, row ≠ .ended thread thunk time) ∧
      SameGraph s s' ∧ s'.finished = s.finished) := by
  cases row with
  | thunk thread thunk cpu =>
    obtain ⟨tid, packed, rfl⟩ := Option.map_eq_some_iff.mp moved
    exact .inl ⟨thread, thunk, cpu, tid, rfl, packed, rfl⟩
  | ended thread thunk time =>
    obtain ⟨tid, packed, added⟩ := Option.bind_eq_some_iff.mp moved
    exact .inr (.inl ⟨thread, thunk, time, tid, rfl, packed, added⟩)
  | finish thread thunk =>
    obtain ⟨tid, -, rfl⟩ := Option.map_eq_some_iff.mp moved
    exact .inr (.inr ⟨rfl, by simp, ⟨rfl, rfl, rfl, rfl, fun _ => rfl⟩, rfl⟩)
  | write thread thunk first last =>
    obtain ⟨tid, -, added⟩ := Option.bind_eq_some_iff.mp moved
    exact .inr (.inr ⟨rfl, by simp, addAccess_same added fun _ => rfl⟩)
  | read thread thunk first last =>
    obtain ⟨tid, -, added⟩ := Option.bind_eq_some_iff.mp moved
    exact .inr (.inr ⟨rfl, by simp, addAccess_same added fun _ => rfl⟩)
  | other command => cases moved

/-- The state belongs to the trace: its tasks are those of the thunk rows. -/
structure Traced (rows : List Row) (s : LoadState) : Prop where
  inv : LoadInv s
  length : s.order.length = rows.countP Row.isThunk + 1
  ids : ∀ i thread thunk cpu, rows[i]? = some (.thunk thread thunk cpu) →
    ∃ tid, makeTid thread thunk = some tid ∧ s.tidOf (taskOf rows i) = some tid

theorem Traced.taskOf_lt_length (traced : Traced rows s) {i : ℕ} {cpu : ℤ} {thread thunk : ℤ}
    (found : rows[i]? = some (.thunk thread thunk cpu)) : taskOf rows i < s.order.length := by
  have before := taskOf_lt found (lt_length_of_row found)
  rwa [taskOf_length, ← traced.length] at before

theorem Traced.taskOf_new (traced : Traced rows s) (row : Row) :
    taskOf (rows ++ [row]) rows.length = s.order.length := by
  rw [taskOf_append le_rfl, taskOf_length, traced.length]

theorem traced_init : Traced [] initState where
  inv := initState_inv
  length := rfl
  ids := by simp

theorem Traced.step (traced : Traced rows s) (moved : loadRow s row = some s') :
    Traced (rows ++ [row]) s' := by
  rcases loadRow_cases moved with ⟨thread, thunk, cpu, tid, rfl, packed, rfl⟩ |
      ⟨thread, thunk, time, tid, rfl, packed, added⟩ | ⟨no_thunk, -, same, finished⟩
  · refine ⟨traced.inv.addThunk tid cpu, ?_, ?_⟩
    · rw [length_addThunk, traced.length, List.countP_append]
      rfl
    · intro i thread' thunk' cpu' found
      rcases getElem?_concat_cases found with old | ⟨rfl, same⟩
      · obtain ⟨id, packed', known⟩ := traced.ids i _ _ _ old
        refine ⟨id, packed', ?_⟩
        rw [taskOf_append (lt_length_of_row old).le, tidOf_addThunk,
          if_pos (traced.taskOf_lt_length old), known]
      · obtain ⟨rfl, rfl, rfl⟩ := Row.thunk.inj same
        refine ⟨tid, packed, ?_⟩
        rw [traced.taskOf_new, tidOf_addThunk, if_neg (lt_irrefl _), if_pos rfl]
  · obtain ⟨task, -, same, -⟩ := addEnd_cases added
    refine ⟨traced.inv.addEnd added, ?_, ?_⟩
    · rw [same.length, traced.length, List.countP_append]
      rfl
    · intro i thread' thunk' cpu' found
      rcases getElem?_concat_cases found with old | ⟨-, other⟩
      · obtain ⟨id, packed', known⟩ := traced.ids i _ _ _ old
        exact ⟨id, packed', by rw [taskOf_append (lt_length_of_row old).le, same.tidOf, known]⟩
      · cases other
  · refine ⟨same.inv traced.inv ?_, ?_, ?_⟩
    · intro u f entry
      rw [finished] at entry
      exact traced.inv.finished_thread entry
    · rw [same.length, traced.length, List.countP_append, List.countP_singleton, no_thunk]
      rfl
    · intro i thread' thunk' cpu' found
      rcases getElem?_concat_cases found with old | ⟨-, rfl⟩
      · obtain ⟨id, packed', known⟩ := traced.ids i _ _ _ old
        exact ⟨id, packed', by rw [taskOf_append (lt_length_of_row old).le, same.tidOf, known]⟩
      · cases no_thunk

/-! ### What has ended is covered -/

/-- The frontier covers every thunk that has ended, and the graph has the paths. -/
structure Covers (rows : List Row) (s : LoadState) : Prop where
  frontier : ∀ i thread thunk cpu, rows[i]? = some (.thunk thread thunk cpu) →
    EndedBefore rows i rows.length thread thunk → Covered s.edges s.frontier (taskOf rows i)
  paths : ∀ i j thread thunk cpu thread' thunk' cpu', rows[i]? = some (.thunk thread thunk cpu) →
    rows[j]? = some (.thunk thread' thunk' cpu') → EndedBefore rows i j thread thunk →
    Path s.edges (taskOf rows i) (taskOf rows j)

theorem covers_init : Covers [] initState where
  frontier := by simp
  paths := by simp

/-- A new task is behind everything that was covered, and covers stay. -/
theorem Covers.thunk (covers : Covers rows s) (traced : Traced rows s) {thread thunk : ℤ}
    {tid : ℕ} {cpu : ℤ} : Covers (rows ++ [.thunk thread thunk cpu]) (addThunk s tid cpu) := by
  obtain ⟨new, edges_eq, -⟩ := edges_addThunk_eq s tid cpu
  have released : ∀ {a}, Covered s.edges s.frontier a →
      Covered (addThunk s tid cpu).edges (addThunk s tid cpu).frontier a := by
    intro a covered
    rw [edges_eq]
    refine Covered.append (covered.trans ?_) new
    rintro f ⟨u, entry⟩
    obtain ⟨g, released, path⟩ := traced.inv.release_covers (getThread tid) entry
    exact ⟨g, ⟨u, released⟩, path⟩
  have ended_old : ∀ {i j thread' thunk'},
      EndedBefore (rows ++ [.thunk thread thunk cpu]) i j thread' thunk' →
      EndedBefore rows i (min j rows.length) thread' thunk' ∧ i < rows.length := by
    rintro i j thread' thunk' ⟨e, time, after, before, found⟩
    rcases getElem?_concat_cases found with old | ⟨-, other⟩
    · have inside := lt_length_of_row old
      exact ⟨⟨e, time, after, by omega, old⟩, by omega⟩
    · cases other
  refine ⟨?_, ?_⟩
  · intro i thread' thunk' cpu' found ended
    obtain ⟨ended, inside⟩ := ended_old ended
    have old := of_getElem?_concat inside found
    rw [taskOf_append inside.le]
    exact released (covers.frontier i _ _ _ old (ended.mono (by omega)))
  · intro i j thread' thunk' cpu' thread'' thunk'' cpu'' found found_j ended
    obtain ⟨ended, inside⟩ := ended_old ended
    have old := of_getElem?_concat inside found
    rw [taskOf_append inside.le]
    rcases getElem?_concat_cases found_j with old_j | ⟨rfl, -⟩
    · have inside_j := lt_length_of_row old_j
      rw [taskOf_append inside_j.le, edges_eq]
      exact (covers.paths i j _ _ _ _ _ _ old old_j (ended.mono (by omega))).append new
    · rw [traced.taskOf_new]
      apply (released (covers.frontier i _ _ _ old (ended.mono (by omega)))).path
      rintro f ⟨u, entry⟩
      exact mem_edges_addThunk.mpr (.inr ⟨rfl, u, entry⟩)

/-- An end row adds no path, so the paths stay those of the thunk rows. -/
theorem Covers.paths_of_same (covers : Covers rows s) (same_edges : s'.edges = s.edges)
    (no_thunk : row.isThunk = false) {i j : ℕ} {cpu cpu' : ℤ} {thread thunk thread' thunk' : ℤ}
    (found : (rows ++ [row])[i]? = some (.thunk thread thunk cpu))
    (found_j : (rows ++ [row])[j]? = some (.thunk thread' thunk' cpu'))
    (ended : EndedBefore (rows ++ [row]) i j thread thunk) :
    Path s'.edges (taskOf (rows ++ [row]) i) (taskOf (rows ++ [row]) j) := by
  rcases getElem?_concat_cases found with old | ⟨-, rfl⟩
  · rcases getElem?_concat_cases found_j with old_j | ⟨-, rfl⟩
    · have inside_j := lt_length_of_row old_j
      rw [taskOf_append (lt_length_of_row old).le, taskOf_append inside_j.le, same_edges]
      exact covers.paths i j _ _ _ _ _ _ old old_j (ended.of_concat inside_j.le)
    · cases no_thunk
  · cases no_thunk

theorem Covers.ended (covers : Covers rows s) (traced : Traced rows s) {thread thunk : ℤ}
    {time tid : ℕ} (packed : makeTid thread thunk = some tid)
    (added : addEnd s tid time = some s') (kept : KeepsFrontier s (.ended thread thunk time)) :
    Covers (rows ++ [.ended thread thunk time]) s' := by
  obtain ⟨task, at_id, same, -⟩ := addEnd_cases added
  refine ⟨?_, ?_⟩
  · rintro i thread' thunk' cpu' found ⟨e, time', after, before, is_end⟩
    have inside : i < rows.length := by
      rw [List.length_append, List.length_singleton] at before
      omega
    have old := of_getElem?_concat inside found
    rw [taskOf_append inside.le, same.edges]
    rcases getElem?_concat_cases is_end with old_end | ⟨rfl, this_end⟩
    · have covered := covers.frontier i _ _ _ old
        ⟨e, time', after, lt_length_of_row old_end, old_end⟩
      apply covered.trans
      intro f member
      exact traced.inv.addEnd_covers added (fun task found => kept tid task packed found) member
    · -- the thunk ends here: its task is an earlier one with the same id, or the same
      obtain ⟨rfl, rfl, rfl⟩ := Row.ended.inj this_end
      obtain ⟨id, packed', known⟩ := traced.ids i _ _ _ old
      obtain rfl := Option.some.inj (packed.symm.trans packed')
      have positive : 0 < taskOf rows i := Nat.succ_pos _
      have before_task := traced.inv.map_last at_id positive known
      have thread_i : s.threadOf (taskOf rows i) = some (getThread tid) := by
        rw [threadOf_eq, known, Option.map_some]
      have thread_task : s.threadOf task = some (getThread tid) := by
        rw [threadOf_eq, traced.inv.map_tid at_id, Option.map_some]
      exact ⟨task, addEnd_entry added at_id,
        traced.inv.upto before_task thread_i thread_task⟩
  · intro i j _ _ _ _ _ _ found found_j ended
    exact covers.paths_of_same same.edges rfl found found_j ended

theorem Covers.step (covers : Covers rows s) (traced : Traced rows s)
    (kept : KeepsFrontier s row) (moved : loadRow s row = some s') :
    Covers (rows ++ [row]) s' := by
  rcases loadRow_cases moved with ⟨thread, thunk, cpu, tid, rfl, packed, rfl⟩ |
      ⟨thread, thunk, time, tid, rfl, packed, added⟩ | ⟨no_thunk, no_end, same, finished⟩
  · exact covers.thunk traced
  · exact covers.ended traced packed added kept
  · refine ⟨?_, ?_⟩
    · rintro i thread' thunk' cpu' found ⟨e, time, after, before, is_end⟩
      have frontier_eq : s'.frontier = s.frontier := by
        simp only [LoadState.frontier, finished]
      rcases getElem?_concat_cases found with old | ⟨-, rfl⟩
      · rcases getElem?_concat_cases is_end with old_end | ⟨-, this_end⟩
        · rw [taskOf_append (lt_length_of_row old).le, same.edges, frontier_eq]
          exact covers.frontier i _ _ _ old ⟨e, time, after, lt_length_of_row old_end, old_end⟩
        · exact absurd this_end.symm (no_end _ _ _)
      · cases no_thunk
    · intro i j _ _ _ _ _ _ found found_j ended
      exact covers.paths_of_same same.edges no_thunk found found_j ended

/-! ### What is joined has ended or been followed -/

/-- Every thunk on the frontier, and every thunk that another depends on, has ended
or been followed by then. -/
structure Joined (rows : List Row) (s : LoadState) : Prop where
  frontier : ∀ i thread thunk cpu, rows[i]? = some (.thunk thread thunk cpu) →
    taskOf rows i ∈ s.frontier →
    EndedBefore rows i rows.length thread thunk ∨ FollowedBy rows i rows.length thread
  edges : ∀ i j thread thunk cpu thread' thunk' cpu', rows[i]? = some (.thunk thread thunk cpu) →
    rows[j]? = some (.thunk thread' thunk' cpu') → (taskOf rows i, taskOf rows j) ∈ s.edges →
    EndedBefore rows i j thread thunk ∨ FollowedBy rows i j thread

theorem joined_init : Joined [] initState where
  frontier := by simp
  edges := by simp

/-- Two rows with one packed thread are of one thread. -/
theorem DistinctThreads.eq (distinct : DistinctThreads rows) {i j tid : ℕ} {cpu : ℤ}
    {thread thunk thread' thunk' : ℤ} {other : Row}
    (found : rows[i]? = some (.thunk thread thunk cpu)) (found_j : rows[j]? = some other)
    (id : other.id = some (thread', thunk')) {tid' : ℕ} (packed : makeTid thread thunk = some tid)
    (packed' : makeTid thread' thunk' = some tid') (same : getThread tid = getThread tid') :
    thread = thread' := by
  apply distinct _ (List.mem_of_getElem? found) _ (List.mem_of_getElem? found_j) _ _ _ _ rfl id
  rw [← (makeTid_parts packed).1, ← (makeTid_parts packed').1, same]

/-- What a thunk row joins its task to. -/
theorem Joined.released (joined : Joined rows s) (traced : Traced rows s) {thread thunk : ℤ}
    {tid : ℕ} {cpu : ℤ} (packed : makeTid thread thunk = some tid)
    (distinct : DistinctThreads (rows ++ [.thunk thread thunk cpu])) {i u : ℕ} {cpu' : ℤ}
    {thread' thunk' : ℤ} (found : rows[i]? = some (.thunk thread' thunk' cpu'))
    (entry : (s.release (getThread tid))[u]? = some (taskOf rows i)) :
    EndedBefore (rows ++ [.thunk thread thunk cpu]) i rows.length thread' thunk' ∨
      FollowedBy (rows ++ [.thunk thread thunk cpu]) i rows.length thread' := by
  rcases release_cases entry with ⟨rfl, current⟩ | kept
  · obtain ⟨id, packed', known⟩ := traced.ids i _ _ _ found
    have last : (rows ++ [.thunk thread thunk cpu])[rows.length]? =
        some (.thunk thread thunk cpu) := by simp
    have same_thread : getThread id = getThread tid := by
      have of_current := traced.inv.cur_thread current
      rw [threadOf_eq, known] at of_current
      exact Option.some.inj of_current
    have same : thread' = thread :=
      distinct.eq (getElem?_concat found) last rfl packed' packed same_thread
    subst same
    exact .inr ⟨rows.length, thunk, cpu, lt_length_of_row found, le_rfl, last⟩
  · rcases joined.frontier i _ _ _ found ⟨u, kept⟩ with ended | followed
    · exact .inl ended.concat
    · exact .inr followed.concat

theorem Joined.thunk (joined : Joined rows s) (traced : Traced rows s) {thread thunk : ℤ}
    {tid : ℕ} {cpu : ℤ} (packed : makeTid thread thunk = some tid)
    (distinct : DistinctThreads (rows ++ [.thunk thread thunk cpu])) :
    Joined (rows ++ [.thunk thread thunk cpu]) (addThunk s tid cpu) := by
  have one_more : (rows ++ [Row.thunk thread thunk cpu]).length = rows.length + 1 := by simp
  refine ⟨?_, ?_⟩
  · rintro i thread' thunk' cpu' found ⟨u, entry⟩
    change (s.release (getThread tid))[u]? = _ at entry
    -- The row of the thunk is an old one, or the new one, which nothing waits behind yet.
    rcases getElem?_concat_cases found with old | ⟨rfl, -⟩
    · rw [taskOf_append (lt_length_of_row old).le] at entry
      rw [one_more]
      rcases joined.released traced packed distinct old entry with ended | followed
      · exact .inl (ended.mono (Nat.le_succ _))
      · exact .inr (followed.mono (Nat.le_succ _))
    · rw [traced.taskOf_new] at entry
      exact absurd (lt_length_of_threadOf (traced.inv.release_thread entry)) (lt_irrefl _)
  · intro i j thread' thunk' cpu' thread'' thunk'' cpu'' found found_j edge
    -- An edge leads out of a task that was there before.
    have inside : taskOf (rows ++ [.thunk thread thunk cpu]) i < s.order.length := by
      have bounds := (traced.inv.addThunk tid cpu).forward _ _ edge
      rw [length_addThunk] at bounds
      omega
    rcases getElem?_concat_cases found with old | ⟨rfl, -⟩
    · rw [taskOf_append (lt_length_of_row old).le] at edge
      -- An edge that was there before, or one into the task that has just been added.
      rcases mem_edges_addThunk.mp edge with kept | ⟨newest, u, entry⟩
      · rcases getElem?_concat_cases found_j with old_j | ⟨rfl, -⟩
        · rw [taskOf_append (lt_length_of_row old_j).le] at kept
          rcases joined.edges i j _ _ _ _ _ _ old old_j kept with ended | followed
          · exact .inl ended.concat
          · exact .inr followed.concat
        · rw [traced.taskOf_new] at kept
          exact absurd (traced.inv.forward _ _ kept).2 (lt_irrefl _)
      · -- Into the new task, so the row it comes from is the last one.
        have last : j = rows.length := by
          rcases getElem?_concat_cases found_j with old_j | ⟨rfl, -⟩
          · have bound := traced.taskOf_lt_length old_j
            rw [taskOf_append (lt_length_of_row old_j).le] at newest
            omega
          · rfl
        rw [last]
        exact joined.released traced packed distinct old entry
    · rw [traced.taskOf_new] at inside
      exact absurd inside (lt_irrefl _)

/-- Rows that add no task leave the dependencies alone. -/
theorem Joined.edges_of_same (joined : Joined rows s) (same_edges : s'.edges = s.edges)
    (no_thunk : row.isThunk = false) {i j : ℕ} {cpu cpu' : ℤ} {thread thunk thread' thunk' : ℤ}
    (found : (rows ++ [row])[i]? = some (.thunk thread thunk cpu))
    (found_j : (rows ++ [row])[j]? = some (.thunk thread' thunk' cpu'))
    (edge : (taskOf (rows ++ [row]) i, taskOf (rows ++ [row]) j) ∈ s'.edges) :
    EndedBefore (rows ++ [row]) i j thread thunk ∨ FollowedBy (rows ++ [row]) i j thread := by
  rcases getElem?_concat_cases found with old | ⟨-, rfl⟩
  · rcases getElem?_concat_cases found_j with old_j | ⟨-, rfl⟩
    · rw [taskOf_append (lt_length_of_row old).le, taskOf_append (lt_length_of_row old_j).le,
        same_edges] at edge
      rcases joined.edges i j _ _ _ _ _ _ old old_j edge with ended | followed
      · exact .inl ended.concat
      · exact .inr followed.concat
    · cases no_thunk
  · cases no_thunk

theorem Joined.step (joined : Joined rows s) (traced : Traced rows s)
    (distinct : DistinctThreads (rows ++ [row])) (moved : loadRow s row = some s') :
    Joined (rows ++ [row]) s' := by
  have one_more : (rows ++ [row]).length = rows.length + 1 := by simp
  rcases loadRow_cases moved with ⟨thread, thunk, cpu, tid, rfl, packed, rfl⟩ |
      ⟨thread, thunk, time, tid, rfl, packed, added⟩ | ⟨no_thunk, no_end, same, finished⟩
  · exact joined.thunk traced packed distinct
  · obtain ⟨task, at_id, same, -⟩ := addEnd_cases added
    refine ⟨?_, fun i j _ _ _ _ _ _ found found_j edge =>
      joined.edges_of_same same.edges rfl found found_j edge⟩
    intro i thread' thunk' cpu' found member
    rcases getElem?_concat_cases found with old | ⟨-, other⟩
    · rw [taskOf_append (lt_length_of_row old).le] at member
      rcases mem_frontier_addEnd added member with ends | kept
      · -- the row ends the thunk with the packed id, and that is the thunk it names
        obtain ⟨id, packed', known⟩ := traced.ids i _ _ _ old
        obtain rfl := Option.some.inj ((traced.inv.map_tid ends).symm.trans known)
        have last : (rows ++ [.ended thread thunk time])[rows.length]? =
            some (.ended thread thunk time) := by simp
        have same_thread : thread' = thread :=
          distinct.eq (getElem?_concat old) last rfl packed' packed rfl
        have same_thunk := (eq_of_makeTid packed' packed).2
        subst same_thread same_thunk
        exact .inl ⟨rows.length, time, lt_length_of_row old, by omega, last⟩
      · rw [one_more]
        rcases joined.frontier i _ _ _ old kept with ended | followed
        · exact .inl (ended.concat.mono (Nat.le_succ _))
        · exact .inr (followed.concat.mono (Nat.le_succ _))
    · cases other
  · refine ⟨?_, fun i j _ _ _ _ _ _ found found_j edge =>
      joined.edges_of_same same.edges no_thunk found found_j edge⟩
    intro i thread' thunk' cpu' found member
    have frontier_eq : s'.frontier = s.frontier := by
      simp only [LoadState.frontier, finished]
    rcases getElem?_concat_cases found with old | ⟨-, rfl⟩
    · rw [taskOf_append (lt_length_of_row old).le, frontier_eq] at member
      rw [one_more]
      rcases joined.frontier i _ _ _ old member with ended | followed
      · exact .inl (ended.concat.mono (Nat.le_succ _))
      · exact .inr (followed.concat.mono (Nat.le_succ _))
    · cases no_thunk

/-! ### The whole trace -/

/-- **Run.** The state after a trace belongs to it. -/
theorem traced_of_load (loaded : load rows = some s) : Traced rows s := by
  induction rows using List.reverseRecOn generalizing s with
  | nil =>
    obtain rfl := Option.some.inj loaded
    exact traced_init
  | append_singleton rows row ih =>
    rw [load_concat] at loaded
    obtain ⟨before, prior, moved⟩ := Option.bind_eq_some_iff.mp loaded
    exact (ih prior).step moved

theorem covers_of_load (loaded : load rows = some s) (follows : Follows rows) : Covers rows s := by
  induction rows using List.reverseRecOn generalizing s with
  | nil =>
    obtain rfl := Option.some.inj loaded
    exact covers_init
  | append_singleton rows row ih =>
    rw [load_concat] at loaded
    obtain ⟨before, prior, moved⟩ := Option.bind_eq_some_iff.mp loaded
    exact (ih prior follows.of_concat).step (traced_of_load prior) (follows.last prior) moved

theorem joined_of_load (loaded : load rows = some s) (distinct : DistinctThreads rows) :
    Joined rows s := by
  induction rows using List.reverseRecOn generalizing s with
  | nil =>
    obtain rfl := Option.some.inj loaded
    exact joined_init
  | append_singleton rows row ih =>
    rw [load_concat] at loaded
    obtain ⟨before, prior, moved⟩ := Option.bind_eq_some_iff.mp loaded
    exact (ih prior distinct.of_concat).step (traced_of_load prior) distinct moved

/-- A path starts with a dependency, and that is on something that has ended or been
followed. -/
theorem Joined.not_path (joined : Joined rows s) (traced : Traced rows s) {i j : ℕ} {cpu cpu' : ℤ}
    {thread thunk thread' thunk' : ℤ} (found : rows[i]? = some (.thunk thread thunk cpu))
    (found_j : rows[j]? = some (.thunk thread' thunk' cpu'))
    (running : ¬ EndedBefore rows i j thread thunk) (last : ¬ FollowedBy rows i j thread) :
    ¬ Path s.edges (taskOf rows i) (taskOf rows j) := by
  intro path
  obtain ⟨middle, edge, rest⟩ := path.first_edge
  have bounds := traced.inv.forward _ _ edge
  have length := traced.length
  have positive : 0 < middle := by omega
  obtain ⟨l, _, _, _, found_l, rfl⟩ := exists_taskOf rows positive (by omega)
  have before : l ≤ j := le_of_taskOf_le found_j (rest.le traced.inv.forward)
  rcases joined.edges i l _ _ _ _ _ _ found found_l edge with ended | followed
  · exact running (ended.mono before)
  · exact last (followed.mono before)

/-- **The task graph is happens-before** for every trace that is accepted, keeps the
frontier at its end rows, and names threads that can be told apart. -/
theorem happensBefore_of_follows (loaded : load rows = some s) (follows : Follows rows)
    (distinct : DistinctThreads rows) : HappensBefore rows s.edges where
  covers := (covers_of_load loaded follows).paths
  only := fun _ _ _ _ _ _ _ _ found found_j running last =>
    (joined_of_load loaded distinct).not_path (traced_of_load loaded) found found_j running last

end Runs

section Results

variable {rows : List Row} {row : Row}

theorem follows_nil : Follows [] := by
  intro earlier row later split
  exact absurd (congrArg List.length split) (by simp)

theorem Follows.concat (follows : Follows rows)
    (last : ∀ s, load rows = some s → KeepsFrontier s row) : Follows (rows ++ [row]) := by
  intro earlier entry later split
  rcases List.eq_nil_or_concat later with rfl | ⟨others, final, rfl⟩
  · obtain ⟨rfl, same⟩ := List.append_inj' split rfl
    obtain rfl := (List.cons.inj same).1
    exact last
  · rw [List.concat_eq_append, ← List.cons_append, ← List.append_assoc] at split
    obtain ⟨same, -⟩ := List.append_inj' split rfl
    exact follows earlier entry others same

/-- One thread's thunk ends before another thread starts. -/
def handover : List Row := [.thunk 1 1 0, .ended 1 1 10, .thunk 2 1 0]

theorem follows_handover : Follows handover := by
  have first : Follows ([] ++ [Row.thunk 1 1 0]) := follows_nil.concat fun _ _ => trivial
  have second : Follows ([Row.thunk 1 1 0] ++ [Row.ended 1 1 10]) := by
    apply first.concat
    intro s loaded tid task _ found
    have summary : (load ([] ++ [Row.thunk 1 1 0])).map
        (fun s => (s.edges, s.finished.toList)) = some ([], []) := by decide +kernel
    rw [loaded, Option.map_some, Option.some_inj, Prod.mk.injEq] at summary
    obtain ⟨no_edges, no_finished⟩ := summary
    refine ⟨?_, ?_⟩
    · intro parent is_parent
      rw [mem_parents, no_edges] at is_parent
      cases is_parent
    · intro f entry
      have member := Std.TreeMap.mem_toList_iff_getElem?_eq_some.mpr entry
      rw [no_finished] at member
      cases member
  exact second.concat fun _ _ => trivial

theorem happensBefore_handover : ∃ s, load handover = some s ∧ HappensBefore handover s.edges := by
  have accepted : (load handover).isSome := by decide +kernel
  obtain ⟨s, loaded⟩ := Option.isSome_iff_exists.mp accepted
  refine ⟨s, loaded, happensBefore_of_follows loaded follows_handover ?_⟩
  intro first member second member' thread thunk thread' thunk' id id' same
  simp only [handover, List.mem_cons, List.not_mem_nil, or_false] at member member'
  rcases member with rfl | rfl | rfl <;> rcases member' with rfl | rfl | rfl <;>
    · cases id
      cases id'
      first
      | rfl
      | exact absurd same (by decide)

/-- Two threads run side by side behind the thunk (1, 1), and a third one starts. -/
def sideBySide : List Row :=
  [.thunk 1 1 0, .ended 1 1 10, .thunk 2 1 0, .thunk 1 2 0, .ended 1 2 10, .ended 2 1 10,
    .thunk 3 1 0]

/-- The end of thunk (2, 1) takes the entry of thread 1 off for the parent (1, 1),
although it is already that of (1, 2). So (3, 1) does not depend on (1, 2), which
has ended. -/
theorem not_happensBefore_sideBySide :
    ∃ s, load sideBySide = some s ∧ ¬ HappensBefore sideBySide s.edges := by
  have edges : (load sideBySide).map LoadState.edges = some [(1, 2), (1, 3), (2, 4)] := by
    decide +kernel
  obtain ⟨s, loaded, edges_eq⟩ := Option.map_eq_some_iff.mp edges
  refine ⟨s, loaded, ?_⟩
  intro happens
  have path := happens.covers 3 6 1 2 0 3 1 0 rfl rfl ⟨4, 10, by decide, by decide, rfl⟩
  obtain ⟨middle, edge, -⟩ := path.first_edge
  rw [edges_eq] at edge
  have none_from : ∀ edge ∈ [(1, 2), (1, 3), (2, 4)], edge.1 ≠ taskOf sideBySide 3 := by decide
  exact none_from _ edge rfl

end Results

end Numasim

end Tthread
