/-
# Compressing page sets into ranges and expanding them

The exporter of a trace writes the pages of a thunk as inclusive ranges, and
`ThunkData` prints its sets in the same way. The rack simulator expands a range with
numbers that have no largest one. The NUMA simulator counts an `unsigned long` up to
the last page of the range, and no such number lies behind the largest one: the
round trip is exact for the lists of pages without it.
-/

import Mathlib.Algebra.Order.Interval.Finset.SuccPred
import Mathlib.Algebra.Order.SuccPred
import Mathlib.Data.Finset.Sort
import Mathlib.Data.Nat.SuccPred
import Tthread.Numasim
import Tthread.TraceExport

namespace Tthread

open Dtl Numasim Runs

/-! ## The writers -/

/-- `DTLWriter.ranges`. -/
def DTLWriter.ranges (lst : List ℕ) : List (ℕ × ℕ) := runs lst

/-- `ThunkData.__ranges` of one of the sets of a thunk. -/
def ThunkData.ranges (lst : Finset ℕ) : List (ℕ × ℕ) := runs lst.sort

/-! ## The loops of the NUMA simulator -/

namespace Numasim

/-- The body of the loop of `add_read`. -/
def insertRead (i : UInt64) (data : Task) : Task :=
  { data with
    readSet := insert i.toNat data.readSet
    accessSet := insert i.toNat data.accessSet }

/-- The body of the loop of `add_write`. -/
def insertWrite (i : UInt64) (data : Task) : Task :=
  { data with
    writeSet := insert i.toNat data.writeSet
    accessSet := insert i.toNat data.accessSet }

/-- The loop of an access, from page `i` on; `none` if it takes more rounds. -/
def expand (insertPage : UInt64 → Task → Task) (last : UInt64) : ℕ → UInt64 → Task → Option Task
  | 0, _, _ => none
  | rounds + 1, i, data =>
    if i ≤ last then expand insertPage last rounds (i + 1) (insertPage i data) else some data

/-- `add_read` and `add_write` with the loop, of which `addRead` and `addWrite` are the result. -/
def loopAccess (insertPage : UInt64 → Task → Task) (rounds : ℕ) (s : LoadState) (tid : ℕ)
    (first last : UInt64) : Option LoadState :=
  (s.map[tid]?).bind fun task =>
    (s.order[task]?).bind fun data =>
      (expand insertPage last rounds first data).map fun data =>
        { s with order := s.order.set task data }

/-- The ranges of a thunk, one row after the other. -/
def loopRanges (insertPage : UInt64 → Task → Task) (rounds : ℕ) (s : LoadState) (tid : ℕ)
    (intervals : List (ℕ × ℕ)) : Option LoadState :=
  intervals.foldlM (fun s addr =>
    loopAccess insertPage rounds s tid (UInt64.ofNat addr.1) (UInt64.ofNat addr.2)) s

/-- `add_read` for each of the ranges. -/
def loopReads : ℕ → LoadState → ℕ → List (ℕ × ℕ) → Option LoadState := loopRanges insertRead

/-- `add_write` for each of the ranges. -/
def loopWrites : ℕ → LoadState → ℕ → List (ℕ × ℕ) → Option LoadState := loopRanges insertWrite

/-- A task that reads some more pages. -/
def Task.reading (data : Task) (pages : Finset ℕ) : Task :=
  { data with readSet := data.readSet ∪ pages, accessSet := data.accessSet ∪ pages }

/-- A task that writes some more pages. -/
def Task.writing (data : Task) (pages : Finset ℕ) : Task :=
  { data with writeSet := data.writeSet ∪ pages, accessSet := data.accessSet ∪ pages }

/-- The largest page number. -/
def largest : UInt64 := UInt64.ofNat (2 ^ 64 - 1)

/-- What a loop body does over all of its rounds. -/
structure Collects (insertPage : UInt64 → Task → Task) (adding : Task → Finset ℕ → Task) :
    Prop where
  nothing : ∀ data, adding data ∅ = data
  more : ∀ i data pages, adding (insertPage i data) pages = adding data (insert i.toNat pages)
  union : ∀ data pages others, adding (adding data pages) others = adding data (pages ∪ others)

theorem collects_reads : Collects insertRead Task.reading where
  nothing data := by simp [Task.reading]
  more i data pages := by simp [Task.reading, insertRead]
  union data pages others := by simp [Task.reading, Finset.union_assoc]

theorem collects_writes : Collects insertWrite Task.writing where
  nothing data := by simp [Task.writing]
  more i data pages := by simp [Task.writing, insertWrite]
  union data pages others := by simp [Task.writing, Finset.union_assoc]

variable {insertPage : UInt64 → Task → Task} {adding : Task → Finset ℕ → Task}
  {i first last : UInt64} {rounds task tid : ℕ} {data : Task} {s s' : LoadState}
  {intervals : List (ℕ × ℕ)}

/-- Below the largest page the loop runs up to the last page and ends. -/
theorem Collects.expand (collects : Collects insertPage adding)
    (below : last.toNat + 1 < 2 ^ 64) (count : ℕ) (distance : i.toNat + count = last.toNat + 1)
    (enough : count < rounds) :
    expand insertPage last rounds i data =
      some (adding data (Finset.Icc i.toNat last.toNat)) := by
  induction count generalizing i data rounds with
  | zero =>
    obtain ⟨rounds, rfl⟩ := Nat.exists_eq_add_of_lt enough
    have past : ¬ i ≤ last := by
      rw [UInt64.le_iff_toNat_le]
      omega
    have empty : Finset.Icc i.toNat last.toNat = ∅ := Finset.Icc_eq_empty (by omega)
    rw [Nat.zero_add, Numasim.expand, if_neg past, empty, collects.nothing]
  | succ count ih =>
    obtain ⟨rounds, rfl⟩ := Nat.exists_eq_add_of_lt (Nat.lt_of_lt_of_le Nat.succ_pos' enough.le)
    have inside : i ≤ last := by
      rw [UInt64.le_iff_toNat_le]
      omega
    have next : (i + 1).toNat = i.toNat + 1 := by
      rw [UInt64.toNat_add]
      exact Nat.mod_eq_of_lt (by simp; omega)
    have pages : insert i.toNat (Finset.Icc (i + 1).toNat last.toNat) =
        Finset.Icc i.toNat last.toNat := by
      rw [next]
      exact Finset.insert_Icc_add_one_left_eq_Icc (by omega)
    rw [Nat.zero_add, Numasim.expand, if_pos inside, ih (by omega) (by omega), collects.more, pages]

/-- Every `unsigned long` is at most the largest one. -/
theorem expand_largest : expand insertPage largest rounds i data = none := by
  induction rounds generalizing i data with
  | zero => rfl
  | succ rounds ih =>
    have inside : i ≤ largest := by
      have bound := i.toNat_lt
      rw [UInt64.le_iff_toNat_le]
      show i.toNat ≤ 2 ^ 64 - 1
      omega
    rw [expand, if_pos inside, ih]

/-- An access that ends has recorded the pages of its range. -/
theorem Collects.loopAccess (collects : Collects insertPage adding)
    (task_of : s.map[tid]? = some task) (data_of : s.order[task]? = some data)
    (upwards : first ≤ last) (below : last.toNat + 1 < 2 ^ 64) (enough : 2 ^ 64 ≤ rounds) :
    loopAccess insertPage rounds s tid first last =
      some { s with
        order := s.order.set task (adding data (Finset.Icc first.toNat last.toNat)) } := by
  have ordered : first.toNat ≤ last.toNat := UInt64.le_iff_toNat_le.mp upwards
  have ends : Numasim.expand insertPage last rounds first data =
      some (adding data (Finset.Icc first.toNat last.toNat)) :=
    collects.expand below (last.toNat + 1 - first.toNat) (by omega) (by omega)
  rw [Numasim.loopAccess, task_of, Option.bind_some, data_of, Option.bind_some, ends]
  rfl

/-- What is recorded at once for an access is what its loop records. -/
theorem Collects.addAccess (collects : Collects insertPage adding)
    (task_of : s.map[tid]? = some task) (data_of : s.order[task]? = some data)
    (upwards : first ≤ last) (below : last.toNat + 1 < 2 ^ 64) (enough : 2 ^ 64 ≤ rounds) :
    Numasim.loopAccess insertPage rounds s tid first last =
      addAccess s tid fun data => adding data (Finset.Icc first.toNat last.toNat) := by
  have same : s.order.modify task (fun data => adding data (Finset.Icc first.toNat last.toNat)) =
      s.order.set task (adding data (Finset.Icc first.toNat last.toNat)) := by
    apply List.ext_getElem?
    intro place
    rw [List.getElem?_modify, List.getElem?_set]
    by_cases here : task = place
    · subst here
      have inside : task < s.order.length := (List.getElem?_eq_some_iff.mp data_of).1
      have value : s.order[task] = data := List.getElem_eq_iff inside |>.mpr data_of
      simp [inside, value]
    · simp [here]
  rw [collects.loopAccess task_of data_of upwards below enough, Numasim.addAccess, task_of,
    Option.map_some, same]

/-- The ranges of a list that lie below the largest page add their numbers. -/
theorem Collects.loopRanges (collects : Collects insertPage adding)
    (task_of : s.map[tid]? = some task) (data_of : s.order[task]? = some data)
    (upwards : Upwards intervals) (below : ∀ interval ∈ intervals, interval.2 + 1 < 2 ^ 64)
    (enough : 2 ^ 64 ≤ rounds) :
    ∃ s', loopRanges insertPage rounds s tid intervals = some s' ∧
      s'.map[tid]? = some task ∧
      s'.order[task]? = some (adding data (numbersOf intervals)) := by
  induction intervals generalizing s data with
  | nil => exact ⟨s, rfl, task_of, by rw [numbersOf_nil, collects.nothing, data_of]⟩
  | cons interval rest ih =>
    have up : interval.1 ≤ interval.2 := upwards interval List.mem_cons_self
    have small := below interval List.mem_cons_self
    have first_of : (UInt64.ofNat interval.1).toNat = interval.1 :=
      UInt64.toNat_ofNat_of_lt' (show interval.1 < 2 ^ 64 by omega)
    have last_of : (UInt64.ofNat interval.2).toNat = interval.2 :=
      UInt64.toNat_ofNat_of_lt' (show interval.2 < 2 ^ 64 by omega)
    have ordered : UInt64.ofNat interval.1 ≤ UInt64.ofNat interval.2 := by
      rw [UInt64.le_iff_toNat_le]
      omega
    have access := collects.loopAccess task_of data_of ordered (by omega) enough
    rw [first_of, last_of] at access
    have place : task < s.order.length := (List.getElem?_eq_some_iff.mp data_of).1
    obtain ⟨s', loaded, task_of', data_of'⟩ := ih (s := { s with
        order := s.order.set task (adding data (Finset.Icc interval.1 interval.2)) })
      task_of (List.getElem?_set_self place)
      (fun other member => upwards other (List.mem_cons_of_mem _ member))
      (fun other member => below other (List.mem_cons_of_mem _ member))
    refine ⟨s', ?_, task_of', ?_⟩
    · rw [Numasim.loopRanges, List.foldlM_cons, access]
      exact loaded
    · rw [data_of', collects.union, numbersOf_cons]

/-- No number of rounds is enough for a range up to the largest page. -/
theorem loopRanges_largest {interval : ℕ × ℕ} (member : interval ∈ intervals)
    (top : UInt64.ofNat interval.2 = largest) :
    loopRanges insertPage rounds s tid intervals = none := by
  induction intervals generalizing s with
  | nil => cases member
  | cons first rest ih =>
    rw [loopRanges, List.foldlM_cons]
    obtain rfl | later := List.mem_cons.mp member
    · have never : loopAccess insertPage rounds s tid (UInt64.ofNat interval.1)
          (UInt64.ofNat interval.2) = none := by
        rw [loopAccess, top]
        simp only [expand_largest, Option.map_none, Option.bind_fun_none]
      rw [never]
      rfl
    · cases loopAccess insertPage rounds s tid (UInt64.ofNat first.1) (UInt64.ofNat first.2) with
      | none => rfl
      | some s => exact ih later

end Numasim

/-! ## The round trip -/

/-- The ranges are in order and apart, and all four expanders end with the pages added. -/
structure Rebuilds (intervals : List (ℕ × ℕ)) (pages : Finset ℕ) : Prop where
  upwards : Upwards intervals
  separated : Separated intervals
  addRead : ∀ (p : Programm) (thread thunk : ℤ) data, p.thunks (thread, thunk) = some data →
    ∃ p', intervals.foldlM (fun p addr => Dtl.addRead p thread thunk addr.1 addr.2) p = .ok p' ∧
      p'.thunks (thread, thunk) = some { data with rs := data.rs ∪ pages }
  addWrite : ∀ (p : Programm) (thread thunk : ℤ) data, p.thunks (thread, thunk) = some data →
    ∃ p', intervals.foldlM (fun p addr => Dtl.addWrite p thread thunk addr.1 addr.2) p = .ok p' ∧
      p'.thunks (thread, thunk) = some { data with ws := data.ws ∪ pages }
  loopReads : ∀ (s : LoadState) tid task data, s.map[tid]? = some task →
    s.order[task]? = some data →
    ∃ rounds s', loopReads rounds s tid intervals = some s' ∧
      s'.order[task]? = some { data with
        readSet := data.readSet ∪ pages, accessSet := data.accessSet ∪ pages }
  loopWrites : ∀ (s : LoadState) tid task data, s.map[tid]? = some task →
    s.order[task]? = some data →
    ∃ rounds s', loopWrites rounds s tid intervals = some s' ∧
      s'.order[task]? = some { data with
        writeSet := data.writeSet ∪ pages, accessSet := data.accessSet ∪ pages }

/-- The list as the numbers of the writers. -/
def numbers (pages : List UInt64) : List ℕ := pages.map UInt64.toNat

section RoundTrip

variable {intervals : List (ℕ × ℕ)} {lst : List ℕ} {pages : List UInt64}

/-- The rack simulator expands any list of ranges. -/
theorem foldlM_addRead (intervals : List (ℕ × ℕ)) {p : Programm} {thread thunk : ℤ}
    {data : Dtl.ThunkData} (known : p.thunks (thread, thunk) = some data) :
    ∃ p', intervals.foldlM (fun p addr => Dtl.addRead p thread thunk addr.1 addr.2) p = .ok p' ∧
      p'.thunks (thread, thunk) = some { data with rs := data.rs ∪ numbersOf intervals } := by
  have rows := foldlM_reads intervals known
  rw [List.foldlM_map] at rows
  exact ⟨_, rows, Function.update_self _ _ _⟩

theorem foldlM_addWrite (intervals : List (ℕ × ℕ)) {p : Programm} {thread thunk : ℤ}
    {data : Dtl.ThunkData} (known : p.thunks (thread, thunk) = some data) :
    ∃ p', intervals.foldlM (fun p addr => Dtl.addWrite p thread thunk addr.1 addr.2) p = .ok p' ∧
      p'.thunks (thread, thunk) = some { data with ws := data.ws ∪ numbersOf intervals } := by
  have rows := foldlM_writes intervals known
  rw [List.foldlM_map] at rows
  exact ⟨_, rows, Function.update_self _ _ _⟩

/-- Every range ends at a page of the list. -/
theorem last_mem {interval : ℕ × ℕ} (member : interval ∈ runs lst) : interval.2 ∈ lst := by
  have inside : interval.2 ∈ numbersOf (runs lst) :=
    mem_numbersOf.mpr ⟨interval, member, runs_upwards lst interval member, le_rfl⟩
  rwa [numbersOf_runs, List.mem_toFinset] at inside

/-- The largest page of a list is the last one of some range. -/
theorem exists_last {top : ℕ} (member : top ∈ lst) (bound : ∀ page ∈ lst, page ≤ top) :
    ∃ interval ∈ runs lst, interval.2 = top := by
  have inside : top ∈ numbersOf (runs lst) := by rwa [numbersOf_runs, List.mem_toFinset]
  obtain ⟨interval, found, _, reaches⟩ := mem_numbersOf.mp inside
  exact ⟨interval, found, le_antisymm (bound _ (last_mem found)) reaches⟩

/-- A list without the largest page makes the round trip. -/
theorem rebuilds_of_below (below : ∀ page ∈ lst, page + 1 < 2 ^ 64) :
    Rebuilds (runs lst) lst.toFinset where
  upwards := runs_upwards lst
  separated := runs_separated lst
  addRead p thread thunk data known := by
    rw [← numbersOf_runs]
    exact foldlM_addRead _ known
  addWrite p thread thunk data known := by
    rw [← numbersOf_runs]
    exact foldlM_addWrite _ known
  loopReads s tid task data task_of data_of := by
    obtain ⟨s', loaded, _, recorded⟩ := collects_reads.loopRanges task_of data_of
      (runs_upwards lst) (fun _ member => below _ (last_mem member)) le_rfl
    rw [numbersOf_runs] at recorded
    exact ⟨_, s', loaded, recorded⟩
  loopWrites s tid task data task_of data_of := by
    obtain ⟨s', loaded, _, recorded⟩ := collects_writes.loopRanges task_of data_of
      (runs_upwards lst) (fun _ member => below _ (last_mem member)) le_rfl
    rw [numbersOf_runs] at recorded
    exact ⟨_, s', loaded, recorded⟩

/-- A range up to the largest page is never expanded. -/
theorem not_rebuilds_of_largest {pages : Finset ℕ} {interval : ℕ × ℕ}
    (member : interval ∈ intervals) (top : UInt64.ofNat interval.2 = largest) :
    ¬ Rebuilds intervals pages := by
  intro rebuilds
  obtain ⟨rounds, s', loaded, _⟩ := rebuilds.loopReads (addThunk initState 1 0) 1 1
    (Task.new 0 1) rfl rfl
  rw [loopReads, loopRanges_largest member top] at loaded
  cases loaded

/-- **Ranges rebuild the pages exactly if the largest page is not among them.** -/
theorem rebuilds_iff (pages : List UInt64) :
    (Rebuilds (DTLWriter.ranges (numbers pages)) (numbers pages).toFinset ∧
      Rebuilds (ThunkData.ranges (numbers pages).toFinset) (numbers pages).toFinset) ↔
    largest ∉ pages := by
  constructor
  · rintro ⟨rebuilds, _⟩ member
    have bound : ∀ page ∈ numbers pages, page ≤ 2 ^ 64 - 1 := by
      intro page inside
      obtain ⟨number, _, rfl⟩ := List.mem_map.mp inside
      exact Nat.le_sub_one_of_lt number.toNat_lt
    have top : largest.toNat ∈ numbers pages := List.mem_map_of_mem member
    obtain ⟨interval, found, last⟩ := exists_last top bound
    refine not_rebuilds_of_largest found ?_ rebuilds
    rw [last]
    rfl
  · intro absent
    have below : ∀ page ∈ numbers pages, page + 1 < 2 ^ 64 := by
      intro page inside
      obtain ⟨number, member, rfl⟩ := List.mem_map.mp inside
      have other : number.toNat ≠ largest.toNat := by
        intro same
        exact absent (UInt64.toNat_inj.mp same ▸ member)
      have bound := number.toNat_lt
      change number.toNat ≠ 2 ^ 64 - 1 at other
      omega
    have again : Rebuilds (runs (numbers pages).toFinset.sort) _ :=
      rebuilds_of_below fun page member =>
        below page (List.mem_toFinset.mp ((Finset.mem_sort _).mp member))
    rw [Finset.sort_toFinset] at again
    exact ⟨rebuilds_of_below below, again⟩

/-- One page, the largest one. -/
theorem not_rebuilds_largest :
    ¬ Rebuilds (DTLWriter.ranges (numbers [largest])) (numbers [largest]).toFinset := by
  intro rebuilds
  have member : (2 ^ 64 - 1, 2 ^ 64 - 1) ∈ DTLWriter.ranges (numbers [largest]) :=
    List.mem_singleton_self _
  exact not_rebuilds_of_largest member rfl rebuilds

end RoundTrip

end Tthread
