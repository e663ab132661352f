/-
# Thunk schedules

The schedule compiler reads a text of (thread, thunk, cpu) lines into an ordered
map of ordered maps and writes it as one section for each thread: a header with
the thread's index and the number of its thunks, and a pair of thunk and cpu for
each. The runtime maps that file. A new thread walks along the headers to its own
section and keeps a pointer to it; before each thunk it looks the thunk's pair up
by its distance from that pointer. A child starts with its parent's pointer, and
the walk leaves the pointer alone if it runs off the end of the file.
-/

import Mathlib.Algebra.Group.Int.Defs
import Mathlib.Algebra.Group.Nat.Defs
import Mathlib.Data.List.Induction
import Mathlib.Data.List.Sort
import Std.Data.TreeMap.Lemmas
import Tthread.Library.SortedVector
import Tthread.Library.Transition

namespace Tthread

namespace Xsched

open SortedVector

/-! ## The compiler -/

/-- One line of a schedule. -/
structure Line where
  pid : ℤ
  tid : ℤ
  cpu : ℤ
deriving DecidableEq, Repr

/-- White space in the C locale. -/
def isSpace (c : Char) : Bool := c == ' ' || (9 ≤ c.toNat && c.toNat ≤ 13)

/-- The sign and the rest of a numeral. -/
def readSign : List Char → Bool × List Char
  | '-' :: rest => (true, rest)
  | '+' :: rest => (false, rest)
  | rest => (false, rest)

/-- `iss >> x` for an `int`: skip white space and read a decimal numeral; fail if
there is none or it is out of range. -/
def readInt (text : List Char) : Option (ℤ × List Char) :=
  let (negative, rest) := readSign (text.dropWhile isSpace)
  let digits := rest.takeWhile Char.isDigit
  let magnitude : ℤ := digits.foldl (fun n d => 10 * n + (d.toNat - '0'.toNat : ℤ)) 0
  let value := if negative then -magnitude else magnitude
  if digits ≠ [] ∧ -2 ^ 31 ≤ value ∧ value < 2 ^ 31 then
    some (value, rest.drop digits.length)
  else none

/-- `iss >> pid >> tid >> cpu`. What follows on the line is not read. -/
def readLine (text : List Char) : Option Line := do
  let (pid, rest) ← readInt text
  let (tid, rest) ← readInt rest
  let (cpu, _) ← readInt rest
  return { pid, tid, cpu }

/-- The lines of a schedule; a line in the wrong format is an error. -/
def readSchedule (text : List (List Char)) : Option (List Line) := text.mapM readLine

/-- `map<int, int>`: the cpus of a thread's thunks. -/
abbrev Thunks := Std.TreeMap ℤ ℤ

/-- `map<int, map<int, int>>`. -/
abbrev ThunkMap := Std.TreeMap ℤ Thunks

/-- `t_map[pid][tid] = cpu`. -/
def assign (m : ThunkMap) (line : Line) : ThunkMap :=
  m.insert line.pid ((m.getD line.pid ∅).insert line.tid line.cpu)

def threadMap (lines : List Line) : ThunkMap := lines.foldl assign ∅

/-- What is written for one thread: its header, and a pair for each thunk. -/
def sectionOf (thread : ℤ × Thunks) : List (ℤ × ℤ) :=
  (thread.1, (thread.2.size : ℤ)) :: thread.2.toList

/-- Everything is written in pairs of words. -/
def rows (threads : List (ℤ × Thunks)) : List (ℤ × ℤ) := threads.flatMap sectionOf

/-- The words of a sequence of pairs. -/
def wordsOf (pairs : List (ℤ × ℤ)) : List ℤ := pairs.flatMap fun pair => [pair.1, pair.2]

/-- `thunk_scheduler`: the words of the binary; `none` if it throws. -/
def thunkScheduler (text : List (List Char)) : Option (List ℤ) :=
  (readSchedule text).map fun lines => wordsOf (rows (threadMap lines).toList)

/-! ## The runtime -/

/-- The `_sched_size` that the constructor computes from the length of the file,
which it takes as an `int`; `none` if it aborts. -/
def schedSize (file : List ℤ) : Option ℕ :=
  let ret := Int.bmod (4 * file.length) (2 ^ 32)
  if ret < 0 then none else some (ret / 4).toNat

/-- The words in the pages of the mapping. -/
def InPages (size : ℕ) (i : ℤ) : Prop := 0 ≤ i ∧ i < ((size + 1023) / 1024 * 1024 : ℕ)

instance (size : ℕ) (i : ℤ) : Decidable (InPages size i) := inferInstanceAs (Decidable (_ ∧ _))

/-- Memory around `_thunk_schedule`: the file, zeros up to the end of its last
page, and outside of its pages whatever is there, if anything. -/
def word (file : List ℤ) (size : ℕ) (outside : ℤ → Option ℤ) (i : ℤ) : Option ℤ :=
  if InPages size i then some (file.getD i.toNat 0) else outside i

/-- The walk of `updateThread` from `cur_tid` on. It ends at a header of `tid`, at
the end of the schedule, or with an abort at a header of a later thread. -/
inductive Walk where
  | found (cur_tid : ℕ)
  | ranOff
  | unexpected
deriving DecidableEq

def walk (file : List ℤ) (size : ℕ) (tid : ℤ) (cur_tid : ℕ) : Walk :=
  if cur_tid < size then
    -- the header of a smaller thread: skip its pairs
    if file.getD cur_tid 0 < tid then
      walk file size tid (cur_tid + ((file.getD (cur_tid + 1) 0).toNat * 2 + 2))
    -- the sections are sorted
    else if file.getD cur_tid 0 ≠ tid then .unexpected
    else .found cur_tid
  else .ranOff
termination_by size - cur_tid

/-- A thread: killed by `abort`, or running with its `_thread_schedule`. -/
inductive Thread where
  | aborted
  | running (schedule : Option ℕ)
deriving DecidableEq

/-- `updateThread` of a thread that starts with the given pointer. -/
def updateThread (file : List ℤ) (size : ℕ) (inherited : Option ℕ) (tid : ℤ) : Thread :=
  match walk file size tid 0 with
  | .found cur_tid => .running (some cur_tid)
  | .ranOff => .running inherited
  | .unexpected => .aborted

/-- `get_affinity`; `none` if it aborts. The product is an `int`. -/
def getAffinity (file : List ℤ) (size : ℕ) (outside : ℤ → Option ℤ) (thunk : ℕ) :
    Thread → Option ℤ
  | .running (some schedule) =>
    -- the header has the place of thunk 0
    let pair : ℤ := schedule + Int.bmod (thunk * 2) (2 ^ 32)
    if word file size outside pair = some (thunk : ℤ) then word file size outside (pair + 1)
    else none
  | _ => none

/-- The `xrun` constructor of the main thread, whose index is 0. -/
def master (file : List ℤ) (size : ℕ) : Thread := updateThread file size none 0

/-- `childRegister`: the child takes the next index, which `getThreadIndex` returns
as an `int`, and `fork` has given it its parent's pointer. A thread that was aborted
spawns nothing. -/
def spawn (file : List ℤ) (size : ℕ) (threads : List Thread) (parent : ℕ) :
    Option (List Thread) :=
  match threads[parent]? with
  | some (.running schedule) =>
    some (threads ++ [updateThread file size schedule (Int.bmod threads.length (2 ^ 32))])
  | _ => none

/-- The runs of a program under a schedule: the threads in the order of their
indices; a label is the thread that spawns. -/
def system (file : List ℤ) (size : ℕ) : Transition.System (List Thread) ℕ where
  Init := fun threads => threads = [master file size]
  step := spawn file size

/-! ## What a schedule says -/

/-- The cpu that a schedule assigns: later lines override earlier ones. -/
def assigned (lines : List Line) (t k : ℤ) : Option ℤ :=
  (lines.filter fun line => line.pid = t ∧ line.tid = k).getLast?.map Line.cpu

/-- The schedule lists the thread. -/
def Listed (lines : List Line) (t : ℤ) : Prop := ∃ line ∈ lines, line.pid = t

instance (lines : List Line) (t : ℤ) : Decidable (Listed lines t) :=
  inferInstanceAs (Decidable (∃ line ∈ lines, _))

/-- The thunks of each thread are those from 1 to some number on. -/
def ThunksFromOne (lines : List Line) : Prop :=
  ∀ t, ∃ n : ℕ, ∀ k, (assigned lines t k).isSome ↔ 1 ≤ k ∧ k ≤ n

section Compiler

variable {lines : List Line} {t k c : ℤ}

theorem threadMap_concat (lines : List Line) (line : Line) :
    threadMap (lines ++ [line]) = assign (threadMap lines) line := by
  rw [threadMap, List.foldl_append]
  rfl

theorem listed_concat (lines : List Line) (line : Line) :
    Listed (lines ++ [line]) t ↔ line.pid = t ∨ Listed lines t := by
  simp only [Listed, List.mem_append, List.mem_singleton]
  constructor
  · rintro ⟨other, old | rfl, named⟩
    · exact .inr ⟨other, old, named⟩
    · exact .inl named
  · rintro (named | ⟨other, old, named⟩)
    · exact ⟨line, .inr rfl, named⟩
    · exact ⟨other, .inl old, named⟩

theorem assigned_concat (lines : List Line) (line : Line) : assigned (lines ++ [line]) t k =
    if line.pid = t ∧ line.tid = k then some line.cpu else assigned lines t k := by
  rw [assigned, List.filter_append]
  split_ifs with named
  · simp [named]
  · simp [named, assigned]

/-- The map has an entry for exactly the listed threads. -/
theorem mem_threadMap (lines : List Line) (t : ℤ) : t ∈ threadMap lines ↔ Listed lines t := by
  induction lines using List.reverseRecOn with
  | nil => simp [threadMap, Listed]
  | append_singleton lines line ih =>
    rw [threadMap_concat, listed_concat, assign, Std.TreeMap.mem_insert, ih, Std.compare_eq_iff_eq]

/-- **The map is the schedule.** Looking a thunk up in its thread's map gives the
cpu that the last of its lines assigns. -/
theorem threadMap_lookup (lines : List Line) (t k : ℤ) :
    ((threadMap lines).getD t ∅)[k]? = assigned lines t k := by
  induction lines using List.reverseRecOn with
  | nil => simp [threadMap, assigned]
  | append_singleton lines line ih =>
    rw [threadMap_concat, assigned_concat, assign, Std.TreeMap.getD_insert]
    by_cases named : line.pid = t
    · subst named
      by_cases same : line.tid = k
      · simp [same]
      · simp [same, Std.TreeMap.getElem?_insert, ih]
    · simp [named, ih]

/-- A map is written in the order of its keys. -/
theorem sorted_toList {β : Type*} (m : Std.TreeMap ℤ β) : Sorted Prod.fst m.toList := by
  have ordered : m.toList.Pairwise fun a b => compare a.1 b.1 = .lt :=
    Std.TreeMap.ordered_keys_toList
  exact ordered.imp fun before => compare_lt_iff_lt.mp before

theorem mem_toList_iff {β : Type*} (m : Std.TreeMap ℤ β) {k : ℤ} {v : β} :
    (k, v) ∈ m.toList ↔ m[k]? = some v :=
  Std.TreeMap.mem_toList_iff_getElem?_eq_some

/-- The threads with their thunks, as they are written. -/
def threadsOf (lines : List Line) : List (ℤ × Thunks) := (threadMap lines).toList

theorem sorted_threadsOf (lines : List Line) : Sorted Prod.fst (threadsOf lines) :=
  sorted_toList _

theorem assigned_of_mem {thunks : Thunks} (member : (t, thunks) ∈ threadsOf lines) :
    thunks[k]? = assigned lines t k := by
  have entry := (mem_toList_iff (threadMap lines)).mp member
  rw [← threadMap_lookup, Std.TreeMap.getD_eq_getD_getElem? (t := threadMap lines), entry,
    Option.getD_some]

theorem listed_of_mem {thunks : Thunks} (member : (t, thunks) ∈ threadsOf lines) :
    Listed lines t := by
  have entry := (mem_toList_iff (threadMap lines)).mp member
  rw [← mem_threadMap, Std.TreeMap.mem_iff_isSome_getElem? (t := threadMap lines), entry]
  rfl

theorem Listed.mem (listed : Listed lines t) : ∃ thunks, (t, thunks) ∈ threadsOf lines := by
  rw [← mem_threadMap, Std.TreeMap.mem_iff_isSome_getElem? (t := threadMap lines)] at listed
  obtain ⟨thunks, entry⟩ := Option.isSome_iff_exists.mp listed
  exact ⟨thunks, (mem_toList_iff (threadMap lines)).mpr entry⟩

/-- The thunks of a thread are written in the order of their numbers, which are
those from 1 on. -/
theorem ThunksFromOne.keys_eq (fromOne : ThunksFromOne lines) {thunks : Thunks}
    (member : (t, thunks) ∈ threadsOf lines) :
    thunks.toList.map Prod.fst = (List.range thunks.size).map fun j : ℕ => (j : ℤ) + 1 := by
  obtain ⟨n, numbers⟩ := fromOne t
  have ordered : (thunks.toList.map Prod.fst).Pairwise (· < ·) := by
    rw [List.pairwise_map]
    exact sorted_toList thunks
  have range_ordered : ((List.range n).map fun j : ℕ => (j : ℤ) + 1).Pairwise (· < ·) := by
    rw [List.pairwise_map]
    exact List.pairwise_lt_range.imp fun before => by omega
  have same : thunks.toList.map Prod.fst = (List.range n).map fun j : ℕ => (j : ℤ) + 1 := by
    apply ordered.eq_of_mem_iff range_ordered
    intro k
    have listed_thunk : k ∈ thunks.toList.map Prod.fst ↔ (assigned lines t k).isSome := by
      rw [Std.TreeMap.map_fst_toList_eq_keys, Std.TreeMap.mem_keys,
        Std.TreeMap.mem_iff_isSome_getElem? (t := thunks), assigned_of_mem member]
    rw [listed_thunk, numbers, List.mem_map]
    constructor
    · rintro ⟨positive, bounded⟩
      exact ⟨(k - 1).toNat, List.mem_range.mpr (by omega), by omega⟩
    · rintro ⟨j, inside, rfl⟩
      have bound := List.mem_range.mp inside
      omega
  have size_eq : thunks.size = n := by
    have lengths := congrArg List.length same
    simpa using lengths
  rw [same, size_eq]

/-- The pair of a thread's thunk, in the order they are written. -/
theorem ThunksFromOne.toList_getElem? (fromOne : ThunksFromOne lines) {thunks : Thunks}
    (member : (t, thunks) ∈ threadsOf lines) {j : ℕ} {pair : ℤ × ℤ} :
    thunks.toList[j]? = some pair ↔ pair.1 = j + 1 ∧ assigned lines t pair.1 = some pair.2 := by
  have key :
      (thunks.toList.map Prod.fst)[j]? =
        ((List.range thunks.size).map fun j : ℕ => (j : ℤ) + 1)[j]? :=
    congrArg (·[j]?) (fromOne.keys_eq member)
  constructor
  · intro found
    have present := List.mem_of_getElem? found
    rw [← assigned_of_mem member]
    refine ⟨?_, (mem_toList_iff thunks).mp present⟩
    have inside : j < thunks.size := by
      rw [← Std.TreeMap.length_toList]
      exact (List.getElem?_eq_some_iff.mp found).1
    rw [List.getElem?_map, found, List.getElem?_map, List.getElem?_range inside] at key
    exact Option.some.inj key
  · rintro ⟨number, cpu⟩
    rw [← assigned_of_mem member] at cpu
    have present := (mem_toList_iff thunks).mpr cpu
    obtain ⟨i, found⟩ := List.getElem?_of_mem present
    have inside : i < thunks.size := by
      rw [← Std.TreeMap.length_toList]
      exact (List.getElem?_eq_some_iff.mp found).1
    have key :
        (thunks.toList.map Prod.fst)[i]? =
          ((List.range thunks.size).map fun j : ℕ => (j : ℤ) + 1)[i]? :=
      congrArg (·[i]?) (fromOne.keys_eq member)
    rw [List.getElem?_map, found, List.getElem?_map, List.getElem?_range inside] at key
    have same : i = j := by
      have number_i : pair.1 = i + 1 := Option.some.inj key
      omega
    rw [← same, found]

end Compiler

section Layout

variable {pairs : List (ℤ × ℤ)} {threads before after : List (ℤ × Thunks)}
  {thread : ℤ × Thunks} {q : ℕ}

@[simp] theorem length_wordsOf (pairs : List (ℤ × ℤ)) :
    (wordsOf pairs).length = 2 * pairs.length := by
  induction pairs with
  | nil => rfl
  | cons pair rest ih =>
    rw [wordsOf, List.flatMap_cons, List.length_append, ← wordsOf, ih, List.length_cons]
    simp only [List.length_cons, List.length_nil]
    omega

/-- The two words of a pair. -/
theorem wordsOf_getElem? (pairs : List (ℤ × ℤ)) (q : ℕ) :
    (wordsOf pairs)[2 * q]? = pairs[q]?.map Prod.fst ∧
      (wordsOf pairs)[2 * q + 1]? = pairs[q]?.map Prod.snd := by
  induction pairs generalizing q with
  | nil => simp [wordsOf]
  | cons pair rest ih =>
    have unfolded : wordsOf (pair :: rest) = pair.1 :: pair.2 :: wordsOf rest := rfl
    rw [unfolded]
    cases q with
    | zero => exact ⟨rfl, rfl⟩
    | succ q => exact ih q

@[simp] theorem rows_append (before after : List (ℤ × Thunks)) :
    rows (before ++ after) = rows before ++ rows after := List.flatMap_append

@[simp] theorem length_sectionOf (thread : ℤ × Thunks) :
    (sectionOf thread).length = thread.2.size + 1 := by
  rw [sectionOf, List.length_cons, Std.TreeMap.length_toList]

theorem rows_cons (thread : ℤ × Thunks) (after : List (ℤ × Thunks)) :
    rows (thread :: after) = sectionOf thread ++ rows after := List.flatMap_cons

/-- What stands at a place within a thread's section. -/
theorem rows_inside (before after : List (ℤ × Thunks)) {i : ℕ} (inside : i < thread.2.size + 1) :
    (rows (before ++ thread :: after))[(rows before).length + i]? = (sectionOf thread)[i]? := by
  rw [rows_append, List.getElem?_append_right (Nat.le_add_right _ _), Nat.add_sub_cancel_left,
    rows_cons, List.getElem?_append_left (by rwa [length_sectionOf])]

/-- Every pair of the file stands in the section of one of the threads. -/
theorem rows_cases {pair : ℤ × ℤ} (found : (rows threads)[q]? = some pair) :
    ∃ before thread after i, threads = before ++ thread :: after ∧
      q = (rows before).length + i ∧ (sectionOf thread)[i]? = some pair := by
  induction threads generalizing q with
  | nil => simp [rows] at found
  | cons first rest ih =>
    rw [rows_cons] at found
    by_cases early : q < (sectionOf first).length
    · rw [List.getElem?_append_left early] at found
      exact ⟨[], first, rest, q, rfl, by simp [rows], found⟩
    · rw [List.getElem?_append_right (Nat.le_of_not_lt early)] at found
      obtain ⟨before, thread, after, i, rfl, place, pair_eq⟩ := ih found
      refine ⟨first :: before, thread, after, i, rfl, ?_, pair_eq⟩
      rw [rows_cons, List.length_append]
      omega

/-- How many pairs are written before the section of a thread. -/
def headerRow (threads : List (ℤ × Thunks)) (t : ℤ) : ℕ := (rows (threads.filter (·.1 < t))).length

/-- A thread's section starts behind those of the threads with smaller indices. -/
theorem headerRow_eq (sorted : Sorted Prod.fst (before ++ thread :: after)) :
    headerRow (before ++ thread :: after) thread.1 = (rows before).length := by
  obtain ⟨-, from_thread, across⟩ := List.pairwise_append.mp sorted
  have before_kept : before.filter (·.1 < thread.1) = before := by
    rw [List.filter_eq_self]
    intro other member
    exact decide_eq_true (across other member thread List.mem_cons_self)
  have rest_dropped : (thread :: after).filter (·.1 < thread.1) = [] := by
    rw [List.filter_eq_nil_iff]
    intro other member
    rcases List.mem_cons.mp member with rfl | later
    · simp
    · have above := (List.pairwise_cons.mp from_thread).1 other later
      simpa using above.le
  rw [headerRow, List.filter_append, before_kept, rest_dropped, List.append_nil]

/-- A thread's section is at its place. -/
theorem rows_headerRow (sorted : Sorted Prod.fst threads) (member : thread ∈ threads) {i : ℕ}
    (inside : i < thread.2.size + 1) :
    (rows threads)[headerRow threads thread.1 + i]? = (sectionOf thread)[i]? := by
  obtain ⟨before, after, rfl⟩ := List.append_of_mem member
  rw [headerRow_eq sorted, rows_inside before after inside]

/-- Every pair of the file is a header or a thunk of one of the threads. -/
theorem rows_cases_of_sorted (sorted : Sorted Prod.fst threads) {pair : ℤ × ℤ}
    (found : (rows threads)[q]? = some pair) :
    ∃ thread ∈ threads, (q = headerRow threads thread.1 ∧ pair = (thread.1, (thread.2.size : ℤ))) ∨
      ∃ j, q = headerRow threads thread.1 + (j + 1) ∧ thread.2.toList[j]? = some pair := by
  obtain ⟨before, thread, after, i, rfl, place, pair_eq⟩ := rows_cases found
  refine ⟨thread, by simp, ?_⟩
  rw [headerRow_eq sorted]
  cases i with
  | zero => exact .inl ⟨place, (Option.some.inj pair_eq).symm⟩
  | succ j => exact .inr ⟨j, place, pair_eq⟩

/-- The section of a thread ends before those of the threads with larger indices. -/
theorem headerRow_add_le (sorted : Sorted Prod.fst threads) (member : thread ∈ threads) {t : ℤ}
    (larger : thread.1 < t) :
    headerRow threads thread.1 + (thread.2.size + 1) ≤ headerRow threads t := by
  obtain ⟨before, after, rfl⟩ := List.append_of_mem member
  have before_kept : before.filter (·.1 < t) = before := by
    rw [List.filter_eq_self]
    intro other earlier
    have smaller := (List.pairwise_append.mp sorted).2.2 other earlier thread List.mem_cons_self
    exact decide_eq_true (smaller.trans larger)
  have kept : (thread :: after).filter (·.1 < t) = thread :: after.filter (·.1 < t) :=
    List.filter_cons_of_pos (decide_eq_true larger)
  rw [headerRow_eq sorted, headerRow, List.filter_append, before_kept, kept, rows_append,
    rows_cons, List.length_append, List.length_append, length_sectionOf]
  omega

end Layout

section Walks

variable {threads before after : List (ℤ × Thunks)} {thread : ℤ × Thunks} {t : ℤ}

/-- The binary of some threads. -/
def binary (threads : List (ℤ × Thunks)) : List ℤ := wordsOf (rows threads)

theorem length_binary (threads : List (ℤ × Thunks)) :
    (binary threads).length = 2 * (rows threads).length := length_wordsOf _

/-- The two words of a section's header. -/
theorem binary_header (before after : List (ℤ × Thunks)) (thread : ℤ × Thunks) :
    (binary (before ++ thread :: after)).getD (2 * (rows before).length) 0 = thread.1 ∧
      (binary (before ++ thread :: after)).getD (2 * (rows before).length + 1) 0 =
        (thread.2.size : ℤ) := by
  obtain ⟨first, second⟩ := wordsOf_getElem? (rows (before ++ thread :: after)) (rows before).length
  have header := rows_inside before after (Nat.succ_pos thread.2.size)
  rw [Nat.add_zero] at header
  rw [header] at first second
  rw [List.getD_eq_getElem?_getD, List.getD_eq_getElem?_getD, binary, first, second]
  exact ⟨rfl, rfl⟩

/-- One step of the walk passes the section of a thread with a smaller index. -/
theorem walk_pass (smaller : thread.1 < t) {file : List ℤ}
    (file_eq : file = binary (before ++ thread :: after)) :
    walk file file.length t (2 * (rows before).length) =
      walk file file.length t (2 * (rows (before ++ [thread])).length) := by
  obtain ⟨tid, thunks⟩ := binary_header before after thread
  have inside : 2 * (rows before).length < file.length := by
    rw [file_eq, length_binary, rows_append, rows_cons]
    simp only [List.length_append, length_sectionOf]
    omega
  have next : 2 * (rows before).length + (thread.2.size * 2 + 2) =
      2 * (rows (before ++ [thread])).length := by
    rw [rows_append, rows_cons]
    simp only [List.length_append, length_sectionOf, rows, List.flatMap_nil, List.length_nil]
    omega
  rw [walk, if_pos inside, file_eq, tid, if_pos smaller, thunks, Int.toNat_natCast, next]

/-- The walk passes all threads with smaller indices. -/
theorem walk_passed (smaller : ∀ thread ∈ before, thread.1 < t) {file : List ℤ}
    (file_eq : file = binary (before ++ after)) :
    walk file file.length t 0 = walk file file.length t (2 * (rows before).length) := by
  induction before using List.reverseRecOn generalizing after with
  | nil => rfl
  | append_singleton before thread ih =>
    have earlier : ∀ other ∈ before, other.1 < t := fun other member =>
      smaller other (List.mem_append_left _ member)
    have file_split : file = binary (before ++ thread :: after) := by
      rw [file_eq, List.append_assoc, List.singleton_append]
    rw [ih earlier file_split, walk_pass (smaller thread (by simp)) file_split]

/-- **The walk finds a thread's section**, runs off the end if all indices in the
file are smaller, and stops at the first larger index otherwise. -/
theorem walk_found (sorted : Sorted Prod.fst threads) (member : thread ∈ threads) :
    walk (binary threads) (binary threads).length thread.1 0 =
      .found (2 * headerRow threads thread.1) := by
  obtain ⟨before, after, rfl⟩ := List.append_of_mem member
  have smaller : ∀ other ∈ before, other.1 < thread.1 := fun other earlier =>
    (List.pairwise_append.mp sorted).2.2 other earlier thread List.mem_cons_self
  have inside : 2 * (rows before).length < (binary (before ++ thread :: after)).length := by
    rw [length_binary, rows_append, rows_cons]
    simp only [List.length_append, length_sectionOf]
    omega
  rw [walk_passed smaller rfl, headerRow_eq sorted, walk, if_pos inside,
    (binary_header before after thread).1, if_neg (lt_irrefl _), if_neg (not_not_intro rfl)]

theorem walk_ranOff (smaller : ∀ thread ∈ threads, thread.1 < t) :
    walk (binary threads) (binary threads).length t 0 = .ranOff := by
  have file_eq : binary threads = binary (threads ++ []) := by rw [List.append_nil]
  rw [walk_passed smaller file_eq, walk, if_neg (by rw [length_binary]; exact lt_irrefl _)]

theorem walk_unexpected (sorted : Sorted Prod.fst threads)
    (unlisted : ∀ thread ∈ threads, thread.1 ≠ t)
    {later : ℤ × Thunks} (member : later ∈ threads) (larger : t < later.1) :
    walk (binary threads) (binary threads).length t 0 = .unexpected := by
  have split := sorted.filter_append t
  cases rest : threads.filter (t ≤ ·.1) with
  | nil =>
    have kept : later ∈ threads.filter (t ≤ ·.1) :=
      List.mem_filter.mpr ⟨member, decide_eq_true larger.le⟩
    rw [rest] at kept
    cases kept
  | cons first others =>
    rw [rest] at split
    have first_kept : first ∈ threads.filter (t ≤ ·.1) := rest ▸ List.mem_cons_self
    obtain ⟨first_member, first_above⟩ := List.mem_filter.mp first_kept
    have first_larger : t < first.1 :=
      lt_of_le_of_ne (of_decide_eq_true first_above) (unlisted first first_member).symm
    have smaller : ∀ other ∈ threads.filter (·.1 < t), other.1 < t := fun other kept =>
      of_decide_eq_true (List.mem_filter.mp kept).2
    generalize threads.filter (·.1 < t) = before at split smaller
    subst split
    have inside : 2 * (rows before).length < (binary (before ++ first :: others)).length := by
      rw [length_binary, rows_append, rows_cons]
      simp only [List.length_append, length_sectionOf]
      omega
    rw [walk_passed smaller rfl, walk, if_pos inside, (binary_header before others first).1,
      if_neg first_larger.not_gt, if_pos first_larger.ne']

end Walks

section Lookup

variable {lines : List Line} {outside : ℤ → Option ℤ} {t : ℤ} {k : ℕ} {c : ℤ}

/-- The pairs that are written for a schedule, and the words of the file. -/
def pairsOf (lines : List Line) : List (ℤ × ℤ) := rows (threadsOf lines)

def fileOf (lines : List Line) : List ℤ := binary (threadsOf lines)

/-- The place of the section of a thread in the file, in words. -/
def sectionStart (lines : List Line) (t : ℤ) : ℕ := 2 * headerRow (threadsOf lines) t

/-- The place of the words that a thread reads for a thunk if its pointer is to its
own section. The product is an `int`. -/
def pairAt (lines : List Line) (t : ℤ) (k : ℕ) : ℤ :=
  sectionStart lines t + Int.bmod (k * 2) (2 ^ 32)

/-- The length of the file is in the range of an `int`. -/
def Fits (lines : List Line) : Prop := 4 * (fileOf lines).length < 2 ^ 31

theorem length_fileOf (lines : List Line) : (fileOf lines).length = 2 * (pairsOf lines).length :=
  length_binary _

theorem Fits.schedSize (fits : Fits lines) :
    schedSize (fileOf lines) = some (fileOf lines).length := by
  unfold Fits at fits
  unfold Xsched.schedSize
  generalize (fileOf lines).length = length at fits ⊢
  have exact_length : Int.bmod (4 * (length : ℤ)) (2 ^ 32) = 4 * length :=
    Int.bmod_eq_of_le (by omega) (by omega)
  have size : (4 * (length : ℤ) / 4).toNat = length := by omega
  simp only [exact_length, size]
  exact if_neg (by omega)

/-- Below 2 ^ 30 the product is exact; above, it wraps to before the section. -/
theorem pairAt_cases (lines : List Line) (t : ℤ) (int : k < 2 ^ 31) :
    (k < 2 ^ 30 ∧ pairAt lines t k = ((2 * (headerRow (threadsOf lines) t + k) : ℕ) : ℤ)) ∨
      (2 ^ 30 ≤ k ∧
        pairAt lines t k + 2 ^ 32 = ((2 * (headerRow (threadsOf lines) t + k) : ℕ) : ℤ)) := by
  unfold pairAt sectionStart
  by_cases small : k < 2 ^ 30
  · have exact_product : Int.bmod ((k : ℤ) * 2) (2 ^ 32) = k * 2 :=
      Int.bmod_eq_of_le (by omega) (by omega)
    rw [exact_product]
    exact .inl ⟨small, by omega⟩
  · have wrapped : Int.bmod ((k : ℤ) * 2) (2 ^ 32) = k * 2 - 2 ^ 32 := by
      rw [← Int.sub_bmod_right]
      exact Int.bmod_eq_of_le (by omega) (by omega)
    rw [wrapped]
    exact .inr ⟨by omega, by omega⟩

/-- The words of a pair of the file. -/
theorem word_pair (outside : ℤ → Option ℤ) {q : ℕ} {pair : ℤ × ℤ}
    (found : (pairsOf lines)[q]? = some pair) :
    word (fileOf lines) (fileOf lines).length outside (2 * q : ℕ) = some pair.1 ∧
      word (fileOf lines) (fileOf lines).length outside ((2 * q : ℕ) + 1) = some pair.2 := by
  obtain ⟨first, second⟩ := wordsOf_getElem? (pairsOf lines) q
  have inside := (List.getElem?_eq_some_iff.mp found).1
  have size := length_fileOf lines
  have first_inside : InPages (fileOf lines).length ((2 * q : ℕ) : ℤ) := by
    unfold InPages
    omega
  have second_inside : InPages (fileOf lines).length (((2 * q : ℕ) : ℤ) + 1) := by
    unfold InPages
    omega
  have successor : (((2 * q : ℕ) : ℤ) + 1).toNat = 2 * q + 1 := by omega
  rw [word, if_pos first_inside, word, if_pos second_inside, Int.toNat_natCast, successor,
    List.getD_eq_getElem?_getD, List.getD_eq_getElem?_getD]
  rw [found] at first second
  exact ⟨congrArg (fun value => some (value.getD 0)) first,
    congrArg (fun value => some (value.getD 0)) second⟩

/-- Behind the file its last page holds zeros. -/
theorem word_padding (outside : ℤ → Option ℤ) {q : ℕ} (beyond : (pairsOf lines).length ≤ q)
    (pages : InPages (fileOf lines).length ((2 * q : ℕ) : ℤ)) :
    word (fileOf lines) (fileOf lines).length outside (2 * q : ℕ) = some 0 := by
  have size := length_fileOf lines
  rw [word, if_pos pages, Int.toNat_natCast, List.getD_eq_getElem?_getD,
    List.getElem?_eq_none (by omega), Option.getD_none]

/-- The words that a thread reads for thunk `k` with its pointer to its own section
do not belong to it although the first is `k`: they are the header of thread `k`, or
lie outside the pages of the file. -/
def Misread (lines : List Line) (outside : ℤ → Option ℤ) (t : ℤ) (k : ℕ) : Prop :=
  (Listed lines k ∧ sectionStart lines k = pairAt lines t k) ∨
    (¬ InPages (fileOf lines).length (pairAt lines t k) ∧
      outside (pairAt lines t k) = some (k : ℤ) ∧
      (word (fileOf lines) (fileOf lines).length outside (pairAt lines t k + 1)).isSome)

theorem getAffinity_own : getAffinity (fileOf lines) (fileOf lines).length outside k
      (.running (some (sectionStart lines t))) = some c ↔
    word (fileOf lines) (fileOf lines).length outside (pairAt lines t k) = some (k : ℤ) ∧
      word (fileOf lines) (fileOf lines).length outside (pairAt lines t k + 1) = some c := by
  unfold getAffinity pairAt
  simp only []
  split_ifs with number
  · exact ⟨fun value => ⟨number, value⟩, And.right⟩
  · exact iff_of_false (by simp) fun both => number both.1

/-- How many thunks a thread has is bounded by the length of the file. -/
theorem Fits.few (fits : Fits lines) {thread : ℤ × Thunks} (member : thread ∈ threadsOf lines) :
    thread.2.size < 2 ^ 29 := by
  obtain ⟨before, after, split⟩ := List.append_of_mem member
  have length := length_fileOf lines
  rw [pairsOf, split, rows_append, rows_cons] at length
  simp only [List.length_append, length_sectionOf] at length
  unfold Fits at fits
  omega

/-- An assigned thunk is one of the thread's section. -/
theorem assigned_row (fromOne : ThunksFromOne lines) (assigns : assigned lines t k = some c) :
    ∃ thunks, (t, thunks) ∈ threadsOf lines ∧ 1 ≤ k ∧ k ≤ thunks.size ∧
      (pairsOf lines)[headerRow (threadsOf lines) t + k]? = some ((k : ℤ), c) := by
  obtain ⟨n, numbers⟩ := fromOne t
  have positive := (numbers k).mp (by rw [assigns]; rfl)
  have listed : Listed lines t := by
    obtain ⟨line, last, -⟩ := Option.map_eq_some_iff.mp assigns
    obtain ⟨member, named⟩ := List.mem_filter.mp (List.mem_of_getLast? last)
    exact ⟨line, member, (of_decide_eq_true named).1⟩
  obtain ⟨thunks, member⟩ := listed.mem
  have place : (((k - 1 : ℕ) : ℤ) + 1) = k := by omega
  have found : thunks.toList[k - 1]? = some ((k : ℤ), c) :=
    (fromOne.toList_getElem? member).mpr ⟨place.symm, assigns⟩
  have inside : k - 1 < thunks.size := by
    rw [← Std.TreeMap.length_toList]
    exact (List.getElem?_eq_some_iff.mp found).1
  have successor : k = k - 1 + 1 := by omega
  refine ⟨thunks, member, by omega, by omega, ?_⟩
  have section_inside : k < (t, thunks).2.size + 1 := by
    change k < thunks.size + 1
    omega
  rw [pairsOf, rows_headerRow (sorted_threadsOf lines) member section_inside, sectionOf, successor,
    List.getElem?_cons_succ, ← successor, found]

/-- An assigned thunk is found. -/
theorem getAffinity_of_assigned (fits : Fits lines) (fromOne : ThunksFromOne lines)
    (int : k < 2 ^ 31) (assigns : assigned lines t k = some c) :
    getAffinity (fileOf lines) (fileOf lines).length outside k
      (.running (some (sectionStart lines t))) = some c := by
  obtain ⟨thunks, member, positive, bounded, row⟩ := assigned_row fromOne assigns
  have few : thunks.size < 2 ^ 29 := fits.few member
  rcases pairAt_cases lines t int with ⟨-, place⟩ | ⟨large, -⟩
  · rw [getAffinity_own, place]
    exact word_pair outside row
  · omega

/-- **What a lookup can find**: the thunk's own pair, or words that do not belong to
the thread. -/
theorem assigned_or_misread (fits : Fits lines) (fromOne : ThunksFromOne lines)
    (listed : Listed lines t) (int : k < 2 ^ 31)
    (found : getAffinity (fileOf lines) (fileOf lines).length outside k
      (.running (some (sectionStart lines t))) = some c) :
    assigned lines t k = some c ∨ Misread lines outside t k := by
  rw [getAffinity_own] at found
  obtain ⟨number, cpu⟩ := found
  by_cases pages : InPages (fileOf lines).length (pairAt lines t k)
  · obtain ⟨q, place⟩ : ∃ q : ℕ, pairAt lines t k = ((2 * q : ℕ) : ℤ) := by
      have nonneg := pages.1
      refine ⟨(pairAt lines t k / 2).toNat, ?_⟩
      rcases pairAt_cases lines t int with ⟨-, place⟩ | ⟨-, place⟩ <;> omega
    by_cases inside : q < (pairsOf lines).length
    · have pair_eq := List.getElem?_eq_getElem inside
      obtain ⟨first, second⟩ := word_pair outside pair_eq
      rw [place] at number cpu
      rw [first] at number
      rw [second] at cpu
      obtain ⟨thread, member, header | thunk⟩ :=
        rows_cases_of_sorted (sorted_threadsOf lines) pair_eq
      · -- a header: the index of its thread is the thunk that is looked up
        obtain ⟨row, pair_header⟩ := header
        have index : thread.1 = k := by
          rw [pair_header] at number
          exact Option.some.inj number
        refine .inr (.inl ⟨index ▸ listed_of_mem member, ?_⟩)
        rw [place, sectionStart, ← index, row]
      · -- a thunk of some section: by its number it is of the thread's own
        obtain ⟨j, row, thunk_found⟩ := thunk
        obtain ⟨thunk_number, thunk_cpu⟩ := (fromOne.toList_getElem? member).mp thunk_found
        have few := fits.few member
        have j_inside : j < thread.2.size := by
          rw [← Std.TreeMap.length_toList]
          exact (List.getElem?_eq_some_iff.mp thunk_found).1
        have k_eq : (k : ℤ) = j + 1 := by rw [← thunk_number, ← Option.some.inj number]
        have same_row : headerRow (threadsOf lines) thread.1 = headerRow (threadsOf lines) t := by
          rcases pairAt_cases lines t int with ⟨-, own⟩ | ⟨large, -⟩ <;> omega
        have same : thread.1 = t := by
          obtain ⟨thunks, own_member⟩ := listed.mem
          rcases lt_trichotomy thread.1 t with smaller | equal | larger
          · have apart := headerRow_add_le (sorted_threadsOf lines) member smaller
            omega
          · exact equal
          · have apart := headerRow_add_le (sorted_threadsOf lines) own_member larger
            simp only at apart
            omega
        rw [Option.some.inj number, Option.some.inj cpu, same] at thunk_cpu
        exact .inl thunk_cpu
    · -- the padding holds zeros, and thunk zero is looked up at the section's header
      have padding := word_padding outside (Nat.le_of_not_lt inside) (place ▸ pages)
      rw [place, padding] at number
      have zero : k = 0 := by
        have cast_zero := Option.some.inj number
        omega
      subst zero
      obtain ⟨thunks, member⟩ := listed.mem
      have header := rows_headerRow (i := 0) (sorted_threadsOf lines) member (Nat.succ_pos _)
      have header_inside : headerRow (threadsOf lines) t + 0 < (pairsOf lines).length :=
        (List.getElem?_eq_some_iff.mp (header.trans rfl)).1
      rcases pairAt_cases lines t int with ⟨-, own⟩ | ⟨large, -⟩ <;> omega
  · refine .inr (.inr ⟨pages, ?_, ?_⟩)
    · have direct : word (fileOf lines) (fileOf lines).length outside (pairAt lines t k) =
          outside (pairAt lines t k) := if_neg pages
      exact direct.symm.trans number
    · rw [cpu]
      rfl

/-- Words that do not belong to the thread are taken for an affinity. -/
theorem Misread.found (misread : Misread lines outside t k) :
    ∃ c, getAffinity (fileOf lines) (fileOf lines).length outside k
      (.running (some (sectionStart lines t))) = some c := by
  simp only [getAffinity_own]
  rcases misread with ⟨listed, place⟩ | ⟨pages, number, present⟩
  · obtain ⟨thunks, member⟩ := listed.mem
    have header := rows_headerRow (i := 0) (sorted_threadsOf lines) member (Nat.succ_pos _)
    rw [← place]
    exact ⟨_, word_pair outside (header.trans rfl)⟩
  · obtain ⟨c, cpu⟩ := Option.isSome_iff_exists.mp present
    refine ⟨c, ?_, cpu⟩
    rw [word, if_neg pages, number]

/-- Words that do not belong to the thread are not those of an assigned thunk. -/
theorem Misread.not_assigned (misread : Misread lines outside t k) (fits : Fits lines)
    (fromOne : ThunksFromOne lines) (int : k < 2 ^ 31) : assigned lines t k = none := by
  by_contra some_cpu
  obtain ⟨c, assigns⟩ := Option.ne_none_iff_exists'.mp some_cpu
  obtain ⟨thunks, member, positive, bounded, row⟩ := assigned_row fromOne assigns
  have few : thunks.size < 2 ^ 29 := fits.few member
  have own : pairAt lines t k = ((2 * (headerRow (threadsOf lines) t + k) : ℕ) : ℤ) := by
    rcases pairAt_cases lines t int with ⟨-, own⟩ | ⟨large, -⟩
    · exact own
    · omega
  rcases misread with ⟨listed, place⟩ | ⟨pages, -, -⟩
  · obtain ⟨others, other_member⟩ := listed.mem
    rw [own, sectionStart] at place
    rcases lt_trichotomy (k : ℤ) t with smaller | equal | larger
    · have apart := headerRow_add_le (sorted_threadsOf lines) other_member smaller
      simp only at apart
      omega
    · rw [equal] at place
      omega
    · have apart := headerRow_add_le (sorted_threadsOf lines) member larger
      simp only at apart
      omega
  · have inside := (List.getElem?_eq_some_iff.mp row).1
    have size := length_fileOf lines
    apply pages
    rw [own]
    unfold InPages
    omega

end Lookup

section Runs

variable {lines : List Line} {outside : ℤ → Option ℤ} {threads : List Thread} {t k : ℕ}
  {thread : Thread} {inherited : Option ℕ}

theorem updateThread_listed (inherited : Option ℕ) {t : ℤ} (listed : Listed lines t) :
    updateThread (fileOf lines) (fileOf lines).length inherited t =
      .running (some (sectionStart lines t)) := by
  obtain ⟨thunks, member⟩ := listed.mem
  rw [updateThread, fileOf, walk_found (sorted_threadsOf lines) member, sectionStart]

theorem updateThread_unexpected (inherited : Option ℕ) {t later : ℤ} (unlisted : ¬ Listed lines t)
    (listed : Listed lines later) (larger : t < later) :
    updateThread (fileOf lines) (fileOf lines).length inherited t = .aborted := by
  obtain ⟨thunks, member⟩ := listed.mem
  have other : ∀ thread ∈ threadsOf lines, thread.1 ≠ t := by
    rintro thread present rfl
    exact unlisted (listed_of_mem present)
  rw [updateThread, fileOf, walk_unexpected (sorted_threadsOf lines) other member larger]

theorem updateThread_ranOff (inherited : Option ℕ) {t : ℤ}
    (smaller : ∀ other, Listed lines other → other < t) :
    updateThread (fileOf lines) (fileOf lines).length inherited t = .running inherited := by
  have passed : ∀ thread ∈ threadsOf lines, thread.1 < t := fun thread present =>
    smaller thread.1 (listed_of_mem present)
  rw [updateThread, fileOf, walk_ranOff passed]

/-- Where the pointer of thread `t` may be: at its own section; nowhere, the thread
having been stopped because a later thread is listed; or, behind all listed threads,
at the section of some other thread, if the main thread has one. -/
structure Placed (lines : List Line) (t : ℕ) (thread : Thread) : Prop where
  own : Listed lines t → thread = .running (some (sectionStart lines t))
  stopped : ¬ Listed lines t → ∀ later, Listed lines later → t < later → thread = .aborted
  inherits : ¬ Listed lines t → (∀ other, Listed lines other → other < t) →
    ∃ schedule, thread = .running schedule ∧
      (Listed lines 0 → ∃ other, Listed lines other ∧ schedule = some (sectionStart lines other)) ∧
      (¬ Listed lines 0 → schedule = none)

/-- An unlisted thread is behind all listed ones, or a later one is listed. -/
theorem later_or_behind {t : ℕ} (unlisted : ¬ Listed lines t) :
    (∃ later, Listed lines later ∧ t < later) ∨ ∀ other, Listed lines other → other < t := by
  by_cases later : ∃ later, Listed lines later ∧ t < later
  · exact .inl later
  · refine .inr fun other listed => ?_
    push Not at later
    exact lt_of_le_of_ne (later other listed) fun same => unlisted (same ▸ listed)

/-- The thread `t` after its walk, if what it inherits is what the runtime hands
down. -/
theorem placed_updateThread
    (handed : Listed lines 0 → (∀ other, Listed lines other → other < (t : ℤ)) →
      ∃ other, Listed lines other ∧ inherited = some (sectionStart lines other))
    (nothing : ¬ Listed lines 0 → (∀ other, Listed lines other → other < (t : ℤ)) →
      inherited = none) :
    Placed lines t (updateThread (fileOf lines) (fileOf lines).length inherited t) where
  own := updateThread_listed inherited
  stopped := fun unlisted _ listed larger =>
    updateThread_unexpected inherited unlisted listed larger
  inherits := fun _ smaller =>
    ⟨inherited, updateThread_ranOff inherited smaller, fun main => handed main smaller,
      fun main => nothing main smaller⟩

/-- The runs' invariant. Other threads than the main one exist only if that one has
found its section, or no thread can have one. -/
structure RunInv (lines : List Line) (threads : List Thread) : Prop where
  placed : ∀ {t : ℕ} {thread}, t < 2 ^ 31 → threads[t]? = some thread → Placed lines t thread
  alone : threads.length = 1 ∨ Listed lines 0 ∨ ∀ other, Listed lines other → other < 0

theorem runInv_master : RunInv lines [master (fileOf lines) (fileOf lines).length] where
  placed := by
    intro t thread _ present
    have main : t = 0 := by
      have inside := (List.getElem?_eq_some_iff.mp present).1
      simpa using inside
    subst main
    obtain rfl := Option.some.inj present
    apply placed_updateThread
    · intro main smaller
      exact absurd (smaller 0 main) (lt_irrefl _)
    · intro _ _
      rfl
  alone := .inl rfl

/-- **Step.** Spawning keeps every thread's pointer in its place. -/
theorem RunInv.spawn (inv : RunInv lines threads) {parent : ℕ} {threads' : List Thread}
    (move : spawn (fileOf lines) (fileOf lines).length threads parent = some threads') :
    RunInv lines threads' := by
  unfold Xsched.spawn at move
  cases present : threads[parent]? with
  | none => rw [present] at move; cases move
  | some spawner =>
    rw [present] at move
    cases spawner with
    | aborted => cases move
    | running inherited =>
      obtain rfl := Option.some.inj move
      have parent_inside := (List.getElem?_eq_some_iff.mp present).1
      have alone : Listed lines 0 ∨ ∀ other, Listed lines other → other < 0 := by
        rcases inv.alone with single | rest
        · have main : parent = 0 := by omega
          subst main
          have placed := inv.placed (by decide) present
          by_contra neither
          push Not at neither
          obtain ⟨unlisted, later, listed, larger⟩ := neither
          have positive : 0 < later := lt_of_le_of_ne larger fun same => unlisted (same ▸ listed)
          exact Thread.noConfusion (placed.stopped unlisted later listed positive)
        · exact rest
      refine ⟨?_, .inr alone⟩
      intro t thread int found
      rcases Nat.lt_or_ge t threads.length with old | new
      · rw [List.getElem?_append_left old] at found
        exact inv.placed int found
      · have index : t = threads.length := by
          have inside := (List.getElem?_eq_some_iff.mp found).1
          rw [List.length_append, List.length_singleton] at inside
          omega
        subst index
        rw [List.getElem?_append_right le_rfl, Nat.sub_self] at found
        obtain rfl := Option.some.inj found
        have same_index : Int.bmod (threads.length : ℤ) (2 ^ 32) = threads.length :=
          Int.bmod_eq_of_le (by omega) (by omega)
        rw [same_index]
        have parent_placed := inv.placed (parent_inside.trans int) present
        -- a parent behind all listed threads hands on what it has inherited itself
        apply placed_updateThread
        · intro main _
          by_cases listed : Listed lines parent
          · exact ⟨parent, listed, (Thread.running.inj (parent_placed.own listed))⟩
          · rcases later_or_behind listed with ⟨later, later_listed, larger⟩ | behind
            · exact Thread.noConfusion (parent_placed.stopped listed later later_listed larger)
            · obtain ⟨schedule, same, handed, -⟩ := parent_placed.inherits listed behind
              rw [Thread.running.inj same]
              exact handed main
        · intro main _
          have negative := alone.resolve_left main
          have unlisted : ¬ Listed lines parent := fun listed => by
            have below := negative _ listed
            omega
          have behind : ∀ other, Listed lines other → other < (parent : ℤ) := fun other listed => by
            have below := negative _ listed
            omega
          obtain ⟨schedule, same, -, nothing⟩ := parent_placed.inherits unlisted behind
          rw [Thread.running.inj same]
          exact nothing main

/-- **Run.** -/
theorem runInv_of_reachable
    (reach : (system (fileOf lines) (fileOf lines).length).Reachable Transition.AnyStep threads) :
    RunInv lines threads := by
  refine reach.invariant (RunInv lines) ?_ ?_
  · rintro _ rfl
    exact runInv_master
  · intro threads parent threads' inv _ move
    exact inv.spawn move

end Runs

section Results

variable {lines : List Line} {outside : ℤ → Option ℤ} {threads : List Thread} {t : ℕ}
  {thread : Thread}

/-- The thread finds the cpus that the schedule assigns to its thunks, which are numbered from one,
and nothing else. -/
def Agrees (lines : List Line) (file : List ℤ) (size : ℕ) (outside : ℤ → Option ℤ) (t : ℕ)
    (thread : Thread) : Prop :=
  ∀ k, 1 ≤ k → k < 2 ^ 31 → ∀ c,
    getAffinity file size outside k thread = some c ↔ assigned lines t k = some c

/-- When the lookups of thread `t` can be followed: it is listed, and no thunk number
leads it to words that are not its own; or it is not listed, and either a later
thread is, or the main thread is not. -/
def Followed (lines : List Line) (outside : ℤ → Option ℤ) (t : ℕ) : Prop :=
  (Listed lines t ∧ ∀ k, 1 ≤ k → k < 2 ^ 31 → ¬ Misread lines outside t k) ∨
    (¬ Listed lines t ∧ ((∃ later, Listed lines later ∧ t < later) ∨ ¬ Listed lines 0))

theorem assigned_of_unlisted {t k : ℤ} (unlisted : ¬ Listed lines t) :
    assigned lines t k = none := by
  by_contra some_cpu
  obtain ⟨c, assigns⟩ := Option.ne_none_iff_exists'.mp some_cpu
  obtain ⟨line, last, -⟩ := Option.map_eq_some_iff.mp assigns
  obtain ⟨member, named⟩ := List.mem_filter.mp (List.mem_of_getLast? last)
  exact unlisted ⟨line, member, (of_decide_eq_true named).1⟩

/-- A listed thread has a first thunk. -/
theorem ThunksFromOne.first (fromOne : ThunksFromOne lines) {t : ℤ} (listed : Listed lines t) :
    ∃ c, assigned lines t 1 = some c := by
  obtain ⟨n, numbers⟩ := fromOne t
  obtain ⟨line, member, rfl⟩ := listed
  have some_thunk : (assigned lines line.pid line.tid).isSome := by
    rw [assigned, Option.isSome_map, List.getLast?_isSome]
    exact List.ne_nil_of_mem (List.mem_filter.mpr ⟨member, by simp⟩)
  have bound := (numbers _).mp some_thunk
  exact Option.isSome_iff_exists.mp ((numbers 1).mpr ⟨le_rfl, by omega⟩)

/-- A thread that finds nothing agrees with a schedule that does not list it. -/
theorem agrees_of_unlisted (unlisted : ¬ Listed lines t)
    (finds_nothing : ∀ k,
      getAffinity (fileOf lines) (fileOf lines).length outside k thread = none) :
    Agrees lines (fileOf lines) (fileOf lines).length outside t thread := by
  intro k _ _ c
  rw [finds_nothing, assigned_of_unlisted unlisted]

/-- With its pointer to its own section, a thread agrees with the schedule unless
some thunk number is misread. -/
theorem agrees_own_iff (fits : Fits lines) (fromOne : ThunksFromOne lines)
    (listed : Listed lines t) :
    Agrees lines (fileOf lines) (fileOf lines).length outside t
      (.running (some (sectionStart lines t))) ↔
        ∀ k, 1 ≤ k → k < 2 ^ 31 → ¬ Misread lines outside t k := by
  constructor
  · intro agrees k positive int misread
    obtain ⟨c, found⟩ := misread.found
    have assigns := (agrees k positive int c).mp found
    rw [misread.not_assigned fits fromOne int] at assigns
    cases assigns
  · intro no_misread k positive int c
    constructor
    · intro found
      exact (assigned_or_misread fits fromOne listed int found).resolve_right
        (no_misread k positive int)
    · exact getAffinity_of_assigned fits fromOne int

/-- With its pointer to the section of another thread, a thread takes that thread's
first cpu for its own. -/
theorem not_agrees_other (fits : Fits lines) (fromOne : ThunksFromOne lines) {other : ℤ}
    (unlisted : ¬ Listed lines t) (listed : Listed lines other) :
    ¬ Agrees lines (fileOf lines) (fileOf lines).length outside t
      (.running (some (sectionStart lines other))) := by
  intro agrees
  obtain ⟨c, assigns⟩ := fromOne.first listed
  have found : getAffinity (fileOf lines) (fileOf lines).length outside 1
      (.running (some (sectionStart lines other))) = some c :=
    getAffinity_of_assigned fits fromOne (by decide) assigns
  have own := (agrees 1 le_rfl (by decide) c).mp found
  rw [assigned_of_unlisted unlisted] at own
  cases own

theorem Placed.agrees_iff (placed : Placed lines t thread) (fits : Fits lines)
    (fromOne : ThunksFromOne lines) :
    Agrees lines (fileOf lines) (fileOf lines).length outside t thread ↔
      Followed lines outside t := by
  by_cases listed : Listed lines t
  · rw [placed.own listed, agrees_own_iff fits fromOne listed]
    simp [Followed, listed]
  · rcases later_or_behind listed with ⟨later, later_listed, larger⟩ | behind
    · rw [placed.stopped listed later later_listed larger]
      exact iff_of_true (agrees_of_unlisted listed fun _ => rfl)
        (.inr ⟨listed, .inl ⟨later, later_listed, larger⟩⟩)
    · obtain ⟨schedule, rfl, handed, nothing⟩ := placed.inherits listed behind
      by_cases main : Listed lines 0
      · obtain ⟨other, other_listed, rfl⟩ := handed main
        refine iff_of_false (not_agrees_other fits fromOne listed other_listed) ?_
        rintro (own | ⟨-, ⟨later, later_listed, larger⟩ | unlisted⟩)
        · exact listed own.1
        · exact (behind later later_listed).not_gt larger
        · exact unlisted main
      · obtain rfl := nothing main
        exact iff_of_true (agrees_of_unlisted listed fun _ => rfl) (.inr ⟨listed, .inr main⟩)

/-- **The compiler and the lookup agree** on exactly the threads whose lookups can
be followed, whatever threads have spawned them. -/
theorem agrees_iff_followed {text : List (List Char)} {file : List ℤ} {size : ℕ}
    (read : readSchedule text = some lines) (fromOne : ThunksFromOne lines)
    (written : thunkScheduler text = some file) (fits : 4 * file.length < 2 ^ 31)
    (loaded : schedSize file = some size)
    (reach : (system file size).Reachable Transition.AnyStep threads) (int : t < 2 ^ 31)
    (present : threads[t]? = some thread) :
    Agrees lines file size outside t thread ↔ Followed lines outside t := by
  have file_eq : file = fileOf lines := by
    rw [thunkScheduler, read] at written
    exact (Option.some.inj written).symm
  subst file_eq
  have lines_fit : Fits lines := fits
  obtain rfl : (fileOf lines).length = size := by
    rw [lines_fit.schedSize] at loaded
    exact Option.some.inj loaded
  exact ((runInv_of_reachable reach).placed int present).agrees_iff lines_fit fromOne

/-- A thunk for each of the first two threads: `0 1 3` and `1 1 4`. -/
def twoThreads : List (List Char) := [['0', ' ', '1', ' ', '3'], ['1', ' ', '1', ' ', '4']]

theorem readSchedule_twoThreads : readSchedule twoThreads = some [⟨0, 1, 3⟩, ⟨1, 1, 4⟩] := by
  decide +kernel

theorem thunkScheduler_twoThreads :
    thunkScheduler twoThreads = some [0, 1, 1, 3, 1, 1, 1, 4] := by decide +kernel

theorem thunksFromOne_twoThreads : ThunksFromOne [⟨0, 1, 3⟩, ⟨1, 1, 4⟩] := by
  intro t
  by_cases listed : t = 0 ∨ t = 1
  · refine ⟨1, fun k => ?_⟩
    by_cases first : k = 1
    · rcases listed with rfl | rfl <;> simp [assigned, first]
    · have other : assigned [⟨0, 1, 3⟩, ⟨1, 1, 4⟩] t k = none := by
        simp [assigned, Ne.symm first]
      rw [other]
      simp only [Option.isSome_none, Bool.false_eq_true, false_iff]
      omega
  · refine ⟨0, fun k => ?_⟩
    rw [assigned_of_unlisted (by simpa [Listed, eq_comm] using listed)]
    simp only [Option.isSome_none, Bool.false_eq_true, false_iff]
    omega

theorem reachable_twoThreads : (system [0, 1, 1, 3, 1, 1, 1, 4] 8).Reachable Transition.AnyStep
    [.running (some 0), .running (some 4)] := by
  have main : master [0, 1, 1, 3, 1, 1, 1, 4] 8 = .running (some 0) := by decide +kernel
  apply Transition.System.Reachable.step 0 (.init rfl) trivial
  rw [main]
  decide +kernel

/-- Both threads have a section, and no other thread has one. -/
theorem followed_twoThreads : Followed [⟨0, 1, 3⟩, ⟨1, 1, 4⟩] (fun _ => none) 1 := by
  refine .inl ⟨by simp [Listed], ?_⟩
  rintro k positive - (⟨listed, place⟩ | ⟨-, number, -⟩)
  · have one : k = 1 := by
      simp only [Listed, List.mem_cons, List.not_mem_nil, or_false, exists_eq_or_imp,
        exists_eq_left] at listed
      omega
    subst one
    revert place
    decide +kernel
  · cases number

/-- The child of a main thread, both of them with one thunk. -/
theorem agrees_iff_followed_twoThreads :
    Followed [⟨0, 1, 3⟩, ⟨1, 1, 4⟩] (fun _ => none) 1 ∧
      (Agrees [⟨0, 1, 3⟩, ⟨1, 1, 4⟩] [0, 1, 1, 3, 1, 1, 1, 4] 8 (fun _ => none) 1
        (.running (some 4)) ↔ Followed [⟨0, 1, 3⟩, ⟨1, 1, 4⟩] (fun _ => none) 1) :=
  ⟨followed_twoThreads, agrees_iff_followed readSchedule_twoThreads thunksFromOne_twoThreads
    thunkScheduler_twoThreads (by decide) (by decide +kernel) reachable_twoThreads (by decide) rfl⟩

/-- One line, for the main thread: `0 1 5`. -/
def oneThunk : List (List Char) := [['0', ' ', '1', ' ', '5']]

theorem readSchedule_oneThunk : readSchedule oneThunk = some [⟨0, 1, 5⟩] := by decide +kernel

theorem thunkScheduler_oneThunk : thunkScheduler oneThunk = some [0, 1, 1, 5] := by decide +kernel

theorem thunksFromOne_oneThunk : ThunksFromOne [⟨0, 1, 5⟩] := by
  intro t
  by_cases main : t = 0
  · refine ⟨1, fun k => ?_⟩
    by_cases first : k = 1
    · simp [assigned, main, first]
    · have other : assigned [⟨0, 1, 5⟩] t k = none := by simp [assigned, Ne.symm first]
      rw [other]
      simp only [Option.isSome_none, Bool.false_eq_true, false_iff]
      omega
  · refine ⟨0, fun k => ?_⟩
    rw [assigned_of_unlisted (by simp [Listed, Ne.symm main])]
    simp only [Option.isSome_none, Bool.false_eq_true, false_iff]
    omega

theorem reachable_oneThunk : (system [0, 1, 1, 5] 4).Reachable Transition.AnyStep
    [.running (some 0), .running (some 0)] := by
  have main : master [0, 1, 1, 5] 4 = .running (some 0) := by decide +kernel
  apply Transition.System.Reachable.step 0 (.init rfl) trivial
  rw [main]
  decide +kernel

/-- The child is not listed, keeps its parent's pointer and runs its first thunk on
its parent's cpu. -/
theorem not_agrees_oneThunk : ∃ (text : List (List Char)) (lines : List Line) (file : List ℤ)
    (size : ℕ) (threads : List Thread) (t : ℕ) (thread : Thread),
    readSchedule text = some lines ∧ ThunksFromOne lines ∧ thunkScheduler text = some file ∧
      schedSize file = some size ∧ (system file size).Reachable Transition.AnyStep threads ∧
      threads[t]? = some thread ∧ ¬ Agrees lines file size (fun _ => none) t thread := by
  refine ⟨oneThunk, [⟨0, 1, 5⟩], [0, 1, 1, 5], 4, [.running (some 0), .running (some 0)], 1,
    .running (some 0), readSchedule_oneThunk, thunksFromOne_oneThunk, thunkScheduler_oneThunk,
    by decide +kernel, reachable_oneThunk, rfl, ?_⟩
  intro agrees
  have found : getAffinity [0, 1, 1, 5] 4 (fun _ => none) 1 (.running (some 0)) = some 5 := by
    decide +kernel
  have assigns := (agrees 1 le_rfl (by decide) 5).mp found
  rw [assigned_of_unlisted (by simp [Listed])] at assigns
  cases assigns

end Results

end Xsched

end Tthread
