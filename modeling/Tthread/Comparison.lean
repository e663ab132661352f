/-
# The orders of the two simulators

Both simulators read the same trace. For the rack simulator a thunk is over when its thread goes
on to another one or finishes, for the NUMA simulator as soon as it has ended. A trace notes the
end of a thunk before its thread goes on, so what the rack simulator puts in order the NUMA
simulator does too; of the rest it also orders the thunks that have ended while their threads have
not gone on.
-/

import Mathlib.Tactic.IntervalCases
import Tthread.Numasim
import Tthread.ThunkOrder

namespace Tthread.Dtl

open Folds Growth Relation

variable {rows : List Row} {row : Row} {p p' : Programm} {a b tid : ThunkId} {i j : ℕ}

/-- The thunk starts in this row. -/
def ThunkRow (rows : List Row) (i : ℕ) (tid : ThunkId) : Prop :=
  ∃ cpu, rows[i]? = some (.thunk tid.1 tid.2 cpu)

/-- The thread goes on to a thunk, or finishes. -/
def Row.Leaves (thread : ℤ) : Row → Prop
  | .thunk t _ _ | .finish t _ => t = thread
  | _ => False

/-- The thread of the thunk in row `i` has gone on when row `j` has been read. -/
def GoesOn (rows : List Row) (i j : ℕ) (thread : ℤ) : Prop :=
  ∃ l row, i < l ∧ l ≤ j ∧ rows[l]? = some row ∧ row.Leaves thread

/-- Whatever is noted behind a thunk by which its thread goes on, the end of the thunk stands in
between. -/
def EndsFirst (rows : List Row) : Prop :=
  ∀ i j tid, ThunkRow rows i tid → GoesOn rows i j tid.1 →
    Numasim.EndedBefore rows i j tid.1 tid.2

/-! ## What the rack simulator orders -/

theorem ThunkRow.lt (start : ThunkRow rows i tid) : i < rows.length := by
  obtain ⟨cpu, found⟩ := start
  exact (List.getElem?_eq_some_iff.mp found).1

theorem thunkRow_concat : ThunkRow (rows ++ [row]) i tid ↔
    ThunkRow rows i tid ∨ i = rows.length ∧ ∃ cpu, row = .thunk tid.1 tid.2 cpu := by
  constructor
  · rintro ⟨cpu, found⟩
    obtain old | ⟨last, new⟩ := Numasim.getElem?_concat_cases found
    · exact .inl ⟨cpu, old⟩
    · exact .inr ⟨last, cpu, new.symm⟩
  · rintro (⟨cpu, found⟩ | ⟨rfl, cpu, rfl⟩)
    · exact ⟨cpu, Numasim.getElem?_concat found⟩
    · exact ⟨cpu, by simp⟩

theorem goesOn_concat_of_lt (inside : j < rows.length) {thread : ℤ} :
    GoesOn (rows ++ [row]) i j thread ↔ GoesOn rows i j thread := by
  constructor
  · rintro ⟨l, next, after, before, found, leaves⟩
    exact ⟨l, next, after, before, Numasim.of_getElem?_concat (before.trans_lt inside) found,
      leaves⟩
  · rintro ⟨l, next, after, before, found, leaves⟩
    exact ⟨l, next, after, before, Numasim.getElem?_concat found, leaves⟩

theorem goesOn_concat_last (start : i < rows.length) {thread : ℤ} :
    GoesOn (rows ++ [row]) i rows.length thread ↔
      GoesOn rows i rows.length thread ∨ row.Leaves thread := by
  constructor
  · rintro ⟨l, next, after, before, found, leaves⟩
    obtain old | ⟨-, rfl⟩ := Numasim.getElem?_concat_cases found
    · exact .inl ⟨l, next, after, before, old, leaves⟩
    · exact .inr leaves
  · rintro (⟨l, next, after, before, found, leaves⟩ | leaves)
    · exact ⟨l, next, after, before, Numasim.getElem?_concat found, leaves⟩
    · exact ⟨rows.length, row, start, le_rfl, by simp, leaves⟩

/-- Whoever goes on at all does so in one of the rows. -/
theorem goesOn_of_exists {thread : ℤ} (goes : GoesOn rows i j thread) :
    GoesOn rows i rows.length thread := by
  obtain ⟨l, row, after, -, found, leaves⟩ := goes
  exact ⟨l, row, after, (List.getElem?_eq_some_iff.mp found).1.le, found, leaves⟩

theorem goesOn_concat_length (start : i < rows.length) {thread : ℤ} :
    GoesOn (rows ++ [row]) i (rows ++ [row]).length thread ↔
      GoesOn rows i rows.length thread ∨ row.Leaves thread := by
  rw [← goesOn_concat_last start]
  constructor
  · rintro ⟨l, next, after, -, found, leaves⟩
    have inside := (List.getElem?_eq_some_iff.mp found).1
    rw [List.length_append, List.length_singleton] at inside
    exact ⟨l, next, after, Nat.le_of_lt_succ inside, found, leaves⟩
  · exact goesOn_of_exists

/-- What `Programm` knows of the rows: a thunk is current as long as its thread has not gone on,
and paths lead from the thunks whose threads have gone on. -/
structure Recorded (rows : List Row) (p : Programm) : Prop where
  known : ∀ a, p.Known a ↔ ∃ i, ThunkRow rows i a
  once : ∀ i j a, ThunkRow rows i a → ThunkRow rows j a → i = j
  current : ∀ i a, ThunkRow rows i a → (p.Current a ↔ ¬ GoesOn rows i rows.length a.1)
  path : ∀ i j a b, ThunkRow rows i a → ThunkRow rows j b → (p.Path a b ↔ GoesOn rows i j a.1)

theorem recorded_new : Recorded [] Programm.new where
  known := by simp [Programm.Known, Programm.new, ThunkRow]
  once := by simp [ThunkRow]
  current := by simp [ThunkRow]
  path := by simp [ThunkRow]

/-- A row that starts no thunk. -/
theorem Recorded.pass (recorded : Recorded rows p) (known : ∀ a, p'.Known a ↔ p.Known a)
    (edge : p'.Edge = p.Edge) (notThunk : row.isThunk = false)
    (current : ∀ a, p'.Current a ↔ p.Current a ∧ ¬ row.Leaves a.1) :
    Recorded (rows ++ [row]) p' := by
  have same : ∀ {i a}, ThunkRow (rows ++ [row]) i a ↔ ThunkRow rows i a := by
    intro i a
    rw [thunkRow_concat]
    refine or_iff_left ?_
    rintro ⟨-, cpu, rfl⟩
    cases notThunk
  refine ⟨fun a => ?_, fun i j a first second => ?_, fun i a start => ?_,
    fun i j a b first second => ?_⟩
  · rw [known, recorded.known]
    exact exists_congr fun i => same.symm
  · exact recorded.once i j a (same.mp first) (same.mp second)
  · have start := same.mp start
    rw [current, recorded.current i a start, goesOn_concat_length start.lt, not_or]
  · have first := same.mp first
    have second := same.mp second
    rw [goesOn_concat_of_lt second.lt, ← recorded.path i j a b first second]
    unfold Programm.Path
    rw [edge]

/-- A row that starts a thunk. -/
theorem Recorded.start (recorded : Recorded rows p) (inv : OrderInv rows p) {cpu : ℤ}
    (starts : Starts p p' tid) : Recorded (rows ++ [.thunk tid.1 tid.2 cpu]) p' := by
  have fresh : ∀ {i}, ¬ ThunkRow rows i tid := fun old =>
    starts.new ((recorded.known tid).mpr ⟨_, old⟩)
  have split : ∀ {i a}, ThunkRow (rows ++ [.thunk tid.1 tid.2 cpu]) i a ↔
      ThunkRow rows i a ∨ i = rows.length ∧ a = tid := by
    intro i a
    rw [thunkRow_concat]
    refine or_congr_right (and_congr_right fun _ => ⟨?_, ?_⟩)
    · rintro ⟨_, same⟩
      obtain ⟨thread, thunk, -⟩ := Row.thunk.inj same
      exact Prod.ext thread.symm thunk.symm
    · rintro rfl
      exact ⟨cpu, rfl⟩
  refine ⟨fun a => ?_, fun i j a first second => ?_, fun i a start => ?_,
    fun i j a b first second => ?_⟩
  · rw [starts.known, recorded.known]
    constructor
    · rintro (rfl | ⟨i, old⟩)
      · exact ⟨rows.length, split.mpr (.inr ⟨rfl, rfl⟩)⟩
      · exact ⟨i, split.mpr (.inl old)⟩
    · rintro ⟨i, start⟩
      obtain old | ⟨-, rfl⟩ := split.mp start
      · exact .inr ⟨i, old⟩
      · exact .inl rfl
  · obtain old | ⟨rfl, rfl⟩ := split.mp first
    · obtain old' | ⟨-, rfl⟩ := split.mp second
      · exact recorded.once i j a old old'
      · exact absurd old fresh
    · obtain old' | ⟨rfl, -⟩ := split.mp second
      · exact absurd old' fresh
      · rfl
  · obtain old | ⟨rfl, rfl⟩ := split.mp start
    · have different : a ≠ tid := fun same => fresh (same ▸ old)
      rw [starts.current, or_iff_right different, recorded.current i a old,
        goesOn_concat_length old.lt, not_or]
      refine and_congr_right fun _ => not_congr ?_
      exact eq_comm
    · rw [starts.current]
      refine iff_of_true (.inl rfl) ?_
      rintro ⟨l, row, after, -, found, -⟩
      have inside := (List.getElem?_eq_some_iff.mp found).1
      rw [List.length_append, List.length_singleton] at inside
      omega
  · obtain old | ⟨rfl, rfl⟩ := split.mp first
    · obtain old' | ⟨rfl, rfl⟩ := split.mp second
      · have different : b ≠ tid := fun same => fresh (same ▸ old')
        rw [starts.path_iff inv different, recorded.path i j a b old old',
          goesOn_concat_of_lt old'.lt]
      · -- paths to the new thunk
        rw [goesOn_concat_last old.lt]
        have known := (recorded.known a).mpr ⟨i, old⟩
        by_cases own : a.1 = b.1
        · exact iff_of_true (starts.path_new inv known fun _ => own) (.inr own.symm)
        · have apart : ¬ (Row.thunk b.1 b.2 cpu).Leaves a.1 := fun same => own same.symm
          rw [or_iff_left apart]
          by_cases goes : GoesOn rows i rows.length a.1
          · have past := not_not.mpr goes
            rw [← recorded.current i a old] at past
            exact iff_of_true (starts.path_new inv known fun running => absurd running past) goes
          · have running := (recorded.current i a old).mpr goes
            exact iff_of_false (starts.not_path_new inv running own) goes
    · -- nothing lies behind the new one
      refine iff_of_false ?_ ?_
      · refine not_transGen_of_source fun c edge => ?_
        rw [starts.edge] at edge
        obtain old | ⟨member, -⟩ := edge
        · exact (starts.fresh inv).source c old
        · exact (starts.fresh inv).outside member
      · rintro ⟨l, row, after, before, -, -⟩
        have inside := second.lt
        rw [List.length_append, List.length_singleton] at inside
        omega

theorem Recorded.step (recorded : Recorded rows p) (inv : OrderInv rows p)
    (moved : parseRow p row = .ok p') : Recorded (rows ++ [row]) p' := by
  have data : ∀ {tid data data'}, p.thunks tid = some data → row.isThunk = false →
      (∀ thread, ¬ row.Leaves thread) →
      Recorded (rows ++ [row]) { p with thunks := Function.update p.thunks tid (some data') } := by
    intro tid data data' there notThunk stays
    exact recorded.pass (known_update there) rfl notThunk fun a =>
      (and_iff_left (stays a.1)).symm
  cases row with
  | thunk thread thunk cpu =>
    have starts := addThunk_ok moved
    exact recorded.start inv starts
  | finish thread thunk =>
    have finishes := addFinish_ok moved
    refine recorded.pass finishes.known finishes.edge rfl fun a => ?_
    rw [finishes.current]
    exact and_congr_right fun _ => ne_comm
  | ended thread thunk time =>
    obtain ⟨_, _, there, rfl⟩ := addEnd_ok moved
    exact data there rfl fun _ => id
  | read thread thunk first last =>
    obtain ⟨_, _, there, rfl⟩ := addRead_ok moved
    exact data there rfl fun _ => id
  | write thread thunk first last =>
    obtain ⟨_, _, there, rfl⟩ := addWrite_ok moved
    exact data there rfl fun _ => id
  | other command => cases moved

theorem recorded_of_parseDtl (parsed : parseDtl rows = .ok p) (finishes : FinishesCurrent rows) :
    Recorded rows p := by
  induction rows using List.reverseRecOn generalizing p with
  | nil =>
    obtain rfl := Except.ok.inj parsed
    exact recorded_new
  | append_singleton rows row ih =>
    obtain ⟨middle, before, moved⟩ := foldlM_append_ok.mp parsed
    rw [foldlM_singleton] at moved
    exact (ih before finishes.of_concat).step (orderInv_of_parseDtl before finishes.of_concat) moved

/-! ## What both order -/

/-- **The simulators agree.** On every trace that both accept, the NUMA simulator orders two thunks
exactly if the rack simulator does, or if the first one has ended and its thread has not gone on
when the other one starts. -/
theorem numasim_path_iff {s : Numasim.LoadState} (parsed : parseDtl rows = .ok p)
    (loaded : Numasim.load rows = some s) (finishes : FinishesCurrent rows)
    (follows : Numasim.Follows rows) (distinct : Numasim.DistinctThreads rows)
    (ends : EndsFirst rows) (first : ThunkRow rows i a) (second : ThunkRow rows j b) :
    Frontier.Path s.edges (Numasim.taskOf rows i) (Numasim.taskOf rows j) ↔
      p.Path a b ∨ Numasim.EndedBefore rows i j a.1 a.2 ∧ ¬ GoesOn rows i j a.1 := by
  rw [(recorded_of_parseDtl parsed finishes).path i j a b first second]
  have early := ends i j a first
  obtain ⟨cpu, found⟩ := first
  obtain ⟨cpu', found'⟩ := second
  have ordered : Numasim.EndedBefore rows i j a.1 a.2 →
      Frontier.Path s.edges (Numasim.taskOf rows i) (Numasim.taskOf rows j) :=
    (Numasim.covers_of_load loaded follows).paths i j _ _ _ _ _ _ found found'
  constructor
  · intro path
    by_cases goes : GoesOn rows i j a.1
    · exact .inl goes
    · refine .inr ⟨?_, goes⟩
      by_contra running
      -- a thread with a later thunk has gone on
      have last : ¬ Numasim.FollowedBy rows i j a.1 := by
        rintro ⟨l, thunk, cpu, after, before, later⟩
        exact goes ⟨l, _, after, before, later, rfl⟩
      exact (Numasim.joined_of_load loaded distinct).not_path (Numasim.traced_of_load loaded)
        found found' running last path
  · rintro (goes | ⟨ended, -⟩)
    · exact ordered (early goes)
    · exact ordered ended

/-- The second thunk starts when the first one has ended, and the third one when the thread of the
first one has gone on. -/
def relay : List Row :=
  [.thunk 1 1 0, .ended 1 1 10, .thunk 2 1 0, .thunk 1 2 0, .thunk 3 1 0]

theorem endsFirst_relay : EndsFirst relay := by
  rintro i j ⟨thread, thunk⟩ ⟨cpu, start⟩ ⟨l, row, after, before, found, leaves⟩
  have inside := (List.getElem?_eq_some_iff.mp found).1
  have first : i < 4 := after.trans_le (Nat.le_of_lt_succ inside)
  have known : l < 5 := inside
  interval_cases i <;> interval_cases l <;> cases start <;> cases found <;>
    first | omega | cases leaves
  exact ⟨1, 10, by omega, by omega, rfl⟩

theorem distinct_relay : Numasim.DistinctThreads relay := by
  intro first member second member' thread thunk thread' thunk' id id' same
  simp only [relay, List.mem_cons, List.not_mem_nil, or_false] at member member'
  rcases member with rfl | rfl | rfl | rfl | rfl <;>
    rcases member' with rfl | rfl | rfl | rfl | rfl <;>
    · cases id
      cases id'
      first
      | rfl
      | exact absurd same (by decide)

/-- Both simulators accept it, and the second thunk is behind the first one in one of them. -/
theorem numasim_path_relay : ∃ p s, parseDtl relay = .ok p ∧ Numasim.load relay = some s ∧
    (Frontier.Path s.edges 1 2 ↔
      p.Path (1, 1) (2, 1) ∨ Numasim.EndedBefore relay 0 2 1 1 ∧ ¬ GoesOn relay 0 2 1) := by
  have accepted : (Numasim.load relay).isSome := by decide +kernel
  obtain ⟨s, loaded⟩ := Option.isSome_iff_exists.mp accepted
  have finishes : FinishesCurrent relay := by
    rintro earlier thread thunk later same
    have member : Row.finish thread thunk ∈ relay := by
      rw [same]
      simp
    simp [relay] at member
  have follows : Numasim.Follows relay := by
    have longer : Numasim.Follows (Numasim.handover ++ [.thunk 1 2 0]) :=
      Numasim.follows_handover.concat fun _ _ => trivial
    have whole : Numasim.Follows (Numasim.handover ++ [.thunk 1 2 0] ++ [.thunk 3 1 0]) :=
      longer.concat fun _ _ => trivial
    exact whole
  have first : ThunkRow relay 0 (1, 1) := ⟨0, rfl⟩
  have second : ThunkRow relay 2 (2, 1) := ⟨0, rfl⟩
  have parsed : (parseDtl relay).toBool = true := by decide +kernel
  cases parse : parseDtl relay with
  | error => rw [parse] at parsed; cases parsed
  | ok p =>
    exact ⟨p, s, rfl, loaded, numasim_path_iff parse loaded finishes follows distinct_relay
      endsFirst_relay first second⟩

end Tthread.Dtl
