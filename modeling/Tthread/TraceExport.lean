/-
# Exporting a log and importing the trace

The importer is followed along the log: what it holds after the rows of the events
so far is what the log says about the threads, whatever the access lists are. An
event that is expected takes both sides on; any other one stops one of them, except
for an access in front of a thread's first thunk, whose address is booked to a
thunk that no row brings back. So export and import are faithful on exactly the
logs all of whose events are expected.
-/

import Tthread.Dtl
import Tthread.Library.Folds

namespace Tthread

namespace Dtl

open Runs Folds

section Log

variable {log : List Event} {event : Event} {thread : ℤ} {tid : ThunkId} {address : ℕ}

theorem statusOf_concat (log : List Event) (event : Event) (thread : ℤ) :
    statusOf (log ++ [event]) thread = (statusOf log thread).next thread event := by
  rw [statusOf, List.foldl_append]
  rfl

theorem started_concat : Started (log ++ [event]) tid ↔
    Started log tid ∨ ∃ cpu, event = .thunk tid.1 tid.2 cpu := by
  simp only [Started, List.mem_append, List.mem_singleton, exists_or]
  exact or_congr_right (exists_congr fun cpu => eq_comm)

theorem Started.concat (started : Started log tid) : Started (log ++ [event]) tid :=
  started_concat.mpr (.inl started)

/-- The current thunk of a thread has started. -/
theorem started_of_status {id : ℤ} (current : (statusOf log thread).thunk = some id) :
    Started log (thread, id) := by
  induction log using List.reverseRecOn with
  | nil => cases current
  | append_singleton log event ih =>
    rw [statusOf_concat] at current
    cases event with
    | thunk t k cpu =>
      by_cases same : t = thread
      · subst same
        simp only [Status.next, if_true, Option.some_inj] at current
        subst current
        exact started_concat.mpr (.inr ⟨cpu, rfl⟩)
      · simp only [Status.next, if_neg same] at current
        exact (ih current).concat
    | finish t =>
      simp only [Status.next] at current
      split_ifs at current <;> exact (ih current).concat
    | ended t time =>
      simp only [Status.next] at current
      split_ifs at current <;> exact (ih current).concat
    | _ => exact (ih current).concat

/-- A longer log has the accesses of the shorter one, and that of its last event. -/
theorem logged_concat {access : ℤ → ℕ → Event} : Logged access (log ++ [event]) tid address ↔
    Logged access log tid address ∨
      event = access tid.1 address ∧ currentOf log tid.1 = tid.2 := by
  constructor
  · rintro ⟨earlier, later, split, current⟩
    rcases List.eq_nil_or_concat later with rfl | ⟨others, final, rfl⟩
    · obtain ⟨rfl, same⟩ := List.append_inj' split rfl
      exact .inr ⟨(List.cons.inj same).1, current⟩
    · rw [List.concat_eq_append, ← List.cons_append, ← List.append_assoc] at split
      obtain ⟨rfl, -⟩ := List.append_inj' split rfl
      exact .inl ⟨earlier, others, rfl, current⟩
  · rintro (⟨earlier, later, rfl, current⟩ | ⟨rfl, current⟩)
    · exact ⟨earlier, later ++ [event], by simp, current⟩
    · exact ⟨log, [], rfl, current⟩

theorem WellOrdered.of_concat (ordered : WellOrdered (log ++ [event])) : WellOrdered log := by
  intro earlier entry later split
  apply ordered earlier entry (later ++ [event])
  rw [split, List.append_assoc, List.cons_append]

theorem WellOrdered.last (ordered : WellOrdered (log ++ [event])) : Expected log event :=
  ordered log event [] rfl

theorem WellOrdered.concat (ordered : WellOrdered log) (expected : Expected log event) :
    WellOrdered (log ++ [event]) := by
  intro earlier entry later split
  rcases List.eq_nil_or_concat later with rfl | ⟨others, final, rfl⟩
  · obtain ⟨rfl, same⟩ := List.append_inj' split rfl
    rw [← (List.cons.inj same).1]
    exact expected
  · rw [List.concat_eq_append, ← List.cons_append, ← List.append_assoc] at split
    obtain ⟨same, -⟩ := List.append_inj' split rfl
    exact ordered earlier entry others same

theorem PositiveThunks.of_append {later : List Event} (positive : PositiveThunks (log ++ later)) :
    PositiveThunks log := fun thread id cpu member =>
  positive thread id cpu (List.mem_append_left _ member)

theorem PositiveThunks.started (positive : PositiveThunks log) (started : Started log tid) :
    0 < tid.2 := by
  obtain ⟨cpu, member⟩ := started
  exact positive _ _ _ member

/-- A thunk that a thread has logged for, without being its first, has started. -/
theorem WellOrdered.started_of_logged (ordered : WellOrdered log) (access : ℤ → ℕ → Event)
    (needs : ∀ earlier t a, Expected earlier (access t a) → (statusOf earlier t).thunk ≠ none)
    (logged : Logged access log tid address) : Started log tid := by
  obtain ⟨earlier, later, split, current⟩ := logged
  have present := needs earlier _ _ (ordered earlier _ later split)
  obtain ⟨id, status⟩ := Option.ne_none_iff_exists'.mp present
  have same : id = tid.2 := by
    rw [currentOf, status] at current
    exact current
  have started := started_of_status status
  rw [same] at started
  obtain ⟨cpu, member⟩ := started
  exact ⟨cpu, split ▸ List.mem_append_left _ member⟩

end Log

/-! ## The exporter -/

section Export

variable {log : List Event} {event : Event} {w w' : Writer} {thread : ℤ}

/-- The entries that an event adds to the order. -/
def itemsOf (w : Writer) : Event → List Item
  | .thunk thread id cpu => [.thunk thread id cpu]
  | .ended thread time => [.ended thread ((w.curThreads thread).getD 0) time]
  | .finish thread => [.finish thread ((w.curThreads thread).getD 0)]
  | _ => []

theorem atThunk_frame (w : Writer) (thread : ℤ) : (w.atThunk thread).thunkOrder = w.thunkOrder ∧
    (w.atThunk thread).readSet = w.readSet ∧ (w.atThunk thread).writeSet = w.writeSet := by
  unfold Writer.atThunk
  cases w.curThreads thread <;> exact ⟨rfl, rfl, rfl⟩

/-- Booking a thread without a thunk to thunk 0 changes no thread's current thunk. -/
theorem atThunk_cur (w : Writer) (thread t : ℤ) :
    ((w.atThunk thread).curThreads t).getD 0 = (w.curThreads t).getD 0 := by
  unfold Writer.atThunk
  cases known : w.curThreads thread with
  | some id => rfl
  | none =>
    by_cases same : t = thread
    · subst same
      simp [known]
    · simp [same]

theorem atThunk_some {id : ℤ} {t : ℤ} (known : w.curThreads t = some id) :
    (w.atThunk thread).curThreads t = some id := by
  unfold Writer.atThunk
  cases absent : w.curThreads thread with
  | some other => exact known
  | none =>
    have other : t ≠ thread := by
      rintro rfl
      rw [known] at absent
      cases absent
    exact (Function.update_of_ne other _ _).trans known

/-- What an event adds to the order. -/
theorem save_order (saved : save w event = .ok w') :
    w'.thunkOrder = w.thunkOrder ++ itemsOf w event := by
  cases event with
  | invalid =>
    cases saved
    simp [itemsOf]
  | write t a =>
    cases saved
    simp [itemsOf, saveWrite, (atThunk_frame w t).1]
  | read t a =>
    cases saved
    simp [itemsOf, saveRead, (atThunk_frame w t).1]
  | thunk t id cpu =>
    cases saved
    rfl
  | finish t =>
    simp only [save, saveFinish] at saved
    cases known : w.curThreads t with
    | none => rw [known] at saved; cases saved
    | some id =>
      rw [known] at saved
      cases saved
      simp [itemsOf, known]
  | ended t time =>
    simp only [save, saveEnd] at saved
    cases known : w.curThreads t with
    | none => rw [known] at saved; cases saved
    | some id =>
      rw [known] at saved
      cases saved
      simp [itemsOf, known]

/-- What the exporter keeps is what the log says. -/
structure Books (log : List Event) (w : Writer) : Prop where
  current : ∀ t, (w.curThreads t).getD 0 = currentOf log t
  known : ∀ t id, (statusOf log t).thunk = some id → w.curThreads t = some id
  reads : ∀ tid a, a ∈ w.readSet tid ↔ Logged Event.read log tid a
  writes : ∀ tid a, a ∈ w.writeSet tid ↔ Logged Event.write log tid a

theorem books_new : Books [] Writer.new where
  current := fun _ => rfl
  known := by simp [statusOf]
  reads := by simp [Writer.new, Logged]
  writes := by simp [Writer.new, Logged]

/-- Events that are no accesses leave the accesses alone. -/
theorem logged_concat_of_ne {access : ℤ → ℕ → Event} {tid : ThunkId} {a : ℕ}
    (other : ∀ t a, event ≠ access t a) :
    Logged access (log ++ [event]) tid a ↔ Logged access log tid a := by
  rw [logged_concat]
  exact or_iff_left fun same => other _ _ same.1

theorem mem_touch {sets : ThunkId → List ℕ} {tid other : ThunkId} {a b : ℕ} :
    a ∈ touch sets tid b other ↔ a ∈ sets other ∨ (other = tid ∧ a = b) := by
  unfold touch
  by_cases same : other = tid
  · subst same
    simp
  · simp [same]

/-- An event that is no access and no thunk, and leaves the exporter's sets and
current thunks alone. -/
theorem Books.frame (books : Books log w)
    (frame : w'.curThreads = w.curThreads ∧ w'.readSet = w.readSet ∧ w'.writeSet = w.writeSet)
    (thunk : ∀ t, (statusOf (log ++ [event]) t).thunk = (statusOf log t).thunk)
    (no_read : ∀ t a, event ≠ .read t a) (no_write : ∀ t a, event ≠ .write t a) :
    Books (log ++ [event]) w' where
  current := by
    intro t
    rw [currentOf, thunk, frame.1]
    exact books.current t
  known := by
    intro t id status
    rw [thunk] at status
    rw [frame.1]
    exact books.known t id status
  reads := by
    intro tid a
    rw [logged_concat_of_ne no_read, ← books.reads, frame.2.1]
  writes := by
    intro tid a
    rw [logged_concat_of_ne no_write, ← books.writes, frame.2.2]

theorem Books.step (books : Books log w) (saved : save w event = .ok w') :
    Books (log ++ [event]) w' := by
  cases event with
  | invalid =>
    cases saved
    refine books.frame ⟨rfl, rfl, rfl⟩ ?_ (by simp) (by simp)
    intro t
    rw [statusOf_concat]
    rfl
  | write t b =>
    cases saved
    refine ⟨?_, ?_, ?_, ?_⟩
    · -- The current thunk of a thread is changed by its own `thunk` events only.
      intro u
      rw [currentOf, statusOf_concat]
      exact (atThunk_cur w t u).trans (books.current u)
    · intro u id status
      rw [statusOf_concat] at status
      exact atThunk_some (books.known u id status)
    · intro tid a
      rw [logged_concat_of_ne (by simp), ← books.reads]
      simp only [saveWrite, (atThunk_frame w t).2.1]
    · -- The row of the current thunk gets one page more.
      rintro ⟨u, k⟩ a
      simp only [saveWrite]
      rw [mem_touch, logged_concat, books.writes, books.current]
      simp only [Prod.mk.injEq, Event.write.injEq]
      constructor
      · rintro (old | ⟨⟨rfl, rfl⟩, rfl⟩)
        · exact .inl old
        · exact .inr ⟨⟨rfl, rfl⟩, rfl⟩
      · rintro (old | ⟨⟨rfl, rfl⟩, rfl⟩)
        · exact .inl old
        · exact .inr ⟨⟨rfl, rfl⟩, rfl⟩
  -- Reads are like writes, in their own table.
  | read t b =>
    cases saved
    refine ⟨?_, ?_, ?_, ?_⟩
    · intro u
      rw [currentOf, statusOf_concat]
      exact (atThunk_cur w t u).trans (books.current u)
    · intro u id status
      rw [statusOf_concat] at status
      exact atThunk_some (books.known u id status)
    · rintro ⟨u, k⟩ a
      simp only [saveRead]
      rw [mem_touch, logged_concat, books.reads, books.current]
      simp only [Prod.mk.injEq, Event.read.injEq]
      constructor
      · rintro (old | ⟨⟨rfl, rfl⟩, rfl⟩)
        · exact .inl old
        · exact .inr ⟨⟨rfl, rfl⟩, rfl⟩
      · rintro (old | ⟨⟨rfl, rfl⟩, rfl⟩)
        · exact .inl old
        · exact .inr ⟨⟨rfl, rfl⟩, rfl⟩
    · intro tid a
      rw [logged_concat_of_ne (by simp), ← books.writes]
      simp only [saveRead, (atThunk_frame w t).2.2]
  -- A new thunk is the current one of its thread, and has no pages yet.
  | thunk t k cpu =>
    cases saved
    refine ⟨?_, ?_, ?_, ?_⟩
    · intro u
      rw [currentOf, statusOf_concat]
      by_cases same : u = t
      · subst same
        simp [saveThunk, Status.next]
      · simpa [saveThunk, Status.next, same, Ne.symm same, currentOf] using books.current u
    · intro u id status
      rw [statusOf_concat] at status
      by_cases same : u = t
      · subst same
        simpa [saveThunk, Status.next] using status
      · simp only [Status.next, if_neg (Ne.symm same)] at status
        simpa [saveThunk, same] using books.known u id status
    · intro tid a
      rw [logged_concat_of_ne (by simp), ← books.reads]
      rfl
    · intro tid a
      rw [logged_concat_of_ne (by simp), ← books.writes]
      rfl
  -- The marks of the end need a current thunk, and touch neither table.
  | finish t =>
    refine books.frame ?_ ?_ (by simp) (by simp)
    · simp only [save, saveFinish] at saved
      cases known : w.curThreads t with
      | none => rw [known] at saved; cases saved
      | some id =>
        rw [known] at saved
        cases saved
        exact ⟨rfl, rfl, rfl⟩
    · intro u
      rw [statusOf_concat, Status.next]
      split_ifs <;> rfl
  | ended t time =>
    refine books.frame ?_ ?_ (by simp) (by simp)
    · simp only [save, saveEnd] at saved
      cases known : w.curThreads t with
      | none => rw [known] at saved; cases saved
      | some id =>
        rw [known] at saved
        cases saved
        exact ⟨rfl, rfl, rfl⟩
    · intro u
      rw [statusOf_concat, Status.next]
      split_ifs <;> rfl

/-- **Run.** -/
theorem books_of_foldlM (saved : log.foldlM save Writer.new = .ok w) : Books log w := by
  induction log using List.reverseRecOn generalizing w with
  | nil =>
    cases saved
    exact books_new
  | append_singleton log event ih =>
    obtain ⟨middle, prior, step⟩ := foldlM_append_ok.mp saved
    rw [foldlM_singleton] at step
    exact (ih prior).step step

/-- The order only grows. -/
theorem order_prefix {rest : List Event} (saved : rest.foldlM save w = .ok w') :
    ∃ items, w'.thunkOrder = w.thunkOrder ++ items := by
  induction rest using List.reverseRecOn generalizing w' with
  | nil =>
    cases saved
    exact ⟨[], by simp⟩
  | append_singleton rest event ih =>
    obtain ⟨middle, prior, step⟩ := foldlM_append_ok.mp saved
    rw [foldlM_singleton] at step
    obtain ⟨items, grown⟩ := ih prior
    exact ⟨items ++ itemsOf middle event, by rw [save_order step, grown, List.append_assoc]⟩

end Export

/-! ## The importer -/

section Import

variable {R W : ThunkId → List ℕ} {log : List Event} {event : Event} {w : Writer}
  {p p' : Programm} {thread thunk cpu : ℤ} {tid : ThunkId}

/-- Reading the rows of some entries. -/
def parseItems (R W : ThunkId → List ℕ) (items : List Item) (p : Programm) :
    Except Error Programm := (dump R W items).foldlM parseRow p

theorem parseItems_append {first rest : List Item} : parseItems R W (first ++ rest) p = .ok p' ↔
    ∃ middle, parseItems R W first p = .ok middle ∧ parseItems R W rest middle = .ok p' := by
  rw [parseItems, dump, List.flatMap_append, foldlM_append_ok]
  rfl

theorem parseItems_ended {time : ℕ} :
    parseItems R W [.ended thread thunk time] p = addEnd p thread thunk time := foldlM_singleton

theorem parseItems_finish :
    parseItems R W [.finish thread thunk] p = addFinish p thread thunk := foldlM_singleton

/-- The read rows of a thunk add the numbers of their ranges. -/
theorem foldlM_reads (intervals : List (ℕ × ℕ)) {data : ThunkData}
    (known : p.thunks (thread, thunk) = some data) :
    (intervals.map fun addr => Row.read thread thunk addr.1 addr.2).foldlM parseRow p =
      .ok { p with
        thunks := Function.update p.thunks (thread, thunk)
          (some { data with rs := data.rs ∪ numbersOf intervals }) } := by
  induction intervals generalizing p data with
  | nil =>
    simp only [List.map_nil, List.foldlM_nil, numbersOf_nil, Finset.union_empty, ← known,
      Function.update_eq_self]
    rfl
  | cons interval rest ih =>
    rw [List.map_cons, List.foldlM_cons, parseRow, addRead]
    simp only [known]
    refine (ih (Function.update_self _ _ _)).trans ?_
    simp only [Function.update_idem, numbersOf_cons, Finset.union_assoc]

/-- The write rows of a thunk add the numbers of their ranges. -/
theorem foldlM_writes (intervals : List (ℕ × ℕ)) {data : ThunkData}
    (known : p.thunks (thread, thunk) = some data) :
    (intervals.map fun addr => Row.write thread thunk addr.1 addr.2).foldlM parseRow p =
      .ok { p with
        thunks := Function.update p.thunks (thread, thunk)
          (some { data with ws := data.ws ∪ numbersOf intervals }) } := by
  induction intervals generalizing p data with
  | nil =>
    simp only [List.map_nil, List.foldlM_nil, numbersOf_nil, Finset.union_empty, ← known,
      Function.update_eq_self]
    rfl
  | cons interval rest ih =>
    rw [List.map_cons, List.foldlM_cons, parseRow, addWrite]
    simp only [known]
    refine (ih (Function.update_self _ _ _)).trans ?_
    simp only [Function.update_idem, numbersOf_cons, Finset.union_assoc]

/-- The rows of a thunk whose row is accepted. -/
theorem parseItems_thunk (R W : ThunkId → List ℕ) (cpu : ℤ) (new : p.thunks (thread, thunk) = none)
    (started : ∀ t k : ℤ, (p.release thread)[t]? = some k → (p.thunks (t, k)).isSome) :
    ∃ p', parseItems R W [.thunk thread thunk cpu] p = .ok p' ∧
      p'.thunks = Function.update p.thunks (thread, thunk) (some
        { cpu := cpu, cputime := none, rs := (R (thread, thunk)).toFinset,
          ws := (W (thread, thunk)).toFinset }) ∧
      p'.cur = p.cur.insert thread thunk ∧ p'.finished = p.release thread := by
  have all_known : ((p.release thread).toList.all fun out =>
      (Function.update p.thunks (thread, thunk) (some (ThunkData.new cpu)) out).isSome) = true := by
    rw [List.all_eq_true]
    rintro ⟨t, k⟩ member
    by_cases same : (t, k) = (thread, thunk)
    · rw [same, Function.update_self]
      rfl
    · rw [Function.update_of_ne same]
      exact started t k (Std.TreeMap.mem_toList_iff_getElem?_eq_some.mp member)
  have rows : dump R W [.thunk thread thunk cpu] = .thunk thread thunk cpu ::
      ((runs (R (thread, thunk))).map (fun addr => Row.read thread thunk addr.1 addr.2) ++
        (runs (W (thread, thunk))).map fun addr => Row.write thread thunk addr.1 addr.2) := by
    simp [dump, rowsOf]
  rw [parseItems, rows, List.foldlM_cons, parseRow, addThunk]
  simp only [new, Option.isSome_none, Bool.false_eq_true, if_false, all_known, if_true]
  refine ⟨_, foldlM_append_ok.mpr ⟨_, foldlM_reads _ (Function.update_self _ _ _),
    foldlM_writes _ (Function.update_self _ _ _)⟩, ?_, rfl, rfl⟩
  simp only [Function.update_idem, numbersOf_runs, ThunkData.new, Finset.empty_union]

/-- What the importer holds after the rows of a log's events. -/
structure Sync (R W : ThunkId → List ℕ) (log : List Event) (p : Programm) : Prop where
  known : ∀ tid, (p.thunks tid).isSome ↔ Started log tid
  data : ∀ tid data, p.thunks tid = some data →
    data.rs = (R tid).toFinset ∧ data.ws = (W tid).toFinset
  ended : ∀ t k data, (statusOf log t).thunk = some k → p.thunks (t, k) = some data →
    data.cputime.isSome = (statusOf log t).ended
  cur : ∀ t : ℤ, p.cur[t]? =
    if (statusOf log t).finished then none else (statusOf log t).thunk
  finished : ∀ t k : ℤ, p.finished[t]? = some k → Started log (t, k)

theorem sync_new : Sync R W [] Programm.new where
  known := by simp [Programm.new, Started]
  data := by simp [Programm.new]
  ended := by simp [Programm.new]
  cur := by simp [Programm.new, statusOf]
  finished := by simp [Programm.new]

/-- The thunks that a new thunk row looks up have started. -/
theorem Sync.release_started (sync : Sync R W log p) {t k : ℤ}
    (entry : (p.release thread)[t]? = some k) : Started log (t, k) := by
  unfold Programm.release at entry
  cases current : p.cur[thread]? with
  | none =>
    rw [current] at entry
    exact sync.finished t k entry
  | some previous =>
    rw [current, Std.TreeMap.getElem?_insert] at entry
    split_ifs at entry with same
    · rw [← Std.compare_eq_iff_eq.mp same, ← Option.some.inj entry]
      have status := sync.cur thread
      rw [current] at status
      split_ifs at status
      exact started_of_status status.symm
    · exact sync.finished t k entry

/-- Events without rows leave the importer where it is. -/
theorem Sync.skip (sync : Sync R W log p)
    (no_thunk : ∀ t k cpu, event ≠ .thunk t k cpu)
    (status : ∀ t, statusOf (log ++ [event]) t = statusOf log t) : Sync R W (log ++ [event]) p := by
  have started : ∀ tid, Started (log ++ [event]) tid ↔ Started log tid := fun tid => by
    rw [started_concat]
    exact or_iff_left fun ⟨cpu, same⟩ => no_thunk _ _ _ same
  refine ⟨?_, sync.data, ?_, ?_, ?_⟩
  · intro tid
    rw [started, sync.known]
  · intro t k data
    rw [status]
    exact sync.ended t k data
  · intro t
    rw [status, sync.cur]
  · intro t k entry
    exact (started _).mpr (sync.finished t k entry)

theorem Sync.thunk_ok (sync : Sync R W log p) (cpu : ℤ) (new : ¬ Started log (thread, thunk)) :
    ∃ p', parseItems R W [.thunk thread thunk cpu] p = .ok p' ∧
      Sync R W (log ++ [.thunk thread thunk cpu]) p' := by
  -- What the reader knows has been started, and this thunk has not.
  have unknown : p.thunks (thread, thunk) = none := by
    by_contra present
    exact new ((sync.known _).mp (Option.isSome_iff_ne_none.mpr present))
  obtain ⟨p', parsed, thunks, cur, finished⟩ := parseItems_thunk R W cpu
    unknown fun t k entry => (sync.known _).mpr (sync.release_started entry)
  have started : ∀ tid, Started (log ++ [.thunk thread thunk cpu]) tid ↔
      tid = (thread, thunk) ∨ Started log tid := by
    rintro ⟨t, k⟩
    rw [started_concat, or_comm, Prod.mk.injEq]
    apply or_congr_left
    constructor
    · rintro ⟨other, same⟩
      obtain ⟨rfl, rfl, -⟩ := Event.thunk.inj same
      exact ⟨rfl, rfl⟩
    · rintro ⟨rfl, rfl⟩
      exact ⟨cpu, rfl⟩
  refine ⟨p', parsed, ?_, ?_, ?_, ?_, ?_⟩
  · intro tid
    rw [started, thunks]
    by_cases same : tid = (thread, thunk)
    · simp [same]
    · rw [Function.update_of_ne same, sync.known]
      simp [same]
  · intro tid data found
    rw [thunks] at found
    by_cases same : tid = (thread, thunk)
    · subst same
      rw [Function.update_self] at found
      obtain rfl := Option.some.inj found
      exact ⟨rfl, rfl⟩
    · rw [Function.update_of_ne same] at found
      exact sync.data tid data found
  · -- The new thunk of the thread is running; other threads have the thunk they had.
    intro t k data status found
    rw [statusOf_concat, Status.next] at status ⊢
    rw [thunks] at found
    by_cases same : thread = t
    · rw [if_pos same] at status ⊢
      obtain rfl := Option.some.inj status
      rw [← same, Function.update_self] at found
      obtain rfl := Option.some.inj found
      rfl
    · rw [if_neg same] at status ⊢
      have other : (t, k) ≠ (thread, thunk) := fun equal => same (congrArg Prod.fst equal).symm
      rw [Function.update_of_ne other] at found
      exact sync.ended t k data status found
  · intro t
    rw [cur, statusOf_concat, Status.next, Std.TreeMap.getElem?_insert, sync.cur]
    by_cases same : thread = t
    · simp [same]
    · simp [same]
  · intro t k entry
    rw [finished] at entry
    exact (sync.release_started entry).concat

/-- The end of a thread's thunk that has not ended. -/
theorem Sync.end_ok (sync : Sync R W log p) (time : ℕ) (positive : thunk ≠ 0)
    (status : (statusOf log thread).thunk = some thunk)
    (running : (statusOf log thread).ended = false) :
    ∃ p', addEnd p thread thunk time = .ok p' ∧ Sync R W (log ++ [.ended thread time]) p' := by
  obtain ⟨data, known⟩ := Option.isSome_iff_exists.mp
    ((sync.known _).mpr (started_of_status status))
  -- The thunk is running in the log, so the reader has no time for it yet.
  have no_time : data.cputime = none := by
    have flag := sync.ended thread thunk data status known
    rw [running] at flag
    exact Option.isSome_eq_false_iff.mp flag |> Option.isNone_iff_eq_none.mp
  have thunk_same : ∀ t, (statusOf (log ++ [.ended thread time]) t).thunk =
      (statusOf log t).thunk := by
    intro t
    rw [statusOf_concat, Status.next]
    split_ifs <;> rfl
  -- An end starts nothing.
  have started : ∀ tid, Started (log ++ [.ended thread time]) tid ↔ Started log tid := fun tid => by
    simp [started_concat]
  have moved : addEnd p thread thunk time = .ok { p with
      thunks := Function.update p.thunks (thread, thunk)
        (some { data with cputime := some time }) } := by
    simp only [addEnd, if_neg positive, known, no_time, ne_eq, not_true_eq_false, if_false]
  refine ⟨_, moved, ?_, ?_, ?_, ?_, ?_⟩
  · intro tid
    rw [started, ← sync.known]
    by_cases same : tid = (thread, thunk)
    · simp [same, known]
    · simp [same]
  · intro tid found_data found
    by_cases same : tid = (thread, thunk)
    · subst same
      simp only [Function.update_self, Option.some_inj] at found
      subst found
      exact sync.data _ data known
    · simp only [Function.update_of_ne same] at found
      exact sync.data tid found_data found
  · -- For this thread the end is the one just read, for others nothing is new.
    intro t k found_data current found
    rw [thunk_same] at current
    by_cases same : t = thread
    · subst same
      obtain rfl := Option.some.inj (status.symm.trans current)
      simp only [Function.update_self, Option.some_inj] at found
      subst found
      rw [statusOf_concat, Status.next, if_pos rfl]
      rfl
    · have other : (t, k) ≠ (thread, thunk) := fun equal => same (congrArg Prod.fst equal)
      simp only [Function.update_of_ne other] at found
      rw [statusOf_concat, Status.next, if_neg (Ne.symm same)]
      exact sync.ended t k found_data current found
  · intro t
    rw [sync.cur, statusOf_concat, Status.next]
    split_ifs <;> simp_all
  · intro t k entry
    exact (started _).mpr (sync.finished t k entry)

/-- The end of a thread's first finish since its thunk started. -/
theorem Sync.finish_ok (sync : Sync R W log p) (status : (statusOf log thread).thunk = some thunk)
    (running : (statusOf log thread).finished = false) :
    ∃ p', addFinish p thread thunk = .ok p' ∧ Sync R W (log ++ [.finish thread]) p' := by
  have known := (sync.known _).mpr (started_of_status status)
  have current : p.cur[thread]? = some thunk := by
    rw [sync.cur, running, status]
    rfl
  have started : ∀ tid, Started (log ++ [.finish thread]) tid ↔ Started log tid := fun tid => by
    simp [started_concat]
  have next_same : ∀ t, (statusOf (log ++ [.finish thread]) t).thunk = (statusOf log t).thunk ∧
      (statusOf (log ++ [.finish thread]) t).ended = (statusOf log t).ended := by
    intro t
    rw [statusOf_concat, Status.next]
    split_ifs <;> exact ⟨rfl, rfl⟩
  have moved : addFinish p thread thunk = .ok { p with
      finished := p.finished.insert thread thunk
      cur := p.cur.erase thread } := by
    rw [addFinish, if_neg (by simpa using Option.isSome_iff_ne_none.mp known),
      if_neg (by simp [current])]
  refine ⟨_, moved, ?_, sync.data, ?_, ?_, ?_⟩
  · intro tid
    rw [started, ← sync.known]
  · intro t k data status' found
    rw [(next_same t).1] at status'
    rw [(next_same t).2]
    exact sync.ended t k data status' found
  · intro t
    simp only [Std.TreeMap.getElem?_erase, sync.cur, statusOf_concat, Status.next]
    by_cases same : thread = t
    · simp [same]
    · simp [same]
  · intro t k entry
    rw [started]
    simp only [Std.TreeMap.getElem?_insert] at entry
    split_ifs at entry with same
    · rw [← Std.compare_eq_iff_eq.mp same, ← Option.some.inj entry]
      exact started_of_status status
    · exact sync.finished t k entry

/-- **Step.** An expected event takes the exporter and the importer on. -/
theorem Sync.next (sync : Sync R W log p) (books : Books log w)
    (positive : PositiveThunks log) (expected : Expected log event) :
    ∃ w' p', save w event = .ok w' ∧ parseItems R W (itemsOf w event) p = .ok p' ∧
      Sync R W (log ++ [event]) p' := by
  cases event with
  | invalid =>
    exact ⟨_, p, rfl, rfl, sync.skip (by simp) fun t => by rw [statusOf_concat]; rfl⟩
  | write t a =>
    exact ⟨_, p, rfl, rfl, sync.skip (by simp) fun t => by rw [statusOf_concat]; rfl⟩
  | read t a =>
    exact ⟨_, p, rfl, rfl, sync.skip (by simp) fun t => by rw [statusOf_concat]; rfl⟩
  | thunk t k cpu =>
    obtain ⟨p', parsed, sync'⟩ := sync.thunk_ok cpu expected
    exact ⟨_, p', rfl, parsed, sync'⟩
  | finish t =>
    obtain ⟨present, running⟩ := expected
    obtain ⟨id, status⟩ := Option.ne_none_iff_exists'.mp present
    have known := books.known t id status
    obtain ⟨p', parsed, sync'⟩ := sync.finish_ok status running
    refine ⟨_, p', by rw [save, saveFinish, known], ?_, sync'⟩
    rw [itemsOf, known, parseItems_finish]
    exact parsed
  | ended t time =>
    obtain ⟨present, running⟩ := expected
    obtain ⟨id, status⟩ := Option.ne_none_iff_exists'.mp present
    have known := books.known t id status
    have nonzero : id ≠ 0 := (positive.started (started_of_status status)).ne'
    obtain ⟨p', parsed, sync'⟩ := sync.end_ok time nonzero status running
    refine ⟨_, p', by rw [save, saveEnd, known], ?_, sync'⟩
    rw [itemsOf, known, parseItems_ended]
    exact parsed

/-- **Run.** A well ordered log takes the exporter and the importer through. -/
theorem sync_of_wellOrdered (R W : ThunkId → List ℕ) (ordered : WellOrdered log)
    (positive : PositiveThunks log) : ∃ w p, log.foldlM save Writer.new = .ok w ∧
      parseItems R W w.thunkOrder Programm.new = .ok p ∧ Sync R W log p := by
  induction log using List.reverseRecOn with
  | nil => exact ⟨Writer.new, Programm.new, rfl, rfl, sync_new⟩
  | append_singleton log event ih =>
    obtain ⟨w, p, saved, parsed, sync⟩ := ih ordered.of_concat positive.of_append
    obtain ⟨w', p', step, rows, sync'⟩ :=
      sync.next (books_of_foldlM saved) positive.of_append ordered.last
    refine ⟨w', p', foldlM_append_ok.mpr ⟨w, saved, ?_⟩, ?_, sync'⟩
    · rw [foldlM_singleton]
      exact step
    · rw [save_order step, parseItems_append]
      exact ⟨p, parsed, rows⟩

end Import

section Round

variable {log : List Event} {rows : List Row} {p : Programm}

theorem exportLog_ok : exportLog log = .ok rows ↔
    ∃ w, log.foldlM save Writer.new = .ok w ∧ dump w.readSet w.writeSet w.thunkOrder = rows := by
  rw [exportLog, bind_ok]
  apply exists_congr
  intro w
  apply and_congr_right'
  exact ⟨fun same => Except.ok.inj same, fun same => congrArg _ same⟩

/-- Every event of a well ordered log comes back from the trace. -/
theorem WellOrdered.faithful (ordered : WellOrdered log) (positive : PositiveThunks log) :
    Faithful log := by
  -- The access lists the rows are written from are those at the end of the log.
  obtain ⟨w, -, saved, -⟩ := sync_of_wellOrdered (fun _ => []) (fun _ => []) ordered positive
  obtain ⟨w', p, again, parsed, sync⟩ :=
    sync_of_wellOrdered w.readSet w.writeSet ordered positive
  obtain rfl := Except.ok.inj (saved.symm.trans again)
  have books := books_of_foldlM saved
  refine ⟨_, p, exportLog_ok.mpr ⟨w, saved, rfl⟩, parsed, ?_⟩
  intro tid address
  have reads_started : address ∈ w.readSet tid → Started log tid := fun member =>
    ordered.started_of_logged Event.read (fun _ _ _ expected => expected)
      ((books.reads tid address).mp member)
  have writes_started : address ∈ w.writeSet tid → Started log tid := fun member =>
    ordered.started_of_logged Event.write (fun _ _ _ expected => expected)
      ((books.writes tid address).mp member)
  rw [← books.reads, ← books.writes, Programm.reads, Programm.writes]
  cases found : p.thunks tid with
  | none =>
    have unknown : ¬ Started log tid := by
      rw [← sync.known, found]
      exact Bool.false_ne_true
    simpa using ⟨fun member => unknown (reads_started member),
      fun member => unknown (writes_started member)⟩
  | some data =>
    obtain ⟨reads, writes⟩ := sync.data tid data found
    simp [reads, writes]

/-! ## What stops on an unexpected event -/

/-- The end of a thunk 0 is refused: the importer has just added it as ended. -/
theorem addEnd_zero {thread : ℤ} {time : ℕ} {p' : Programm} : addEnd p thread 0 time ≠ .ok p' := by
  simp [addEnd]

/-- The end of another thunk is taken once, and after the thunk. -/
theorem addEnd_running {thread thunk : ℤ} {time : ℕ} {p' : Programm} (nonzero : thunk ≠ 0)
    (parsed : addEnd p thread thunk time = .ok p') :
    ∃ data, p.thunks (thread, thunk) = some data ∧ data.cputime = none := by
  simp only [addEnd, if_neg nonzero] at parsed
  cases known : p.thunks (thread, thunk) with
  | none =>
    rw [known] at parsed
    cases parsed
  | some data =>
    rw [known] at parsed
    refine ⟨data, rfl, ?_⟩
    by_contra timed
    simp only [ne_eq, timed, not_false_eq_true, if_true] at parsed
    cases parsed

/-- A finish is taken for a thread that has not finished. -/
theorem addFinish_running {thread thunk : ℤ} {p' : Programm}
    (parsed : addFinish p thread thunk = .ok p') :
    (p.thunks (thread, thunk)).isSome ∧ (p.cur[thread]?).isSome := by
  simp only [addFinish] at parsed
  by_cases known : (p.thunks (thread, thunk)).isNone
  · rw [if_pos known] at parsed
    cases parsed
  by_cases current : (p.cur[thread]?).isNone
  · rw [if_neg known, if_pos current] at parsed
    cases parsed
  rw [Option.isNone_iff_eq_none, ← ne_eq, ← Option.isSome_iff_ne_none] at known current
  exact ⟨known, current⟩

/-- A thunk row is taken once. -/
theorem thunk_new {R W : ThunkId → List ℕ} {thread thunk cpu : ℤ} {p' : Programm}
    (parsed : parseItems R W [.thunk thread thunk cpu] p = .ok p') :
    p.thunks (thread, thunk) = none := by
  by_contra known
  have refused : (p.thunks (thread, thunk)).isSome := Option.isSome_iff_ne_none.mpr known
  simp only [parseItems, dump, rowsOf, List.flatMap_cons, List.cons_append, List.foldlM_cons,
    parseRow, addThunk, refused, if_true] at parsed
  cases parsed

/-- Only a thunk row of number 0 adds a thunk 0. -/
theorem parseRow_zero {row : Row} {p' : Programm} (absent : ∀ t, p.thunks (t, 0) = none)
    (positive : ∀ t k cpu, row = .thunk t k cpu → 0 < k) (parsed : parseRow p row = .ok p') :
    ∀ t, p'.thunks (t, 0) = none := by
  intro u
  cases row with
  | thunk t k cpu =>
    have other : (u, (0 : ℤ)) ≠ (t, k) := fun same =>
      (positive t k cpu rfl).ne (congrArg Prod.snd same)
    simp only [parseRow, addThunk] at parsed
    split_ifs at parsed
    cases parsed
    exact (Function.update_of_ne other _ _).trans (absent u)
  -- An end of a thunk 0 is not accepted, so the row is about another one.
  | ended t k time =>
    by_cases zero : k = 0
    · subst zero
      exact absurd parsed addEnd_zero
    have other : (u, (0 : ℤ)) ≠ (t, k) := fun same => zero (congrArg Prod.snd same).symm
    obtain ⟨data, known, no_time⟩ := addEnd_running zero parsed
    simp only [parseRow, addEnd, if_neg zero, known, no_time, ne_eq, not_true_eq_false,
      if_false] at parsed
    cases parsed
    exact (Function.update_of_ne other _ _).trans (absent u)
  | finish t k =>
    simp only [parseRow, addFinish] at parsed
    split_ifs at parsed
    cases parsed
    exact absent u
  -- Pages are recorded for thunks that are known, and no thunk 0 is.
  | write t k first last =>
    simp only [parseRow, addWrite] at parsed
    cases known : p.thunks (t, k) with
    | none => rw [known] at parsed; cases parsed
    | some data =>
      have other : (u, (0 : ℤ)) ≠ (t, k) := by
        intro same
        rw [← same, absent] at known
        cases known
      rw [known] at parsed
      cases parsed
      exact (Function.update_of_ne other _ _).trans (absent u)
  | read t k first last =>
    simp only [parseRow, addRead] at parsed
    cases known : p.thunks (t, k) with
    | none => rw [known] at parsed; cases parsed
    | some data =>
      have other : (u, (0 : ℤ)) ≠ (t, k) := by
        intro same
        rw [← same, absent] at known
        cases known
      rw [known] at parsed
      cases parsed
      exact (Function.update_of_ne other _ _).trans (absent u)
  | other command => cases parsed

theorem foldlM_zero {p' : Programm} (absent : ∀ t, p.thunks (t, 0) = none)
    (positive : ∀ t k cpu, .thunk t k cpu ∈ rows → 0 < k)
    (parsed : rows.foldlM parseRow p = .ok p') : ∀ t, p'.thunks (t, 0) = none := by
  induction rows generalizing p with
  | nil =>
    cases parsed
    exact absent
  | cons row rest ih =>
    rw [List.foldlM_cons, bind_ok] at parsed
    obtain ⟨middle, first, later⟩ := parsed
    have absent' := parseRow_zero absent
      (fun t k cpu same => positive t k cpu (same ▸ List.mem_cons_self)) first
    exact ih absent' (fun t k cpu member => positive t k cpu (List.mem_cons_of_mem _ member)) later

/-- The thunk rows of a trace are those of the log. -/
theorem thunk_of_mem_dump {R W : ThunkId → List ℕ} {w : Writer} {t k cpu : ℤ}
    (saved : log.foldlM save Writer.new = .ok w) (member : .thunk t k cpu ∈ dump R W w.thunkOrder) :
    .thunk t k cpu ∈ log := by
  induction log using List.reverseRecOn generalizing w with
  | nil =>
    cases saved
    cases member
  | append_singleton log event ih =>
    obtain ⟨middle, prior, step⟩ := foldlM_append_ok.mp saved
    rw [foldlM_singleton] at step
    rw [save_order step, dump, List.flatMap_append, List.mem_append] at member
    rw [List.mem_append, List.mem_singleton]
    rcases member with old | new
    · exact .inl (ih prior old)
    · right
      cases event with
      | thunk u i c =>
        simp only [itemsOf, List.flatMap_cons, List.flatMap_nil, rowsOf, List.append_nil,
          List.mem_cons, List.mem_append, List.mem_map, reduceCtorEq, and_false, exists_false,
          or_false, Row.thunk.injEq] at new
        rw [new.1, new.2.1, new.2.2]
      | _ => simp [itemsOf, rowsOf] at new

/-- A trace that is taken has no thunk 0. -/
theorem no_zero {w : Writer} (positive : PositiveThunks log)
    (saved : log.foldlM save Writer.new = .ok w)
    (parsed : parseDtl (dump w.readSet w.writeSet w.thunkOrder) = .ok p) (t : ℤ) :
    p.thunks (t, 0) = none := by
  apply foldlM_zero (fun _ => rfl) _ parsed
  intro u k cpu member
  exact positive u k cpu (thunk_of_mem_dump saved member)

/-- Both sides have gone on over an event. -/
theorem Sync.expected {R W : ThunkId → List ℕ} {event : Event} {w w' : Writer} {p' : Programm}
    (sync : Sync R W log p) (books : Books log w) (positive : PositiveThunks log)
    (present : ∀ t a, (event = .read t a ∨ event = .write t a) → (statusOf log t).thunk ≠ none)
    (saved : save w event = .ok w') (parsed : parseItems R W (itemsOf w event) p = .ok p') :
    Expected log event := by
  -- A thread in front of its first thunk is at thunk 0 for the exporter.
  have zero_of_none : ∀ t id, w.curThreads t = some id → (statusOf log t).thunk = none →
      id = 0 := by
    intro t id known none
    have current := books.current t
    rw [known, currentOf, none] at current
    exact current
  cases event with
  | invalid => trivial
  | write t a => exact present t a (.inr rfl)
  | read t a => exact present t a (.inl rfl)
  | thunk t k cpu =>
    intro started
    have known := (sync.known _).mpr started
    rw [thunk_new parsed] at known
    cases known
  | finish t =>
    simp only [save, saveFinish] at saved
    cases known : w.curThreads t with
    | none => rw [known] at saved; cases saved
    | some id =>
      rw [itemsOf, known, parseItems_finish] at parsed
      obtain ⟨thunk_known, current⟩ := addFinish_running parsed
      have started := (sync.known _).mp thunk_known
      have status : (statusOf log t).thunk ≠ none := fun none =>
        (positive.started started).ne' (zero_of_none t id known none)
      refine ⟨status, ?_⟩
      by_contra finished
      rw [sync.cur, if_pos (Bool.not_eq_false _ ▸ finished)] at current
      cases current
  | ended t time =>
    simp only [save, saveEnd] at saved
    cases known : w.curThreads t with
    | none => rw [known] at saved; cases saved
    | some id =>
      rw [itemsOf, known, parseItems_ended] at parsed
      have nonzero : id ≠ 0 := by
        rintro rfl
        exact addEnd_zero parsed
      have status : (statusOf log t).thunk ≠ none := fun none =>
        nonzero (zero_of_none t id known none)
      refine ⟨status, ?_⟩
      obtain ⟨current, same⟩ := Option.ne_none_iff_exists'.mp status
      obtain rfl : id = current := Option.some.inj (known.symm.trans (books.known t _ same))
      obtain ⟨data, found, no_time⟩ := addEnd_running nonzero parsed
      rw [← sync.ended t id data same found, no_time]
      rfl

/-- An access that comes back is not in front of its thread's first thunk. -/
theorem Faithful.access_started {earlier later : List Event} {w : Writer}
    (positive : PositiveThunks log) (saved : log.foldlM save Writer.new = .ok w)
    (parsed : parseDtl (dump w.readSet w.writeSet w.thunkOrder) = .ok p)
    (back : ∀ tid address, (address ∈ p.reads tid ↔ Logged Event.read log tid address) ∧
      (address ∈ p.writes tid ↔ Logged Event.write log tid address)) {t : ℤ} {a : ℕ}
    (split : log = earlier ++ Event.read t a :: later ∨ log = earlier ++ Event.write t a :: later) :
    (statusOf earlier t).thunk ≠ none := by
  intro none
  have zero : currentOf earlier t = 0 := by rw [currentOf, none]; rfl
  have absent := no_zero positive saved parsed t
  rcases split with split | split
  · have member := (back (t, 0) a).1.mpr ⟨earlier, later, split, zero⟩
    simp [Programm.reads, absent] at member
  · have member := (back (t, 0) a).2.mpr ⟨earlier, later, split, zero⟩
    simp [Programm.writes, absent] at member

/-- A log that comes back from the trace is well ordered. -/
theorem Faithful.wellOrdered (faithful : Faithful log) (positive : PositiveThunks log) :
    WellOrdered log := by
  obtain ⟨rows, p, exported, parsed, back⟩ := faithful
  obtain ⟨w, saved, rfl⟩ := exportLog_ok.mp exported
  -- Every prefix is well ordered: both sides have gone on over its last event.
  have prefixes : ∀ earlier later, log = earlier ++ later → WellOrdered earlier := by
    intro earlier
    induction earlier using List.reverseRecOn with
    | nil =>
      intro later split before event after same
      exact absurd same (by simp)
    | append_singleton earlier event ih =>
      intro later split
      have shifted : log = earlier ++ event :: later := by simpa using split
      have ordered := ih _ shifted
      have positive' : PositiveThunks earlier := (shifted ▸ positive).of_append
      apply ordered.concat
      obtain ⟨w₁, p₁, saved₁, parsed₁, sync⟩ :=
        sync_of_wellOrdered w.readSet w.writeSet ordered positive'
      obtain ⟨w₁', same, rest⟩ := foldlM_append_ok.mp (shifted ▸ saved)
      obtain rfl := Except.ok.inj (saved₁.symm.trans same)
      rw [List.foldlM_cons, bind_ok] at rest
      obtain ⟨w₂, step, rest⟩ := rest
      obtain ⟨items, order⟩ := order_prefix rest
      have through : parseItems w.readSet w.writeSet w.thunkOrder Programm.new = .ok p := parsed
      rw [order, save_order step, List.append_assoc, parseItems_append] at through
      obtain ⟨p₁', same, through⟩ := through
      obtain rfl := Except.ok.inj (parsed₁.symm.trans same)
      obtain ⟨p₂, row, -⟩ := parseItems_append.mp through
      apply sync.expected (books_of_foldlM saved₁) positive' _ step row
      rintro t a (rfl | rfl)
      · exact Faithful.access_started positive saved parsed back (.inl shifted)
      · exact Faithful.access_started positive saved parsed back (.inr shifted)
  exact prefixes log [] (by simp)

/-- **Export and import are faithful** on exactly the logs whose events are all
expected. -/
theorem faithful_iff_wellOrdered (positive : PositiveThunks log) :
    Faithful log ↔ WellOrdered log :=
  ⟨fun faithful => faithful.wellOrdered positive, fun ordered => ordered.faithful positive⟩

end Round

/-- The log of a thread with one thunk, which reads, ends and finishes. -/
def oneThunk : List Event := [.thunk 1 1 0, .read 1 5, .ended 1 10, .finish 1]

/-- Its events can be followed, so it comes back from the trace. -/
theorem faithful_oneThunk : Faithful oneThunk := by
  apply (faithful_iff_wellOrdered _).mpr
  · intro earlier event later split
    rcases earlier with - | ⟨first, - | ⟨second, - | ⟨third, - | ⟨fourth, rest⟩⟩⟩⟩ <;>
      simp only [oneThunk, List.nil_append, List.cons_append, List.cons.injEq] at split
    · obtain ⟨rfl, -⟩ := split
      simp [Expected, Started]
    · obtain ⟨rfl, rfl, -⟩ := split
      simp [Expected, statusOf, Status.next]
    · obtain ⟨rfl, rfl, rfl, -⟩ := split
      simp [Expected, statusOf, Status.next]
    · obtain ⟨rfl, rfl, rfl, rfl, -⟩ := split
      simp [Expected, statusOf, Status.next]
    · simp at split
  · simp +contextual [PositiveThunks, oneThunk]

/-- The end of a thread that never started a thunk, as a program without threads
logs it, stops the exporter, and an access in front of a thread's first thunk is
lost. -/
theorem not_faithful_beforeThunk :
    ¬ Faithful [.ended 0 7] ∧ ¬ Faithful [.read 1 5, .thunk 1 1 0, .ended 1 10] := by
  constructor
  · intro faithful
    have ordered := faithful.wellOrdered (by simp [PositiveThunks])
    exact (ordered [] _ [] rfl).1 rfl
  · intro faithful
    have ordered := faithful.wellOrdered (by simp +contextual [PositiveThunks])
    exact ordered [] _ _ rfl rfl

end Dtl

end Tthread
