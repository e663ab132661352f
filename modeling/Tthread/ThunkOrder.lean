/-
# Ordered and concurrent thunks

The importer keeps two relations between thunks: edges, from the thunks that are over when
a thunk starts, and concurrent thunks, the ones that run then. In a trace whose threads
finish in their current thunks the two are complementary: of two thunks one is behind the
other, or each is concurrent with the other, and never both.
-/

import Tthread.Dtl
import Tthread.Library.Folds
import Tthread.Library.Growth

namespace Tthread.Dtl

open Folds Growth Relation

variable {rows : List Row} {row : Row} {p p' : Programm} {a b tid : ThunkId}
  {thread thunk t t' k : ℤ}

/-! ## The claims of a trace -/

/-- The last thunk that a thread has started. -/
def currentThunk (rows : List Row) (thread : ℤ) : Option ℤ :=
  rows.foldl (fun current row =>
    match row with
    | .thunk t k _ => if t = thread then some k else current
    | _ => current) none

/-- Every thread finishes in its current thunk. -/
def FinishesCurrent (rows : List Row) : Prop :=
  ∀ earlier thread thunk later, rows = earlier ++ .finish thread thunk :: later →
    currentThunk earlier thread = some thunk

def Programm.Edge (p : Programm) (a b : ThunkId) : Prop := (a, b) ∈ p.edges

/-- A path in `edges`. -/
def Programm.Path (p : Programm) : ThunkId → ThunkId → Prop := TransGen p.Edge

/-- Each is in the set of the other. -/
def Programm.Concurrent (p : Programm) (a b : ThunkId) : Prop :=
  (a, b) ∈ p.concurrent ∧ (b, a) ∈ p.concurrent

/-- Exactly one of the three holds. -/
structure Programm.Trichotomy (p : Programm) (a b : ThunkId) : Prop where
  some : p.Path a b ∨ p.Path b a ∨ p.Concurrent a b
  ordered : ¬ (p.Path a b ∧ p.Path b a)
  apart : p.Concurrent a b → ¬ p.Path a b ∧ ¬ p.Path b a

theorem Programm.Trichotomy.symm (either : p.Trichotomy a b) : p.Trichotomy b a where
  some := by
    rcases either.some with path | path | both
    · exact .inr (.inl path)
    · exact .inl path
    · exact .inr (.inr both.symm)
  ordered := fun paths => either.ordered paths.symm
  apart := fun both => (either.apart both.symm).symm

theorem currentThunk_concat : currentThunk (rows ++ [row]) thread =
    match row with
    | .thunk t k _ => if t = thread then some k else currentThunk rows thread
    | _ => currentThunk rows thread := by
  simp only [currentThunk, List.foldl_append, List.foldl_cons, List.foldl_nil]

theorem Threads.getElem?_insert (threads : Threads) :
    (threads.insert t k)[t']? = if t = t' then some k else threads[t']? := by
  simp only [Std.TreeMap.getElem?_insert, Std.compare_eq_iff_eq]

theorem Threads.getElem?_erase (threads : Threads) :
    (threads.erase t)[t']? = if t = t' then none else threads[t']? := by
  simp only [Std.TreeMap.getElem?_erase, Std.compare_eq_iff_eq]

/-! ## The invariant -/

/-- The importer has the thunk. -/
def Programm.Known (p : Programm) (tid : ThunkId) : Prop := (p.thunks tid).isSome

/-- The thunk is its thread's current one. -/
def Programm.Current (p : Programm) (tid : ThunkId) : Prop := p.cur[tid.1]? = some tid.2

/-- The thunk is the last one of its thread that is over. -/
def Programm.Over (p : Programm) : Set ThunkId := {tid | p.finished[tid.1]? = some tid.2}

theorem Programm.mem_over : tid ∈ p.Over ↔ p.finished[tid.1]? = some tid.2 := Iff.rfl

/-- What `cur` and `finished` stand for. -/
structure OrderInv (rows : List Row) (p : Programm) : Prop where
  edge : ∀ a b, p.Edge a b → p.Known a ∧ p.Known b
  pair : ∀ a b, (a, b) ∈ p.concurrent → p.Known a ∧ p.Known b
  cur : ∀ tid, p.Current tid → p.Known tid
  latest : ∀ t k, p.cur[t]? = some k → currentThunk rows t = some k
  finished : ∀ tid ∈ p.Over, p.Known tid
  left : ∀ tid ∈ p.Over, ¬ p.Current tid
  next : ∀ a b, a ∈ p.Over → p.Current b → a.1 = b.1 → p.Edge a b
  running : ∀ a, p.Current a → ∀ b, ¬ p.Edge a b
  covered : ∀ a, p.Known a → ¬ p.Current a → ∃ out ∈ p.Over, ReflTransGen p.Edge a out
  trichotomy : ∀ a b, p.Known a → p.Known b → a ≠ b → p.Trichotomy a b

theorem orderInv_new : OrderInv [] Programm.new where
  edge := by simp [Programm.Edge, Programm.new]
  pair := by simp [Programm.new]
  cur := by simp [Programm.Current, Programm.new]
  latest := by simp [Programm.new]
  finished := by simp [Programm.Over, Programm.new]
  left := by simp [Programm.Over, Programm.new]
  next := by simp [Programm.Over, Programm.new]
  running := by simp [Programm.Current, Programm.new]
  covered := by simp [Programm.Known, Programm.new]
  trichotomy := by simp [Programm.Known, Programm.new]

/-! ## Rows that change data only -/

/-- A row that keeps the threads, the edges and the thunks that there are. -/
theorem OrderInv.data (inv : OrderInv rows p) (cur : p'.cur = p.cur)
    (edges : p'.edges = p.edges) (finished : p'.finished = p.finished)
    (concurrent : p'.concurrent = p.concurrent) (known : ∀ tid, p'.Known tid ↔ p.Known tid)
    (same : ∀ t, currentThunk (rows ++ [row]) t = currentThunk rows t) :
    OrderInv (rows ++ [row]) p' := by
  obtain ⟨thunks, order, cur', edges', finished', concurrent'⟩ := p'
  obtain rfl : cur' = p.cur := cur
  obtain rfl : edges' = p.edges := edges
  obtain rfl : finished' = p.finished := finished
  obtain rfl : concurrent' = p.concurrent := concurrent
  constructor
  · exact fun a b edge => (inv.edge a b edge).imp (known a).mpr (known b).mpr
  · exact fun a b pair => (inv.pair a b pair).imp (known a).mpr (known b).mpr
  · exact fun tid current => (known tid).mpr (inv.cur tid current)
  · exact fun t k current => (same t).trans (inv.latest t k current)
  · exact fun tid done => (known tid).mpr (inv.finished tid done)
  · exact inv.left
  · exact inv.next
  · exact inv.running
  · exact fun a there => inv.covered a ((known a).mp there)
  · intro a b first second different
    obtain ⟨some, ordered, apart⟩ :=
      inv.trichotomy a b ((known a).mp first) ((known b).mp second) different
    exact ⟨some, ordered, apart⟩

/-- Replacing the data of a thunk that is there. -/
theorem known_update {data data' : ThunkData} (there : p.thunks tid = some data) (other : ThunkId) :
    (Function.update p.thunks tid (some data') other).isSome ↔ p.Known other := by
  by_cases same : other = tid
  · subst same
    simp [Programm.Known, there]
  · rw [Function.update_of_ne same, Programm.Known]

/-- The end of a thunk that is there. -/
theorem addEnd_ok {time : ℕ} (added : addEnd p thread thunk time = .ok p') :
    ∃ data data', p.thunks (thread, thunk) = some data ∧
      p' = { p with thunks := Function.update p.thunks (thread, thunk) (some data') } := by
  rw [addEnd] at added
  by_cases zero : thunk = 0
  · -- the thunk has just been added as one that has ended
    simp [zero] at added
  · rw [if_neg zero] at added
    cases there : p.thunks (thread, thunk) with
    | none => simp [there] at added
    | some data =>
      simp only [there] at added
      split at added
      · cases added
      · exact ⟨data, _, rfl, (Except.ok.inj added).symm⟩

theorem addRead_ok {first last : ℕ} (added : addRead p thread thunk first last = .ok p') :
    ∃ data data', p.thunks (thread, thunk) = some data ∧
      p' = { p with thunks := Function.update p.thunks (thread, thunk) (some data') } := by
  rw [addRead] at added
  cases there : p.thunks (thread, thunk) with
  | none => simp [there] at added
  | some data =>
    simp only [there] at added
    exact ⟨data, _, rfl, (Except.ok.inj added).symm⟩

theorem addWrite_ok {first last : ℕ} (added : addWrite p thread thunk first last = .ok p') :
    ∃ data data', p.thunks (thread, thunk) = some data ∧
      p' = { p with thunks := Function.update p.thunks (thread, thunk) (some data') } := by
  rw [addWrite] at added
  cases there : p.thunks (thread, thunk) with
  | none => simp [there] at added
  | some data =>
    simp only [there] at added
    exact ⟨data, _, rfl, (Except.ok.inj added).symm⟩

theorem OrderInv.replace (inv : OrderInv rows p) {data data' : ThunkData}
    (there : p.thunks tid = some data)
    (same : ∀ t, currentThunk (rows ++ [row]) t = currentThunk rows t) :
    OrderInv (rows ++ [row]) { p with thunks := Function.update p.thunks tid (some data') } :=
  inv.data rfl rfl rfl rfl (known_update there) same

/-! ## A finish -/

/-- What the row of a finish does. -/
structure Finishes (p p' : Programm) (tid : ThunkId) : Prop where
  running : ∃ k, p.Current (tid.1, k)
  known : ∀ a, p'.Known a ↔ p.Known a
  edge : p'.Edge = p.Edge
  concurrent : p'.concurrent = p.concurrent
  cur : ∀ t : ℤ, p'.cur[t]? = if tid.1 = t then none else p.cur[t]?
  finished : ∀ a, a ∈ p'.Over ↔ a = tid ∨ a ∈ p.Over ∧ a.1 ≠ tid.1

theorem addFinish_ok (added : addFinish p thread thunk = .ok p') :
    Finishes p p' (thread, thunk) := by
  rw [addFinish] at added
  split at added
  · cases added
  · split at added
    · cases added
    · next running =>
      obtain rfl := Except.ok.inj added
      refine ⟨?_, fun _ => Iff.rfl, rfl, rfl, fun t => Threads.getElem?_erase _, ?_⟩
      · cases found : p.cur[thread]? with
        | none => exact absurd (by rw [found]; rfl) running
        | some k => exact ⟨k, found⟩
      · rintro ⟨t, k⟩
        simp only [Programm.mem_over, Threads.getElem?_insert, Prod.mk.injEq]
        by_cases own : thread = t
        · simp [own, eq_comm]
        · simp [own, Ne.symm own]

theorem Finishes.current (finishes : Finishes p p' tid) (a : ThunkId) :
    p'.Current a ↔ p.Current a ∧ a.1 ≠ tid.1 := by
  rw [Programm.Current, Programm.Current, finishes.cur]
  by_cases own : tid.1 = a.1
  · simp [own]
  · simp [own, Ne.symm own]

/-- A thread finishes in its current thunk. -/
theorem OrderInv.finish (inv : OrderInv rows p) (finishes : Finishes p p' (thread, thunk))
    (current : currentThunk rows thread = some thunk) :
    OrderInv (rows ++ [.finish thread thunk]) p' := by
  obtain ⟨k, running⟩ := finishes.running
  obtain rfl : thunk = k := Option.some.inj (current.symm.trans (inv.latest thread k running))
  have known := finishes.known
  constructor
  · intro a b edge
    rw [finishes.edge] at edge
    exact (inv.edge a b edge).imp (known a).mpr (known b).mpr
  · intro a b pair
    rw [finishes.concurrent] at pair
    exact (inv.pair a b pair).imp (known a).mpr (known b).mpr
  · exact fun a current => (known a).mpr (inv.cur a ((finishes.current a).mp current).1)
  · intro t k current
    exact currentThunk_concat.trans (inv.latest t k ((finishes.current (t, k)).mp current).1)
  · intro a done
    rcases (finishes.finished a).mp done with rfl | ⟨done, -⟩
    · exact (known _).mpr (inv.cur _ running)
    · exact (known a).mpr (inv.finished a done)
  · intro a done current
    obtain ⟨current, other⟩ := (finishes.current a).mp current
    rcases (finishes.finished a).mp done with rfl | ⟨done, -⟩
    · exact other rfl
    · exact inv.left a done current
  · intro a b done current same
    obtain ⟨current, other⟩ := (finishes.current b).mp current
    rcases (finishes.finished a).mp done with rfl | ⟨done, -⟩
    · exact absurd same.symm other
    · exact finishes.edge ▸ inv.next a b done current same
  · intro a current b
    exact finishes.edge ▸ inv.running a ((finishes.current a).mp current).1 b
  · intro a there other
    rw [finishes.edge]
    by_cases runs : p.Current a
    · -- the thunk is the one that is over now
      have own : a.1 = thread := not_not.mp fun apart =>
        other ((finishes.current a).mpr ⟨runs, apart⟩)
      obtain ⟨t, k⟩ := a
      obtain rfl : t = thread := own
      obtain rfl : thunk = k := Option.some.inj (running.symm.trans runs)
      exact ⟨_, (finishes.finished _).mpr (.inl rfl), .refl⟩
    · obtain ⟨out, done, path⟩ := inv.covered a ((known a).mp there) runs
      by_cases own : out.1 = thread
      · exact ⟨_, (finishes.finished _).mpr (.inl rfl),
          path.tail (inv.next out (thread, thunk) done running own)⟩
      · exact ⟨out, (finishes.finished out).mpr (.inr ⟨done, own⟩), path⟩
  · intro a b first second different
    obtain ⟨some, ordered, apart⟩ :=
      inv.trichotomy a b ((known a).mp first) ((known b).mp second) different
    rw [Programm.Path, ← finishes.edge] at some ordered apart
    rw [Programm.Concurrent, ← finishes.concurrent] at some apart
    exact ⟨some, ordered, apart⟩

/-! ## A new thunk -/

/-- What the row of a new thunk does. -/
structure Starts (p p' : Programm) (tid : ThunkId) : Prop where
  new : ¬ p.Known tid
  known : ∀ a, p'.Known a ↔ a = tid ∨ p.Known a
  edge : p'.Edge = JoinTo p.Edge p'.Over tid
  concurrent : ∀ a b, (a, b) ∈ p'.concurrent ↔ (a, b) ∈ p.concurrent ∨
    p'.Current a ∧ a ≠ tid ∧ b = tid ∨ p'.Current b ∧ b.1 ≠ tid.1 ∧ a = tid
  current : ∀ a, p'.Current a ↔ a = tid ∨ p.Current a ∧ a.1 ≠ tid.1
  finished : ∀ a, a ∈ p'.Over ↔ p.Current a ∧ a.1 = tid.1 ∨
    a ∈ p.Over ∧ (a.1 = tid.1 → ∀ k, ¬ p.Current (tid.1, k))

theorem addThunk_ok {cpu : ℤ} (added : addThunk p thread thunk cpu = .ok p') :
    Starts p p' (thread, thunk) := by
  simp only [addThunk] at added
  -- The thread has the new thunk in the table, and the others have theirs.
  split at added
  · cases added
  next new =>
  split at added
  case isFalse => cases added
  obtain rfl := Except.ok.inj added
  have current : ∀ a : ThunkId, (p.cur.insert thread thunk)[a.1]? = some a.2 ↔
      a = (thread, thunk) ∨ p.Current a ∧ a.1 ≠ thread := by
    rintro ⟨t, k⟩
    rw [Threads.getElem?_insert, Programm.Current, Prod.mk.injEq]
    by_cases own : thread = t
    · simp [own, eq_comm]
    · simp [own, Ne.symm own]
  refine ⟨new, ?_, ?_, ?_, current, ?_⟩
  · intro a
    by_cases same : a = (thread, thunk)
    · simp [Programm.Known, same]
    · simp [Programm.Known, same]
  · -- An edge from each thunk that has finished.
    funext a b
    simp only [Programm.Edge, JoinTo, Programm.mem_over, List.mem_append, List.mem_map,
      Prod.exists, Prod.mk.injEq, Std.TreeMap.mem_toList_iff_getElem?_eq_some, eq_iff_iff]
    apply or_congr_right
    constructor
    · rintro ⟨t, k, done, rfl, rfl⟩
      exact ⟨done, rfl⟩
    · rintro ⟨done, rfl⟩
      exact ⟨a.1, a.2, done, rfl, rfl⟩
  · -- The new thunk is concurrent with those that run in other threads.
    intro a b
    simp only [List.mem_append, concurrentWith, List.mem_flatMap, Prod.exists,
      Std.TreeMap.mem_toList_iff_getElem?_eq_some, Programm.Current]
    apply or_congr_right
    constructor
    · rintro ⟨t, k, running, first | second⟩
      · split at first
        · next other =>
          obtain ⟨rfl, rfl⟩ := Prod.mk.inj (List.mem_singleton.mp first)
          exact .inl ⟨running, other, rfl⟩
        · exact absurd first List.not_mem_nil
      · split at second
        · next other =>
          obtain ⟨rfl, rfl⟩ := Prod.mk.inj (List.mem_singleton.mp second)
          exact .inr ⟨running, other, rfl⟩
        · exact absurd second List.not_mem_nil
    · rintro (⟨running, other, rfl⟩ | ⟨running, other, rfl⟩)
      · exact ⟨a.1, a.2, running, .inl (by rw [if_pos other]; exact List.mem_singleton_self _)⟩
      · exact ⟨b.1, b.2, running, .inr (by rw [if_pos other]; exact List.mem_singleton_self _)⟩
  · -- The thunk that the thread had, if any, is finished now.
    rintro ⟨t, k⟩
    simp only [Programm.mem_over, Programm.release, Programm.Current]
    cases running : p.cur[thread]? with
    | none =>
      by_cases own : t = thread
      · simp [own, running]
      · simp [own]
    | some previous =>
      simp only [Threads.getElem?_insert]
      by_cases own : t = thread
      · simp [own, running]
      · simp [own, Ne.symm own]

/-- Nothing is joined to a new thunk yet, and it is joined to nothing. -/
theorem Starts.fresh (starts : Starts p p' tid) (inv : OrderInv rows p) :
    Fresh p.Edge p'.Over tid := by
  refine ⟨fun b edge => starts.new (inv.edge tid b edge).1, fun done => ?_⟩
  rcases (starts.finished tid).mp done with ⟨running, -⟩ | ⟨done, -⟩
  · exact starts.new (inv.cur tid running)
  · exact starts.new (inv.finished tid done)

theorem Starts.path_iff (starts : Starts p p' tid) (inv : OrderInv rows p) (other : b ≠ tid) :
    p'.Path a b ↔ p.Path a b := by
  rw [Programm.Path, starts.edge]
  exact transGen_joinTo_of_ne (starts.fresh inv) other

/-- A thunk that is over, or that the new one takes over from, leads to the new one. -/
theorem Starts.path_new (starts : Starts p p' tid) (inv : OrderInv rows p) (there : p.Known a)
    (past : p.Current a → a.1 = tid.1) : p'.Path a tid := by
  have target : ∀ c, ¬ p.Edge c tid := fun c edge => starts.new (inv.edge c tid edge).2
  rw [Programm.Path, starts.edge, transGen_joinTo_self (starts.fresh inv) target]
  by_cases running : p.Current a
  · exact ⟨a, (starts.finished a).mpr (.inl ⟨running, past running⟩), .refl⟩
  · obtain ⟨out, done, path⟩ := inv.covered a there running
    by_cases replaced : out.1 = tid.1 ∧ ∃ k, p.Current (tid.1, k)
    · -- the thread's current thunk is behind its last one
      obtain ⟨own, k, current⟩ := replaced
      exact ⟨_, (starts.finished _).mpr (.inl ⟨current, rfl⟩),
        path.tail (inv.next out (tid.1, k) done current own)⟩
    · refine ⟨out, (starts.finished out).mpr (.inr ⟨done, fun own k current => ?_⟩), path⟩
      exact replaced ⟨own, k, current⟩

/-- The current thunks of the other threads do not lead to the new one. -/
theorem Starts.not_path_new (starts : Starts p p' tid) (inv : OrderInv rows p)
    (running : p.Current a) (other : a.1 ≠ tid.1) : ¬ p'.Path a tid := by
  have target : ∀ c, ¬ p.Edge c tid := fun c edge => starts.new (inv.edge c tid edge).2
  rw [Programm.Path, starts.edge, transGen_joinTo_self (starts.fresh inv) target]
  rintro ⟨c, done, path⟩
  obtain rfl := eq_of_source (inv.running a running) path
  rcases (starts.finished c).mp done with ⟨-, own⟩ | ⟨done, -⟩
  · exact other own
  · exact inv.left c done running

/-- The trichotomy for the new thunk. -/
theorem Starts.trichotomy (starts : Starts p p' tid) (inv : OrderInv rows p) (there : p.Known a) :
    p'.Trichotomy a tid := by
  have different : a ≠ tid := by
    rintro rfl
    exact starts.new there
  have back : ¬ p'.Path tid a := fun path =>
    not_transGen_of_source (starts.fresh inv).source ((starts.path_iff inv different).mp path)
  have concurrent : p'.Concurrent a tid ↔ p.Current a ∧ a.1 ≠ tid.1 := by
    have old : (a, tid) ∉ p.concurrent := fun pair => starts.new (inv.pair a tid pair).2
    have old' : (tid, a) ∉ p.concurrent := fun pair => starts.new (inv.pair tid a pair).1
    simp only [Programm.Concurrent, starts.concurrent, starts.current, old, old', different,
      false_or, and_true]
    tauto
  by_cases running : p.Current a ∧ a.1 ≠ tid.1
  · have apart := starts.not_path_new inv running.1 running.2
    exact ⟨.inr (.inr (concurrent.mpr running)), fun paths => apart paths.1, fun _ => ⟨apart, back⟩⟩
  · have path := starts.path_new inv there fun current => not_not.mp fun other =>
      running ⟨current, other⟩
    exact ⟨.inl path, fun paths => back paths.2, fun both => absurd (concurrent.mp both) running⟩

theorem OrderInv.start (inv : OrderInv rows p) {cpu : ℤ}
    (starts : Starts p p' (thread, thunk)) :
    OrderInv (rows ++ [.thunk thread thunk cpu]) p' := by
  have known := starts.known
  constructor
  · intro a b edge
    rw [starts.edge] at edge
    rcases edge with edge | ⟨done, rfl⟩
    · -- An edge that is new comes from a finished thunk, into the new one.
      exact (inv.edge a b edge).imp (fun h => (known a).mpr (.inr h)) fun h =>
        (known b).mpr (.inr h)
    · refine ⟨(known a).mpr (.inr ?_), (known _).mpr (.inl rfl)⟩
      rcases (starts.finished a).mp done with ⟨running, -⟩ | ⟨done, -⟩
      · exact inv.cur a running
      · exact inv.finished a done
  · intro a b pair
    have one := fun h => (known a).mpr (.inr h)
    have two := fun h => (known b).mpr (.inr h)
    -- Whoever runs now is known: the new thunk, or one that ran before.
    have runs : ∀ c, p'.Current c → p'.Known c := fun c current => (known c).mpr
      (((starts.current c).mp current).imp_right fun current => inv.cur c current.1)
    rcases (starts.concurrent a b).mp pair with old | ⟨current, -, rfl⟩ | ⟨current, -, rfl⟩
    · exact (inv.pair a b old).imp one two
    · exact ⟨runs a current, (known _).mpr (.inl rfl)⟩
    · exact ⟨(known _).mpr (.inl rfl), runs b current⟩
  · exact fun a current => (known a).mpr
      (((starts.current a).mp current).imp_right fun current => inv.cur a current.1)
  · intro t k current
    rw [currentThunk_concat]
    rcases (starts.current (t, k)).mp current with same | ⟨current, other⟩
    · obtain ⟨rfl, rfl⟩ := Prod.mk.inj same
      exact if_pos rfl
    · exact (if_neg (Ne.symm other)).trans (inv.latest t k current)
  · intro a done
    rcases (starts.finished a).mp done with ⟨running, -⟩ | ⟨done, -⟩
    · exact (known a).mpr (.inr (inv.cur a running))
    · exact (known a).mpr (.inr (inv.finished a done))
  · intro a done current
    -- The new thunk has not finished, and whoever ran before is still running elsewhere.
    rcases (starts.current a).mp current with rfl | ⟨current, other⟩
    · exact (starts.fresh inv).outside done
    · rcases (starts.finished a).mp done with ⟨-, own⟩ | ⟨done, -⟩
      · exact other own
      · exact inv.left a done current
  · intro a b done current same
    rw [starts.edge]
    rcases (starts.current b).mp current with rfl | ⟨current, other⟩
    · exact .inr ⟨done, rfl⟩
    · rcases (starts.finished a).mp done with ⟨-, own⟩ | ⟨done, -⟩
      · exact absurd (same.symm.trans own) other
      · exact .inl (inv.next a b done current same)
  · intro a current b edge
    rw [starts.edge] at edge
    rcases (starts.current a).mp current with rfl | ⟨current, other⟩
    · rcases edge with old | ⟨done, -⟩
      · exact (starts.fresh inv).source b old
      · exact (starts.fresh inv).outside done
    · rcases edge with old | ⟨done, -⟩
      · exact inv.running a current b old
      · rcases (starts.finished a).mp done with ⟨-, own⟩ | ⟨done, -⟩
        · exact other own
        · exact inv.left a done current
  · intro a there idle
    have wider : ∀ c d, p.Edge c d → p'.Edge c d := fun c d edge => starts.edge ▸ .inl edge
    rcases (known a).mp there with rfl | there
    · exact absurd ((starts.current _).mpr (.inl rfl)) idle
    by_cases running : p.Current a
    · have own : a.1 = thread := not_not.mp fun other =>
        idle ((starts.current a).mpr (.inr ⟨running, other⟩))
      exact ⟨a, (starts.finished a).mpr (.inl ⟨running, own⟩), .refl⟩
    · obtain ⟨out, done, path⟩ := inv.covered a there running
      -- The path led to a thunk that the new one replaces: it goes on to the previous thunk.
      by_cases replaced : out.1 = thread ∧ ∃ k, p.Current (thread, k)
      · obtain ⟨own, k, current⟩ := replaced
        have path := path.tail (inv.next out (thread, k) done current own)
        exact ⟨_, (starts.finished _).mpr (.inl ⟨current, rfl⟩),
          ReflTransGen.mono wider _ _ path⟩
      · refine ⟨out, (starts.finished out).mpr (.inr ⟨done, fun own k current => ?_⟩),
          ReflTransGen.mono wider _ _ path⟩
        exact replaced ⟨own, k, current⟩
  · intro a b first second different
    rcases (known a).mp first with rfl | first
    · rcases (known b).mp second with rfl | second
      · exact absurd rfl different
      · exact (starts.trichotomy inv second).symm
    · rcases (known b).mp second with rfl | second
      · exact starts.trichotomy inv first
      · -- Both were there before, and the edges into the new thunk lead nowhere else.
        have old : ∀ c, p.Known c → c ≠ (thread, thunk) := by
          rintro c there rfl
          exact starts.new there
        obtain ⟨some, ordered, apart⟩ := inv.trichotomy a b first second different
        have forth : p'.Path a b ↔ p.Path a b := starts.path_iff inv (old b second)
        have back : p'.Path b a ↔ p.Path b a := starts.path_iff inv (old a first)
        have both : p'.Concurrent a b ↔ p.Concurrent a b := by
          simp only [Programm.Concurrent, starts.concurrent, old a first, old b second, and_false,
            or_false]
        constructor
        · rwa [forth, back, both]
        · rwa [forth, back]
        · rwa [forth, back, both]

/-! ## Whole traces -/

theorem OrderInv.step (inv : OrderInv rows p) (moved : parseRow p row = .ok p')
    (current : ∀ thread thunk, row = .finish thread thunk →
      currentThunk rows thread = some thunk) : OrderInv (rows ++ [row]) p' := by
  cases row with
  | thunk thread thunk cpu => exact inv.start (addThunk_ok moved)
  | finish thread thunk => exact inv.finish (addFinish_ok moved) (current thread thunk rfl)
  | ended thread thunk time =>
    obtain ⟨data, data', there, rfl⟩ := addEnd_ok moved
    exact inv.replace there fun t => currentThunk_concat
  | read thread thunk first last =>
    obtain ⟨data, data', there, rfl⟩ := addRead_ok moved
    exact inv.replace there fun t => currentThunk_concat
  | write thread thunk first last =>
    obtain ⟨data, data', there, rfl⟩ := addWrite_ok moved
    exact inv.replace there fun t => currentThunk_concat
  | other command => cases moved

theorem FinishesCurrent.of_concat (current : FinishesCurrent (rows ++ [row])) :
    FinishesCurrent rows := by
  rintro earlier thread thunk later rfl
  exact current earlier thread thunk (later ++ [row]) (by simp)

theorem FinishesCurrent.concat (current : FinishesCurrent rows)
    (last : ∀ thread thunk, row = .finish thread thunk → currentThunk rows thread = some thunk) :
    FinishesCurrent (rows ++ [row]) := by
  intro earlier thread thunk later same
  induction later using List.reverseRecOn with
  | nil =>
    obtain ⟨rfl, final⟩ := List.append_inj' same rfl
    exact last thread thunk (List.singleton_inj.mp final)
  | append_singleton later final _ =>
    rw [← List.cons_append, ← List.append_assoc] at same
    exact current earlier thread thunk later (List.append_inj' same rfl).1

/-- **Run lemma.** -/
theorem orderInv_of_parseDtl (parsed : parseDtl rows = .ok p) (current : FinishesCurrent rows) :
    OrderInv rows p := by
  induction rows using List.reverseRecOn generalizing p with
  | nil =>
    obtain rfl := Except.ok.inj parsed
    exact orderInv_new
  | append_singleton rows row ih =>
    obtain ⟨middle, before, moved⟩ := foldlM_append_ok.mp parsed
    rw [foldlM_singleton] at moved
    have inv := ih before current.of_concat
    refine inv.step moved ?_
    rintro thread thunk rfl
    exact current rows thread thunk [] rfl

/-- **Order and concurrency are complementary**: of two thunks of a trace one is behind the
other, or each is concurrent with the other, and only one of these holds. -/
theorem trichotomy_of_parseDtl (parsed : parseDtl rows = .ok p) (current : FinishesCurrent rows)
    (first : (p.thunks a).isSome) (second : (p.thunks b).isSome) (different : a ≠ b) :
    p.Trichotomy a b :=
  (orderInv_of_parseDtl parsed current).trichotomy a b first second different

/-- Thread 2 runs and finishes next to the first thunk of thread 1, which then starts its
second one. -/
def twoThreads : List Row := [.thunk 1 1 0, .thunk 2 1 0, .finish 2 1, .thunk 1 2 0]

/-- The first thunks of the two threads are concurrent or ordered, and not both. -/
theorem trichotomy_twoThreads :
    ∃ p, parseDtl twoThreads = .ok p ∧ p.Trichotomy (1, 1) (2, 1) := by
  have start : FinishesCurrent [] := by
    intro earlier thread thunk later same
    simp at same
  have thunk : ∀ {rows : List Row} (thread thunk cpu : ℤ), FinishesCurrent rows →
      FinishesCurrent (rows ++ [.thunk thread thunk cpu]) := fun _ _ _ current =>
    current.concat fun _ _ same => by cases same
  have finish : FinishesCurrent [.thunk 1 1 0, .thunk 2 1 0, .finish 2 1] :=
    (thunk 2 1 0 (thunk 1 1 0 start)).concat fun _ _ same => by cases same; rfl
  have current : FinishesCurrent twoThreads := thunk 1 2 0 finish
  have accepted : (match parseDtl twoThreads with
      | .ok p => (p.thunks (1, 1)).isSome && (p.thunks (2, 1)).isSome
      | .error _ => false) = true := by decide +kernel
  cases parsed : parseDtl twoThreads with
  | error e =>
    rw [parsed] at accepted
    cases accepted
  | ok p =>
    rw [parsed] at accepted
    obtain ⟨first, second⟩ := Bool.and_eq_true_iff.mp accepted
    exact ⟨p, rfl, trichotomy_of_parseDtl parsed current first second (by decide)⟩

end Tthread.Dtl
