/-
# The DTL trace format

The log of a run is exported as a trace of rows, and the rack simulator reads such
a trace back. The exporter keeps the current thunk of each thread, collects the
addresses that each thunk reads and writes, and writes them behind the row of the
thunk as ranges. The importer builds the thunks with their read and write sets; it
refuses rows of thunks it does not know and thunks that start or end twice.
Accesses in front of a thread's first thunk are booked to a thunk 0, for which no
row is ever written.
-/

import Mathlib.Data.Finset.Insert
import Mathlib.Data.List.Induction
import Mathlib.Logic.Function.Basic
import Std.Data.TreeMap.Lemmas
import Tthread.Library.Runs

namespace Tthread

namespace Dtl

open Runs

/-- A row of a trace. -/
inductive Row where
  | thunk (thread thunk cpu : ℤ)
  | ended (thread thunk : ℤ) (time : ℕ)
  | finish (thread thunk : ℤ)
  | write (thread thunk : ℤ) (first last : ℕ)
  | read (thread thunk : ℤ) (first last : ℕ)
  | other (command : String)
deriving DecidableEq

/-- The row starts a thunk. -/
def Row.isThunk : Row → Bool
  | .thunk .. => true
  | _ => false

/-- The thread and the thunk of a row. -/
def Row.id : Row → Option (ℤ × ℤ)
  | .thunk thread number _ => some (thread, number)
  | .ended thread number _ => some (thread, number)
  | .finish thread number => some (thread, number)
  | .write thread number _ _ => some (thread, number)
  | .read thread number _ _ => some (thread, number)
  | .other _ => none

/-- An event of a log, as `accesslog` reads it. -/
inductive Event where
  | invalid
  | write (thread : ℤ) (address : ℕ)
  | read (thread : ℤ) (address : ℕ)
  | thunk (thread id cpu : ℤ)
  | finish (thread : ℤ)
  | ended (thread : ℤ) (cpuTime : ℕ)
deriving DecidableEq

/-- `ThunkId`. -/
abbrev ThunkId := ℤ × ℤ

/-- The exceptions of the exporter and the importer. -/
inductive Error where
  | keyError
  | unexpectedThunkDuplication (tid : ThunkId)
  | expectedToFindThunk (tid : ThunkId)
  | expectedToNotFindEnd (tid : ThunkId)
  | expectedThunkToExist (tid : ThunkId)
  | unknownEventType (command : String)
deriving DecidableEq

/-! ## Export -/

/-- `DTLWriter.ThunkEvent`: an entry of the `thunk_order`. -/
inductive Item where
  | thunk (thread thunk cpu : ℤ)
  | ended (thread thunk : ℤ) (time : ℕ)
  | finish (thread thunk : ℤ)

/-- `DTLWriter`. A thunk without an entry in one of the sets is one with an empty
list. -/
structure Writer where
  readSet : ThunkId → List ℕ
  writeSet : ThunkId → List ℕ
  thunkOrder : List Item
  curThreads : ℤ → Option ℤ

def Writer.new : Writer where
  readSet := fun _ => []
  writeSet := fun _ => []
  thunkOrder := []
  curThreads := fun _ => none

/-- `_save_thunk`. -/
def saveThunk (w : Writer) (thread id cpu : ℤ) : Writer :=
  { w with
    curThreads := Function.update w.curThreads thread (some id)
    thunkOrder := w.thunkOrder ++ [.thunk thread id cpu] }

/-- `_save_end`. -/
def saveEnd (w : Writer) (thread : ℤ) (cpuTime : ℕ) : Except Error Writer :=
  match w.curThreads thread with
  | none => .error .keyError
  | some thunk => .ok { w with thunkOrder := w.thunkOrder ++ [.ended thread thunk cpuTime] }

/-- `_save_finish`. -/
def saveFinish (w : Writer) (thread : ℤ) : Except Error Writer :=
  match w.curThreads thread with
  | none => .error .keyError
  | some thunk => .ok { w with thunkOrder := w.thunkOrder ++ [.finish thread thunk] }

/-- The first part of `_save_access`: a thread without a thunk is at thunk 0. -/
def Writer.atThunk (w : Writer) (thread : ℤ) : Writer :=
  match w.curThreads thread with
  | none => { w with curThreads := Function.update w.curThreads thread (some 0) }
  | some _ => w

/-- Append an address to the list of a thunk. -/
def touch (sets : ThunkId → List ℕ) (thunk : ThunkId) (address : ℕ) : ThunkId → List ℕ :=
  Function.update sets thunk (sets thunk ++ [address])

/-- `_save_access` of a read. -/
def saveRead (w : Writer) (thread : ℤ) (address : ℕ) : Writer :=
  { w.atThunk thread with
    readSet := touch w.readSet (thread, (w.curThreads thread).getD 0) address }

/-- `_save_access` of a write. -/
def saveWrite (w : Writer) (thread : ℤ) (address : ℕ) : Writer :=
  { w.atThunk thread with
    writeSet := touch w.writeSet (thread, (w.curThreads thread).getD 0) address }

/-- One round of the loop of `write`. -/
def save (w : Writer) : Event → Except Error Writer
  | .invalid => .ok w
  | .write thread address => .ok (saveWrite w thread address)
  | .read thread address => .ok (saveRead w thread address)
  | .thunk thread id cpu => .ok (saveThunk w thread id cpu)
  | .finish thread => saveFinish w thread
  | .ended thread cpuTime => saveEnd w thread cpuTime

/-- The rows of an entry: `_write_thunk`, `_write_end` and `_write_finish`. -/
def rowsOf (readSet writeSet : ThunkId → List ℕ) : Item → List Row
  | .thunk thread thunk cpu =>
    .thunk thread thunk cpu ::
      ((runs (readSet (thread, thunk))).map (fun addr => Row.read thread thunk addr.1 addr.2) ++
        (runs (writeSet (thread, thunk))).map fun addr => Row.write thread thunk addr.1 addr.2)
  | .ended thread thunk time => [.ended thread thunk time]
  | .finish thread thunk => [.finish thread thunk]

/-- `_dump`. -/
def dump (readSet writeSet : ThunkId → List ℕ) (order : List Item) : List Row :=
  order.flatMap (rowsOf readSet writeSet)

/-- `DTLWriter.write`. -/
def exportLog (log : List Event) : Except Error (List Row) := do
  let w ← log.foldlM save Writer.new
  return dump w.readSet w.writeSet w.thunkOrder

/-! ## Import -/

/-- `ThunkData`; no `cputime` stands for minus infinity. -/
structure ThunkData where
  cpu : ℤ
  cputime : Option ℕ
  rs : Finset ℕ
  ws : Finset ℕ
deriving DecidableEq

/-- `ThunkData(tid, cpu)`. -/
def ThunkData.new (cpu : ℤ) : ThunkData where
  cpu := cpu
  cputime := none
  rs := ∅
  ws := ∅

/-- A dictionary from threads to their thunks. -/
abbrev Threads := Std.TreeMap ℤ ℤ

/-- `Programm`. An edge or a concurrent thunk is a pair of ids. -/
structure Programm where
  thunks : ThunkId → Option ThunkData
  order : List ThunkId
  cur : Threads
  edges : List (ThunkId × ThunkId)
  finished : Threads
  concurrent : List (ThunkId × ThunkId)

def Programm.new : Programm where
  thunks := fun _ => none
  order := []
  cur := ∅
  edges := []
  finished := ∅
  concurrent := []

/-- `finished` in `add_thunk`, with the thread's previous thunk. -/
def Programm.release (p : Programm) (thread : ℤ) : Threads :=
  match p.cur[thread]? with
  | some previous => p.finished.insert thread previous
  | none => p.finished

/-- The pairs of concurrent thunks that a new one adds. -/
def concurrentWith (cur : Threads) (tid : ThunkId) : List (ThunkId × ThunkId) :=
  cur.toList.flatMap fun entry =>
    (if entry ≠ tid then [(entry, tid)] else []) ++
      if entry.1 ≠ tid.1 then [(tid, entry)] else []

/-- `add_thunk`. -/
def addThunk (p : Programm) (thread thunk cpu : ℤ) : Except Error Programm :=
  let tid := (thread, thunk)
  if (p.thunks tid).isSome then .error (.unexpectedThunkDuplication tid)
  else
    let thunks := Function.update p.thunks tid (some (ThunkData.new cpu))
    let finished := p.release thread
    -- each finished thunk is looked up
    if finished.toList.all fun out => (thunks out).isSome then
      let cur := p.cur.insert thread thunk
      .ok {
        thunks := thunks
        order := p.order ++ [tid]
        cur := cur
        edges := p.edges ++ finished.toList.map fun out => (out, tid)
        finished := finished
        concurrent := p.concurrent ++ concurrentWith cur tid }
    else .error .keyError

/-- `add_finish`. -/
def addFinish (p : Programm) (thread thunk : ℤ) : Except Error Programm :=
  let tid := (thread, thunk)
  if (p.thunks tid).isNone then .error (.expectedToFindThunk tid)
  else if (p.cur[thread]?).isNone then .error .keyError
  else .ok { p with finished := p.finished.insert thread thunk, cur := p.cur.erase thread }

/-- `add_end`. The end of a thunk 0 first adds the thunk, as one that has ended. -/
def addEnd (p : Programm) (thread thunk : ℤ) (cpuTime : ℕ) : Except Error Programm :=
  let tid := (thread, thunk)
  let thunks :=
    if thunk = 0 then
      Function.update p.thunks tid (some { ThunkData.new 0 with cputime := some 0 })
    else p.thunks
  match thunks tid with
  | none => .error (.expectedToFindThunk tid)
  | some data =>
    -- also for the thunk 0 that was just added
    if data.cputime ≠ none then .error (.expectedToNotFindEnd tid)
    else
      .ok { p with
        thunks := Function.update thunks tid (some { data with cputime := some cpuTime }) }

/-- `add_read`. -/
def addRead (p : Programm) (thread thunk : ℤ) (first last : ℕ) : Except Error Programm :=
  let tid := (thread, thunk)
  match p.thunks tid with
  | none => .error (.expectedThunkToExist tid)
  | some data =>
    .ok { p with
      thunks := Function.update p.thunks tid
        (some { data with rs := data.rs ∪ Finset.Icc first last }) }

/-- `add_write`. -/
def addWrite (p : Programm) (thread thunk : ℤ) (first last : ℕ) : Except Error Programm :=
  let tid := (thread, thunk)
  match p.thunks tid with
  | none => .error (.expectedThunkToExist tid)
  | some data =>
    .ok { p with
      thunks := Function.update p.thunks tid
        (some { data with ws := data.ws ∪ Finset.Icc first last }) }

/-- One round of the loop of `__parse_dtl`. -/
def parseRow (p : Programm) : Row → Except Error Programm
  | .thunk thread thunk cpu => addThunk p thread thunk cpu
  | .ended thread thunk time => addEnd p thread thunk time
  | .finish thread thunk => addFinish p thread thunk
  | .write thread thunk first last => addWrite p thread thunk first last
  | .read thread thunk first last => addRead p thread thunk first last
  | .other command => .error (.unknownEventType command)

/-- `__parse_dtl`. -/
def parseDtl (rows : List Row) : Except Error Programm := rows.foldlM parseRow Programm.new

/-- The parsed read set of a thunk; a thunk that was not parsed has none. -/
def Programm.reads (p : Programm) (tid : ThunkId) : Finset ℕ :=
  ((p.thunks tid).map ThunkData.rs).getD ∅

/-- The parsed write set of a thunk. -/
def Programm.writes (p : Programm) (tid : ThunkId) : Finset ℕ :=
  ((p.thunks tid).map ThunkData.ws).getD ∅

/-! ## What a log says -/

/-- What a log tells about a thread: its current thunk, and whether that has ended
or the thread has finished since it started. -/
structure Status where
  thunk : Option ℤ
  ended : Bool
  finished : Bool
deriving DecidableEq

/-- The status of a thread after one more event. -/
def Status.next (thread : ℤ) (status : Status) : Event → Status
  | .thunk t id _ => if t = thread then ⟨some id, false, false⟩ else status
  | .ended t _ => if t = thread then { status with ended := true } else status
  | .finish t => if t = thread then { status with finished := true } else status
  | _ => status

/-- The status of a thread after the events of a log. -/
def statusOf (log : List Event) (thread : ℤ) : Status :=
  log.foldl (Status.next thread) ⟨none, false, false⟩

/-- The current thunk of a thread: 0 in front of the first one. -/
def currentOf (log : List Event) (thread : ℤ) : ℤ := (statusOf log thread).thunk.getD 0

/-- The thread has logged an access while the thunk was its current one. `access`
makes the event of the thread and the address. -/
def Logged (access : ℤ → ℕ → Event) (log : List Event) (tid : ThunkId) (address : ℕ) : Prop :=
  ∃ earlier later, log = earlier ++ access tid.1 address :: later ∧ currentOf earlier tid.1 = tid.2

/-- **Faithful.** Neither side raises an exception, and every thunk gets exactly the
addresses back that were logged for it. -/
def Faithful (log : List Event) : Prop :=
  ∃ rows p, exportLog log = .ok rows ∧ parseDtl rows = .ok p ∧
    ∀ tid address, (address ∈ p.reads tid ↔ Logged Event.read log tid address) ∧
      (address ∈ p.writes tid ↔ Logged Event.write log tid address)

/-- The thunk has started. -/
def Started (log : List Event) (tid : ThunkId) : Prop := ∃ cpu, .thunk tid.1 tid.2 cpu ∈ log

/-- An event that both sides can follow: a thread starts with a thunk, a thunk
starts once and ends once, and a thread finishes once. -/
def Expected (earlier : List Event) : Event → Prop
  | .invalid => True
  | .read thread _ => (statusOf earlier thread).thunk ≠ none
  | .write thread _ => (statusOf earlier thread).thunk ≠ none
  | .thunk thread id _ => ¬ Started earlier (thread, id)
  | .ended thread _ =>
    (statusOf earlier thread).thunk ≠ none ∧ (statusOf earlier thread).ended = false
  | .finish thread =>
    (statusOf earlier thread).thunk ≠ none ∧ (statusOf earlier thread).finished = false

/-- Every event of the log can be followed. -/
def WellOrdered (log : List Event) : Prop :=
  ∀ earlier event later, log = earlier ++ event :: later → Expected earlier event

/-- The runtime numbers thunks from 1 on: `startThunk` counts before `atomicBegin`
logs. -/
def PositiveThunks (log : List Event) : Prop := ∀ thread id cpu, .thunk thread id cpu ∈ log → 0 < id

end Dtl

end Tthread
