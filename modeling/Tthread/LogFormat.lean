/-
# The log file

The runtime lays the header and the events of a log out as packed C++ structures, and the
Python readers take them apart with format strings of their own. The two agree on every
offset, and on every value but one: the CPU time of an end is a signed number for the
writer and an unsigned one for the reader.
-/

import Mathlib.Data.List.Forall2
import Tthread.Library.Folds
import Tthread.Library.Packing
import Tthread.Xlogger

namespace Tthread.LogFormat

open Bytes Packing Folds

/-! ## The writer -/

/-- `EventData`, for the type of its event. The structure of a finish has no members, so its
bytes are whatever they were. -/
inductive Data
  | write (address : UInt64)
  | read (address : UInt64)
  | thunk (id cpu : Int32)
  | finish (unset : Fin 8 → UInt8)
  | ended (cpuTime : Int64)

/-- `tthread::logevent` -/
structure Logevent where
  returnAddress : UInt64
  threadId : Int32
  data : Data

/-- `logevent::Type` -/
def Data.type : Data → ℕ
  | .write _ => 1
  | .read _ => 2
  | .thunk .. => 3
  | .finish _ => 4
  | .ended _ => 5

def Data.bytes : Data → List UInt8
  | .write address | .read address => encode 8 address.toNat
  | .thunk id cpu => encode 4 id.toBitVec.toNat ++ encode 4 cpu.toBitVec.toNat
  | .finish unset => List.ofFn unset
  | .ended cpuTime => encode 8 cpuTime.toBitVec.toNat

/-- The members of an event one behind the other. -/
def Logevent.bytes (e : Logevent) : List UInt8 :=
  encode 1 e.data.type ++ (encode 8 e.returnAddress.toNat ++
    (encode 4 e.threadId.toBitVec.toNat ++ e.data.bytes))

/-- `tthread::logheader`, whose other members are constants. -/
structure Logheader where
  eventCount : UInt64
  globalStart : UInt64
  globalEnd : UInt64
  heapStart : UInt64
  heapEnd : UInt64

def fileMagic : ℕ := 0xC3D2C3D2

def version : ℕ := 1

/-- `logheader::HEADER_SIZE` -/
def headerSize : ℕ := 4096

def Logheader.bytes (h : Logheader) : List UInt8 :=
  encode 4 fileMagic ++ (encode 4 version ++ (encode 8 headerSize ++
    (encode 8 h.eventCount.toNat ++ (encode 8 h.globalStart.toNat ++
      (encode 8 h.globalEnd.toNat ++ (encode 8 h.heapStart.toNat ++ encode 8 h.heapEnd.toNat))))))

/-- The file: the header is padded, and the file may be longer than its events. -/
def logFile (h : Logheader) (padding : List UInt8) (events : List Logevent) (rest : List UInt8) :
    List UInt8 :=
  h.bytes ++ padding ++ (events.flatMap Logevent.bytes ++ rest)

theorem Data.bytes_length (data : Data) : data.bytes.length = 8 := by
  cases data <;> simp [Data.bytes]

/-- The layout has the size that the logger reckons with. -/
theorem Logevent.bytes_length (e : Logevent) : e.bytes.length = Xlogger.eventSize := by
  simp [Logevent.bytes, Data.bytes_length, Xlogger.eventSize]

theorem Logheader.bytes_length (h : Logheader) : h.bytes.length = 56 := by
  simp [Logheader.bytes]

/-! ## The reader -/

/-- A class of named tuples, as `make_type` builds it. -/
structure EventType where
  name : String
  fields : List (String × Format)
  deriving DecidableEq

def EventType.formats (type : EventType) : List Format := type.fields.map Prod.snd

def EventType.size (type : EventType) : ℕ := calcsize type.formats

def defaultEventFields : List (String × Format) :=
  [("type", .c), ("return_address", .Q), ("thread_id", .i)]

def thunkEventData : List (String × Format) := [("id", .i), ("cpu", .i)]

def memoryEventData : List (String × Format) := [("address", .Q)]

def finishEventData : List (String × Format) := [("placeholder", .i)]

def endEventData : List (String × Format) := [("cpu_time", .Q)]

def headerFields : List (String × Format) :=
  [("file_magic", .I), ("version", .I), ("header_size", .Q), ("event_count", .Q),
    ("global_start", .Q), ("global_end", .Q), ("heap_start", .Q), ("heap_end", .Q)]

def invalidEvent : EventType := ⟨"InvalidEvent", [("type", .c)]⟩

def writeEvent : EventType := ⟨"WriteEvent", defaultEventFields ++ memoryEventData⟩

def readEvent : EventType := ⟨"ReadEvent", defaultEventFields ++ memoryEventData⟩

def thunkEvent : EventType := ⟨"ThunkEvent", defaultEventFields ++ thunkEventData⟩

def finishEvent : EventType := ⟨"FinishEvent", defaultEventFields ++ finishEventData⟩

def endEvent : EventType := ⟨"EndEvent", defaultEventFields ++ endEventData⟩

def events : List EventType :=
  [invalidEvent, writeEvent, readEvent, thunkEvent, finishEvent, endEvent]

def logEventSize : ℕ := (events.map EventType.size).foldr max 0

def headerType : EventType := ⟨"Header", headerFields⟩

/-- A named tuple. The byte of a type is the number of that byte. -/
structure Event where
  type : EventType
  values : List ℤ
  deriving DecidableEq

/-- The field of a name. -/
def Event.get (event : Event) (name : String) : Option ℤ :=
  ((event.type.fields.map Prod.fst).zip event.values).lookup name

/-- `accesslog.Error` with its text, and the errors of a file that ends early. -/
inductive Error
  | log (message : String)
  | index
  | struct
  deriving DecidableEq

/-- `_read_header` -/
def readHeader (file : List UInt8) : Except Error Event :=
  if file.length < headerType.size then
    .error (.log s!"expected tthread_log to be at least {headerType.size}, got {file.length}")
  else
    match unpack headerType.formats (file.take headerType.size) with
    | none => .error .struct
    | some values =>
        let header : Event := ⟨headerType, values⟩
        let magic := (header.get "file_magic").getD 0
        if magic ≠ fileMagic then
          .error (.log
            s!"expect file_magick of tthread_log to be equal {fileMagic}, got {magic}")
        else .ok header

/-- The body of the loop of `Log.read`, for the bytes of one event. -/
def readOne (eventBytes : List UInt8) : Except Error Event :=
  match eventBytes with
  | [] => .error .index
  | typeByte :: _ =>
      match events[typeByte.toNat]? with
      | none =>
          .error (.log
            s!"type field '{typeByte.toNat}' is out of range 0..{events.length}")
      | some type =>
          match unpack type.formats (eventBytes.take type.size) with
          | none => .error .struct
          | some values => .ok ⟨type, values⟩

/-- The loop of `Log.read`, from the present position of the file. -/
def readEvents : ℕ → List UInt8 → Except Error (List Event)
  | 0, _ => .ok []
  | n + 1, file => do
      let event ← readOne (file.take logEventSize)
      let rest ← readEvents n (file.drop logEventSize)
      return event :: rest

/-- `Log.read`: the header and the list of all events. -/
def readLog (file : List UInt8) : Except Error (Event × List Event) := do
  let header ← readHeader file
  let position := (header.get "header_size").getD 0
  let count := (header.get "event_count").getD 0
  let read ← readEvents count.toNat (file.drop position.toNat)
  return (header, read)

/-! ## What has to come back -/

/-- The class for a type of event. -/
def Data.eventType : Data → EventType
  | .write _ => writeEvent
  | .read _ => readEvent
  | .thunk .. => thunkEvent
  | .finish _ => finishEvent
  | .ended _ => endEvent

/-- The members of the data under the names of the reader. -/
def Data.members : Data → List (String × ℤ)
  | .write address | .read address => [("address", address.toNat)]
  | .thunk id cpu => [("id", id.toInt), ("cpu", cpu.toInt)]
  | .finish _ => []
  | .ended cpuTime => [("cpu_time", cpuTime.toInt)]

/-- The members of an event with their values. -/
def Logevent.members (e : Logevent) : List (String × ℤ) :=
  ("type", (e.data.type : ℤ)) :: ("return_address", (e.returnAddress.toNat : ℤ)) ::
    ("thread_id", e.threadId.toInt) :: e.data.members

/-- The event has come back in the right class, with every member. -/
structure Matches (e : Logevent) (event : Event) : Prop where
  type : event.type = e.data.eventType
  members : ∀ m ∈ e.members, event.get m.1 = some m.2

def Logheader.members (h : Logheader) : List (String × ℤ) :=
  [("file_magic", fileMagic), ("version", version), ("header_size", headerSize),
    ("event_count", h.eventCount.toNat), ("global_start", h.globalStart.toNat),
    ("global_end", h.globalEnd.toNat), ("heap_start", h.heapStart.toNat),
    ("heap_end", h.heapEnd.toNat)]

/-- The header and exactly the events have come back, in order. -/
def RoundTrip (h : Logheader) (padding : List UInt8) (events : List Logevent)
    (rest : List UInt8) : Prop :=
  ∃ header read, readLog (logFile h padding events rest) = .ok (header, read) ∧
    (∀ m ∈ h.members, header.get m.1 = some m.2) ∧ List.Forall₂ Matches events read

/-! ## The fields of a record -/

/-- The data as the fields of the reader. The reader takes four bytes of a finish. -/
def Data.fields : Data → List (Format × List UInt8)
  | .write address | .read address => [(.Q, encode 8 address.toNat)]
  | .thunk id cpu => [(.i, encode 4 id.toBitVec.toNat), (.i, encode 4 cpu.toBitVec.toNat)]
  | .finish unset => [(.i, (List.ofFn unset).take 4)]
  | .ended cpuTime => [(.Q, encode 8 cpuTime.toBitVec.toNat)]

/-- The bytes that the reader leaves. -/
def Data.unread : Data → List UInt8
  | .finish unset => (List.ofFn unset).drop 4
  | _ => []

def Logevent.fields (e : Logevent) : List (Format × List UInt8) :=
  (.c, encode 1 e.data.type) :: (.Q, encode 8 e.returnAddress.toNat) ::
    (.i, encode 4 e.threadId.toBitVec.toNat) :: e.data.fields

def Logheader.fields (h : Logheader) : List (Format × List UInt8) :=
  [(.I, encode 4 fileMagic), (.I, encode 4 version), (.Q, encode 8 headerSize),
    (.Q, encode 8 h.eventCount.toNat), (.Q, encode 8 h.globalStart.toNat),
    (.Q, encode 8 h.globalEnd.toNat), (.Q, encode 8 h.heapStart.toNat),
    (.Q, encode 8 h.heapEnd.toNat)]

/-- The values of the fields as the reader sees them. -/
def fieldValues (fields : List (Format × List UInt8)) : List ℤ :=
  fields.map fun field => field.1.read field.2

theorem Data.bytes_eq (data : Data) : data.bytes = data.fields.flatMap Prod.snd ++ data.unread := by
  cases data with
  | finish unset => simp [Data.bytes, Data.fields, Data.unread]
  | write _ | read _ | thunk _ _ | ended _ => simp [Data.bytes, Data.fields, Data.unread]

theorem Logevent.bytes_eq (e : Logevent) :
    e.bytes = e.fields.flatMap Prod.snd ++ e.data.unread := by
  simp only [Logevent.bytes, Logevent.fields, Data.bytes_eq, List.flatMap_cons, List.append_assoc]

theorem Logheader.bytes_eq (h : Logheader) : h.bytes = h.fields.flatMap Prod.snd := by
  simp [Logheader.bytes, Logheader.fields]

/-- The fields are those of the class of the event. -/
theorem Logevent.formats_eq (e : Logevent) :
    e.data.eventType.formats = e.fields.map Prod.fst := by
  obtain ⟨_, _, data⟩ := e
  cases data <;> rfl

/-- Each field has the width that the reader gives it. -/
theorem Logevent.fields_fit (e : Logevent) :
    ∀ field ∈ e.fields, field.2.length = field.1.size := by
  obtain ⟨_, _, data⟩ := e
  cases data <;> simp [Logevent.fields, Data.fields, Format.size]

theorem Logheader.fields_fit (h : Logheader) :
    ∀ field ∈ h.fields, field.2.length = field.1.size := by
  simp [Logheader.fields, Format.size]

/-! ## What the reader makes of the bytes -/

/-- Reading a record and whatever follows it takes its fields apart. -/
theorem unpack_record {type : EventType} {fields : List (Format × List UInt8)}
    (formats : type.formats = fields.map Prod.fst)
    (fits : ∀ field ∈ fields, field.2.length = field.1.size) (rest : List UInt8) :
    unpack type.formats ((fields.flatMap Prod.snd ++ rest).take type.size) =
      some (fieldValues fields) := by
  have size : (fields.flatMap Prod.snd).length = type.size := by
    rw [EventType.size, formats, calcsize_flatMap fits]
  rw [List.take_left' size, formats, unpack_flatMap fits, fieldValues]

/-- The byte of the type chooses the class. -/
theorem Data.events_type (data : Data) :
    events[(byteOf data.type 0).toNat]? = some data.eventType := by
  rw [byteOf_zero]
  cases data <;> rfl

/-- An event comes back in its class, field by field. -/
theorem readOne_bytes (e : Logevent) :
    readOne e.bytes = .ok ⟨e.data.eventType, fieldValues e.fields⟩ := by
  have first : e.bytes = byteOf e.data.type 0 :: e.bytes.tail := by
    rw [Logevent.bytes, encode_succ]
    rfl
  have record := unpack_record e.formats_eq e.fields_fit e.data.unread
  rw [← e.bytes_eq, first] at record
  rw [first, readOne]
  simp only [Data.events_type, record]

theorem logEventSize_eq : logEventSize = Xlogger.eventSize := by decide

/-- The loop reads the events one by one, whatever follows them. -/
theorem readEvents_bytes (events : List Logevent) (rest : List UInt8) :
    readEvents events.length (events.flatMap Logevent.bytes ++ rest) =
      .ok (events.map fun e => ⟨e.data.eventType, fieldValues e.fields⟩) := by
  induction events with
  | nil => rfl
  | cons e events ih =>
    have size : e.bytes.length = logEventSize := e.bytes_length.trans logEventSize_eq.symm
    rw [List.flatMap_cons, List.append_assoc, List.length_cons, readEvents,
      List.take_left' size, List.drop_left' size, readOne_bytes, ih]
    rfl

/-! ## The values of the fields -/

theorem read_type (data : Data) : Format.c.read (encode 1 data.type) = data.type :=
  read_encode (by decide) (by cases data <;> simp [Data.type, Format.size])

theorem read_unsigned (value : UInt64) : Format.Q.read (encode 8 value.toNat) = value.toNat :=
  read_encode (by decide) value.toNat_lt

theorem read_signed (value : Int32) :
    Format.i.read (encode 4 value.toBitVec.toNat) = value.toInt :=
  read_encode_signed value.toBitVec

/-- The CPU time comes back as the unsigned number of its bits. -/
theorem read_cpuTime (cpuTime : Int64) :
    Format.Q.read (encode 8 cpuTime.toBitVec.toNat) = cpuTime.toBitVec.toNat :=
  read_encode (by decide) cpuTime.toBitVec.isLt

/-- Which is the CPU time if that has no sign. -/
theorem cpuTime_eq_iff (cpuTime : Int64) :
    (cpuTime.toBitVec.toNat : ℤ) = cpuTime.toInt ↔ 0 ≤ cpuTime.toInt := by
  have signed : cpuTime.toInt = cpuTime.toBitVec.toInt := rfl
  have bound := cpuTime.toBitVec.isLt
  rw [signed, BitVec.toInt_eq_toNat_cond]
  split <;> omega

/-- The values of an event, those that all events share first. -/
theorem Logevent.values_eq (e : Logevent) :
    fieldValues e.fields =
      (e.data.type : ℤ) :: (e.returnAddress.toNat : ℤ) :: e.threadId.toInt ::
        fieldValues e.data.fields := by
  rw [← read_type, ← read_unsigned, ← read_signed]
  rfl

/-- The fields that all classes share have the same names in all of them. -/
theorem get_default (data : Data) (type address thread : ℤ) (values : List ℤ) :
    ∀ m ∈ [("type", type), ("return_address", address), ("thread_id", thread)],
      Event.get ⟨data.eventType, type :: address :: thread :: values⟩ m.1 = some m.2 := by
  rw [List.forall_mem_cons, List.forall_mem_cons, List.forall_mem_singleton]
  cases data <;> exact ⟨rfl, rfl, rfl⟩

/-- The fields of the data come behind those. -/
theorem get_data (data : Data) (type address thread : ℤ) (values : List ℤ) :
    ∀ m ∈ data.members, Event.get ⟨data.eventType, type :: address :: thread :: values⟩ m.1 =
      (data.members.map Prod.fst |>.zip values).lookup m.1 := by
  cases data with
  | finish => exact fun m member => absurd member List.not_mem_nil
  | write | read | ended =>
    rw [Data.members, List.forall_mem_singleton]
    rfl
  | thunk =>
    rw [Data.members, List.forall_mem_cons, List.forall_mem_singleton]
    exact ⟨rfl, rfl⟩

/-- An event comes back as it was unless it is an end with a negative CPU time. -/
theorem matches_iff (e : Logevent) :
    Matches e ⟨e.data.eventType, fieldValues e.fields⟩ ↔
      ∀ cpuTime, e.data = .ended cpuTime → 0 ≤ cpuTime.toInt := by
  -- the shared fields always come back, so that only the data decides
  have iff_data : Matches e ⟨e.data.eventType, fieldValues e.fields⟩ ↔
      ∀ m ∈ e.data.members,
        (e.data.members.map Prod.fst |>.zip (fieldValues e.data.fields)).lookup m.1 =
          some m.2 := by
    have shared := get_default e.data e.data.type e.returnAddress.toNat e.threadId.toInt
      (fieldValues e.data.fields)
    have own := get_data e.data e.data.type e.returnAddress.toNat e.threadId.toInt
      (fieldValues e.data.fields)
    rw [e.values_eq]
    constructor
    · intro same m member
      rw [← own m member]
      exact same.members m (List.mem_append_right [_, _, _] member)
    · refine fun same => ⟨rfl, fun m member => ?_⟩
      obtain common | data := List.mem_append.mp (show m ∈ [_, _, _] ++ e.data.members from member)
      · exact shared m common
      · exact (own m data).trans (same m data)
  rw [iff_data]
  generalize e.data = data
  cases data with
  | write address | read address =>
    refine iff_of_true ?_ (by simp)
    rw [Data.members, List.forall_mem_singleton, ← read_unsigned]
    rfl
  | thunk id cpu =>
    refine iff_of_true ?_ (by simp)
    have values : fieldValues (Data.thunk id cpu).fields = [id.toInt, cpu.toInt] := by
      rw [← read_signed id, ← read_signed cpu]
      rfl
    rw [values, Data.members, List.forall_mem_cons, List.forall_mem_singleton]
    exact ⟨rfl, rfl⟩
  | finish unset => exact iff_of_true (fun m member => absurd member List.not_mem_nil) (by simp)
  | ended cpuTime =>
    calc (∀ m ∈ [("cpu_time", cpuTime.toInt)], List.lookup m.1 _ = some m.2)
        ↔ some (cpuTime.toBitVec.toNat : ℤ) = some cpuTime.toInt := by
          rw [List.forall_mem_singleton, ← read_cpuTime]
          rfl
      _ ↔ 0 ≤ cpuTime.toInt := by rw [Option.some_inj, cpuTime_eq_iff]
      _ ↔ ∀ other, Data.ended cpuTime = .ended other → 0 ≤ other.toInt := by
          simp only [Data.ended.injEq, forall_eq']

/-! ## The header -/

section Header

variable (h : Logheader)

theorem Logheader.values_eq : fieldValues h.fields = h.members.map Prod.snd := by
  have fixed : ∀ value : ℕ, value < 2 ^ 32 →
      Format.I.read (encode 4 value) = value := fun value small =>
    read_encode (by decide) (small.trans_eq (by decide))
  have size : Format.Q.read (encode 8 headerSize) = (headerSize : ℤ) :=
    read_encode (by decide) (by decide)
  simp only [fieldValues, Logheader.fields, Logheader.members, List.map_cons, List.map_nil,
    fixed fileMagic (by decide), fixed version (by decide), size, read_unsigned]

/-- Every member of the header comes back. -/
theorem Logheader.get_members :
    ∀ m ∈ h.members, Event.get ⟨headerType, fieldValues h.fields⟩ m.1 = some m.2 := by
  rw [h.values_eq]
  simp only [Logheader.members, List.forall_mem_cons]
  exact ⟨rfl, rfl, rfl, rfl, rfl, rfl, rfl, rfl, by simp⟩

/-- The header of a file is read whatever follows it. -/
theorem readHeader_bytes (rest : List UInt8) :
    readHeader (h.bytes ++ rest) = .ok ⟨headerType, fieldValues h.fields⟩ := by
  have long : ¬ (h.bytes ++ rest).length < headerType.size := by
    have size : headerType.size = 56 := by decide
    rw [List.length_append, h.bytes_length]
    omega
  have magic := h.get_members ("file_magic", fileMagic) List.mem_cons_self
  have record : unpack headerType.formats ((h.bytes ++ rest).take headerType.size) =
      some (fieldValues h.fields) := by
    rw [h.bytes_eq]
    exact unpack_record rfl h.fields_fit rest
  rw [readHeader, if_neg long]
  simp only [record, magic, Option.getD_some, ne_eq, not_true_eq_false, if_false]

end Header

/-! ## The round trip -/

section File

variable {h : Logheader} {padding : List UInt8} {events : List Logevent} {rest : List UInt8}

/-- What the reader makes of a file: the header, and each event field by field. -/
theorem readLog_logFile (count : h.eventCount.toNat = events.length)
    (padded : h.bytes.length + padding.length = headerSize) :
    readLog (logFile h padding events rest) =
      .ok (⟨headerType, fieldValues h.fields⟩,
        events.map fun e => ⟨e.data.eventType, fieldValues e.fields⟩) := by
  have size := h.get_members ("header_size", headerSize) (by simp [Logheader.members])
  have number := h.get_members ("event_count", h.eventCount.toNat) (by simp [Logheader.members])
  have start : (logFile h padding events rest).drop headerSize =
      events.flatMap Logevent.bytes ++ rest :=
    List.drop_left' (by rw [List.length_append, padded])
  have header : readHeader (logFile h padding events rest) =
      .ok ⟨headerType, fieldValues h.fields⟩ := by
    rw [logFile, List.append_assoc, readHeader_bytes]
  have read := readEvents_bytes events rest
  refine bind_ok.mpr ⟨_, header, bind_ok.mpr ⟨_, ?_, rfl⟩⟩
  rw [size, number, Option.getD_some, Option.getD_some, Int.toNat_natCast, Int.toNat_natCast,
    start, count, read]

/-- The log comes back exactly if no end in it has a negative CPU time. -/
theorem roundTrip_iff_cpuTimes (count : h.eventCount.toNat = events.length)
    (padded : h.bytes.length + padding.length = headerSize) :
    RoundTrip h padding events rest ↔
      ∀ e ∈ events, ∀ cpuTime, e.data = .ended cpuTime → 0 ≤ cpuTime.toInt := by
  have back : readLog (logFile h padding events rest) = _ := readLog_logFile count padded
  have pairs : List.Forall₂ Matches events
      (events.map fun e => ⟨e.data.eventType, fieldValues e.fields⟩) ↔
      ∀ e ∈ events, ∀ cpuTime, e.data = .ended cpuTime → 0 ≤ cpuTime.toInt := by
    rw [List.forall₂_map_right_iff, List.forall₂_same]
    exact forall₂_congr fun e _ => matches_iff e
  constructor
  · rintro ⟨header, read, ran, -, same⟩
    obtain ⟨rfl, rfl⟩ := Prod.mk.inj (Except.ok.inj (ran.symm.trans back))
    exact pairs.mp same
  · intro positive
    exact ⟨_, _, back, h.get_members, pairs.mpr positive⟩

end File

/-- A log with one event of each type. -/
def exampleEvents (cpuTime : Int64) : List Logevent :=
  [⟨0x400000, 1, .thunk 1 (-1)⟩, ⟨0x400010, 1, .read 0x7F000⟩, ⟨0x400020, 1, .write 0x7F001⟩,
    ⟨0x400030, 1, .ended cpuTime⟩, ⟨0x400040, 1, .finish fun _ => 0xFF⟩]

def exampleHeader : Logheader := ⟨5, 0x600000, 0x700000, 0x10000000, 0x20000000⟩

theorem roundTrip_example :
    RoundTrip exampleHeader (List.replicate 4040 0) (exampleEvents 1000) [] :=
  (roundTrip_iff_cpuTimes rfl (by rw [Logheader.bytes_length, List.length_replicate]; rfl)).mpr
    (by
      simp only [exampleEvents, List.forall_mem_cons, reduceCtorEq, false_implies, implies_true,
        Data.ended.injEq, forall_eq', true_and, List.not_mem_nil]
      decide)

/-- A clock that has gone back by one is read as one that has nearly gone round. -/
theorem not_roundTrip :
    ¬ ∀ (h : Logheader) (padding : List UInt8) (events : List Logevent) (rest : List UInt8),
      h.eventCount.toNat = events.length → h.bytes.length + padding.length = headerSize →
        RoundTrip h padding events rest := by
  intro claim
  have padded : exampleHeader.bytes.length + (List.replicate 4040 (0 : UInt8)).length =
      headerSize := by
    rw [Logheader.bytes_length, List.length_replicate]
    rfl
  have back := claim exampleHeader (List.replicate 4040 0) (exampleEvents (-1)) [] rfl padded
  obtain ⟨_, read, ran, -, same⟩ := back
  obtain ⟨-, rfl⟩ := Prod.mk.inj (Except.ok.inj (ran.symm.trans (readLog_logFile rfl padded)))
  have fourth := (List.forall₂_iff_get.mp same).2 3 (by decide) (by decide)
  have positive := (matches_iff _).mp fourth (-1) rfl
  exact absurd positive (by decide)

end Tthread.LogFormat
