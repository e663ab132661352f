/-
# The log reader on files of any kind

The log of a program that was killed ends anywhere, so the reader meets files that end in a header,
in an event or in front of one. A file without a complete header, with another magic number or
with a type that does not exist is rejected with an error of the module. A file that ends early
is not: whatever the missing bytes make Python raise gets out.
-/

import Tthread.LogFormat

namespace Tthread.LogReader

open LogFormat Packing Folds

/-- What iterating the log raises: an error of the module or of the loop, or one of `seek`, for a
position that the file system does not have. -/
inductive Raised
  | read (error : Error)
  | seek
  deriving DecidableEq

/-- `_read_header`, with the position that it leaves the file at. -/
def readHeader (maxOffset : ℕ) (file : List UInt8) : Except Raised (Event × ℕ) :=
  if file.length < headerType.size then
    .error (.read (.log
      s!"expected tthread_log to be at least {headerType.size}, got {file.length}"))
  else
    match unpack headerType.formats (file.take headerType.size) with
    | none => .error (.read .struct)
    | some values =>
        let header : Event := ⟨headerType, values⟩
        let position := ((header.get "header_size").getD 0).toNat
        if maxOffset < position then .error .seek
        else
          let magic := (header.get "file_magic").getD 0
          if magic ≠ fileMagic then
            .error (.read (.log
              s!"expect file_magick of tthread_log to be equal {fileMagic}, got {magic}"))
          else .ok (header, position)

/-- All that iterating `Log.read` yields, or what it raises in the end. -/
def read (maxOffset : ℕ) (file : List UInt8) : Except Raised (Event × List Event) := do
  let (header, position) ← readHeader maxOffset file
  let count := (header.get "event_count").getD 0
  match readEvents count.toNat (file.drop position) with
  | .error error => .error (.read error)
  | .ok read => .ok (header, read)

/-- The class of an event that begins at a position, if there is a type byte and a class for it. -/
def typeAt (bytes : List UInt8) (position : ℕ) : Option EventType :=
  bytes[position]?.bind fun byte => events[byte.toNat]?

/-- The event was decoded from bytes of the file at this position, as the class of its type. -/
def DecodedAt (file : List UInt8) (position : ℕ) (event : Event) : Prop :=
  typeAt file position = some event.type ∧ position + event.type.size ≤ file.length ∧
    unpack event.type.formats ((file.drop position).take event.type.size) = some event.values

/-- Either as many events come out as the header says, each decoded from the bytes of its slot, or
an error of the module is raised. -/
def Clean (maxOffset : ℕ) (file : List UInt8) : Prop :=
  (∃ header read_, read maxOffset file = .ok (header, read_) ∧
    (read_.length : ℤ) = (header.get "event_count").getD 0 ∧
    ∀ i (inside : i < read_.length),
      DecodedAt file (((header.get "header_size").getD 0).toNat + i * logEventSize) read_[i]) ∨
  ∃ message, read maxOffset file = .error (.read (.log message))

/-- Each slot up to the first type that does not exist has its type byte, and an event that
does not end behind the file. -/
def Complete (count : ℕ) (bytes : List UInt8) : Prop :=
  ∀ i < count, (∀ j < i, (typeAt bytes (j * logEventSize)).isSome) →
    i * logEventSize < bytes.length ∧
      ∀ type, typeAt bytes (i * logEventSize) = some type →
        i * logEventSize + type.size ≤ bytes.length

/-- The fields of the header of a file that has one. -/
def headerOf (file : List UInt8) : Event :=
  ⟨headerType, (unpack headerType.formats (file.take headerType.size)).getD []⟩

/-- The file has no complete header; or the header says that the events begin at a position that
the file system has, and the magic number is another one or the events are complete. -/
def Readable (maxOffset : ℕ) (file : List UInt8) : Prop :=
  let header := headerOf file
  let position := ((header.get "header_size").getD 0).toNat
  file.length < headerType.size ∨
    position ≤ maxOffset ∧
      (header.get "file_magic" ≠ some fileMagic ∨
        Complete ((header.get "event_count").getD 0).toNat (file.drop position))

/-! ## Slots -/

theorem size_le {type : EventType} {byte : UInt8} (found : events[byte.toNat]? = some type) :
    0 < type.size ∧ type.size ≤ logEventSize := by
  have all : ∀ type ∈ events, 0 < type.size ∧ type.size ≤ logEventSize := by decide
  exact all type (List.mem_of_getElem? found)

variable {bytes file : List UInt8} {count : ℕ}

theorem typeAt_zero {byte : UInt8} : typeAt (byte :: bytes) 0 = events[byte.toNat]? := by
  simp [typeAt]

theorem typeAt_drop (start position : ℕ) :
    typeAt (bytes.drop start) position = typeAt bytes (start + position) := by
  rw [typeAt, typeAt, List.getElem?_drop]

theorem typeAt_drop_slot (i : ℕ) :
    typeAt (bytes.drop logEventSize) (i * logEventSize) =
      typeAt bytes ((i + 1) * logEventSize) := by
  rw [typeAt_drop, Nat.add_one_mul, Nat.add_comm]

theorem size_le_of_typeAt {type : EventType} {i : ℕ} (found : typeAt bytes i = some type) :
    0 < type.size ∧ type.size ≤ logEventSize := by
  obtain ⟨byte, -, found⟩ := Option.bind_eq_some_iff.1 found
  exact size_le found

/-- The slots are complete if the first one is, and the others are unless it ends the loop. -/
theorem complete_succ :
    Complete (count + 1) bytes ↔
      0 < bytes.length ∧ ∀ type, typeAt bytes 0 = some type →
        type.size ≤ bytes.length ∧ Complete count (bytes.drop logEventSize) := by
  constructor
  · intro complete
    obtain ⟨inside, ends⟩ := complete 0 count.succ_pos fun j before => absurd before j.not_lt_zero
    refine ⟨by omega, fun type first => ?_⟩
    rw [Nat.zero_mul] at ends
    have ends := ends type first
    refine ⟨by omega, fun i before typed => ?_⟩
    -- The slots after the first one are the slots of the remaining bytes.
    have typed' : ∀ j < i + 1, (typeAt bytes (j * logEventSize)).isSome := by
      intro j lt
      cases j with
      | zero =>
        rw [Nat.zero_mul, first]
        rfl
      | succ j =>
        rw [← typeAt_drop_slot]
        exact typed j (by omega)
    obtain ⟨inside', ends'⟩ := complete (i + 1) (by omega) typed'
    have next : (i + 1) * logEventSize = i * logEventSize + logEventSize := Nat.add_one_mul ..
    rw [List.length_drop, typeAt_drop_slot]
    refine ⟨by omega, fun type found => ?_⟩
    have ends' := ends' type found
    omega
  · -- The first slot is the one the loop looks at, and the others are those of the remaining bytes.
    rintro ⟨inside, rest⟩ i before typed
    cases i with
    | zero =>
      refine ⟨by omega, fun type first => ?_⟩
      have ends := (rest type first).1
      omega
    | succ i =>
      obtain ⟨type, first⟩ := Option.isSome_iff_exists.1 (typed 0 i.succ_pos)
      have typed' : ∀ j < i, (typeAt (bytes.drop logEventSize) (j * logEventSize)).isSome := by
        intro j lt
        rw [typeAt_drop_slot]
        exact typed (j + 1) (by omega)
      obtain ⟨inside', ends'⟩ := (rest type first).2 i (by omega) typed'
      have next : (i + 1) * logEventSize = i * logEventSize + logEventSize := Nat.add_one_mul ..
      rw [List.length_drop, typeAt_drop_slot] at ends'
      rw [List.length_drop] at inside'
      refine ⟨by omega, fun type found => ?_⟩
      have ends' := ends' type found
      have positive := (size_le_of_typeAt found).1
      omega

/-! ## One event -/

/-- The error for a type byte without a class is one of the module. -/
theorem readOne_unknown (inside : 0 < bytes.length) (unknown : typeAt bytes 0 = none) :
    ∃ message, readOne (bytes.take logEventSize) = .error (.log message) := by
  cases bytes with
  | nil => simp at inside
  | cons byte rest =>
    rw [typeAt_zero] at unknown
    have size : logEventSize = 20 + 1 := by decide
    rw [size, List.take_succ_cons]
    simp [readOne, unknown]

/-- The bytes of an event are unpacked as the class for their type says. -/
theorem readOne_known {type : EventType} (first : typeAt bytes 0 = some type) :
    readOne (bytes.take logEventSize) =
      match unpack type.formats (bytes.take type.size) with
      | none => .error .struct
      | some values => .ok ⟨type, values⟩ := by
  cases bytes with
  | nil => simp [typeAt] at first
  | cons byte rest =>
    have fits := (size_le_of_typeAt first).2
    have whole : ((byte :: rest).take logEventSize).take type.size =
        (byte :: rest).take type.size := by
      rw [List.take_take, min_eq_left fits]
    have size : logEventSize = 20 + 1 := by decide
    rw [typeAt_zero] at first
    rw [size, List.take_succ_cons] at whole ⊢
    cases unpacked : unpack type.formats ((byte :: rest).take type.size) <;>
      simp only [readOne, first, whole, unpacked]

/-- An event that ends behind the file raises an error of `struct`. -/
theorem readOne_short {type : EventType} (first : typeAt bytes 0 = some type)
    (short : bytes.length < type.size) :
    readOne (bytes.take logEventSize) = .error .struct := by
  have differs : (bytes.take type.size).length ≠ type.size := by
    rw [List.length_take]
    omega
  have failed : unpack type.formats (bytes.take type.size) = none := by
    rw [← Option.not_isSome_iff_eq_none, unpack_isSome_iff]
    exact differs
  rw [readOne_known first, failed]

/-- Every other event comes out, decoded from its own bytes. -/
theorem readOne_ok {type : EventType} (first : typeAt bytes 0 = some type)
    (fits : type.size ≤ bytes.length) :
    ∃ event, readOne (bytes.take logEventSize) = .ok event ∧ DecodedAt bytes 0 event := by
  have length : (bytes.take type.size).length = calcsize type.formats :=
    List.length_take_of_le fits
  obtain ⟨values, unpacked⟩ := Option.isSome_iff_exists.1 (unpack_isSome_iff.2 length)
  refine ⟨⟨type, values⟩, ?_, ?_⟩
  · rw [readOne_known first, unpacked]
  · refine ⟨first, ?_, ?_⟩
    · rw [Nat.zero_add]
      exact fits
    · rw [List.drop_zero]
      exact unpacked

/-! ## The loop -/

/-- The loop has ended without an exception of the language. -/
def Ended (outcome : Except Error (List Event)) : Prop :=
  (∃ read, outcome = .ok read) ∨ ∃ message, outcome = .error (.log message)

/-- What ends a rest of the loop ends the loop. -/
theorem ended_cons_iff {event : Event} {bytes' : List UInt8}
    (first : readOne (bytes.take logEventSize) = .ok event)
    (dropped : bytes.drop logEventSize = bytes') :
    Ended (readEvents (count + 1) bytes) ↔ Ended (readEvents count bytes') := by
  have step : readEvents (count + 1) bytes =
      (readEvents count bytes').map (event :: ·) := by
    rw [readEvents, first, dropped]
    cases readEvents count bytes' <;> rfl
  rw [step]
  cases readEvents count bytes' <;> simp [Ended, Except.map]

/-- An error of the first event is the one of the loop. -/
theorem readEvents_error {error : Error}
    (first : readOne (bytes.take logEventSize) = .error error) :
    readEvents (count + 1) bytes = .error error := by
  rw [readEvents, first]
  rfl

/-- The loop ends without an exception of the language if the slots are complete, and only
then. -/
theorem readEvents_ended_iff : Ended (readEvents count bytes) ↔ Complete count bytes := by
  induction count generalizing bytes with
  | zero =>
    have ended : Ended (readEvents 0 bytes) := Or.inl ⟨[], rfl⟩
    have complete : Complete 0 bytes := fun i before => absurd before i.not_lt_zero
    exact iff_of_true ended complete
  | succ count ih =>
    rw [complete_succ]
    by_cases inside : 0 < bytes.length
    · cases first : typeAt bytes 0 with
      | none =>
        obtain ⟨message, raised⟩ := readOne_unknown inside first
        have ended : Ended (readEvents (count + 1) bytes) :=
          Or.inr ⟨message, readEvents_error raised⟩
        exact iff_of_true ended ⟨inside, fun type found => nomatch found⟩
      | some type =>
        by_cases fits : type.size ≤ bytes.length
        · obtain ⟨event, read, -⟩ := readOne_ok first fits
          rw [ended_cons_iff read rfl, ih]
          simp [inside, fits]
        · have raised : readEvents (count + 1) bytes = .error .struct :=
            readEvents_error (readOne_short first (by omega))
          simp [raised, Ended, fits]
    · have empty : bytes = [] := by simpa using inside
      subst empty
      have raised : readEvents (count + 1) [] = .error .index := readEvents_error rfl
      simp [raised, Ended]

/-- The bytes of the first event decide what comes out of them. -/
theorem readOne_decoded {event : Event}
    (done : readOne (bytes.take logEventSize) = .ok event) : DecodedAt bytes 0 event := by
  by_cases inside : 0 < bytes.length
  · cases first : typeAt bytes 0 with
    | none =>
      obtain ⟨message, raised⟩ := readOne_unknown inside first
      simp [raised] at done
    | some type =>
      by_cases fits : type.size ≤ bytes.length
      · obtain ⟨event', read, decoded⟩ := readOne_ok first fits
        rw [read] at done
        cases done
        exact decoded
      · simp [readOne_short first (by omega)] at done
  · have empty : bytes = [] := by simpa using inside
    subst empty
    exact nomatch done

/-- All of a loop that yields is one event and the rest. -/
theorem readEvents_succ_ok {read : List Event} (done : readEvents (count + 1) bytes = .ok read) :
    ∃ event, readOne (bytes.take logEventSize) = .ok event ∧
      ∃ rest, readEvents count (bytes.drop logEventSize) = .ok rest ∧ event :: rest = read := by
  rw [readEvents] at done
  cases first : readOne (bytes.take logEventSize) with
  | error error =>
    rw [first] at done
    cases done
  | ok event =>
    rw [first] at done
    cases others : readEvents count (bytes.drop logEventSize) with
    | error error =>
      rw [others] at done
      cases done
    | ok rest =>
      rw [others] at done
      exact ⟨event, rfl, rest, rfl, Except.ok.inj done⟩

theorem DecodedAt.of_drop {event : Event} {start position : ℕ}
    (decoded : DecodedAt (bytes.drop start) position event) :
    DecodedAt bytes (start + position) event := by
  obtain ⟨typed, fits, unpacked⟩ := decoded
  have positive := (size_le_of_typeAt typed).1
  rw [typeAt_drop] at typed
  rw [List.length_drop] at fits
  rw [List.drop_drop] at unpacked
  exact ⟨typed, by omega, unpacked⟩

/-- All events that come out were decoded from the bytes of their slots. -/
theorem readEvents_decoded {read : List Event} (done : readEvents count bytes = .ok read) :
    read.length = count ∧
      ∀ i (inside : i < read.length), DecodedAt bytes (i * logEventSize) read[i] := by
  induction count generalizing bytes read with
  | zero =>
    cases done
    exact ⟨rfl, fun i inside => absurd inside i.not_lt_zero⟩
  | succ count ih =>
    obtain ⟨event, first, rest, others, rfl⟩ := readEvents_succ_ok done
    obtain ⟨length, decoded⟩ := ih others
    refine ⟨by rw [List.length_cons, length], fun i inside => ?_⟩
    cases i with
    | zero =>
      rw [Nat.zero_mul]
      exact readOne_decoded first
    | succ i =>
      rw [Nat.add_one_mul, Nat.add_comm]
      exact (decoded i (by simpa using inside)).of_drop

/-! ## The header -/

/-- A file that is long enough has all fields of the header. -/
theorem unpack_header (long : headerType.size ≤ file.length) :
    unpack headerType.formats (file.take headerType.size) = some (headerOf file).values := by
  have length : (file.take headerType.size).length = calcsize headerType.formats :=
    List.length_take_of_le long
  obtain ⟨values, unpacked⟩ := Option.isSome_iff_exists.1 (unpack_isSome_iff.2 length)
  rw [headerOf, unpacked]
  rfl

/-- No field of the header has a sign. -/
theorem headerOf_get_nonneg (long : headerType.size ≤ file.length) (name : String) :
    0 ≤ ((headerOf file).get name).getD 0 := by
  cases found : (headerOf file).get name with
  | none => exact le_rfl
  | some value =>
    obtain ⟨before, after, split, -⟩ := List.lookup_eq_some_iff.1 found
    have member : (name, value) ∈
        ((headerOf file).type.fields.map Prod.fst).zip (headerOf file).values := by
      rw [split]
      simp
    have unsigned : ∀ format ∈ headerType.formats, format ≠ .i := by decide
    exact unpack_nonneg unsigned (unpack_header long) value (List.of_mem_zip member).2

variable {maxOffset : ℕ}

theorem readHeader_short (short : file.length < headerType.size) :
    ∃ message, readHeader maxOffset file = .error (.read (.log message)) := by
  rw [readHeader, if_pos short]
  exact ⟨_, rfl⟩

/-- A position that the file system does not have is noticed before the magic number is. -/
theorem readHeader_seek (long : headerType.size ≤ file.length)
    (behind : maxOffset < (((headerOf file).get "header_size").getD 0).toNat) :
    readHeader maxOffset file = .error .seek := by
  rw [readHeader, if_neg long.not_gt, unpack_header long]
  exact if_pos behind

theorem readHeader_magic (long : headerType.size ≤ file.length)
    (inside : (((headerOf file).get "header_size").getD 0).toNat ≤ maxOffset)
    (other : (headerOf file).get "file_magic" ≠ some fileMagic) :
    ∃ message, readHeader maxOffset file = .error (.read (.log message)) := by
  have differs : ((headerOf file).get "file_magic").getD 0 ≠ fileMagic := by
    intro same
    cases found : (headerOf file).get "file_magic" with
    | none =>
      rw [found] at same
      exact absurd same (by decide)
    | some magic =>
      rw [found] at same other
      exact other (congrArg some same)
  rw [readHeader, if_neg long.not_gt, unpack_header long]
  exact ⟨_, (if_neg inside.not_gt).trans (if_pos differs)⟩

theorem readHeader_ok (long : headerType.size ≤ file.length)
    (inside : (((headerOf file).get "header_size").getD 0).toNat ≤ maxOffset)
    (same : (headerOf file).get "file_magic" = some fileMagic) :
    readHeader maxOffset file =
      .ok (headerOf file, (((headerOf file).get "header_size").getD 0).toNat) := by
  have equal : ((headerOf file).get "file_magic").getD 0 = fileMagic := by rw [same]; rfl
  rw [readHeader, if_neg long.not_gt, unpack_header long]
  exact (if_neg inside.not_gt).trans (if_neg (not_not_intro equal))

/-! ## The reader -/

theorem clean_of_readHeader {message : String}
    (raised : readHeader maxOffset file = .error (.read (.log message))) :
    Clean maxOffset file := by
  refine Or.inr ⟨message, ?_⟩
  rw [read, raised]
  rfl

/-- After the header, the reader is as clean as its loop. -/
theorem clean_iff_ended {position : ℕ} (long : headerType.size ≤ file.length)
    (begins : position = (((headerOf file).get "header_size").getD 0).toNat)
    (header : readHeader maxOffset file = .ok (headerOf file, position)) :
    Clean maxOffset file ↔
      Ended (readEvents (((headerOf file).get "event_count").getD 0).toNat
        (file.drop position)) := by
  have whole : read maxOffset file =
      match readEvents (((headerOf file).get "event_count").getD 0).toNat
        (file.drop position) with
      | .error error => .error (.read error)
      | .ok read => .ok (headerOf file, read) := by
    rw [read, header]
    rfl
  cases loop : readEvents (((headerOf file).get "event_count").getD 0).toNat
      (file.drop position) with
  | error error =>
    rw [loop] at whole
    simp [Clean, Ended, whole]
  | ok events =>
    rw [loop] at whole
    refine iff_of_true (Or.inl ⟨headerOf file, events, whole, ?_, ?_⟩) (Or.inl ⟨events, rfl⟩)
    · rw [(readEvents_decoded loop).1]
      exact Int.toNat_of_nonneg (headerOf_get_nonneg long _)
    · intro i inside
      rw [← begins]
      exact ((readEvents_decoded loop).2 i inside).of_drop

/-- The reader is clean on a file that it rejects for its header or whose events are complete,
and on no other. -/
theorem clean_iff_readable (maxOffset : ℕ) (file : List UInt8) :
    Clean maxOffset file ↔ Readable maxOffset file := by
  by_cases long : headerType.size ≤ file.length
  · by_cases inside : (((headerOf file).get "header_size").getD 0).toNat ≤ maxOffset
    · by_cases same : (headerOf file).get "file_magic" = some fileMagic
      · have header := readHeader_ok long inside same
        rw [clean_iff_ended long rfl header, readEvents_ended_iff]
        simp [Readable, long, inside, same]
      · obtain ⟨message, raised⟩ := readHeader_magic long inside same
        exact iff_of_true (clean_of_readHeader raised) (Or.inr ⟨inside, Or.inl same⟩)
    · have raised : read maxOffset file = .error .seek := by
        rw [read, readHeader_seek long (not_le.1 inside)]
        rfl
      have notClean : ¬ Clean maxOffset file := by simp [Clean, raised]
      refine iff_of_false notClean ?_
      rintro (short | ⟨readable, -⟩)
      · exact short.not_ge long
      · exact inside readable
  · have short := not_le.1 long
    obtain ⟨message, raised⟩ :
      ∃ message, readHeader maxOffset file = .error (.read (.log message)) :=
      readHeader_short short
    exact iff_of_true (clean_of_readHeader raised) (Or.inl short)

/-- The log of a program that was killed before its one event was written. -/
def emptyLog : List UInt8 :=
  encode 4 fileMagic ++ encode 4 version ++ encode 8 56 ++ encode 8 1 ++ encode 32 0

/-- The reader takes the first byte of an event that is not there. -/
theorem not_clean_emptyLog : ¬ Clean (2 ^ 63 - 1) emptyLog := by
  have raised : read (2 ^ 63 - 1) emptyLog = .error (.read .index) := by decide +kernel
  rintro (⟨header, events, done, -⟩ | ⟨message, done⟩)
  · rw [raised] at done
    exact nomatch done
  · rw [raised] at done
    exact absurd (Raised.read.inj (Except.error.inj done)) Error.noConfusion

end Tthread.LogReader
