/-
# The region of a logged address

A page fault is logged with the number of its page. The readers of the log tell the heap,
the globals and the other mappings apart by the bounds in the header, which are addresses of
bytes. So an access is reported in its own region only where the bounds of the regions and
the bounds scaled to bytes happen to agree on it; a heap above the first two megabytes never
is.
-/

import Tthread.LogFormat
import Tthread.Xmmap

namespace Tthread.Regions

open LogFormat

/-! ## The faults -/

/-- `PROTECTEDHEAP_SIZE` -/
def protectedHeapSize : ℕ := 1048576 * 4096

/-- `MAX_GLOBALS_SIZE` -/
def maxGlobalsSize : ℕ := 1048576 * 40

/-- The part of `xmemory` that a fault reads, with the addresses of `__data_start` and
`_end`. Both heaps are mapped, in the address space and apart from each other, and the
globals fit theirs. -/
structure Xmemory where
  /-- `_pheap.base()` -/
  heapBase : UInt64
  dataStart : UInt64
  bssEnd : UInt64
  mmap : List Xmmap.Mmappage
  heapFits : heapBase.toNat + protectedHeapSize < 2 ^ 64
  globalsFit : Xmmap.pageAlignDown dataStart.toNat + maxGlobalsSize < 2 ^ 64
  ordered : Xmmap.pageAlignDown dataStart.toNat ≤ Xmmap.pageAlignUp (bssEnd - 1).toNat
  small : Xmmap.pageAlignUp (bssEnd - 1).toNat ≤
    Xmmap.pageAlignDown dataStart.toNat + maxGlobalsSize
  apart : heapBase.toNat + protectedHeapSize ≤ Xmmap.pageAlignDown dataStart.toNat ∨
    Xmmap.pageAlignDown dataStart.toNat + maxGlobalsSize ≤ heapBase.toNat

variable {m : Xmemory} {addr : UInt64}

namespace Xmemory

variable (m : Xmemory) (addr : UInt64)

/-- `GLOBALS_START` -/
def globalsStart : UInt64 := .ofNat (Xmmap.pageAlignDown m.dataStart.toNat)

/-- `GLOBALS_END` -/
def globalsEnd : UInt64 := .ofNat (Xmmap.pageAlignUp (m.bssEnd - 1).toNat)

/-- `getAbsoluteEnd` -/
def heapEnd : UInt64 := m.heapBase + .ofNat protectedHeapSize

/-- `getLayout`, in a header that counts some events. -/
def header (eventCount : UInt64) : Logheader where
  eventCount := eventCount
  globalStart := m.globalsStart
  globalEnd := m.globalsEnd
  heapStart := m.heapBase
  heapEnd := m.heapEnd

end Xmemory

/-- `xpersist::inRange` -/
def inRange (base : UInt64) (size : ℕ) (addr : UInt64) : Bool :=
  decide (addr ≥ base) && decide (addr < base + .ofNat size)

/-- `xdefines::PageShift` -/
def pageShift : UInt64 := 12

/-- The event of an access. The logger sets the thread. -/
def accessEvent (isWrite : Bool) (issuerAddress : UInt64) (threadId : Int32) (addr : UInt64) :
    Logevent where
  returnAddress := issuerAddress
  threadId := threadId
  data := if isWrite then .write (addr >>> pageShift) else .read (addr >>> pageShift)

/-- Who goes on with an access after it is logged: the heap, for a page of its own, or the
entry of a mapping. -/
inductive Handler
  | pheap (pageNo : ℕ)
  | globals (pageNo : ℕ)
  | mmap (page : Xmmap.Mmappage)
  deriving DecidableEq

/-- `xmemory::handleAccess`; `none` where it aborts. -/
def Xmemory.handleAccess (m : Xmemory) (addr : UInt64) (isWrite : Bool) (issuerAddress : UInt64)
    (threadId : Int32) : Option (Logevent × Handler) :=
  let event := accessEvent isWrite issuerAddress threadId addr
  if inRange m.heapBase protectedHeapSize addr then
    some (event, .pheap ((addr - m.heapBase).toNat / pageSize))
  else if inRange m.globalsStart maxGlobalsSize addr then
    some (event, .globals ((addr - m.globalsStart).toNat / pageSize))
  else
    -- the entry is looked up before the event is logged
    (Xmmap.find m.mmap addr.toNat).map fun page => (event, .mmap page)

/-- All handlers log the same event. -/
theorem event_of_handleAccess {isWrite : Bool} {issuerAddress : UInt64} {threadId : Int32}
    {e : Logevent} {handler : Handler}
    (logged : m.handleAccess addr isWrite issuerAddress threadId = some (e, handler)) :
    e = accessEvent isWrite issuerAddress threadId addr := by
  simp only [Xmemory.handleAccess] at logged
  split_ifs at logged with heap globals
  · exact (Prod.mk.inj (Option.some.inj logged)).1.symm
  · exact (Prod.mk.inj (Option.some.inj logged)).1.symm
  · obtain ⟨page, -, same⟩ := Option.map_eq_some_iff.mp logged
    exact (Prod.mk.inj same).1.symm

/-! ## The readers -/

def isHeap (header : Event) (addr : ℤ) : Bool :=
  decide ((header.get "heap_start").getD 0 ≤ addr) &&
    decide (addr ≤ (header.get "heap_end").getD 0)

def isGlobal (header : Event) (addr : ℤ) : Bool :=
  decide ((header.get "global_start").getD 0 ≤ addr) &&
    decide (addr ≤ (header.get "global_end").getD 0)

def isMmap (header : Event) (addr : ℤ) : Bool := !(isHeap header addr || isGlobal header addr)

/-- A column of a row. -/
inductive Cell
  | text (text : String)
  | number (number : ℤ)
  deriving DecidableEq

/-- The first column of an access, for the events that are accesses. -/
def accessText (event : Event) : Option String :=
  if event.type = writeEvent then some "write"
  else if event.type = readEvent then some "read"
  else none

/-- The last column of an access. -/
def space (header event : Event) : String :=
  let address := (event.get "address").getD 0
  if isHeap header address then "heap"
  else if isGlobal header address then "global"
  else "mmap"

/-- What is left over is what `is_mmap` accepts. -/
theorem space_eq_mmap_iff (header event : Event) :
    space header event = "mmap" ↔ isMmap header ((event.get "address").getD 0) = true := by
  simp only [space, isMmap]
  split_ifs <;> simp [*]

/-- `TsvWriter._write_access` -/
def tsvWriteAccess (header event : Event) : Option (List Cell) := do
  let text ← accessText event
  return [.text text, .number ((event.get "return_address").getD 0),
    .number ((event.get "thread_id").getD 0), .number ((event.get "address").getD 0),
    .text (space header event)]

/-- `Tsv2Writer._write_access`, with the last thunk of each thread. -/
def tsv2WriteAccess (header event : Event) (threads : List (ℤ × Cell × Cell)) :
    Option (List Cell) := do
  let text ← accessText event
  let thread := (event.get "thread_id").getD 0
  let thunk := (threads.lookup thread).getD (.number 0, .text "_start")
  return [.text text, .number ((event.get "return_address").getD 0), .number thread, thunk.1,
    thunk.2, .text (space header event)]

/-- Both writers put an event of a log into some region. -/
def ReportedAs (h : Logheader) (e : Logevent) (region : String) : Prop :=
  ∃ header event, (∀ rest, readHeader (h.bytes ++ rest) = .ok header) ∧
    readOne e.bytes = .ok event ∧
    (∃ row, tsvWriteAccess header event = some row ∧ row.getLast? = some (.text region)) ∧
    ∀ threads, ∃ row, tsv2WriteAccess header event threads = some row ∧
      row.getLast? = some (.text region)

/-! ## The regions -/

/-- The byte is in the heap. -/
def InHeap (m : Xmemory) (addr : UInt64) : Prop := m.heapBase ≤ addr ∧ addr < m.heapEnd

/-- The byte is in the globals of the program. -/
def InGlobals (m : Xmemory) (addr : UInt64) : Prop := m.globalsStart ≤ addr ∧ addr < m.globalsEnd

instance (m : Xmemory) (addr : UInt64) : Decidable (InHeap m addr) :=
  inferInstanceAs (Decidable (_ ∧ _))

instance (m : Xmemory) (addr : UInt64) : Decidable (InGlobals m addr) :=
  inferInstanceAs (Decidable (_ ∧ _))

/-- The event of an access to a byte is reported in the region of the byte and in no other. -/
structure Classified (m : Xmemory) (addr : UInt64) (h : Logheader) (e : Logevent) : Prop where
  heap : ReportedAs h e "heap" ↔ InHeap m addr
  global : ReportedAs h e "global" ↔ InGlobals m addr
  mmap : ReportedAs h e "mmap" ↔ ¬ InHeap m addr ∧ ¬ InGlobals m addr

/-- The byte is between two bounds taken for numbers of pages. -/
def BetweenPages (first last addr : UInt64) : Prop :=
  pageSize * first.toNat ≤ addr.toNat ∧ addr.toNat < pageSize * (last.toNat + 1)

instance (first last addr : UInt64) : Decidable (BetweenPages first last addr) :=
  inferInstanceAs (Decidable (_ ∧ _))

/-- The bounds of the regions, taken for numbers of pages, put the byte where it is. -/
def KeepsRegion (m : Xmemory) (addr : UInt64) : Prop :=
  (InHeap m addr ∧ pageSize * m.heapBase.toNat ≤ addr.toNat) ∨
  (InGlobals m addr ∧ pageSize * m.globalsStart.toNat ≤ addr.toNat ∧
    ¬ BetweenPages m.heapBase m.heapEnd addr) ∨
  (¬ InHeap m addr ∧ ¬ InGlobals m addr ∧ ¬ BetweenPages m.heapBase m.heapEnd addr ∧
    ¬ BetweenPages m.globalsStart m.globalsEnd addr)

instance (m : Xmemory) (addr : UInt64) : Decidable (KeepsRegion m addr) :=
  inferInstanceAs (Decidable (_ ∨ _))

/-! ## The bounds -/

section Bounds

variable (m)

theorem globalsStart_toNat : m.globalsStart.toNat = Xmmap.pageAlignDown m.dataStart.toNat :=
  UInt64.toNat_ofNat_of_lt' ((Nat.le_add_right _ _).trans_lt m.globalsFit)

theorem globalsEnd_toNat : m.globalsEnd.toNat = Xmmap.pageAlignUp (m.bssEnd - 1).toNat :=
  UInt64.toNat_ofNat_of_lt' (m.small.trans_lt m.globalsFit)

theorem heapEnd_toNat : m.heapEnd.toNat = m.heapBase.toNat + protectedHeapSize := by
  have fits := m.heapFits
  have size : (UInt64.ofNat protectedHeapSize).toNat = protectedHeapSize := by decide
  rw [Xmemory.heapEnd, UInt64.toNat_add, size, Nat.mod_eq_of_lt fits]

theorem inHeap_iff : InHeap m addr ↔
    m.heapBase.toNat ≤ addr.toNat ∧ addr.toNat < m.heapBase.toNat + protectedHeapSize := by
  rw [InHeap, UInt64.le_iff_toNat_le, UInt64.lt_iff_toNat_lt, heapEnd_toNat]

theorem inGlobals_iff : InGlobals m addr ↔
    m.globalsStart.toNat ≤ addr.toNat ∧ addr.toNat < m.globalsEnd.toNat := by
  rw [InGlobals, UInt64.le_iff_toNat_le, UInt64.lt_iff_toNat_lt]

/-- No byte is in both regions. -/
theorem not_inGlobals_of_inHeap (heap : InHeap m addr) : ¬ InGlobals m addr := by
  have apart := m.apart
  have small := m.small
  rw [← globalsStart_toNat] at apart small
  rw [← globalsEnd_toNat] at small
  rw [inHeap_iff] at heap
  rw [inGlobals_iff]
  omega

end Bounds

/-! ## What the readers see -/

/-- The region of a number by the bounds in the header. -/
def regionOf (h : Logheader) (address : UInt64) : String :=
  if h.heapStart ≤ address ∧ address ≤ h.heapEnd then "heap"
  else if h.globalStart ≤ address ∧ address ≤ h.globalEnd then "global"
  else "mmap"

/-- The event is an access to this address. -/
def IsAccess (e : Logevent) (address : UInt64) : Prop :=
  e.data = .write address ∨ e.data = .read address

theorem isAccess_accessEvent {isWrite : Bool} {issuerAddress : UInt64} {threadId : Int32} :
    IsAccess (accessEvent isWrite issuerAddress threadId addr) (addr >>> pageShift) := by
  cases isWrite with
  | true => exact .inl rfl
  | false => exact .inr rfl

section Reader

variable {h : Logheader} {e : Logevent} {address : UInt64}

theorem between_iff {first last : UInt64} :
    (decide ((first.toNat : ℤ) ≤ address.toNat) && decide ((address.toNat : ℤ) ≤ last.toNat)) =
      decide (first ≤ address ∧ address ≤ last) := by
  rw [← Bool.decide_and, decide_eq_decide, Int.ofNat_le, Int.ofNat_le, UInt64.le_iff_toNat_le,
    UInt64.le_iff_toNat_le]

/-- The readers compare the address with the bounds as they are in the header. -/
theorem space_eq (access : IsAccess e address) :
    space ⟨headerType, fieldValues h.fields⟩ ⟨e.data.eventType, fieldValues e.fields⟩ =
      regionOf h address := by
  have back := h.get_members
  have own : Matches e ⟨e.data.eventType, fieldValues e.fields⟩ := by
    refine (matches_iff e).mpr fun cpuTime ended => ?_
    obtain write | read := access
    · cases write.symm.trans ended
    · cases read.symm.trans ended
  have got : Event.get ⟨e.data.eventType, fieldValues e.fields⟩ "address" =
      some (address.toNat : ℤ) := by
    refine own.members ("address", address.toNat) (List.mem_append_right [_, _, _] ?_)
    obtain write | read := access
    · exact write ▸ List.mem_singleton_self _
    · exact read ▸ List.mem_singleton_self _
  have heapStart := back ("heap_start", h.heapStart.toNat) (by simp [Logheader.members])
  have heapEnd := back ("heap_end", h.heapEnd.toNat) (by simp [Logheader.members])
  have globalStart := back ("global_start", h.globalStart.toNat) (by simp [Logheader.members])
  have globalEnd := back ("global_end", h.globalEnd.toNat) (by simp [Logheader.members])
  simp only [space, isHeap, isGlobal, got, heapStart, heapEnd, globalStart, globalEnd,
    Option.getD_some, between_iff, decide_eq_true_eq, regionOf]

theorem accessText_isSome (access : IsAccess e address) :
    ∃ text, accessText ⟨e.data.eventType, fieldValues e.fields⟩ = some text := by
  obtain write | read := access
  · exact ⟨"write", by rw [write]; rfl⟩
  · exact ⟨"read", by rw [read]; rfl⟩

/-- Both writers report an access in the region of its number. -/
theorem reportedAs_iff (access : IsAccess e address) {region : String} :
    ReportedAs h e region ↔ regionOf h address = region := by
  obtain ⟨text, shown⟩ := accessText_isSome access
  have same := space_eq (h := h) access
  constructor
  · rintro ⟨header, event, read, one, ⟨row, written, last⟩, -⟩
    -- what the readers see of the bytes is determined
    obtain rfl := Except.ok.inj ((read []).symm.trans (readHeader_bytes h []))
    obtain rfl := Except.ok.inj (one.symm.trans (readOne_bytes e))
    rw [tsvWriteAccess, shown] at written
    obtain rfl := Option.some.inj written
    rw [← same]
    exact Cell.text.inj (Option.some.inj last)
  · rintro rfl
    refine ⟨_, _, readHeader_bytes h, readOne_bytes e, ?_, fun threads => ?_⟩
    · rw [tsvWriteAccess, shown, ← same]
      exact ⟨_, rfl, rfl⟩
    · rw [tsv2WriteAccess, shown, ← same]
      exact ⟨_, rfl, rfl⟩

end Reader

/-! ## Which accesses keep their region -/

theorem shift_toNat : (addr >>> pageShift).toNat = addr.toNat / pageSize := by
  rw [UInt64.toNat_shiftRight]
  have shift : pageShift.toNat % 64 = 12 := by decide
  rw [shift, Nat.shiftRight_eq_div_pow]
  rfl

/-- Comparing the number of the page is comparing the byte with the scaled bounds. -/
theorem between_shift_iff {first last : UInt64} :
    first ≤ addr >>> pageShift ∧ addr >>> pageShift ≤ last ↔ BetweenPages first last addr := by
  have positive : 0 < pageSize := by decide
  rw [UInt64.le_iff_toNat_le, UInt64.le_iff_toNat_le, shift_toNat, BetweenPages,
    Nat.le_div_iff_mul_le positive, ← Nat.lt_succ_iff (m := addr.toNat / pageSize),
    Nat.div_lt_iff_lt_mul positive, Nat.mul_comm first.toNat, Nat.mul_comm last.toNat.succ]

theorem regionOf_shift (count : UInt64) :
    regionOf (m.header count) (addr >>> pageShift) =
      if BetweenPages m.heapBase m.heapEnd addr then "heap"
      else if BetweenPages m.globalsStart m.globalsEnd addr then "global" else "mmap" :=
  if_congr between_shift_iff rfl (if_congr between_shift_iff rfl rfl)

/-- A byte of the heap has no number of a page behind the heap. -/
theorem betweenPages_of_inHeap (heap : InHeap m addr) :
    BetweenPages m.heapBase m.heapEnd addr ↔ pageSize * m.heapBase.toNat ≤ addr.toNat := by
  rw [BetweenPages, and_iff_left_iff_imp, heapEnd_toNat]
  intro _
  have below := ((inHeap_iff m).mp heap).2
  have scaled : 1 * (m.heapBase.toNat + protectedHeapSize + 1) ≤
      pageSize * (m.heapBase.toNat + protectedHeapSize + 1) := Nat.mul_le_mul_right _ (by decide)
  omega

theorem betweenPages_of_inGlobals (globals : InGlobals m addr) :
    BetweenPages m.globalsStart m.globalsEnd addr ↔
      pageSize * m.globalsStart.toNat ≤ addr.toNat := by
  rw [BetweenPages, and_iff_left_iff_imp]
  intro _
  have below := ((inGlobals_iff m).mp globals).2
  have scaled : 1 * (m.globalsEnd.toNat + 1) ≤ pageSize * (m.globalsEnd.toNat + 1) :=
    Nat.mul_le_mul_right _ (by decide)
  omega

/-- An access is reported in its own region exactly if the bounds, taken for numbers of pages,
put it there too. -/
theorem classified_iff_keepsRegion {isWrite : Bool} {issuerAddress : UInt64} {threadId : Int32}
    {e : Logevent} {handler : Handler} (count : UInt64)
    (logged : m.handleAccess addr isWrite issuerAddress threadId = some (e, handler)) :
    Classified m addr (m.header count) e ↔ KeepsRegion m addr := by
  have access : IsAccess e (addr >>> pageShift) := by
    rw [event_of_handleAccess logged]
    exact isAccess_accessEvent
  have exclusive : InHeap m addr → ¬ InGlobals m addr := not_inGlobals_of_inHeap m
  have reported : ∀ region, ReportedAs (m.header count) e region ↔
      regionOf (m.header count) (addr >>> pageShift) = region := fun region =>
    reportedAs_iff access
  have split : Classified m addr (m.header count) e ↔
      (ReportedAs (m.header count) e "heap" ↔ InHeap m addr) ∧
      (ReportedAs (m.header count) e "global" ↔ InGlobals m addr) ∧
      (ReportedAs (m.header count) e "mmap" ↔ ¬ InHeap m addr ∧ ¬ InGlobals m addr) :=
    ⟨fun all => ⟨all.heap, all.global, all.mmap⟩, fun ⟨heap, global, mmap⟩ => ⟨heap, global, mmap⟩⟩
  rw [split, reported, reported, reported, regionOf_shift, KeepsRegion]
  by_cases heap : InHeap m addr
  · rw [← betweenPages_of_inHeap heap]
    have outside := exclusive heap
    split_ifs <;> simp [*]
  · by_cases globals : InGlobals m addr
    · rw [← betweenPages_of_inGlobals globals]
      split_ifs <;> simp [*]
    · split_ifs <;> simp [*]

/-- A heap above its first two megabytes is never reported. -/
theorem not_keepsRegion_of_inHeap (high : 2 ^ 21 ≤ m.heapBase.toNat) (heap : InHeap m addr) :
    ¬ KeepsRegion m addr := by
  have below := ((inHeap_iff m).mp heap).2
  have scaled : m.heapBase.toNat + 4095 * 2 ^ 21 ≤ pageSize * m.heapBase.toNat := by
    rw [pageSize]
    omega
  rintro (⟨-, above⟩ | ⟨globals, -⟩ | ⟨outside, -⟩)
  · rw [protectedHeapSize] at below
    omega
  · exact not_inGlobals_of_inHeap m heap globals
  · exact outside heap

/-! ## Accesses to the heap and to a mapping -/

/-- A process with its heap and a mapping high up, and the globals of a program that was linked
low. -/
def exampleMemory : Xmemory where
  heapBase := 0x7F0000000000
  dataStart := 0x601040
  bssEnd := 0x602010
  mmap := [⟨0x7E0000000000, 3, 1⟩]
  heapFits := by decide
  globalsFit := by decide
  ordered := by decide
  small := by decide
  apart := by decide

/-- The mapping is reported as it should be. -/
theorem classified_mapping :
    Classified exampleMemory 0x7E0000000008 (exampleMemory.header 1)
      (accessEvent false 0x400000 1 0x7E0000000008) := by
  have logged : exampleMemory.handleAccess 0x7E0000000008 false 0x400000 1 =
      some (accessEvent false 0x400000 1 0x7E0000000008, .mmap ⟨0x7E0000000000, 3, 1⟩) := by
    have found : Xmmap.find exampleMemory.mmap 0x7E0000000008 =
        some ⟨0x7E0000000000, 3, 1⟩ := by decide +kernel
    rw [Xmemory.handleAccess, if_neg (by decide), if_neg (by decide)]
    exact congrArg (Option.map _) found
  exact (classified_iff_keepsRegion 1 logged).mpr (by decide)

/-- The heap is reported as a mapping. -/
theorem not_classified :
    ¬ ∀ (m : Xmemory) (addr : UInt64) (isWrite : Bool) (issuerAddress : UInt64)
      (threadId : Int32) (count : UInt64) (e : Logevent) (handler : Handler),
      m.handleAccess addr isWrite issuerAddress threadId = some (e, handler) →
        Classified m addr (m.header count) e := by
  intro claim
  have classified := claim exampleMemory 0x7F0000000010 true 0x400000 1 1
    (accessEvent true 0x400000 1 0x7F0000000010) (.pheap 0) rfl
  have heap := classified.heap.mpr (by decide)
  rw [reportedAs_iff isAccess_accessEvent] at heap
  exact absurd heap (by decide)

end Tthread.Regions
