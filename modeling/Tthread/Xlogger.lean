/-
# The shared event log

Every process appends its events to one file. `xlogger::add` reserves an index
with an atomic increment, checks that the slot ends inside the process's current
window of the file, calls `growLog` if it does not, and stores the event through
the window. `growLog` reads the shared file size, may enlarge the file under the
truncate mutex, and maps the newest window.

Each access to shared memory is one step, so processes interleave between the
reservation, the check, the parts of `growLog` and the store. File offsets and
sizes are `off_t`; the subtraction in the window check is done in `unsigned long`.
-/

import Mathlib.Algebra.Group.Nat.Defs
import Mathlib.Algebra.Order.Group.Int
import Mathlib.Logic.Function.Basic
import Tthread.Library.Transition

namespace Tthread.Xlogger

/-- `sizeof(tthread::logevent)`, packed: type, return address, thread id, data. -/
def eventSize : ℕ := 1 + 8 + 4 + 8

/-- `REQUEST_SIZE`, the length of a window. -/
def requestSize : ℕ := 4096 * 16

/-- `HEADER_SIZE`: `sizeof(tthread::logheader)` rounded up to a page. -/
def headerSize : ℕ := (4 + 4 + 8 + 8 + 4 * 8 + 4095) / 4096 * 4096

abbrev Event := Fin eventSize → UInt8

/-- Where a process is in `add` and `growLog`, with the index it has reserved and
the event it is about to store there. -/
inductive Pc
  | idle
  | reserved (next : ℕ) (event : Event)
  | growLog (next : ℕ) (event : Event)
  | lockWait (next : ℕ) (event : Event) (currentSize : ℤ)
  | locked (next : ℕ) (event : Event) (currentSize : ℤ)
  | truncated (next : ℕ) (event : Event) (newSize : ℤ)
  | unlocking (next : ℕ) (event : Event)
  | remap (next : ℕ) (event : Event)
  | store (next : ℕ) (event : Event)
  | aborted

/-- The index a process has reserved and not yet filled. -/
def Pc.index : Pc → Option ℕ
  | .reserved next _ | .growLog next _ | .lockWait next _ _ | .locked next _ _
  | .truncated next _ _ | .unlocking next _ | .remap next _ | .store next _ => some next
  | .idle | .aborted => none

/-- Between taking and releasing the truncate mutex. -/
def Pc.holdsMutex : Pc → Bool
  | .locked _ _ _ | .truncated _ _ _ | .unlocking _ _ => true
  | _ => false

/-- The private part: the offset of the mapped window, relative to the header. -/
structure Process where
  mmapOffset : ℤ
  pc : Pc

structure State where
  /-- `*_next` -/
  next : ℕ
  /-- `*_fileSize`, without the header -/
  fileSize : ℤ
  truncateMutex : Option ℕ
  /-- the length the last `ftruncate` gave the file -/
  fileLength : ℤ
  /-- the bytes event stores have written -/
  file : ℤ → Option UInt8
  /-- window-relative addresses of stores that missed the window or the file -/
  wild : List ℤ
  /-- indices and events whose store has been executed, latest first -/
  stored : List (ℕ × Event)
  process : ℕ → Option Process

def State.setProcess (s : State) (p : ℕ) (process : Process) : State :=
  { s with process := Function.update s.process p (some process) }

/-- The check of `add`, in `unsigned long`. -/
def requiredSize (next : ℕ) (mmapOffset : ℤ) : ℤ :=
  ((next + 1) * eventSize - mmapOffset) % 2 ^ 64

/-- `byte_offset`, relative to the start of the mapped window. -/
def byteOffset (next : ℕ) (mmapOffset : ℤ) : ℤ := next * eventSize - mmapOffset

/-- A window-relative address that is mapped and backed by the file. -/
def Mapped (s : State) (mmapOffset address : ℤ) : Prop :=
  0 ≤ address ∧ address < requestSize ∧ headerSize + mmapOffset + address < s.fileLength

instance (s : State) (mmapOffset address : ℤ) : Decidable (Mapped s mmapOffset address) :=
  inferInstanceAs (Decidable (_ ∧ _ ∧ _))

/-- The file after `*((tthread::logevent *)byte_offset) = e`. -/
def storeFile (s : State) (mmapOffset : ℤ) (next : ℕ) (event : Event) : ℤ → Option UInt8 :=
  fun offset =>
    let address := offset - (headerSize + mmapOffset)
    let byte := address - byteOffset next mmapOffset
    if h : (0 ≤ byte ∧ byte < eventSize) ∧ Mapped s mmapOffset address then
      some (event ⟨byte.toNat, by omega⟩)
    else s.file offset

/-- The addresses of the same store that miss the window or the file. -/
def storeWild (s : State) (mmapOffset : ℤ) (next : ℕ) : List ℤ :=
  ((List.range eventSize).map fun byte : ℕ => byteOffset next mmapOffset + byte).filter
    fun address => ¬ Mapped s mmapOffset address

/-- `fork` is the clone of a new process, which inherits its parent's window; `add` starts a
call; `act` lets a process take its next step; `abort` is a failing `ftruncate`. -/
inductive Label
  | fork (parent child : ℕ)
  | add (p : ℕ) (event : Event)
  | act (p : ℕ)
  | abort (p : ℕ)

/-- One step of process `p`, whose window is at `mmapOffset`. -/
def act (s : State) (p : ℕ) (mmapOffset : ℤ) : Pc → Option State
  | .idle => none
  | .reserved next event =>
      if requiredSize next mmapOffset > requestSize then
        some (s.setProcess p ⟨mmapOffset, .growLog next event⟩)
      else some (s.setProcess p ⟨mmapOffset, .store next event⟩)
  | .growLog next event =>
      if mmapOffset + requestSize ≥ s.fileSize then
        some (s.setProcess p ⟨mmapOffset, .lockWait next event s.fileSize⟩)
      else some (s.setProcess p ⟨mmapOffset, .remap next event⟩)
  | .lockWait next event currentSize =>
      if s.truncateMutex = none then
        some ({ s with truncateMutex := some p }.setProcess p
          ⟨mmapOffset, .locked next event currentSize⟩)
      else none
  | .locked next event currentSize =>
      if currentSize = s.fileSize then
        -- an `off_t` holds the new length, or `ftruncate` fails
        if currentSize + requestSize + headerSize < 2 ^ 63 then
          some ({ s with fileLength := currentSize + requestSize + headerSize }.setProcess p
            ⟨mmapOffset, .truncated next event (currentSize + requestSize)⟩)
        else none
      else some (s.setProcess p ⟨mmapOffset, .unlocking next event⟩)
  | .truncated next event newSize =>
      some ({ s with fileSize := newSize }.setProcess p ⟨mmapOffset, .unlocking next event⟩)
  | .unlocking next event =>
      some ({ s with truncateMutex := none }.setProcess p ⟨mmapOffset, .remap next event⟩)
  | .remap next event =>
      some (s.setProcess p ⟨s.fileSize - requestSize, .store next event⟩)
  | .store next event =>
      some ({ s with
        file := storeFile s mmapOffset next event
        wild := storeWild s mmapOffset next ++ s.wild
        stored := (next, event) :: s.stored }.setProcess p ⟨mmapOffset, .idle⟩)
  | .aborted => none

def step (s : State) : Label → Option State
  | .fork parent child =>
      match s.process parent, s.process child with
      | some ⟨mmapOffset, .idle⟩, none => some (s.setProcess child ⟨mmapOffset, .idle⟩)
      | _, _ => none
  | .add p event =>
      match s.process p with
      | some ⟨mmapOffset, .idle⟩ =>
          some ({ s with next := (s.next + 1) % 2 ^ 64 }.setProcess p
            ⟨mmapOffset, .reserved s.next event⟩)
      | _ => none
  | .act p =>
      match s.process p with
      | some ⟨mmapOffset, pc⟩ => act s p mmapOffset pc
      | none => none
  | .abort p =>
      match s.process p with
      | some ⟨mmapOffset, .locked _ _ currentSize⟩ =>
          if currentSize = s.fileSize then some (s.setProcess p ⟨mmapOffset, .aborted⟩) else none
      | _ => none

/-- The constructor has returned: the header is written and its call of `growLog`,
which starts from the offset `-REQUEST_SIZE`, has mapped the first window. -/
def initial : State where
  next := 0
  fileSize := requestSize
  truncateMutex := none
  fileLength := requestSize + headerSize
  file _ := none
  wild := []
  stored := []
  process := Function.update (fun _ => none) 0 (some ⟨0, .idle⟩)

def system : Transition.System State Label where
  Init s := s = initial
  step := step

end Tthread.Xlogger
