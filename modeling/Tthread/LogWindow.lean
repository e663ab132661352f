/-
# Windows of the log

`tthread::log` maps the log file from a page boundary at or below its offset on and reads its
events there. The offset in the page is added to the pointer and not taken away again: the
destructor hands it to `munmap`, which refuses it. The bound that `get` checks is one too high.
-/

import Tthread.Xlogger
import Tthread.Xmmap

namespace Tthread.LogWindow

open Xlogger Xmmap

/-- A number in a `size_t`. -/
def sizeT (n : ℕ) : ℕ := n % 2 ^ 64

/-- What `mmap` has mapped: a range of addresses, and where it begins in the file. -/
structure Mapping where
  address : ℕ
  size : ℕ
  offset : ℕ

/-- `tthread::log`. The pointer is null while there are no events. -/
structure Log where
  logOffset : ℕ
  logSize : ℕ
  log : Option ℕ
  /-- what `openLog` has mapped besides the header -/
  window : Option Mapping

/-- `openLog`, for a log of so many events, where `mmap` returns the address `buf`. -/
def openLog (eventCount logOffset buf : ℕ) : Log :=
  let logSize := sizeT (eventCount * eventSize)
  if logSize = 0 then { logOffset, logSize, log := none, window := none }
  else
    let alignedOffset := pageAlignDown logOffset
    let diff := logOffset - alignedOffset
    { logOffset
      logSize
      log := some (buf + diff)
      window := some ⟨buf, sizeT (logSize + diff), alignedOffset + headerSize⟩ }

/-- `length` -/
def Log.length (l : Log) : ℕ := sizeT (l.logSize + 2 ^ 64 - l.logOffset) / eventSize

inductive Error
  | outOfRange
  /-- a null pointer -/
  | crash
  deriving DecidableEq

/-- `get`: the offset in the file that the event is read from. -/
def Log.get (l : Log) (i : ℕ) : Except Error ℕ :=
  -- one event behind the last one passes
  if l.length < i then .error .outOfRange
  else
    match l.log, l.window with
    | some log, some window => .ok (log + i * eventSize - window.address + window.offset)
    | _, _ => .error .crash

/-- The pages of a range of addresses. -/
def pagesOf (address size page : ℕ) : Prop :=
  address / pageSize ≤ page ∧ page * pageSize < address + size

/-- The pages that `munmap` unmaps: none if it refuses the range. -/
def munmap (address size page : ℕ) : Prop :=
  address % pageSize = 0 ∧ 0 < size ∧ pagesOf address size page

/-- What the destructor unmaps. -/
def Log.unmapped (l : Log) (page : ℕ) : Prop := munmap (l.log.getD 0) l.logSize page

/-- What was mapped. -/
def Log.mapped (l : Log) (page : ℕ) : Prop :=
  ∃ window, l.window = some window ∧ pagesOf window.address window.size page

/-- The bytes of an event begin here in the file. -/
def eventOffset (i : ℕ) : ℕ := headerSize + i * eventSize

/-- The window has the events from `k` on, and gives back what it has mapped. -/
structure IsSuffix (n k : ℕ) (l : Log) : Prop where
  length : l.length = n - k
  get : ∀ i, l.get i = if i < n - k then .ok (eventOffset (k + i)) else .error .outOfRange
  unmaps : ∀ page, l.unmapped page ↔ l.mapped page

section

variable {n k buf : ℕ}

/-- The size of the log fits, and so does the end of the window. -/
theorem sizeT_log (fits : headerSize + n * eventSize < 2 ^ 63) :
    sizeT (n * eventSize) = n * eventSize :=
  Nat.mod_eq_of_lt (by omega)

theorem length_openLog (fits : headerSize + n * eventSize < 2 ^ 63) (within : k ≤ n) :
    (openLog n (k * eventSize) buf).length = n - k := by
  have below : k * eventSize ≤ n * eventSize := Nat.mul_le_mul_right _ within
  have size : (openLog n (k * eventSize) buf).logSize = n * eventSize := by
    simp only [openLog]
    split <;> exact sizeT_log fits
  have offset : (openLog n (k * eventSize) buf).logOffset = k * eventSize := by
    simp only [openLog]
    split <;> rfl
  have difference : sizeT (n * eventSize + 2 ^ 64 - k * eventSize) = (n - k) * eventSize := by
    rw [Nat.sub_mul, sizeT]
    omega
  rw [Log.length, size, offset, difference, Nat.mul_div_cancel _ (by decide)]

/-- The window of a log with events. -/
theorem openLog_eq (fits : headerSize + n * eventSize < 2 ^ 63) (nonempty : 0 < n) (offset : ℕ) :
    openLog n offset buf =
      { logOffset := offset
        logSize := n * eventSize
        log := some (buf + offset % pageSize)
        window := some ⟨buf, n * eventSize + offset % pageSize,
          offset / pageSize * pageSize + headerSize⟩ } := by
  have positive : n * eventSize ≠ 0 := (Nat.mul_pos nonempty (by decide)).ne'
  have diff : offset - pageAlignDown offset = offset % pageSize := by
    unfold pageAlignDown
    have := Nat.div_add_mod' offset pageSize
    omega
  have small : offset % pageSize < pageSize := Nat.mod_lt _ (by decide)
  have size : sizeT (n * eventSize + offset % pageSize) = n * eventSize + offset % pageSize := by
    refine Nat.mod_eq_of_lt ?_
    simp only [pageSize] at *
    omega
  simp only [openLog, sizeT_log fits, if_neg positive, diff, size]
  rfl

theorem openLog_empty (offset : ℕ) :
    openLog 0 offset buf = { logOffset := offset, logSize := 0, log := none, window := none } := rfl

/-- The event at an index inside the window, and one more. -/
theorem get_openLog (fits : headerSize + n * eventSize < 2 ^ 63) (within : k ≤ n) {i : ℕ}
    (inside : i ≤ n - k) (nonempty : 0 < n) :
    (openLog n (k * eventSize) buf).get i = .ok (eventOffset (k + i)) := by
  rw [Log.get, length_openLog fits within, if_neg (not_lt.mpr inside),
    openLog_eq fits nonempty]
  have split := Nat.div_add_mod' (k * eventSize) pageSize
  have sum : buf + k * eventSize % pageSize + i * eventSize - buf +
      (k * eventSize / pageSize * pageSize + headerSize) = headerSize + (k + i) * eventSize := by
    rw [Nat.add_mul]
    omega
  exact congrArg Except.ok sum

theorem get_beyond (fits : headerSize + n * eventSize < 2 ^ 63) (within : k ≤ n) {i : ℕ}
    (beyond : n - k < i) :
    (openLog n (k * eventSize) buf).get i = .error .outOfRange := by
  rw [Log.get, length_openLog fits within, if_pos beyond]

/-- There is no exception for the index behind the last event. -/
theorem get_length (fits : headerSize + n * eventSize < 2 ^ 63) (within : k ≤ n) :
    (openLog n (k * eventSize) buf).get (n - k) ≠ .error .outOfRange := by
  rcases Nat.eq_zero_or_pos n with rfl | nonempty
  · obtain rfl := Nat.le_zero.mp within
    exact nofun
  · rw [get_openLog fits within le_rfl nonempty]
    nofun

/-- The destructor unmaps the window if that begins at the events. -/
theorem unmapped_iff_mapped (fits : headerSize + n * eventSize < 2 ^ 63)
    (aligned : buf % pageSize = 0) (offset : ℕ) :
    (∀ page, (openLog n offset buf).unmapped page ↔ (openLog n offset buf).mapped page) ↔
      n = 0 ∨ offset % pageSize = 0 := by
  rcases Nat.eq_zero_or_pos n with rfl | nonempty
  · rw [openLog_empty]
    refine iff_of_true (fun page => ⟨?_, ?_⟩) (.inl rfl)
    · exact fun ⟨_, positive, _⟩ => absurd positive (lt_irrefl 0)
    · rintro ⟨window, same, -⟩
      cases same
  · have positive : 0 < n * eventSize := Nat.mul_pos nonempty (by decide)
    have small : offset % pageSize < pageSize := Nat.mod_lt _ (by decide)
    rw [openLog_eq fits nonempty]
    simp only [Log.unmapped, Log.mapped, Option.getD_some, munmap]
    constructor
    · intro exact_
      have first : pagesOf buf (n * eventSize + offset % pageSize) (buf / pageSize) := by
        refine ⟨le_rfl, ?_⟩
        have := Nat.div_mul_le_self buf pageSize
        omega
      obtain ⟨start, -, -⟩ := (exact_ (buf / pageSize)).mpr ⟨_, rfl, first⟩
      refine .inr ?_
      rwa [Nat.add_mod, aligned, Nat.zero_add, Nat.mod_mod, Nat.mod_mod] at start
    · rintro (empty | begins) page
      · exact absurd empty nonempty.ne'
      · rw [begins, Nat.add_zero, Nat.add_zero]
        constructor
        · exact fun ⟨_, _, inside⟩ => ⟨_, rfl, inside⟩
        · rintro ⟨window, same, inside⟩
          obtain rfl := Option.some.inj same
          exact ⟨aligned, positive, inside⟩

/-- **Windows of the log.** No window is exact: the index behind its last event is no error. Other
indices are right, and so is the length. The window is unmapped only if its events begin at a page
boundary. -/
theorem not_isSuffix (fits : headerSize + n * eventSize < 2 ^ 63) (within : k ≤ n)
    (aligned : buf % pageSize = 0) :
    ¬IsSuffix n k (openLog n (k * eventSize) buf) ∧
      (openLog n (k * eventSize) buf).length = n - k ∧
      (∀ i < n - k, (openLog n (k * eventSize) buf).get i = .ok (eventOffset (k + i))) ∧
      (∀ i, n - k < i → (openLog n (k * eventSize) buf).get i = .error .outOfRange) ∧
      ((∀ page, (openLog n (k * eventSize) buf).unmapped page ↔
        (openLog n (k * eventSize) buf).mapped page) ↔ n = 0 ∨ k * eventSize % pageSize = 0) := by
  refine ⟨fun suffix => ?_, length_openLog fits within, fun i inside => ?_,
    fun i beyond => get_beyond fits within beyond, unmapped_iff_mapped fits aligned _⟩
  · have last := suffix.get (n - k)
    rw [if_neg (lt_irrefl _)] at last
    exact get_length fits within last
  · exact get_openLog fits within inside.le (by omega)

end

/-- The last two of three events. -/
theorem not_isSuffix_three : ¬IsSuffix 3 1 (openLog 3 (1 * eventSize) (2 * pageSize)) :=
  (not_isSuffix (by decide) (by decide) (by decide)).1

theorem not_isSuffix_all : ¬∀ n k buf, headerSize + n * eventSize < 2 ^ 63 → k ≤ n →
    buf % pageSize = 0 → IsSuffix n k (openLog n (k * eventSize) buf) := by
  intro all
  have suffix := all 1 0 (2 * pageSize) (by decide) (by decide) (by decide)
  have last := suffix.get 1
  rw [get_openLog (by decide) (by decide) (by decide) (by decide)] at last
  cases last

end Tthread.LogWindow
