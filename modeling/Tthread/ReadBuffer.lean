/-
# Pre-faulting a read buffer

The kernel fills a buffer without page faults that the runtime could see, so `read` and `fread`
touch every page of the buffer first. They touch it with stores of zero, one for each page size
from its first byte on and one at its last byte. The stores reach every page, and a byte keeps
its value only where the real call fills it, or where it was zero.
-/

import Mathlib.Data.Nat.Basic
import Tthread.PageDiffs

namespace Tthread.ReadBuffer

/-- A number in a `size_t`. -/
def sizeT (n : ℕ) : ℕ := n % 2 ^ 64

/-- A buffer of the program. It lies in the address space, and not in the first page. -/
structure Buffer where
  start : ℕ
  count : ℕ
  inSpace : start + count ≤ 2 ^ 64
  outside : pageSize ≤ start

abbrev Memory := ℕ → UInt8

/-- The indices of the loop of `prepare_read`, from one on; `none` where the index wraps around
and the loop does not end. -/
def indices (count i : ℕ) : Option (List ℕ) :=
  if i < count then
    if sizeT (i + pageSize) < i then none
    else (indices count (i + pageSize)).map (i :: ·)
  else some []
termination_by count - i
decreasing_by simp only [pageSize]; omega

/-- The addresses that `prepare_read` stores a zero to. -/
def prepareRead (start count : ℕ) : Option (List ℕ) :=
  (indices count 0).map fun all =>
    all.map (fun i => sizeT (start + i)) ++ [sizeT (start + sizeT (count + (2 ^ 64 - 1)))]

/-- The memory after the stores. -/
def clear (memory : Memory) (stores : List ℕ) : Memory := fun addr =>
  if addr ∈ stores then 0 else memory addr

/-- The real call fills the buffer from its first byte on. -/
def fill (memory : Memory) (start : ℕ) (bytes : List UInt8) : Memory := fun addr =>
  if addr < start then memory addr else (bytes[addr - start]?).getD (memory addr)

inductive Call
  | read (count : ℕ)
  | fread (size nmemb : ℕ)

/-- How many bytes a call asks for, which is what `prepare_read` gets. The product is a `size_t`,
for `prepare_read` and for the real `fread`. -/
def Call.count : Call → ℕ
  | .read count => count
  | .fread size nmemb => sizeT (size * nmemb)

/-- The stores and the memory behind a call, for the bytes that the real call delivers: none at
an error or the end of the file. -/
def perform (memory : Memory) (start : ℕ) (call : Call) (bytes : List UInt8) :
    Option (List ℕ × Memory) :=
  (prepareRead start call.count).map fun stores =>
    (stores, fill (clear memory stores) start bytes)

/-- The call returns, the stores stay inside the buffer and reach every page of it, and the bytes
behind those that were delivered are what they were. -/
def Invisible (memory : Memory) (buffer : Buffer) (call : Call) (bytes : List UInt8) : Prop :=
  ∃ stores after, perform memory buffer.start call bytes = some (stores, after) ∧
    (∀ addr ∈ stores, buffer.start ≤ addr ∧ addr < buffer.start + buffer.count) ∧
    (∀ i < buffer.count, ∃ addr ∈ stores, addr / pageSize = (buffer.start + i) / pageSize) ∧
    ∀ i < buffer.count, bytes.length ≤ i → after (buffer.start + i) = memory (buffer.start + i)

/-- The first byte of the buffer, those at multiples of the page size from there, and the last. -/
def Touched (count i : ℕ) : Prop := i < count ∧ (i % pageSize = 0 ∨ i + 1 = count)

variable {count i : ℕ}

theorem indices_eq (fits : count + pageSize ≤ 2 ^ 64) (i : ℕ) :
    ∃ all, indices count i = some all ∧
      ∀ j, j ∈ all ↔ i ≤ j ∧ j < count ∧ (j - i) % pageSize = 0 := by
  induction i using indices.induct count with
  | case1 i inside wraps =>
    exact absurd wraps (by simp only [sizeT, pageSize] at *; omega)
  | case2 i inside goes ih =>
    obtain ⟨rest, later, members⟩ := ih
    refine ⟨i :: rest, ?_, fun j => ?_⟩
    · rw [indices, if_pos inside, if_neg goes, later, Option.map_some]
    · rw [List.mem_cons, members]
      simp only [pageSize]
      omega
  | case3 i beyond =>
    refine ⟨[], by rw [indices, if_neg beyond], fun j => ?_⟩
    simp only [List.not_mem_nil, false_iff]
    omega

/-- The stores go to the touched bytes. With nothing to read, one goes in front of the buffer. -/
theorem prepareRead_eq (buffer : Buffer) : ∃ stores,
    prepareRead buffer.start buffer.count = some stores ∧
      ∀ addr, addr ∈ stores ↔
        (∃ i, Touched buffer.count i ∧ addr = buffer.start + i) ∨
          buffer.count = 0 ∧ addr = buffer.start - 1 := by
  obtain ⟨start, count, inSpace, outside⟩ := buffer
  have fits : count + pageSize ≤ 2 ^ 64 := by omega
  have size : pageSize = 4096 := rfl
  obtain ⟨all, looped, members⟩ := indices_eq fits 0
  refine ⟨all.map (fun i => sizeT (start + i)) ++ [sizeT (start + sizeT (count + (2 ^ 64 - 1)))],
    by simp only [prepareRead, looped, Option.map_some], fun addr => ?_⟩
  simp only [List.mem_append, List.mem_map, List.mem_singleton, members, Touched, sizeT]
  constructor
  · rintro (⟨i, ⟨-, inside, multiple⟩, at_⟩ | at_)
    · exact .inl ⟨i, ⟨inside, .inl multiple⟩, by omega⟩
    · by_cases empty : count = 0
      · exact .inr ⟨empty, by omega⟩
      · exact .inl ⟨count - 1, ⟨by omega, .inr (by omega)⟩, by omega⟩
  · rintro (⟨i, ⟨inside, multiple | last⟩, rfl⟩ | ⟨empty, rfl⟩)
    · exact .inl ⟨i, ⟨by omega, inside, multiple⟩, by omega⟩
    · exact .inr (by omega)
    · exact .inr (by omega)

/-- Every page of the buffer has a touched byte. -/
theorem exists_touched (start : ℕ) (inside : i < count) :
    ∃ j, Touched count j ∧ (start + j) / pageSize = (start + i) / pageSize := by
  simp only [Touched, pageSize]
  -- the multiple of the page size in front of the byte or behind it, or else the last byte
  by_cases first : start % 4096 + i % 4096 < 4096
  · exact ⟨i / 4096 * 4096, ⟨by omega, .inl (Nat.mul_mod_left _ _)⟩, by omega⟩
  · by_cases next : (i / 4096 + 1) * 4096 < count
    · exact ⟨(i / 4096 + 1) * 4096, ⟨next, .inl (Nat.mul_mod_left _ _)⟩, by omega⟩
    · exact ⟨count - 1, ⟨by omega, .inr (by omega)⟩, by omega⟩

theorem fill_of_le {memory : Memory} {start : ℕ} {bytes : List UInt8} (behind : bytes.length ≤ i) :
    fill memory start bytes (start + i) = memory (start + i) := by
  unfold fill
  rw [if_neg (by omega), Nat.add_sub_cancel_left, List.getElem?_eq_none behind, Option.getD_none]

section

variable {memory : Memory} {buffer : Buffer} {call : Call} {bytes : List UInt8}

theorem perform_eq (memory : Memory) (bytes : List UInt8) (asks : call.count = buffer.count) :
    ∃ stores, perform memory buffer.start call bytes =
      some (stores, fill (clear memory stores) buffer.start bytes) ∧
    ∀ addr, addr ∈ stores ↔
      (∃ i, Touched buffer.count i ∧ addr = buffer.start + i) ∨
        buffer.count = 0 ∧ addr = buffer.start - 1 := by
  obtain ⟨stores, prepared, members⟩ := prepareRead_eq buffer
  refine ⟨stores, ?_, members⟩
  rw [perform, asks, prepared, Option.map_some]

/-- What the stores have overwritten and the real call has not. -/
theorem clear_fill {stores : List ℕ} (behind : bytes.length ≤ i) :
    fill (clear memory stores) buffer.start bytes (buffer.start + i) =
      if buffer.start + i ∈ stores then 0 else memory (buffer.start + i) :=
  fill_of_le behind

theorem Invisible.delivered (invisible : Invisible memory buffer call bytes)
    (asks : call.count = buffer.count) : 0 < buffer.count ∧
      ∀ i, Touched buffer.count i → i < bytes.length ∨ memory (buffer.start + i) = 0 := by
  obtain ⟨stores, performed, members⟩ := perform_eq memory bytes asks
  obtain ⟨stores', after', same, inside, -, kept⟩ := invisible
  obtain ⟨rfl, rfl⟩ := Prod.mk.inj (Option.some.inj (performed.symm.trans same))
  refine ⟨Nat.pos_of_ne_zero fun empty => ?_, fun i touched => ?_⟩
  · -- the last byte of an empty buffer is in front of it
    have front := inside (buffer.start - 1) ((members _).mpr (.inr ⟨empty, rfl⟩))
    omega
  · by_contra neither
    obtain ⟨behind, other⟩ := not_or.mp neither
    have stored : buffer.start + i ∈ stores := (members _).mpr (.inl ⟨i, touched, rfl⟩)
    have zero := kept i touched.1 (not_lt.mp behind)
    rw [clear_fill (not_lt.mp behind), if_pos stored] at zero
    exact other zero.symm

theorem invisible_of_delivered (asks : call.count = buffer.count) (nonempty : 0 < buffer.count)
    (delivered : ∀ i, Touched buffer.count i → i < bytes.length ∨ memory (buffer.start + i) = 0) :
    Invisible memory buffer call bytes := by
  obtain ⟨stores, performed, members⟩ := perform_eq memory bytes asks
  have touched : ∀ addr ∈ stores, ∃ i, Touched buffer.count i ∧ addr = buffer.start + i := by
    intro addr stored
    rcases (members addr).mp stored with inside | ⟨empty, -⟩
    · exact inside
    · omega
  refine ⟨stores, _, performed, fun addr stored => ?_, fun i inside => ?_,
    fun i inside behind => ?_⟩
  · obtain ⟨i, ⟨inside, -⟩, rfl⟩ := touched addr stored
    omega
  · obtain ⟨j, touches, same⟩ := exists_touched buffer.start inside
    exact ⟨buffer.start + j, (members _).mpr (.inl ⟨j, touches, rfl⟩), same⟩
  · rw [clear_fill behind]
    split
    · next stored =>
      obtain ⟨j, touches, same⟩ := touched _ stored
      obtain rfl := Nat.add_left_cancel same
      exact ((delivered i touches).resolve_left (not_lt.mpr behind)).symm
    · rfl

end

/-- **Pre-faulting.** A call leaves no trace of the pre-fault just when the buffer is not empty and
each touched byte is delivered by the real call or was zero. -/
theorem invisible_iff (memory : Memory) (buffer : Buffer) (call : Call) (bytes : List UInt8)
    (asks : call.count = buffer.count) :
    Invisible memory buffer call bytes ↔ 0 < buffer.count ∧
      ∀ i, Touched buffer.count i → i < bytes.length ∨ memory (buffer.start + i) = 0 := by
  constructor
  · exact fun invisible => invisible.delivered asks
  · exact fun ⟨nonempty, delivered⟩ => invisible_of_delivered asks nonempty delivered

/-- The first bytes of the third page. -/
def firstBytes (count : ℕ) (few : count ≤ pageSize) : Buffer where
  start := 2 * pageSize
  count := count
  inSpace := by simp only [pageSize] at *; omega
  outside := by decide

/-- The real calls fill the buffer, `fread` with a product that wraps to 4. -/
theorem invisible_filled :
    Invisible (fun _ => 5) (firstBytes 3 (by decide)) (.read 3) [1, 2, 3] ∧
      Invisible (fun _ => 5) (firstBytes 4 (by decide)) (.fread 2 (2 ^ 63 + 2)) [1, 2, 3, 4] :=
  ⟨(invisible_iff _ (firstBytes 3 _) (.read 3) [1, 2, 3] rfl).mpr
      ⟨by decide, fun _ touched => .inl touched.1⟩,
    (invisible_iff _ (firstBytes 4 _) (.fread 2 (2 ^ 63 + 2)) [1, 2, 3, 4] (by decide)).mpr
      ⟨by decide, fun _ touched => .inl touched.1⟩⟩

/-- At the end of the file nothing is read, and two bytes of the buffer are gone. -/
theorem not_invisible_end : ¬∀ (memory : Memory) (buffer : Buffer) (call : Call)
    (bytes : List UInt8), call.count = buffer.count → bytes.length ≤ buffer.count →
      Invisible memory buffer call bytes := by
  intro invisible
  have shown := invisible (fun _ => 5) (firstBytes 3 (by decide)) (.read 3) [] rfl (Nat.zero_le _)
  rcases (shown.delivered rfl).2 0 ⟨by decide, .inl rfl⟩ with delivered | zero
  · cases delivered
  · cases zero

end Tthread.ReadBuffer
