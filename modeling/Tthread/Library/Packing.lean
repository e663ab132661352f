/-
# Packed records

Numbers laid out little-endian in lists of bytes, and records that are their fields laid
out one behind the other. A format says how a field is read back: how many bytes it has, and
whether they are a number with a sign. A record comes back field by field, each as the number
that was stored if the format of the field is that of the number.
-/

import Mathlib.Algebra.GroupWithZero.Nat
import Mathlib.Data.List.OfFn
import Tthread.Library.Bytes

namespace Packing

open Bytes

/-! ## Numbers -/

/-- The lowest `width` bytes of a number, the lowest one first. -/
def encode (width value : ℕ) : List UInt8 := List.ofFn fun k : Fin width => byteOf value k

/-- The number that some bytes hold. -/
def decode : List UInt8 → ℕ
  | [] => 0
  | byte :: rest => byte.toNat + 256 * decode rest

@[simp] theorem encode_length (width value : ℕ) : (encode width value).length = width :=
  List.length_ofFn

theorem encode_succ (width value : ℕ) :
    encode (width + 1) value = byteOf value 0 :: encode width (value / 256) := by
  rw [encode, List.ofFn_succ, encode]
  congr 1
  congr 1
  funext k
  exact byteOf_succ value k

/-- Reading a number back keeps what fits the width. -/
theorem decode_encode (width value : ℕ) : decode (encode width value) = value % 256 ^ width := by
  induction width generalizing value with
  | zero => simp [encode, decode, Nat.mod_one]
  | succ width ih =>
    rw [encode_succ, decode, ih, byteOf_zero, pow_succ', Nat.mod_mul]

/-! ## Fields -/

/-- How a field is read: a byte, or a number of 4 or 8 bytes with or without a sign. -/
inductive Format
  | c
  | I
  | i
  | Q
  deriving DecidableEq

namespace Format

def size : Format → ℕ
  | c => 1
  | I | i => 4
  | Q => 8

/-- The value of a field from its bytes. -/
def read (format : Format) (bytes : List UInt8) : ℤ :=
  match format with
  | i => (decode bytes : ℤ).bmod (2 ^ 32)
  | c | I | Q => decode bytes

end Format

/-- The values of a record, if its bytes are exactly those of the fields. -/
def unpack : List Format → List UInt8 → Option (List ℤ)
  | [], [] => some []
  | [], _ :: _ => none
  | format :: formats, bytes =>
      if bytes.length < format.size then none
      else (unpack formats (bytes.drop format.size)).map
        (format.read (bytes.take format.size) :: ·)

/-- The size of a record. -/
def calcsize (formats : List Format) : ℕ := (formats.map Format.size).sum

variable {format : Format} {formats : List Format} {field rest : List UInt8}

@[simp] theorem unpack_nil : unpack [] [] = some [] := rfl

/-- The first field is read from the first bytes. -/
theorem unpack_cons (fits : field.length = format.size) :
    unpack (format :: formats) (field ++ rest) =
      (unpack formats rest).map (format.read field :: ·) := by
  have long : ¬ (field ++ rest).length < format.size := by
    rw [List.length_append]
    omega
  rw [unpack, if_neg long, List.drop_left' fits, List.take_left' fits]

/-- A record comes back field by field. -/
theorem unpack_flatMap {fields : List (Format × List UInt8)}
    (fits : ∀ field ∈ fields, field.2.length = field.1.size) :
    unpack (fields.map Prod.fst) (fields.flatMap Prod.snd) =
      some (fields.map fun field => field.1.read field.2) := by
  induction fields with
  | nil => rfl
  | cons field fields ih =>
    have tail := ih fun other member => fits other (List.mem_cons_of_mem _ member)
    rw [List.map_cons, List.flatMap_cons, unpack_cons (fits field List.mem_cons_self), tail]
    rfl

/-- A record is as long as its fields. -/
theorem calcsize_flatMap {fields : List (Format × List UInt8)}
    (fits : ∀ field ∈ fields, field.2.length = field.1.size) :
    (fields.flatMap Prod.snd).length = calcsize (fields.map Prod.fst) := by
  rw [List.length_flatMap, calcsize, List.map_map]
  exact congrArg List.sum (List.map_congr_left fits)

/-- A record is read from as many bytes as its fields have, and from no others. -/
theorem unpack_isSome_iff {bytes : List UInt8} :
    (unpack formats bytes).isSome ↔ bytes.length = calcsize formats := by
  induction formats generalizing bytes with
  | nil => cases bytes <;> simp [unpack, calcsize]
  | cons format formats ih =>
    rw [unpack]
    split
    · next short =>
      simp only [calcsize, List.map_cons, List.sum_cons]
      simp
      omega
    · next long =>
      rw [Option.isSome_map, ih, List.length_drop]
      simp only [calcsize, List.map_cons, List.sum_cons]
      omega

/-- A record without signs has no negative values. -/
theorem unpack_nonneg {bytes : List UInt8} {values : List ℤ}
    (unsigned : ∀ format ∈ formats, format ≠ .i) (unpacked : unpack formats bytes = some values) :
    ∀ value ∈ values, 0 ≤ value := by
  induction formats generalizing bytes values with
  | nil =>
    cases bytes with
    | nil => cases unpacked; simp
    | cons byte bytes => exact nomatch unpacked
  | cons format formats ih =>
    rw [unpack] at unpacked
    split at unpacked
    · exact nomatch unpacked
    · obtain ⟨rest, others, rfl⟩ := Option.map_eq_some_iff.1 unpacked
      have first : 0 ≤ format.read (bytes.take format.size) := by
        cases format with
        | i => exact absurd rfl (unsigned .i List.mem_cons_self)
        | c | I | Q => exact Int.natCast_nonneg _
      exact List.forall_mem_cons.2
        ⟨first, ih (fun other member => unsigned other (List.mem_cons_of_mem _ member)) others⟩

/-- A field without a sign comes back as it was stored. -/
theorem read_encode (unsigned : format ≠ .i) {value : ℕ} (fits : value < 256 ^ format.size) :
    format.read (encode format.size value) = value := by
  have stored : decode (encode format.size value) = value := by
    rw [decode_encode, Nat.mod_eq_of_lt fits]
  cases format with
  | i => exact absurd rfl unsigned
  | c | I | Q => exact congrArg _ stored

/-- A field with a sign comes back as the signed number of the same bits. -/
theorem read_encode_signed (value : BitVec 32) :
    Format.i.read (encode 4 value.toNat) = value.toInt := by
  have fits : value.toNat < 256 ^ 4 := value.isLt.trans_eq (by simp)
  have stored : decode (encode 4 value.toNat) = value.toNat := by
    rw [decode_encode, Nat.mod_eq_of_lt fits]
  have read : Format.i.read (encode 4 value.toNat) =
      (decode (encode 4 value.toNat) : ℤ).bmod (2 ^ 32) := rfl
  rw [read, stored, BitVec.toInt_eq_toNat_bmod]

end Packing
