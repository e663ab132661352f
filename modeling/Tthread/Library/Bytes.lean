/-
# Numbers and blocks in a byte-addressed memory

A memory is a function from offsets to bytes. Numbers are laid out little-endian:
`byteOf` is one byte of a number and `word` the number that a few bytes hold.
`write` stores a block; what it leaves alone and what it stores are the two rules
that later proofs use instead of the definition.
-/

import Mathlib.Algebra.Order.Group.Nat
import Mathlib.Data.Fin.Tuple.Basic

namespace Bytes

/-! ## Little-endian numbers -/

/-- Byte `k` of a number. -/
def byteOf (value k : ℕ) : UInt8 := UInt8.ofNat (value / 256 ^ k)

/-- The number that `width` bytes hold. -/
def word : (width : ℕ) → (Fin width → UInt8) → ℕ
  | 0, _ => 0
  | width + 1, bytes => (bytes 0).toNat + 256 * word width fun k => bytes k.succ

theorem byteOf_zero (value : ℕ) : (byteOf value 0).toNat = value % 256 := by
  simp [byteOf]

theorem byteOf_succ (value k : ℕ) : byteOf value (k + 1) = byteOf (value / 256) k := by
  rw [byteOf, byteOf, Nat.div_div_eq_div_mul, ← pow_succ']

/-- Laying a number out and reading it back keeps what fits the width. -/
theorem word_byteOf (width value : ℕ) :
    word width (fun k => byteOf value k) = value % 256 ^ width := by
  induction width generalizing value with
  | zero => simp [word, Nat.mod_one]
  | succ width ih =>
    have tail : (fun k : Fin width => byteOf value k.succ) =
        fun k : Fin width => byteOf (value / 256) k := by
      funext k
      exact byteOf_succ value k
    have head : (byteOf value ((0 : Fin (width + 1)) : ℕ)).toNat = value % 256 := byteOf_zero value
    rw [word, tail, ih, head, pow_succ', Nat.mod_mul]

/-- A number is zero if each of its bytes is. -/
theorem word_eq_zero_iff {width : ℕ} {bytes : Fin width → UInt8} :
    word width bytes = 0 ↔ ∀ k, bytes k = 0 := by
  induction width with
  | zero => exact ⟨fun _ k => k.elim0, fun _ => rfl⟩
  | succ width ih =>
    have first : (bytes 0).toNat = 0 ↔ bytes 0 = 0 := UInt8.toNat_inj (b := 0)
    rw [word, Nat.add_eq_zero_iff, first, Nat.mul_eq_zero, or_iff_right (by decide), ih,
      Fin.forall_fin_succ]

theorem word_lt (width : ℕ) (bytes : Fin width → UInt8) : word width bytes < 256 ^ width := by
  induction width with
  | zero => exact Nat.one_pos
  | succ width ih =>
    have low := (bytes 0).toNat_lt
    have high := ih fun k => bytes k.succ
    rw [word, pow_succ']
    omega

/-- Two numbers are the same if their bytes are. -/
theorem word_inj {width : ℕ} {left right : Fin width → UInt8} :
    word width left = word width right ↔ ∀ k, left k = right k := by
  induction width with
  | zero => exact ⟨fun _ k => k.elim0, fun _ => rfl⟩
  | succ width ih =>
    have lowLeft := (left 0).toNat_lt
    have lowRight := (right 0).toNat_lt
    have split : word (width + 1) left = word (width + 1) right ↔
        (left 0).toNat = (right 0).toNat ∧
          word width (fun k => left k.succ) = word width fun k => right k.succ := by
      rw [word, word]
      omega
    rw [split, UInt8.toNat_inj, ih, Fin.forall_fin_succ]

/-! ## Storing a block -/

/-- Store the first `width` of `bytes` from offset `start` on. -/
def write (memory : ℕ → UInt8) (start width : ℕ) (bytes : ℕ → UInt8) : ℕ → UInt8 :=
  fun offset =>
    if start ≤ offset ∧ offset < start + width then bytes (offset - start) else memory offset

variable {memory : ℕ → UInt8} {start width offset k : ℕ} {bytes : ℕ → UInt8}

theorem write_inside (inside : k < width) :
    write memory start width bytes (start + k) = bytes k := by
  have here : start ≤ start + k ∧ start + k < start + width := by omega
  rw [write, if_pos here, Nat.add_sub_cancel_left]

theorem write_outside (outside : offset < start ∨ start + width ≤ offset) :
    write memory start width bytes offset = memory offset := by
  have elsewhere : ¬ (start ≤ offset ∧ offset < start + width) := by omega
  rw [write, if_neg elsewhere]

end Bytes
