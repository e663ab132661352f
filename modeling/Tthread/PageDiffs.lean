/-
# Writing the differences of a page

`xpersist::writePageDiffs` in the SSE variant: sixteen bytes at a time it compares
the local page with the twin, inverts the mask and stores the local bytes under
the mask. The portable variant compares eight bytes at a time and leaves the bytes
of a word that differs to `commitWord`. The effect of both is one rule for each byte.
-/

import Mathlib.Algebra.GroupWithZero.Nat
import Mathlib.Data.List.FinRange
import Tthread.Library.Bytes
import Tthread.Library.Folds

namespace Tthread

/-- `xdefines::PageSize` -/
def pageSize : ℕ := 4096

instance : NeZero pageSize := ⟨by decide⟩

/-- The bytes of one page. -/
abbrev Page := Fin pageSize → UInt8

namespace PageDiffs

/-- `sizeof(__m128i)` -/
def chunkSize : ℕ := 16

/-- The number of chunks in a page. -/
def chunks : ℕ := pageSize / chunkSize

abbrev Chunk := Fin chunkSize → UInt8

/-- Byte `k` of chunk `i`, as an offset into the page. -/
def chunkOffset (i : Fin chunks) (k : Fin chunkSize) : Fin pageSize :=
  ⟨chunkSize * i + k, by
    have chunk : (i : ℕ) < 256 := i.isLt
    have byte : (k : ℕ) < 16 := k.isLt
    show 16 * (i : ℕ) + k < 4096
    omega⟩

/-- The chunk an offset lies in. -/
def chunkOf (offset : Fin pageSize) : Fin chunks :=
  ⟨offset / chunkSize, Nat.div_lt_of_lt_mul offset.isLt⟩

/-- The place of an offset in its chunk. -/
def byteIn (offset : Fin pageSize) : Fin chunkSize := ⟨offset % chunkSize, Nat.mod_lt _ (by decide)⟩

theorem chunkOffset_chunkOf (offset : Fin pageSize) :
    chunkOffset (chunkOf offset) (byteIn offset) = offset :=
  Fin.ext (Nat.div_add_mod offset chunkSize)

/-- `_mm_load_si128` -/
def load (page : Page) (i : Fin chunks) : Chunk := fun k => page (chunkOffset i k)

/-- `_mm_cmpeq_epi8` -/
def cmpeq (a b : Chunk) : Chunk := fun k => if a k = b k then 0xFF else 0

/-- `_mm_xor_si128` -/
def xor (a b : Chunk) : Chunk := fun k => a k ^^^ b k

/-- The register `allones`. -/
def allones : Chunk := fun _ => 0xFF

/-- `_mm_maskmoveu_si128`: a byte is stored where the high bit of its mask byte is set. -/
def maskmove (chunk mask : Chunk) (dest : Page) (i : Fin chunks) : Page := fun offset =>
  if chunkOf offset = i ∧ 0x80 ≤ mask (byteIn offset) then chunk (byteIn offset) else dest offset

/-- The body of the loop. -/
def writeChunkDiffs (localPage twin dest : Page) (i : Fin chunks) : Page :=
  let localChunk := load localPage i
  let eqChunk := cmpeq localChunk (load twin i)
  let neqChunk := xor allones eqChunk
  maskmove localChunk neqChunk dest i

def writePageDiffs (localPage twin dest : Page) : Page :=
  (List.finRange chunks).foldl (writeChunkDiffs localPage twin) dest

variable {localPage twin dest : Page} {offset : Fin pageSize} {i : Fin chunks}

/-- What one byte of the page becomes. -/
def mergeByte (localPage twin dest : Page) (offset : Fin pageSize) : UInt8 :=
  if localPage offset = twin offset then dest offset else localPage offset

theorem writeChunkDiffs_here :
    writeChunkDiffs localPage twin dest (chunkOf offset) offset =
      mergeByte localPage twin dest offset := by
  simp only [writeChunkDiffs, maskmove, xor, cmpeq, load, chunkOffset_chunkOf, allones, mergeByte]
  by_cases same : localPage offset = twin offset
  · simp [same]
  · simp [same]

theorem writeChunkDiffs_elsewhere (elsewhere : chunkOf offset ≠ i) :
    writeChunkDiffs localPage twin dest i offset = dest offset := by
  simp [writeChunkDiffs, maskmove, elsewhere]

/-- Every byte becomes the local one where it differs from the twin. -/
theorem writePageDiffs_apply (localPage twin dest : Page) (offset : Fin pageSize) :
    writePageDiffs localPage twin dest offset =
      if localPage offset = twin offset then dest offset else localPage offset :=
  Folds.foldl_here
    (fun offset byte => if localPage offset = twin offset then byte else localPage offset)
    (fun _ _ => writeChunkDiffs_here) (fun _ _ _ => writeChunkDiffs_elsewhere)
    (List.nodup_finRange _) (List.mem_finRange _) dest

/-! ## The portable variant -/

namespace Portable

/-- `sizeof(long long)` -/
def wordSize : ℕ := 8

/-- The number of words in a page. -/
def words : ℕ := pageSize / wordSize

/-- Byte `k` of word `i`, as an offset into the page. -/
def wordOffset (i : Fin words) (k : Fin wordSize) : Fin pageSize :=
  ⟨wordSize * i + k, by
    have word : (i : ℕ) < 512 := i.isLt
    have byte : (k : ℕ) < 8 := k.isLt
    show 8 * (i : ℕ) + k < 4096
    omega⟩

/-- The word an offset lies in. -/
def wordOf (offset : Fin pageSize) : Fin words :=
  ⟨offset / wordSize, Nat.div_lt_of_lt_mul offset.isLt⟩

/-- The place of an offset in its word. -/
def byteIn (offset : Fin pageSize) : Fin wordSize := ⟨offset % wordSize, Nat.mod_lt _ (by decide)⟩

theorem wordOffset_wordOf (offset : Fin pageSize) :
    wordOffset (wordOf offset) (byteIn offset) = offset :=
  Fin.ext (Nat.div_add_mod offset wordSize)

theorem wordOf_wordOffset (i : Fin words) (k : Fin wordSize) : wordOf (wordOffset i k) = i := by
  have byte : (k : ℕ) < 8 := k.isLt
  apply Fin.ext
  show (8 * (i : ℕ) + k) / 8 = i
  omega

theorem byteIn_wordOffset (i : Fin words) (k : Fin wordSize) : byteIn (wordOffset i k) = k := by
  have byte : (k : ℕ) < 8 := k.isLt
  apply Fin.ext
  show (8 * (i : ℕ) + k) % 8 = k
  omega

/-- `mylocal[i]` -/
def load (page : Page) (i : Fin words) : ℕ := Bytes.word wordSize fun k => page (wordOffset i k)

/-- The body of the loop of `commitWord`. -/
def commitByte (src twin : Page) (i : Fin words) (dest : Page) (k : Fin wordSize) : Page :=
  if src (wordOffset i k) ≠ twin (wordOffset i k) then
    Function.update dest (wordOffset i k) (src (wordOffset i k))
  else dest

/-- `commitWord` at word `i` of the three pages. -/
def commitWord (src twin dest : Page) (i : Fin words) : Page :=
  (List.finRange wordSize).foldl (commitByte src twin i) dest

/-- The body of the loop. -/
def writeWordDiffs (localPage twin dest : Page) (i : Fin words) : Page :=
  if load localPage i ≠ load twin i then commitWord localPage twin dest i else dest

/-- `writePageDiffs` without `SSE_SUPPORT`. -/
def writePageDiffs (localPage twin dest : Page) : Page :=
  (List.finRange words).foldl (writeWordDiffs localPage twin) dest

variable {i : Fin words}

theorem commitByte_here (dest : Page) (offset : Fin pageSize) :
    commitByte localPage twin i dest (byteIn offset) offset =
      if wordOf offset = i then mergeByte localPage twin dest offset else dest offset := by
  by_cases inside : wordOf offset = i
  · subst inside
    rw [if_pos rfl, commitByte, wordOffset_wordOf, mergeByte]
    by_cases same : localPage offset = twin offset
    · rw [if_neg (not_not.mpr same), if_pos same]
    · rw [if_pos same, if_neg same, Function.update_self]
  · have other : offset ≠ wordOffset i (byteIn offset) := by
      intro same
      exact inside (same ▸ wordOf_wordOffset i (byteIn offset))
    rw [if_neg inside, commitByte]
    split
    · rw [Function.update_of_ne other]
    · rfl

theorem commitByte_elsewhere (dest : Page) (k : Fin wordSize) (offset : Fin pageSize)
    (elsewhere : byteIn offset ≠ k) : commitByte localPage twin i dest k offset = dest offset := by
  have other : offset ≠ wordOffset i k := by
    intro same
    exact elsewhere (same ▸ byteIn_wordOffset i k)
  rw [commitByte]
  split
  · rw [Function.update_of_ne other]
  · rfl

theorem commitWord_apply :
    commitWord localPage twin dest i offset =
      if wordOf offset = i then mergeByte localPage twin dest offset else dest offset :=
  Folds.foldl_here
    (fun offset byte =>
      if wordOf offset = i then
        if localPage offset = twin offset then byte else localPage offset
      else byte)
    commitByte_here commitByte_elsewhere (List.nodup_finRange _) (List.mem_finRange _) dest

/-- A word that is the same in both pages has no byte to store. -/
theorem writeWordDiffs_here :
    writeWordDiffs localPage twin dest (wordOf offset) offset =
      mergeByte localPage twin dest offset := by
  rw [writeWordDiffs]
  split
  · rw [commitWord_apply, if_pos rfl]
  next same =>
    have bytes := Bytes.word_inj.mp (not_not.mp same) (byteIn offset)
    rw [wordOffset_wordOf] at bytes
    rw [mergeByte, if_pos bytes]

theorem writeWordDiffs_elsewhere (elsewhere : wordOf offset ≠ i) :
    writeWordDiffs localPage twin dest i offset = dest offset := by
  rw [writeWordDiffs]
  split
  · rw [commitWord_apply, if_neg elsewhere]
  · rfl

theorem writePageDiffs_apply (localPage twin dest : Page) (offset : Fin pageSize) :
    writePageDiffs localPage twin dest offset = mergeByte localPage twin dest offset :=
  Folds.foldl_here
    (fun offset byte => if localPage offset = twin offset then byte else localPage offset)
    (fun _ _ => writeWordDiffs_here) (fun _ _ _ => writeWordDiffs_elsewhere)
    (List.nodup_finRange _) (List.mem_finRange _) dest

end Portable

/-- `memcpy(share, local, xdefines::PageSize)` -/
def memcpy (_share localPage : Page) : Page := localPage

theorem mergeByte_unchanged : mergeByte localPage twin twin offset = localPage offset := by
  rw [mergeByte]
  split
  next same => exact same.symm
  · rfl

/-- Both variants merge byte by byte, and over an unchanged page they copy the local one. -/
theorem variants_agree (localPage twin dest : Page) :
    (∀ offset, writePageDiffs localPage twin dest offset =
      if localPage offset ≠ twin offset then localPage offset else dest offset) ∧
    (∀ offset, Portable.writePageDiffs localPage twin dest offset =
      if localPage offset ≠ twin offset then localPage offset else dest offset) ∧
    writePageDiffs localPage twin twin = memcpy twin localPage ∧
    Portable.writePageDiffs localPage twin twin = memcpy twin localPage := by
  refine ⟨fun offset => ?_, fun offset => ?_, ?_, ?_⟩
  · rw [writePageDiffs_apply, ite_not]
  · rw [Portable.writePageDiffs_apply, ite_not, mergeByte]
  · funext offset
    exact (writePageDiffs_apply localPage twin twin offset).trans mergeByte_unchanged
  · funext offset
    exact (Portable.writePageDiffs_apply localPage twin twin offset).trans mergeByte_unchanged

end PageDiffs

end Tthread
