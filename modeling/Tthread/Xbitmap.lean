/-
# Storage for twin pages

`xbitmap` hands out page-sized slots of one shared mapping. The mapping starts
with the counter `_cur`, then an array of version numbers, and from the third page
on the twin pages. Slots are handed out in order and taken back all at once.
-/

import Tthread.PageDiffs

namespace Tthread

/-- The shared mapping: the counter at its start and the bytes behind it. -/
structure Xbitmap where
  cur : ℕ
  bytes : ℕ → UInt8

namespace Xbitmap

/-- `INITIAL_PAGES` -/
def total : ℕ := 81920

/-- The offset of `_pageStart`. -/
def pageStart : ℕ := 2 * pageSize

/-- The offset of `_versionStart`, behind the counter. -/
def versionStart : ℕ := 4

/-- A fresh mapping, with the counter at one: index 0 means that there is no twin. -/
def initialized : Xbitmap where
  cur := 1
  bytes _ := 0

/-- The next index, or 0 when there is none left. -/
def get (b : Xbitmap) : ℕ × Xbitmap :=
  if b.cur + 1 < total then (b.cur, { b with cur := b.cur + 1 }) else (0, b)

/-- The offset of a twin page. -/
def getAddress (index : ℕ) : ℕ := pageStart + index * pageSize

/-- The offset of a version number, an `int`. -/
def versionAddress (index : ℕ) : ℕ := versionStart + 4 * index

def setVersion (b : Xbitmap) (index version : ℕ) : Xbitmap :=
  { b with bytes := Bytes.write b.bytes (versionAddress index) 4 (Bytes.byteOf version) }

/-- The version number, read as unsigned. -/
def getVersion (b : Xbitmap) (index : ℕ) : ℕ :=
  Bytes.word 4 fun k => b.bytes (versionAddress index + k)

/-- The twin page at an index. -/
def page (b : Xbitmap) (index : ℕ) : Page := fun offset => b.bytes (getAddress index + offset)

/-- `memcpy` of a page to the storage of an index. -/
def setPage (b : Xbitmap) (index : ℕ) (content : Page) : Xbitmap :=
  { b with
    bytes := Bytes.write b.bytes (getAddress index) pageSize fun k =>
      if h : k < pageSize then content ⟨k, h⟩ else 0 }

def cleanup (b : Xbitmap) : Xbitmap := { b with cur := 1 }

/-! ## What the operations leave alone -/

variable {b : Xbitmap} {index other version : ℕ} {content : Page}

theorem page_congr {b' : Xbitmap} (same : b'.bytes = b.bytes) : b'.page index = b.page index := by
  funext offset
  simp only [page, same]

theorem page_setPage_self : (b.setPage index content).page index = content := by
  funext offset
  simp only [page, setPage]
  rw [Bytes.write_inside offset.isLt, dif_pos offset.isLt]

theorem page_setPage_of_ne (different : other ≠ index) :
    (b.setPage index content).page other = b.page other := by
  funext offset
  simp only [page, setPage]
  apply Bytes.write_outside
  have small : (offset : ℕ) < 4096 := offset.isLt
  simp only [getAddress, pageStart, pageSize]
  omega

/-- The version number of `index` is stored inside the twin page of `other`: the array
runs into the twin pages from index 2047 on. -/
def Overlays (index other : ℕ) : Prop :=
  getAddress other ≤ versionAddress index ∧ versionAddress index < getAddress other + pageSize

instance (index other : ℕ) : Decidable (Overlays index other) :=
  inferInstanceAs (Decidable (_ ∧ _))

theorem page_setVersion (apart : ¬ Overlays index other) :
    (b.setVersion index version).page other = b.page other := by
  funext offset
  simp only [page, setVersion]
  apply Bytes.write_outside
  have small : (offset : ℕ) < 4096 := offset.isLt
  simp only [Overlays, getAddress, versionAddress, pageStart, versionStart, pageSize] at apart ⊢
  omega

theorem not_overlays_self (index : ℕ) : ¬ Overlays index index := by
  simp only [Overlays, getAddress, versionAddress, pageStart, versionStart, pageSize]
  omega

theorem not_overlays_of_lt (small : index < 3071) (positive : 0 < other) :
    ¬ Overlays index other := by
  simp only [Overlays, getAddress, versionAddress, pageStart, versionStart, pageSize]
  omega

theorem getVersion_setVersion_self :
    (b.setVersion index version).getVersion index = version % 2 ^ 32 := by
  have stored : (fun k : Fin 4 => (b.setVersion index version).bytes (versionAddress index + k)) =
      fun k : Fin 4 => Bytes.byteOf version k := by
    funext k
    exact Bytes.write_inside k.isLt
  rw [getVersion, stored, Bytes.word_byteOf]
  rfl

theorem getVersion_setVersion_of_ne (different : other ≠ index) :
    (b.setVersion index version).getVersion other = b.getVersion other := by
  simp only [getVersion, setVersion]
  congr 1
  funext k
  apply Bytes.write_outside
  simp only [versionAddress, versionStart]
  omega

/-- Twin pages lie behind the version numbers of the first 2047 indices. -/
theorem getVersion_setPage (small : other < 3071) (positive : 0 < index) :
    (b.setPage index content).getVersion other = b.getVersion other := by
  simp only [getVersion, setPage]
  congr 1
  funext k
  apply Bytes.write_outside
  simp only [versionAddress, versionStart, getAddress, pageStart, pageSize]
  omega

end Xbitmap

end Tthread
