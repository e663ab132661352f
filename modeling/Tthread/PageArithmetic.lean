/-
# Page arithmetic

Page numbers are ints, and so is the product of a page number and `PageSize`, an unscoped
enumeration that is promoted to int. Pointers are 64 bits wide, and their differences go into
`size_t` and, in `setCopyOnWrite`, into an int. Up to two GiB the results are exact; above them a
page start lies four GiB too low, and the heap end comes out negative, or as zero.

A product that does not fit is taken to wrap around, as it does on the machine.
-/

import Mathlib.Algebra.Group.Int.Defs
import Tthread.Xpersist

namespace Tthread.PageArithmetic

/-! ## The types -/

/-- The value of an int. -/
def int (x : ℤ) : ℤ := (x + 2 ^ 31) % 2 ^ 32 - 2 ^ 31

/-- The value of an `intptr_t`. -/
def intptr (x : ℤ) : ℤ := (x + 2 ^ 63) % 2 ^ 64 - 2 ^ 63

/-- The value of a `size_t`, and of a pointer. -/
def sizeT (x : ℤ) : ℤ := x % 2 ^ 64

theorem int_of_fits {x : ℤ} (low : -2 ^ 31 ≤ x) (high : x < 2 ^ 31) : int x = x := by
  unfold int
  omega

/-- `PROTECTEDHEAP_SIZE` -/
def protectedheapSize : ℤ := 2 ^ 32

/-- `TotalPageNums` of the heap. -/
def totalPageNums : ℤ := protectedheapSize / 4096

/-- The product of `PageSize` and a page number. -/
def pageOffset (pageNo : ℤ) : ℤ := int (4096 * pageNo)

/-- A pointer plus an int. -/
def advance (pointer offset : ℤ) : ℤ := sizeT (intptr (intptr pointer + offset))

/-- `computePage` of the heap, where `sizeof(Type)` is 1. -/
def computePage (index : ℤ) : ℤ := sizeT index / 4096

/-! ## The page starts -/

/-- The page number and the page start of `handleAccess`. -/
def handleAccess (transientMemory addr : ℤ) : ℤ × ℤ :=
  let pageNo := int (computePage (sizeT (addr - transientMemory)))
  (pageNo, advance transientMemory (pageOffset pageNo))

/-- `addr` and `share` of `commitOwnedPage`. -/
def commitOwnedPage (base persistentMemory pageNo : ℤ) : ℤ × ℤ :=
  (advance base (pageOffset pageNo), advance persistentMemory (pageOffset pageNo))

def getPageStart (base pageNo : ℤ) : ℤ := advance base (pageOffset pageNo)

/-- What `createTwinPage` copies from. -/
def createTwinPage (persistentMemory pageNo : ℤ) : ℤ := advance persistentMemory (pageOffset pageNo)

/-- `share` and `local` of `checkandcommit`, for an entry that `handleAccess` has made. -/
def checkandcommit (persistentMemory : ℤ) (entry : ℤ × ℤ) : ℤ × ℤ :=
  (advance persistentMemory (pageOffset entry.1), entry.2)

/-- The first byte of the page that an offset lies in, in a mapping. -/
def pageStart (mapping : ℤ) (offset : ℕ) : ℤ := sizeT (mapping + offset / 4096 * 4096)

/-- Every page start that is computed for a byte of the heap is the one of its page, in its
mapping. -/
structure Exact (base persistentMemory : ℤ) (offset : ℕ) : Prop where
  handleAccess : (handleAccess base (sizeT (base + offset))).2 = pageStart base offset
  commitOwnedPage : commitOwnedPage base persistentMemory (offset / 4096) =
    (pageStart base offset, pageStart persistentMemory offset)
  getPageStart : getPageStart base (offset / 4096) = pageStart base offset
  createTwinPage : createTwinPage persistentMemory (offset / 4096) =
    pageStart persistentMemory offset
  checkandcommit : checkandcommit persistentMemory
      (PageArithmetic.handleAccess base (sizeT (base + offset))) =
    (pageStart persistentMemory offset, pageStart base offset)

/-! ## The heap end -/

/-- `_pageOwner` and `_pageInfo`, by index, and the indices that were written. -/
structure Arrays where
  pageOwner : ℤ → Owner
  pageInfo : ℤ → PageAccess
  written : List ℤ

def Arrays.set (arrays : Arrays) (owner : Owner) (info : PageAccess) (i : ℤ) : Arrays where
  pageOwner := Function.update arrays.pageOwner i owner
  pageInfo := Function.update arrays.pageInfo i info
  written := arrays.written ++ [i]

/-- The values of `i` in a loop from `first` up to `last`. -/
def loop (first last : ℤ) : List ℤ := (List.range (last - first).toNat).map fun k : ℕ => first + k

/-- The arrays after `setCopyOnWrite` of the heap. -/
def setCopyOnWrite (base endOfHeap : ℤ) (arrays : Arrays) : Arrays :=
  let allocSize := int (intptr (intptr endOfHeap - intptr base))
  -- allocated pages are shared, and the others can be owned
  let arrays := (loop 0 (allocSize.tdiv 4096)).foldl (Arrays.set · .shared .none) arrays
  (loop (allocSize.tdiv 4096) totalPageNums).foldl (Arrays.set · .unowned .unused) arrays

/-- Exactly the pages below the end of the heap are shared, all others can be owned, and nothing
else is written. -/
structure Classifies (base : ℤ) (pages : ℕ) : Prop where
  inside : ∀ arrays, arrays.written = [] →
    ∀ i ∈ (setCopyOnWrite base (sizeT (base + 4096 * pages)) arrays).written,
      0 ≤ i ∧ i < totalPageNums
  allocated : ∀ arrays, ∀ p : ℕ, p < pages → p < totalPageNums →
    (setCopyOnWrite base (sizeT (base + 4096 * pages)) arrays).pageOwner p = .shared ∧
      (setCopyOnWrite base (sizeT (base + 4096 * pages)) arrays).pageInfo p = .none
  free : ∀ arrays, ∀ p : ℕ, pages ≤ p → p < totalPageNums →
    (setCopyOnWrite base (sizeT (base + 4096 * pages)) arrays).pageOwner p = .unowned ∧
      (setCopyOnWrite base (sizeT (base + 4096 * pages)) arrays).pageInfo p = .unused

variable {base persistentMemory pointer : ℤ} {offset pages : ℕ} {arrays : Arrays}

/-! ## Page starts -/

theorem pageOffset_of_lt {p : ℕ} (fits : p < 2 ^ 19) : pageOffset p = 4096 * p := by
  apply int_of_fits
  · omega
  · omega

/-- Two GiB and more are four GiB too low. -/
theorem pageOffset_of_le {p : ℕ} (large : 2 ^ 19 ≤ p) (inHeap : p < 2 ^ 20) :
    pageOffset p = 4096 * p - 2 ^ 32 := by
  unfold pageOffset int
  omega

theorem advance_eq (offset : ℤ) : advance pointer offset = sizeT (pointer + offset) := by
  unfold advance sizeT intptr
  omega

/-- The page number is right for every byte of the heap. -/
theorem handleAccess_pageNo (inHeap : offset < 2 ^ 32) :
    (handleAccess base (sizeT (base + offset))).1 = (offset / 4096 : ℕ) := by
  show int (computePage (sizeT (sizeT (base + offset) - base))) = _
  unfold computePage sizeT int
  omega

theorem handleAccess_pageStart (inHeap : offset < 2 ^ 32) :
    (handleAccess base (sizeT (base + offset))).2 =
      advance base (pageOffset (offset / 4096 : ℕ)) := by
  rw [← handleAccess_pageNo inHeap]
  rfl

/-- All page starts are the same sum, and it is right below two GiB. -/
theorem advance_pageOffset_iff (inHeap : offset < 2 ^ 32) :
    advance pointer (pageOffset (offset / 4096 : ℕ)) = pageStart pointer offset ↔
      offset < 2 ^ 31 := by
  rw [advance_eq]
  unfold pageStart sizeT
  by_cases fits : offset / 4096 < 2 ^ 19
  · rw [pageOffset_of_lt fits]
    omega
  · rw [pageOffset_of_le (not_lt.mp fits) (by omega)]
    omega

theorem exact_iff (inHeap : offset < 2 ^ 32) :
    Exact base persistentMemory offset ↔ offset < 2 ^ 31 := by
  constructor
  · intro exact
    have start := exact.getPageStart
    exact (advance_pageOffset_iff inHeap).mp start
  · intro fits
    have right : ∀ mapping, advance mapping (pageOffset (offset / 4096 : ℕ)) =
        pageStart mapping offset := fun mapping => (advance_pageOffset_iff inHeap).mpr fits
    refine ⟨?_, ?_, right base, right persistentMemory, ?_⟩
    · rw [handleAccess_pageStart inHeap]
      exact right base
    · exact Prod.ext (right base) (right persistentMemory)
    · apply Prod.ext
      · show advance persistentMemory (pageOffset (handleAccess base _).1) = _
        rw [handleAccess_pageNo inHeap]
        exact right persistentMemory
      · show (handleAccess base _).2 = _
        rw [handleAccess_pageStart inHeap]
        exact right base

/-! ## The loops of `setCopyOnWrite` -/

theorem mem_loop {first last i : ℤ} : i ∈ loop first last ↔ first ≤ i ∧ i < last := by
  unfold loop
  simp only [List.mem_map, List.mem_range]
  constructor
  · rintro ⟨k, below, rfl⟩
    omega
  · intro between
    exact ⟨(i - first).toNat, by omega, by omega⟩

/-- A loop sets the entries it comes to, and no others. -/
theorem foldl_set (arrays : Arrays) (indices : List ℤ) (owner : Owner) (info : PageAccess) :
    let after := indices.foldl (Arrays.set · owner info) arrays
    after.written = arrays.written ++ indices ∧
      ∀ i, after.pageOwner i = (if i ∈ indices then owner else arrays.pageOwner i) ∧
        after.pageInfo i = if i ∈ indices then info else arrays.pageInfo i := by
  induction indices generalizing arrays with
  | nil =>
    refine ⟨(List.append_nil _).symm, fun i => ?_⟩
    rw [if_neg List.not_mem_nil, if_neg List.not_mem_nil]
    exact ⟨rfl, rfl⟩
  | cons first rest ih =>
    obtain ⟨written, entries⟩ := ih (arrays.set owner info first)
    rw [List.foldl_cons]
    refine ⟨written.trans (List.append_assoc _ [first] rest), fun i => ?_⟩
    rw [(entries i).1, (entries i).2]
    show (if i ∈ rest then owner else Function.update arrays.pageOwner first owner i) = _ ∧
      (if i ∈ rest then info else Function.update arrays.pageInfo first info i) = _
    by_cases here : i = first
    · subst here
      simp
    · simp [here]

/-- The first page that is not classified as shared: the number of allocated pages, cut to an
int of bytes. -/
def border (pages : ℕ) : ℤ := if pages < 2 ^ 19 then pages else pages - 2 ^ 20

theorem allocSize_tdiv (inHeap : pages ≤ 2 ^ 20) :
    (int (intptr (intptr (sizeT (base + 4096 * pages)) - intptr base))).tdiv 4096 =
      border pages := by
  have bytes : int (intptr (intptr (sizeT (base + 4096 * pages)) - intptr base)) =
      4096 * border pages := by
    unfold int intptr sizeT border
    split <;> omega
  rw [bytes]
  exact Int.mul_tdiv_cancel_left _ (by decide)

/-- Everything below the border is shared, everything from it on can be owned, and the indices
run from there or from zero. -/
theorem setCopyOnWrite_spec (base : ℤ) (arrays : Arrays) (inHeap : pages ≤ 2 ^ 20) :
    let after := setCopyOnWrite base (sizeT (base + 4096 * pages)) arrays
    after.written = arrays.written ++ loop 0 (border pages) ++ loop (border pages) totalPageNums ∧
      ∀ p : ℕ, p < totalPageNums →
        (after.pageOwner p, after.pageInfo p) =
          if p < border pages then (.shared, .none) else (.unowned, .unused) := by
  intro after
  have result : after = (loop (border pages) totalPageNums).foldl (Arrays.set · .unowned .unused)
      ((loop 0 (border pages)).foldl (Arrays.set · .shared .none) arrays) := by
    show setCopyOnWrite _ _ _ = _
    simp only [setCopyOnWrite, allocSize_tdiv inHeap]
  obtain ⟨written₁, entries₁⟩ := foldl_set arrays (loop 0 (border pages)) .shared .none
  obtain ⟨written₂, entries₂⟩ := foldl_set
    ((loop 0 (border pages)).foldl (Arrays.set · .shared .none) arrays)
    (loop (border pages) totalPageNums) .unowned .unused
  rw [result]
  refine ⟨written₂.trans (by rw [written₁]), fun p below => ?_⟩
  rw [(entries₂ p).1, (entries₂ p).2, (entries₁ p).1, (entries₁ p).2]
  by_cases first : (p : ℤ) < border pages
  · have inFirst : (p : ℤ) ∈ loop 0 (border pages) := mem_loop.mpr ⟨by omega, first⟩
    have notSecond : (p : ℤ) ∉ loop (border pages) totalPageNums := by
      intro member
      have low := (mem_loop.mp member).1
      omega
    rw [if_neg notSecond, if_neg notSecond, if_pos inFirst, if_pos inFirst, if_pos first]
  · have inSecond : (p : ℤ) ∈ loop (border pages) totalPageNums :=
      mem_loop.mpr ⟨not_lt.mp first, below⟩
    rw [if_pos inSecond, if_pos inSecond, if_neg first]

theorem classifies_iff (inHeap : pages ≤ 2 ^ 20) : Classifies base pages ↔ pages < 2 ^ 19 := by
  constructor
  · intro classifies
    by_contra large
    let arrays : Arrays := ⟨fun _ => .unowned, fun _ => .unused, []⟩
    obtain ⟨written, entries⟩ := setCopyOnWrite_spec base arrays inHeap
    have low : border pages = pages - 2 ^ 20 := if_neg large
    by_cases full : pages = 2 ^ 20
    · -- the whole heap is allocated, and no page counts as shared
      have below : ((0 : ℕ) : ℤ) < totalPageNums := by decide
      have shared := (classifies.allocated arrays 0 (by omega) below).1
      have entry := entries 0 below
      rw [low, if_neg (by omega)] at entry
      have owner := (Prod.ext_iff.mp entry).1
      rw [shared] at owner
      cases owner
    · have member :
          border pages ∈ (setCopyOnWrite base (sizeT (base + 4096 * pages)) arrays).written := by
        rw [written]
        apply List.mem_append_right
        refine mem_loop.mpr ⟨le_rfl, ?_⟩
        rw [low]
        unfold totalPageNums protectedheapSize
        omega
      have inside := (classifies.inside arrays rfl _ member).1
      omega
  · intro fits
    have exact : border pages = pages := if_pos fits
    constructor
    · intro arrays none i member
      obtain ⟨written, -⟩ := setCopyOnWrite_spec base arrays inHeap
      rw [written, none, exact, List.nil_append] at member
      rcases List.mem_append.mp member with first | second
      · have between := mem_loop.mp first
        unfold totalPageNums protectedheapSize
        omega
      · have between := mem_loop.mp second
        omega
    · intro arrays p allocated below
      obtain ⟨-, entries⟩ := setCopyOnWrite_spec base arrays inHeap
      have entry := entries p below
      rw [exact, if_pos (by omega)] at entry
      exact Prod.ext_iff.mp entry
    · intro arrays p free below
      obtain ⟨-, entries⟩ := setCopyOnWrite_spec base arrays inHeap
      have entry := entries p below
      rw [exact, if_neg (by omega)] at entry
      exact Prod.ext_iff.mp entry

/-! ## The whole heap -/

/-- The page arithmetic is right for a byte of the heap and a heap end if and only if both are
in the first two GiB, the end before their last byte. -/
theorem exact_and_classifies_iff (base persistentMemory : ℤ) {offset pages : ℕ}
    (inHeap : offset < 2 ^ 32) (allocated : pages ≤ 2 ^ 20) :
    Exact base persistentMemory offset ∧ Classifies base pages ↔
      offset < 2 ^ 31 ∧ pages < 2 ^ 19 :=
  and_congr (exact_iff inHeap) (classifies_iff allocated)

/-- The last byte of the first two GiB, and the largest heap end that fits. -/
theorem exact_and_classifies_twoGiB :
    Exact (2 ^ 40) (2 ^ 41) (2 ^ 31 - 1) ∧ Classifies (2 ^ 40) (2 ^ 19 - 1) :=
  (exact_and_classifies_iff (2 ^ 40) (2 ^ 41) (by decide) (by decide)).mpr (by decide)

/-- The next byte, and the next heap end. -/
theorem not_exact_and_classifies : ¬ ∀ (base persistentMemory : ℤ) (offset pages : ℕ),
    offset < 2 ^ 32 → pages ≤ 2 ^ 20 →
      Exact base persistentMemory offset ∧ Classifies base pages := by
  intro all
  have start := (all (2 ^ 40) (2 ^ 41) (2 ^ 31) (2 ^ 19) (by decide) (by decide)).1.getPageStart
  revert start
  decide

end Tthread.PageArithmetic
