/-
# The tracked memory mappings

A process keeps one entry for each page that it has mapped through the runtime,
in a vector searched by address; a page fault outside the heaps looks its page up
there to learn the protection the program asked for. The vector is brought up to
date after the kernel has accepted a mapping or an unmapping. Beside the vector
the state carries the address space itself: the protection of the most recent
mapping of each page. The vector mirrors the address space as long as new
mappings do not cover pages that are mapped already and an unmapped range that
meets tracked pages starts with one.
-/

import Mathlib.Algebra.Order.Ring.Int
import Mathlib.Data.Int.ModEq
import Tthread.Library.SortedVector
import Tthread.Library.Transition
import Tthread.PageDiffs

namespace Tthread

namespace Xmmap

open SortedVector

/-- `mmappage`. -/
structure Mmappage where
  addr : ℕ
  fd : ℤ
  protection : ℤ
deriving DecidableEq, Repr

/-- `PAGE_ALIGN_DOWN`. -/
def pageAlignDown (x : ℕ) : ℕ := x / pageSize * pageSize

/-- `PAGE_ALIGN_UP`, in 64 bits. -/
def pageAlignUp (x : ℕ) : ℕ := pageAlignDown ((x + (pageSize - 1)) % 2 ^ 64)

/-- `getEnd`. -/
def getEnd (start length : ℕ) : ℕ := pageAlignUp ((start + length) % 2 ^ 64)

/-- `start + i * xdefines::PageSize`: the product is an `int`. -/
def pageAddress (start i : ℕ) : ℕ :=
  ((start + Int.bmod (i * pageSize) (2 ^ 32)) % 2 ^ 64).toNat

/-- The `int` that `add` counts the pages of a mapping in. -/
def numberOfPages (start length : ℕ) : ℤ :=
  Int.bmod (((getEnd start length : ℤ) - start).tdiv pageSize) (2 ^ 32)

/-- `add`; `none` where `reserve` throws, for a count below zero. -/
def add (pages : List Mmappage) (start length : ℕ) (fd prot : ℤ) : Option (List Mmappage) :=
  let it := lowerBound (fun page => decide (page.addr < start)) pages
  if numberOfPages start length < 0 then none
  else
    let temp := (List.range (numberOfPages start length).toNat).map fun i =>
      { addr := pageAddress start i, fd := fd, protection := prot }
    some (pages.take it ++ (temp ++ pages.drop it))

/-- `remove`. The first entry of the range is looked up; nothing happens unless it
is the entry of the range's first page. -/
def remove (pages : List Mmappage) (addr length : ℕ) : List Mmappage :=
  let lower := lowerBound (fun page => decide (page.addr < addr)) pages
  match pages[lower]? with
  | none => pages
  | some first =>
    if first.addr ≤ addr then
      let above := lowerBound (fun page => decide (page.addr < getEnd addr length))
        (pages.drop (lower + 1))
      pages.take lower ++ pages.drop (lower + 1 + above)
    else pages

/-- `find`. -/
def find (pages : List Mmappage) (ptr : ℕ) : Option Mmappage :=
  match pages[lowerBound (fun page => decide (page.addr < pageAlignDown ptr)) pages]? with
  | none => none
  | some entry => if entry.addr ≤ ptr then some entry else none

/-- A process: its vector, and for each page of its address space the protection
of the most recent mapping through the runtime that is still in place. -/
structure Process where
  pages : List Mmappage
  space : ℕ → Option ℤ

/-- A call of `map` or `unmap`. The address of a mapping is the one the kernel
answers with; `fixed` tells whether the flags had `MAP_FIXED`. -/
inductive Call where
  | map (res length : ℕ) (prot fd : ℤ) (fixed : Bool)
  | unmap (addr len : ℕ)
deriving DecidableEq

/-- How many pages a length takes. -/
def pageCount (length : ℕ) : ℕ := (length + (pageSize - 1)) / pageSize

/-- The pages that a range takes. -/
def Covers (start length page : ℕ) : Prop :=
  start / pageSize ≤ page ∧ page < start / pageSize + pageCount length

instance (start length page : ℕ) : Decidable (Covers start length page) :=
  inferInstanceAs (Decidable (_ ∧ _))

/-- No page of the range is mapped. -/
def Unmapped (space : ℕ → Option ℤ) (start length : ℕ) : Prop :=
  ∀ i < pageCount length, space (start / pageSize + i) = none

instance (space : ℕ → Option ℤ) (start length : ℕ) : Decidable (Unmapped space start length) :=
  inferInstanceAs (Decidable (∀ i < _, _))

/-- A range the kernel accepts: aligned, not empty and inside the address space,
whose last page it never hands out. -/
def InSpace (start length : ℕ) : Prop :=
  start % pageSize = 0 ∧ 0 < length ∧ start + length ≤ 2 ^ 64 - pageSize

instance (start length : ℕ) : Decidable (InSpace start length) :=
  inferInstanceAs (Decidable (_ ∧ _))

/-- The calls the kernel accepts. Only `MAP_FIXED` may name pages that are mapped;
unmapping pages that are not mapped is no error. -/
def Accepts (space : ℕ → Option ℤ) : Call → Prop
  | .map res length _ _ fixed => InSpace res length ∧ (fixed = true ∨ Unmapped space res length)
  | .unmap addr len => InSpace addr len

instance (space : ℕ → Option ℤ) : DecidablePred (Accepts space)
  | .map .. => inferInstanceAs (Decidable (_ ∧ _))
  | .unmap addr len => inferInstanceAs (Decidable (InSpace addr len))

/-- The kernel's part of a call it accepts. -/
def kernel (space : ℕ → Option ℤ) : Call → ℕ → Option ℤ
  | .map res length prot _ _, page => if Covers res length page then some prot else space page
  | .unmap addr len, page => if Covers addr len page then none else space page

/-- The runtime's part, after the kernel's. An exception leaves the vector as it
was. -/
def track (pages : List Mmappage) : Call → List Mmappage
  | .map res length prot fd _ => (add pages res length fd prot).getD pages
  | .unmap addr len => remove pages addr len

/-- `map` and `unmap`. A call that the kernel refuses changes nothing. -/
def perform (s : Process) (call : Call) : Process :=
  if Accepts s.space call then
    { pages := track s.pages call, space := kernel s.space call }
  else s

/-- A process before its first mapping. -/
def start : Process where
  pages := []
  space := fun _ => none

/-- The runs of a process. -/
def system : Transition.System Process Call where
  Init := fun s => s = start
  step := fun s call => some (perform s call)

/-- The vector is strictly sorted, and looking an address up answers with the
protection of the most recent mapping of its page exactly if it is mapped. -/
def Mirrors (s : Process) : Prop :=
  Sorted Mmappage.addr s.pages ∧
    ∀ ptr, (find s.pages ptr).map Mmappage.protection = s.space (ptr / pageSize)

/-- A call that the tracking can follow. A mapping covers no page that is mapped
through the runtime and is at most 2 GiB long, so that the distances of its pages
are in the range of an `int`; a range to unmap starts with a page that is mapped
through the runtime, or has none. -/
def KeepsTracked (s : Process) : Call → Prop
  | .map res length _ _ _ => length ≤ 2 ^ 31 ∧ Unmapped s.space res length
  | .unmap addr len => s.space (addr / pageSize) ≠ none ∨ Unmapped s.space addr len

section Addresses

@[simp] theorem pageAlignDown_mod (x : ℕ) : pageAlignDown x % pageSize = 0 :=
  Nat.mul_mod_left _ _

theorem getEnd_eq {start length : ℕ} (inSpace : InSpace start length) :
    getEnd start length = start + pageCount length * pageSize := by
  obtain ⟨aligned, positive, fits⟩ := inSpace
  simp only [getEnd, pageAlignUp, pageAlignDown, pageCount, pageSize] at *
  omega

theorem numberOfPages_eq {start length : ℕ} (inSpace : InSpace start length)
    (small : length ≤ 2 ^ 31) : numberOfPages start length = pageCount length := by
  have few : pageCount length ≤ 2 ^ 19 := by
    simp only [pageCount, pageSize]
    omega
  have counted : ((getEnd start length : ℤ) - start).tdiv pageSize = pageCount length := by
    rw [getEnd_eq inSpace, Nat.cast_add, Nat.cast_mul, add_sub_cancel_left]
    exact Int.mul_tdiv_cancel _ (by decide)
  rw [numberOfPages, counted]
  exact Int.bmod_eq_of_le (by omega) (by omega)

/-- Pointer arithmetic without overflow. The distance is a variable here, since the
product of a page number and the page size is easily unfolded too far. -/
theorem pointer_add {start distance : ℕ} {offset : ℤ} (small : distance < 2 ^ 31)
    (fits : start + distance < 2 ^ 64) (is_distance : offset = distance) :
    ((start + Int.bmod offset (2 ^ 32)) % 2 ^ 64).toNat = start + distance := by
  rw [is_distance, Int.bmod_eq_of_le (by omega) (by omega)]
  omega

theorem pageAddress_eq {start length i : ℕ} (inSpace : InSpace start length)
    (small : length ≤ 2 ^ 31) (inside : i < pageCount length) :
    pageAddress start i = start + i * pageSize := by
  obtain ⟨aligned, positive, fits⟩ := inSpace
  have bound : i * pageSize < 2 ^ 31 ∧ start + i * pageSize < 2 ^ 64 := by
    simp only [pageCount, pageSize] at *
    omega
  exact pointer_add bound.1 bound.2 (Nat.cast_mul i pageSize).symm

/-- The addresses of the pages of a range. -/
theorem covers_div_iff {start length addr : ℕ} (inSpace : InSpace start length)
    (aligned : addr % pageSize = 0) :
    Covers start length (addr / pageSize) ↔ start ≤ addr ∧ addr < getEnd start length := by
  rw [getEnd_eq inSpace]
  obtain ⟨start_aligned, -, -⟩ := inSpace
  simp only [Covers, pageCount, pageSize] at *
  omega

theorem le_getEnd {start length : ℕ} (inSpace : InSpace start length) :
    start < getEnd start length := by
  rw [getEnd_eq inSpace]
  obtain ⟨-, positive, -⟩ := inSpace
  simp only [pageCount, pageSize]
  omega

theorem unmapped_iff {space : ℕ → Option ℤ} {start length : ℕ} :
    Unmapped space start length ↔ ∀ page, Covers start length page → space page = none := by
  constructor
  · intro unmapped page covers
    have found := unmapped (page - start / pageSize) (by unfold Covers at covers; omega)
    rwa [Nat.add_sub_cancel' covers.1] at found
  · intro unmapped i inside
    exact unmapped _ ⟨Nat.le_add_right _ _, Nat.add_lt_add_left inside _⟩

end Addresses

section Tracking

variable {s : Process} {call : Call}

/-- The vector is sorted, holds starts of pages, and has an entry with the
protection of the most recent mapping for exactly the pages that are mapped. -/
structure Tracks (s : Process) : Prop where
  sorted : Sorted Mmappage.addr s.pages
  aligned : ∀ entry ∈ s.pages, entry.addr % pageSize = 0
  mapped : ∀ page prot, s.space page = some prot ↔
    ∃ entry ∈ s.pages, entry.addr / pageSize = page ∧ entry.protection = prot

theorem Tracks.mem_space (tracks : Tracks s) {entry : Mmappage} (member : entry ∈ s.pages) :
    s.space (entry.addr / pageSize) = some entry.protection :=
  (tracks.mapped _ _).mpr ⟨entry, member, rfl, rfl⟩

/-- The starts of pages are found by their page. -/
theorem addr_eq_of_div {addr other : ℕ} (aligned : addr % pageSize = 0)
    (other_aligned : other % pageSize = 0) (same : addr / pageSize = other / pageSize) :
    addr = other := by
  rw [← Nat.div_add_mod addr pageSize, ← Nat.div_add_mod other pageSize, same, aligned,
    other_aligned]

/-- What `find` returns is the entry of the page. -/
theorem find_eq_some_iff (sorted : Sorted Mmappage.addr s.pages)
    (aligned : ∀ entry ∈ s.pages, entry.addr % pageSize = 0) {ptr : ℕ} {entry : Mmappage} :
    find s.pages ptr = some entry ↔ entry ∈ s.pages ∧ entry.addr / pageSize = ptr / pageSize := by
  constructor
  · intro found
    rw [find] at found
    cases lookup :
      s.pages[lowerBound (fun page => decide (page.addr < pageAlignDown ptr)) s.pages]? with
    | none => rw [lookup] at found; cases found
    | some candidate =>
      rw [lookup] at found
      obtain ⟨below, rfl⟩ := Transition.guarded found
      obtain ⟨member, above⟩ := sorted.of_getElem?_lowerBound lookup
      refine ⟨member, ?_⟩
      have candidate_aligned := aligned candidate member
      simp only [pageAlignDown, pageSize] at *
      omega
  · rintro ⟨member, same⟩
    have at_page : entry.addr = pageAlignDown ptr := by
      apply addr_eq_of_div (aligned entry member) (pageAlignDown_mod ptr)
      rw [same, pageAlignDown, Nat.mul_div_cancel _ (by decide)]
    have below : entry.addr ≤ ptr := at_page ▸ Nat.div_mul_le_self ptr pageSize
    rw [find, sorted.getElem?_lowerBound member at_page]
    exact if_pos below

/-- The vector mirrors the address space if its entries are those of the mapped
pages. -/
theorem Tracks.mirrors (tracks : Tracks s) : Mirrors s := by
  refine ⟨tracks.sorted, fun ptr => ?_⟩
  apply Option.ext
  intro prot
  rw [tracks.mapped, Option.map_eq_some_iff]
  constructor
  · rintro ⟨entry, found, rfl⟩
    obtain ⟨member, same⟩ := (find_eq_some_iff tracks.sorted tracks.aligned).mp found
    exact ⟨entry, member, same, rfl⟩
  · rintro ⟨entry, member, same, rfl⟩
    exact ⟨entry, (find_eq_some_iff tracks.sorted tracks.aligned).mpr ⟨member, same⟩, rfl⟩

end Tracking

section Operations

variable {s : Process} {start length : ℕ} {prot fd : ℤ}

/-- The entries of a new mapping. -/
def entriesOf (start length : ℕ) (fd prot : ℤ) : List Mmappage :=
  (List.range (pageCount length)).map fun i =>
    { addr := start + i * pageSize, fd := fd, protection := prot }

theorem mem_entriesOf {entry : Mmappage} : entry ∈ entriesOf start length fd prot ↔
    ∃ i < pageCount length,
      { addr := start + i * pageSize, fd := fd, protection := prot } = entry := by
  simp only [entriesOf, List.mem_map, List.mem_range]

theorem sorted_entriesOf : Sorted Mmappage.addr (entriesOf start length fd prot) := by
  rw [Sorted, entriesOf, List.pairwise_map]
  refine List.pairwise_lt_range.imp ?_
  intro i j before
  simp only [pageSize]
  omega

theorem entriesOf_inside (inSpace : InSpace start length) {entry : Mmappage}
    (member : entry ∈ entriesOf start length fd prot) :
    entry.addr % pageSize = 0 ∧ start ≤ entry.addr ∧ entry.addr < getEnd start length := by
  obtain ⟨i, inside, rfl⟩ := mem_entriesOf.mp member
  rw [getEnd_eq inSpace]
  obtain ⟨aligned, -, -⟩ := inSpace
  simp only [pageSize] at *
  omega

/-- A page has an entry among the new ones exactly if the range covers it. -/
theorem mem_entriesOf_div (inSpace : InSpace start length) {page : ℕ} {other : ℤ} :
    (∃ entry ∈ entriesOf start length fd prot, entry.addr / pageSize = page ∧
      entry.protection = other) ↔ Covers start length page ∧ prot = other := by
  have aligned := inSpace.1
  constructor
  · rintro ⟨entry, member, rfl, rfl⟩
    have inside := entriesOf_inside inSpace member
    obtain ⟨i, -, rfl⟩ := mem_entriesOf.mp member
    exact ⟨(covers_div_iff inSpace inside.1).mpr inside.2, rfl⟩
  · rintro ⟨covers, rfl⟩
    refine ⟨_, mem_entriesOf.mpr ⟨page - start / pageSize, ?_, rfl⟩, ?_, rfl⟩
    · unfold Covers at covers
      omega
    · simp only [Covers, pageSize] at *
      omega

theorem add_eq {pages : List Mmappage} (sorted : Sorted Mmappage.addr pages)
    (inSpace : InSpace start length) (small : length ≤ 2 ^ 31) :
    add pages start length fd prot = some (pages.filter (·.addr < start) ++
      (entriesOf start length fd prot ++ pages.filter (start ≤ ·.addr))) := by
  have counted := numberOfPages_eq inSpace small
  have temp : ((List.range (numberOfPages start length).toNat).map fun i =>
      ({ addr := pageAddress start i, fd := fd, protection := prot } : Mmappage)) =
      entriesOf start length fd prot := by
    rw [counted, Int.toNat_natCast, entriesOf]
    apply List.map_congr_left
    intro i member
    rw [pageAddress_eq inSpace small (List.mem_range.mp member)]
  rw [add, if_neg (by omega), temp, sorted.take_lowerBound, sorted.drop_lowerBound]

/-- What tracked pages a range meets. -/
theorem Tracks.unmapped_iff (tracks : Tracks s) (inSpace : InSpace start length) :
    Unmapped s.space start length ↔
      ∀ entry ∈ s.pages, ¬ (start ≤ entry.addr ∧ entry.addr < getEnd start length) := by
  rw [Xmmap.unmapped_iff]
  constructor
  · intro unmapped entry member inside
    have covers := (covers_div_iff inSpace (tracks.aligned entry member)).mpr inside
    have space := unmapped _ covers
    rw [tracks.mem_space member] at space
    cases space
  · intro outside page covers
    by_contra mapped
    obtain ⟨prot, space⟩ := Option.ne_none_iff_exists'.mp mapped
    obtain ⟨entry, member, rfl, -⟩ := (tracks.mapped _ _).mp space
    exact outside entry member ((covers_div_iff inSpace (tracks.aligned entry member)).mp covers)

/-- Beyond the start of an unmapped range the entries are beyond its end. -/
theorem Tracks.filter_getEnd (tracks : Tracks s) (inSpace : InSpace start length)
    (unmapped : Unmapped s.space start length) :
    s.pages.filter (start ≤ ·.addr) = s.pages.filter (getEnd start length ≤ ·.addr) := by
  apply List.filter_congr
  intro entry member
  have outside := (tracks.unmapped_iff inSpace).mp unmapped entry member
  have nonempty := le_getEnd inSpace
  exact decide_eq_decide.mpr (by omega)

/-- The first page of the range is tracked: every entry of the range goes. -/
theorem Tracks.remove_eq (tracks : Tracks s) (inSpace : InSpace start length)
    (first_mapped : s.space (start / pageSize) ≠ none) :
    remove s.pages start length = s.pages.filter (·.addr < start) ++
      s.pages.filter (getEnd start length ≤ ·.addr) := by
  obtain ⟨prot, space⟩ := Option.ne_none_iff_exists'.mp first_mapped
  obtain ⟨first, member, same, -⟩ := (tracks.mapped _ _).mp space
  have at_start := addr_eq_of_div (tracks.aligned first member) inSpace.1 same
  have lookup := tracks.sorted.getElem?_lowerBound member at_start
  have nonempty := le_getEnd inSpace
  rw [remove, lookup]
  simp only [at_start, le_refl, if_true]
  -- from the first page on, the vector is that page followed by a sorted rest
  generalize position : lowerBound (fun page => decide (page.addr < start)) s.pages = lower at *
  have split : s.pages.drop lower = first :: s.pages.drop (lower + 1) := by
    obtain ⟨inside, value⟩ := List.getElem?_eq_some_iff.mp lookup
    rw [List.drop_eq_getElem_cons inside, value]
  have rest_sorted : Sorted Mmappage.addr (s.pages.drop (lower + 1)) :=
    List.Pairwise.drop tracks.sorted
  have taken : s.pages.take lower = s.pages.filter (·.addr < start) := by
    rw [← position, tracks.sorted.take_lowerBound]
  have dropped : first :: s.pages.drop (lower + 1) = s.pages.filter (start ≤ ·.addr) := by
    rw [← split, ← position, tracks.sorted.drop_lowerBound]
  rw [← List.drop_drop, rest_sorted.drop_lowerBound, taken]
  have beyond : s.pages.filter (getEnd start length ≤ ·.addr) =
      (s.pages.filter (start ≤ ·.addr)).filter (getEnd start length ≤ ·.addr) := by
    rw [List.filter_filter]
    apply List.filter_congr
    intro entry _
    simp only [← Bool.decide_and]
    exact decide_eq_decide.mpr (by omega)
  rw [beyond, ← dropped, List.filter_cons, if_neg (by simp [at_start, nonempty])]

/-- The first page of the range is not tracked: no entry goes. -/
theorem Tracks.remove_of_none (tracks : Tracks s)
    (first_unmapped : s.space (start / pageSize) = none) :
    remove s.pages start length = s.pages := by
  rw [remove]
  cases lookup : s.pages[lowerBound (fun page => decide (page.addr < start)) s.pages]? with
  | none => rfl
  | some first =>
    obtain ⟨member, above⟩ := tracks.sorted.of_getElem?_lowerBound lookup
    have later : ¬ first.addr ≤ start := by
      intro below
      have space := tracks.mem_space member
      rw [le_antisymm below above, first_unmapped] at space
      cases space
    exact if_neg later

/-- A mapping of pages none of which is mapped. -/
theorem Tracks.map (tracks : Tracks s) (inSpace : InSpace start length) (small : length ≤ 2 ^ 31)
    (unmapped : Unmapped s.space start length) {fixed : Bool} :
    Tracks { pages := track s.pages (.map start length prot fd fixed),
             space := kernel s.space (.map start length prot fd fixed) } := by
  have tracked : track s.pages (.map start length prot fd fixed) =
      s.pages.filter (·.addr < start) ++
        (entriesOf start length fd prot ++ s.pages.filter (getEnd start length ≤ ·.addr)) := by
    rw [track, add_eq tracks.sorted inSpace small, Option.getD_some,
      tracks.filter_getEnd inSpace unmapped]
  have members : ∀ entry, entry ∈ track s.pages (.map start length prot fd fixed) ↔
      entry ∈ s.pages ∨ entry ∈ entriesOf start length fd prot := by
    intro entry
    rw [tracked, ← tracks.filter_getEnd inSpace unmapped]
    conv_rhs => rw [← tracks.sorted.filter_append start]
    simp only [List.mem_append]
    tauto
  refine ⟨?_, ?_, ?_⟩
  · rw [tracked]
    exact tracks.sorted.splice sorted_entriesOf
      (fun entry member => (entriesOf_inside inSpace member).2) (le_getEnd inSpace).le
  · intro entry member
    rcases (members entry).mp member with old | new
    · exact tracks.aligned entry old
    · exact (entriesOf_inside inSpace new).1
  · intro page other
    simp only [members, or_and_right, exists_or, mem_entriesOf_div inSpace, ← tracks.mapped, kernel]
    split_ifs with covers
    · rw [Xmmap.unmapped_iff.mp unmapped page covers]
      simp [covers]
    · simp [covers]

/-- An unmapping that the code can follow. -/
theorem Tracks.unmap (tracks : Tracks s) (inSpace : InSpace start length)
    (followed : s.space (start / pageSize) ≠ none ∨ Unmapped s.space start length) :
    Tracks { pages := track s.pages (.unmap start length),
             space := kernel s.space (.unmap start length) } := by
  have removed : track s.pages (.unmap start length) = s.pages.filter (·.addr < start) ++
      s.pages.filter (getEnd start length ≤ ·.addr) := by
    by_cases first : s.space (start / pageSize) = none
    · have unmapped := followed.resolve_left (not_not_intro first)
      rw [track, tracks.remove_of_none first, ← tracks.filter_getEnd inSpace unmapped,
        tracks.sorted.filter_append]
    · exact tracks.remove_eq inSpace first
  have members : ∀ entry, entry ∈ track s.pages (.unmap start length) ↔
      entry ∈ s.pages ∧ ¬ (start ≤ entry.addr ∧ entry.addr < getEnd start length) := by
    intro entry
    simp only [removed, List.mem_append, List.mem_filter, decide_eq_true_eq, not_and_or, not_le,
      not_lt, and_or_left]
  refine ⟨?_, ?_, ?_⟩
  · rw [removed]
    have nothing : Sorted Mmappage.addr [] := List.Pairwise.nil
    exact tracks.sorted.splice nothing (by simp) (le_getEnd inSpace).le
  · intro entry member
    exact tracks.aligned entry ((members entry).mp member).1
  · intro page other
    simp only [members, kernel]
    split_ifs with covers
    · constructor
      · intro space
        cases space
      · rintro ⟨entry, ⟨member, outside⟩, rfl, -⟩
        exact absurd ((covers_div_iff inSpace (tracks.aligned entry member)).mp covers) outside
    · rw [tracks.mapped]
      constructor
      · rintro ⟨entry, member, rfl, same⟩
        have outside := mt (covers_div_iff inSpace (tracks.aligned entry member)).mpr covers
        exact ⟨entry, ⟨member, outside⟩, rfl, same⟩
      · rintro ⟨entry, ⟨member, -⟩, same⟩
        exact ⟨entry, member, same⟩

/-- **Step.** A call that the tracking can follow leaves the vector as a mirror. -/
theorem Tracks.perform (tracks : Tracks s) {call : Call} (followed : KeepsTracked s call) :
    Tracks (perform s call) := by
  unfold Xmmap.perform
  split_ifs with accepted
  · cases call with
    | map res length prot fd fixed => exact tracks.map accepted.1 followed.1 followed.2
    | unmap addr len => exact tracks.unmap accepted followed
  · exact tracks

theorem tracks_start : Tracks Xmmap.start where
  sorted := List.Pairwise.nil
  aligned := by simp [Xmmap.start]
  mapped := by simp [Xmmap.start]

/-- **Run.** -/
theorem tracks_of_reachable (reach : system.Reachable KeepsTracked s) : Tracks s := by
  refine reach.invariant Tracks ?_ ?_
  · rintro _ rfl
    exact tracks_start
  · intro s call s' tracks followed move
    obtain rfl := Option.some.inj move
    exact tracks.perform followed

end Operations

section Results

variable {s : Process}

/-- **The vector mirrors the address space** in every state that calls lead to
which the tracking can follow. -/
theorem mirrors_of_keepsTracked (reach : system.Reachable KeepsTracked s) : Mirrors s :=
  (tracks_of_reachable reach).mirrors

/-- Two pages are mapped and the first is unmapped. -/
theorem mirrors_partialUnmap :
    Mirrors (perform (perform start (.map 65536 8192 3 (-1) false)) (.unmap 65536 4096)) := by
  apply mirrors_of_keepsTracked
  apply Transition.System.Reachable.step (.unmap 65536 4096) _ _ rfl
  · apply Transition.System.Reachable.step (.map 65536 8192 3 (-1) false) _ _ rfl
    · exact .init rfl
    · exact ⟨by decide, by decide⟩
  · exact .inl (by decide)

/-- The range of a mapping and of an unmapping. -/
def Call.length : Call → ℕ
  | .map _ length _ _ _ => length
  | .unmap _ len => len

/-- Up to 2 GiB, every accepted call that the tracking cannot follow breaks the
mirror at once. -/
theorem Tracks.not_mirrors (tracks : Tracks s) {call : Call} (accepted : Accepts s.space call)
    (small : call.length ≤ 2 ^ 31) (lost : ¬ KeepsTracked s call) :
    ¬ Mirrors (Xmmap.perform s call) := by
  rintro ⟨sorted, mirror⟩
  rw [Xmmap.perform, if_pos accepted] at sorted mirror
  cases call with
  | map res length prot fd fixed =>
    have inSpace : InSpace res length := accepted.1
    have overlaps : ¬ Unmapped s.space res length := fun unmapped => lost ⟨small, unmapped⟩
    rw [tracks.unmapped_iff inSpace] at overlaps
    push Not at overlaps
    obtain ⟨entry, member, inside⟩ := overlaps
    have covers := (covers_div_iff inSpace (tracks.aligned entry member)).mpr inside
    -- the page gets a second entry in front of the one it has
    obtain ⟨again, new, same, -⟩ := (mem_entriesOf_div inSpace).mpr ⟨covers, rfl⟩
    have duplicate : again.addr = entry.addr :=
      addr_eq_of_div (entriesOf_inside inSpace new).1 (tracks.aligned entry member) same
    rw [track, add_eq tracks.sorted inSpace small, Option.getD_some] at sorted
    have ordered := (List.pairwise_append.mp (List.pairwise_append.mp sorted).2.1).2.2 again new
      entry (List.mem_filter.mpr ⟨member, decide_eq_true inside.1⟩)
    exact ordered.ne duplicate
  | unmap addr len =>
    have inSpace : InSpace addr len := accepted
    rw [KeepsTracked, not_or, not_not] at lost
    have meets := lost.2
    rw [tracks.unmapped_iff inSpace] at meets
    push Not at meets
    obtain ⟨entry, member, inside⟩ := meets
    have covers := (covers_div_iff inSpace (tracks.aligned entry member)).mpr inside
    -- the entry stays, and its page is gone
    have stays : (find (track s.pages (.unmap addr len)) entry.addr).map Mmappage.protection =
        kernel s.space (.unmap addr len) (entry.addr / pageSize) := mirror entry.addr
    rw [track, tracks.remove_of_none lost.1,
      (find_eq_some_iff tracks.sorted tracks.aligned).mpr ⟨member, rfl⟩, kernel, if_pos covers]
      at stays
    cases stays

/-- A mapping of two pages is taken down page by page, the second time with a range
that names both. -/
def unmapTwice : List Call :=
  [.map 65536 8192 3 (-1) false, .unmap 65536 4096, .unmap 65536 8192]

/-- The entry of the second page outlives its page: the last range starts with a
page that is not tracked any more. -/
theorem not_mirrors_unmapTwice : ∃ s, system.Reachable Transition.AnyStep s ∧ ¬ Mirrors s := by
  have run : (system.run start unmapTwice).any (fun s =>
      decide ((find s.pages 69632).map Mmappage.protection ≠ s.space (69632 / pageSize))) := by
    decide +kernel
  obtain ⟨s, reached, differs⟩ := (Option.any_eq_true _ _).mp run
  have initial : system.Reachable Transition.AnyStep start := .init rfl
  refine ⟨s, initial.run reached, ?_⟩
  intro mirrors
  exact of_decide_eq_true differs (mirrors.2 69632)

end Results

end Xmmap

end Tthread
