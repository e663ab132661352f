/-
# The heap of the program

Requests pass through four layers. `ANSIWrapper` rounds the size up, `StrictSegHeap` keeps
freed objects in one list for each power of two, `NewSourceHeap` puts a header in front of
each object, and `ZoneHeap` cuts objects off an arena. Arenas come from `xheap`, which hands
out pages from a pointer that only moves up. Every size is a `size_t`, so each layer adds to a
number that may wrap.

Threads that are alive at one time do not share a sub-heap here; when they do is the subject of
`SubHeaps`. A thread then works on its own sub-heap and meets the others in `xheap::malloc`, under
its lock, at most once in a request, so a request is one step.
-/

import Mathlib.Order.Interval.Set.Basic
import Mathlib.Tactic.Ring
import Tthread.Library.Carving
import Tthread.Library.Transition

namespace Tthread.Pheap

open Transition

/-! ## Sizes -/

/-- The value of a sum or a product in a `size_t`. -/
def sizeT (n : ℕ) : ℕ := n % 2 ^ 64

def pageSize : ℕ := 4096

/-- `PROTECTEDHEAP_SIZE`. -/
def protectedHeapSize : ℕ := 1048576 * 4096

/-- `PROTECTEDHEAP_CHUNK`. -/
def protectedHeapChunk : ℕ := 10485760

/-- `NUM_HEAPS`. -/
def numHeaps : ℕ := 32

instance : NeZero numHeaps := ⟨by decide⟩

/-- `sizeof(objectHeader)`. -/
def objectHeaderSize : ℕ := 16

/-- `sizeof(Arena)`. -/
def arenaHeaderSize : ℕ := 32

/-- `align` of `ANSIWrapper` and of `ZoneHeap`: up to a multiple of 8. -/
def align (sz : ℕ) : ℕ := sizeT (sz + 7) / 8 * 8

/-- `xheap::malloc` rounds up to whole pages. -/
def pageRound (sz : ℕ) : ℕ := pageSize * (sizeT (sz + pageSize - 1) / pageSize)

/-! ## Size classes -/

def class2Size (c : ℕ) : ℕ := 2 ^ (c + 3)

/-- The table for up to 128 bytes. -/
def cl : List ℕ := [0, 1, 2, 2, 3, 3, 3, 3, 4, 4, 4, 4, 4, 4, 4, 4]

/-- The loop for more than 128 bytes. -/
def size2ClassLoop (sz1 c : ℕ) : ℕ :=
  if 7 < sz1 then size2ClassLoop (sz1 / 2) (c + 1) else c

def size2Class (sz : ℕ) : ℕ :=
  let sz := if sz < 8 then 8 else sz
  if sz ≤ 128 then cl.getD ((sz - 1) / 8) 0 else size2ClassLoop ((sz - 1) / 32) 5

/-- `NUMBINS`. -/
def numBins : ℕ := 29

def maxObjectSize : ℕ := class2Size (numBins - 1)

/-- The loop of `StrictSegHeap::free`: down to a class whose objects are not larger. -/
def fitClass (objectSize : ℕ) : ℕ → ℕ
  | 0 => 0
  | c + 1 => if objectSize < class2Size (c + 1) then fitClass objectSize c else c + 1

/-! ## The layers -/

structure Xheap where
  start : ℕ
  position : ℕ
  remaining : ℕ
  /-- the lock is held by a process that has exited -/
  locked : Bool

structure Arena where
  remaining : ℕ
  arenaSpace : ℕ

/-- One `KingsleyStyleHeap`: the current arena and the list of each size class. -/
structure SubHeap where
  currentArena : Option Arena
  myLittleHeap : ℕ → List ℕ

/-- A block in the hands of the program. -/
structure Block where
  ptr : ℕ
  /-- how many bytes were asked for, as a number -/
  requested : ℕ
  deriving DecidableEq

structure State where
  xheap : Xheap
  heap : Fin numHeaps → SubHeap
  /-- `_size` in the header in front of an object -/
  size : ℕ → ℕ
  /-- ghost: what `xheap::malloc` has handed out, with the lengths -/
  ranges : List (ℕ × ℕ)
  /-- ghost: where arena headers are -/
  arenas : List ℕ
  /-- ghost: the objects behind their headers -/
  objects : List ℕ
  /-- ghost: what the program has asked for and not freed -/
  live : List Block

/-- The end of the space, `_end`. -/
def Xheap.finish (h : Xheap) : ℕ := h.start + protectedHeapSize

/-- `xheap::malloc`; `none` where the process exits, or waits for one that has. -/
def Xheap.malloc (h : Xheap) (sz : ℕ) : Option (Xheap × ℕ) :=
  if h.locked = true ∨ h.remaining = 0 ∨ h.remaining < pageRound sz then none
  else
    some ({ h with
      position := h.position + pageRound sz
      remaining := h.remaining - pageRound sz }, h.position)

/-- `Arena::malloc`. -/
def Arena.malloc (a : Arena) (sz : ℕ) : Option (Arena × ℕ) :=
  if a.remaining < sz then none
  else some (⟨a.remaining - sz, a.arenaSpace + sz⟩, a.arenaSpace)

def State.setArena (s : State) (ind : Fin numHeaps) (arena : Option Arena) : State :=
  { s with heap := Function.update s.heap ind ⟨arena, (s.heap ind).myLittleHeap⟩ }

def State.setBin (s : State) (ind : Fin numHeaps) (c : ℕ) (bin : List ℕ) : State :=
  let bins := Function.update (s.heap ind).myLittleHeap c bin
  { s with heap := Function.update s.heap ind ⟨(s.heap ind).currentArena, bins⟩ }

/-- The new arena of `slowMalloc`. -/
def refill (s : State) (ind : Fin numHeaps) (sz : ℕ) : Option (State × Arena) :=
  let allocSize := if protectedHeapChunk < sz then sz else protectedHeapChunk
  let length := sizeT (arenaHeaderSize + allocSize)
  (s.xheap.malloc length).map fun (xheap, buf) =>
    let arena : Arena := ⟨allocSize, buf + arenaHeaderSize⟩
    ({ s.setArena ind (some arena) with
      xheap
      ranges := (buf, pageRound length) :: s.ranges
      arenas := buf :: s.arenas }, arena)

/-- The arena gives the next bytes. -/
def arenaMalloc (s : State) (ind : Fin numHeaps) (arena : Arena) (sz : ℕ) : Option (State × ℕ) :=
  (arena.malloc sz).map fun (arena, ptr) => (s.setArena ind (some arena), ptr)

def slowMalloc (s : State) (ind : Fin numHeaps) (sz : ℕ) : Option (State × ℕ) :=
  (refill s ind sz).bind fun (s, arena) => arenaMalloc s ind arena sz

def zoneMalloc (s : State) (ind : Fin numHeaps) (sz : ℕ) : Option (State × ℕ) :=
  let sz := align sz
  match (s.heap ind).currentArena with
  | some arena => if sz ≤ arena.remaining then arenaMalloc s ind arena sz else slowMalloc s ind sz
  | none => slowMalloc s ind sz

/-- `NewSourceHeap::malloc` over the zone. -/
def bigMalloc (s : State) (ind : Fin numHeaps) (sz : ℕ) : Option (State × ℕ) :=
  (zoneMalloc s ind (sizeT (sz + objectHeaderSize))).map fun (s, ptr) =>
    ({ s with
      size := Function.update s.size (ptr + objectHeaderSize) sz
      objects := (ptr + objectHeaderSize) :: s.objects }, ptr + objectHeaderSize)

/-- `StrictSegHeap::malloc`. -/
def segMalloc (s : State) (ind : Fin numHeaps) (sz : ℕ) : Option (State × ℕ) :=
  if sz ≤ maxObjectSize then
    match (s.heap ind).myLittleHeap (size2Class sz) with
    | ptr :: rest => some (s.setBin ind (size2Class sz) rest, ptr)
    | [] => bigMalloc s ind (class2Size (size2Class sz))
  else bigMalloc s ind sz

/-- `ANSIWrapper::malloc`, which is `PPHeap::malloc` of the sub-heap. -/
def malloc (s : State) (ind : Fin numHeaps) (sz : ℕ) : Option (State × ℕ) :=
  segMalloc s ind (align (if sz < 16 then 16 else sz))

/-- `free` of the sub-heap. The zone does not take large objects back. -/
def free (s : State) (ind : Fin numHeaps) (ptr : ℕ) : State :=
  let objectSize := s.size ptr
  if ptr = 0 ∨ objectSize = 0 ∨ maxObjectSize < objectSize then s
  else
    let c := fitClass objectSize (size2Class objectSize)
    s.setBin ind c (ptr :: (s.heap ind).myLittleHeap c)

/-! ## Requests -/

inductive Request
  | malloc (sz : ℕ)
  | calloc (nmemb sz : ℕ)

/-- The arguments are numbers of type `size_t`. -/
def Request.Typed : Request → Prop
  | .malloc sz => sz < 2 ^ 64
  | .calloc nmemb sz => nmemb < 2 ^ 64 ∧ sz < 2 ^ 64

instance : DecidablePred Request.Typed := fun request => by
  cases request <;> unfold Request.Typed <;> infer_instance

/-- How many bytes the program asks for. -/
def Request.bytes : Request → ℕ
  | .malloc sz => sz
  | .calloc nmemb sz => nmemb * sz

/-- What `xrun` passes on to `malloc`. -/
def Request.sz (request : Request) : ℕ := sizeT request.bytes

inductive Label
  /-- a request that returns -/
  | malloc (ind : Fin numHeaps) (request : Request)
  /-- a request that does not return -/
  | fails (ind : Fin numHeaps) (request : Request)
  | free (ind : Fin numHeaps) (ptr : ℕ)

/-- The sub-heap that a request or a free is for. -/
def Label.ind : Label → Fin numHeaps
  | .malloc ind _ | .fails ind _ | .free ind _ => ind

def step (s : State) : Label → Option State
  | .malloc ind request =>
      if request.Typed then
        (malloc s ind request.sz).map fun (s, ptr) =>
          { s with live := ⟨ptr, request.bytes⟩ :: s.live }
      else none
  | .fails ind request =>
      -- the arena is given up before `xheap` is asked, and the lock stays taken
      if request.Typed ∧ malloc s ind request.sz = none then
        some { s.setArena ind none with xheap := { s.xheap with locked := true } }
      else none
  | .free ind ptr =>
      if ptr = 0 ∨ ptr ∈ s.live.map Block.ptr then
        some { free s ind ptr with live := s.live.eraseP fun block => block.ptr = ptr }
      else none

def initial (start : ℕ) : State where
  xheap := ⟨start, start, protectedHeapSize, false⟩
  heap _ := ⟨none, fun _ => []⟩
  size _ := 0
  ranges := []
  arenas := []
  objects := []
  live := []

/-- The space is mapped at a page. -/
def system : System State Label where
  Init s := ∃ start, 0 < start ∧ pageSize ∣ start ∧ start + protectedHeapSize ≤ 2 ^ 64 ∧
    s = initial start
  step := step

/-! ## Classes and sizes -/

theorem cl_le {i d : ℕ} (inside : i < 16) : cl.getD i 0 ≤ d ↔ i < 2 ^ d := by
  by_cases low : d < 4
  · have table : ∀ i < 16, ∀ d < 4, (cl.getD i 0 ≤ d ↔ i < 2 ^ d) := by decide
    exact table i inside d low
  · -- the last class of the table takes all of its rows
    have high : 4 ≤ d := Nat.le_of_not_lt low
    have most : ∀ i < 16, cl.getD i 0 ≤ 4 := by decide
    have power : 2 ^ 4 ≤ 2 ^ d := Nat.pow_le_pow_right Nat.two_pos high
    constructor
    · intro _
      omega
    · intro _
      exact (most i inside).trans high

/-- The loop stops at the first class that is large enough. -/
theorem size2ClassLoop_le {n sz1 c d : ℕ} (value : sz1 = n / 2 ^ c) (low : 2 ^ (c + 2) ≤ n) :
    size2ClassLoop sz1 c ≤ d ↔ n < 2 ^ (d + 3) := by
  fun_induction size2ClassLoop sz1 c with
  | case1 sz1 c large ih =>
    apply ih
    · rw [value, Nat.div_div_eq_div_mul, pow_succ]
    · have eight : 8 * 2 ^ c ≤ n := (Nat.le_div_iff_mul_le (Nat.two_pow_pos c)).mp (value ▸ large)
      calc 2 ^ (c + 1 + 2) = 8 * 2 ^ c := by ring
        _ ≤ n := eight
  | case2 sz1 c small =>
    have high : n < 2 ^ (c + 3) := by
      have below : n < 8 * 2 ^ c := (Nat.div_lt_iff_lt_mul (Nat.two_pow_pos c)).mp (by omega)
      calc n < 8 * 2 ^ c := below
        _ = 2 ^ (c + 3) := by ring
    constructor
    · intro le
      exact high.trans_le (Nat.pow_le_pow_right Nat.two_pos (by omega))
    · intro below
      by_contra above
      have fewer : 2 ^ (d + 3) ≤ 2 ^ (c + 2) := Nat.pow_le_pow_right Nat.two_pos (by omega)
      omega

/-- **The class of a size** is the least whose objects are large enough. -/
theorem size2Class_le {sz d : ℕ} : size2Class sz ≤ d ↔ sz ≤ class2Size d := by
  have least : 8 ≤ 2 ^ (d + 3) := Nat.pow_le_pow_right (n := 2) Nat.two_pos (Nat.le_add_left 3 d)
  simp only [size2Class, class2Size]
  generalize same : (if sz < 8 then 8 else sz) = size
  have exchange : sz ≤ 2 ^ (d + 3) ↔ size ≤ 2 ^ (d + 3) := by
    split at same <;> omega
  have large : 8 ≤ size := by
    split at same <;> omega
  rw [exchange]
  split
  · rw [cl_le (by omega), Nat.div_lt_iff_lt_mul (by decide)]
    have power : 2 ^ (d + 3) = 2 ^ d * 8 := by ring
    omega
  · have loop : size2ClassLoop ((size - 1) / 32) 5 ≤ d ↔ size - 1 < 2 ^ (d + 3) :=
      size2ClassLoop_le rfl (by omega)
    rw [loop]
    omega

theorem le_class2Size (sz : ℕ) : sz ≤ class2Size (size2Class sz) := size2Class_le.mp le_rfl

theorem size2Class_class2Size (c : ℕ) : size2Class (class2Size c) = c := by
  apply le_antisymm (size2Class_le.mpr le_rfl)
  have enough := le_class2Size (class2Size c)
  have order := (Nat.pow_le_pow_iff_right (a := 2) Nat.one_lt_two).mp enough
  omega

theorem class2Size_le_max {sz : ℕ} (small : sz ≤ maxObjectSize) :
    class2Size (size2Class sz) ≤ maxObjectSize :=
  Nat.pow_le_pow_right Nat.two_pos (Nat.add_le_add_right (size2Class_le.mpr small) 3)

theorem eight_dvd_class2Size (c : ℕ) : 8 ∣ class2Size c := ⟨2 ^ c, by rw [class2Size]; ring⟩

/-- An object of a class goes back to its class. -/
theorem fitClass_class2Size (c : ℕ) : fitClass (class2Size c) c = c := by
  cases c with
  | zero => rfl
  | succ c => exact if_neg (lt_irrefl _)

/-- What `align` does when nothing wraps. -/
theorem align_spec {sz : ℕ} (fits : sz + 7 < 2 ^ 64) :
    sz ≤ align sz ∧ 8 ∣ align sz ∧ align sz < sz + 8 := by
  have same : sizeT (sz + 7) = sz + 7 := Nat.mod_eq_of_lt fits
  rw [align, same]
  exact ⟨by omega, Nat.dvd_mul_left 8 _, by omega⟩

theorem align_of_dvd {sz : ℕ} (fits : sz + 7 < 2 ^ 64) (multiple : 8 ∣ sz) : align sz = sz := by
  have same : sizeT (sz + 7) = sz + 7 := Nat.mod_eq_of_lt fits
  rw [align, same]
  omega

theorem le_pageRound {sz : ℕ} (fits : sz + 4095 < 2 ^ 64) : sz ≤ pageRound sz := by
  have same : sizeT (sz + pageSize - 1) = sz + 4095 := Nat.mod_eq_of_lt fits
  rw [pageRound, same, pageSize]
  omega

theorem pageSize_dvd_pageRound (sz : ℕ) : pageSize ∣ pageRound sz := Nat.dvd_mul_right _ _

/-! ## Who owns which byte -/

/-- A number of bytes from an address on. -/
def span (address length : ℕ) : Set ℕ := Set.Ico address (address + length)

/-- The parts of the space. -/
inductive Piece
  | fresh
  | rest (ind : Fin numHeaps)
  | arena (buf : ℕ)
  | object (ptr : ℕ)

/-- The bytes of a part. An object has its header with it. -/
def State.extent (s : State) : Piece → Set ℕ
  | .fresh => span s.xheap.position s.xheap.remaining
  | .rest ind => {x | ∃ arena, (s.heap ind).currentArena = some arena ∧
      x ∈ span arena.arenaSpace arena.remaining}
  | .arena buf => {x | buf ∈ s.arenas ∧ x ∈ span buf arenaHeaderSize}
  | .object ptr => {x | ptr ∈ s.objects ∧ ptr ≤ x + objectHeaderSize ∧ x < ptr + s.size ptr}

/-- Where a pointer can be listed. -/
inductive Place
  | live
  | bin (ind : Fin numHeaps) (c : ℕ)
  deriving DecidableEq

def State.listed (s : State) : Place → List ℕ
  | .live => s.live.map Block.ptr
  | .bin ind c => (s.heap ind).myLittleHeap c

/-- What `xheap` has handed out, it has handed out once and in whole pages. -/
structure Handout (h : Xheap) (ranges : List (ℕ × ℕ)) : Prop where
  aligned : pageSize ∣ h.position
  room : h.position + h.remaining = h.finish
  low : h.start ≤ h.position
  inside : ∀ range ∈ ranges, pageSize ∣ range.1 ∧ h.start ≤ range.1 ∧
    range.1 + range.2 ≤ h.position
  apart : ranges.Pairwise fun a b => Disjoint (span a.1 a.2) (span b.1 b.2)

/-- Objects have the size of a class, or one that is too large for the classes. -/
def Sized (size : ℕ) : Prop := maxObjectSize < size ∨ ∃ c, size = class2Size c

/-- The lists hold objects, each at one place, of the size that the place is for. -/
structure Records (s : State) : Prop where
  sized : ∀ ptr ∈ s.objects, Sized (s.size ptr)
  known : ∀ place, ∀ ptr ∈ s.listed place, ptr ∈ s.objects
  spread : Carving.Spread s.listed
  classes : ∀ ind c, ∀ ptr ∈ (s.heap ind).myLittleHeap c, s.size ptr = class2Size c
  enough : ∀ block ∈ s.live, block.requested ≤ s.size block.ptr

structure Inv (s : State) : Prop where
  handout : Handout s.xheap s.ranges
  apart : Pairwise (Function.onFun Disjoint s.extent)
  handed : ∀ piece ≠ .fresh, ∀ x ∈ s.extent piece, ∃ range ∈ s.ranges, x ∈ span range.1 range.2
  records : Records s

variable {s s' : State} {ind : Fin numHeaps} {arena : Arena} {sz ptr : ℕ}

theorem mem_span {x address length : ℕ} :
    x ∈ span address length ↔ address ≤ x ∧ x < address + length := Iff.rfl

/-- Bytes that `xheap` has handed out are no more than the space has. -/
theorem length_le_space {h : Xheap} {ranges : List (ℕ × ℕ)} {address length : ℕ}
    (low : ∀ range ∈ ranges, h.start ≤ range.1 ∧ range.1 + range.2 ≤ h.finish)
    (handed : ∀ x ∈ span address length, ∃ range ∈ ranges, x ∈ span range.1 range.2) :
    length ≤ protectedHeapSize := by
  by_contra large
  have inside : ∀ x ∈ span address length, h.start ≤ x ∧ x < h.finish := by
    intro x member
    obtain ⟨range, listed, within⟩ := handed x member
    obtain ⟨low, high⟩ := low range listed
    rw [mem_span] at within
    omega
  have first := inside address (mem_span.mpr (by omega))
  have last := inside (address + protectedHeapSize) (mem_span.mpr (by omega))
  rw [Xheap.finish] at last
  omega

@[simp] theorem setArena_currentArena (s : State) (ind other : Fin numHeaps)
    (arena : Option Arena) : ((s.setArena ind arena).heap other).currentArena =
      if other = ind then arena else (s.heap other).currentArena := by
  by_cases same : other = ind
  · subst same
    simp [State.setArena]
  · simp [State.setArena, same]

@[simp] theorem setArena_myLittleHeap (s : State) (ind other : Fin numHeaps)
    (arena : Option Arena) : ((s.setArena ind arena).heap other).myLittleHeap =
      (s.heap other).myLittleHeap := by
  by_cases same : other = ind
  · subst same
    simp [State.setArena]
  · simp [State.setArena, same]

@[simp] theorem setBin_currentArena (s : State) (ind other : Fin numHeaps) (c : ℕ)
    (bin : List ℕ) : ((s.setBin ind c bin).heap other).currentArena =
      (s.heap other).currentArena := by
  by_cases same : other = ind
  · subst same
    simp [State.setBin]
  · simp [State.setBin, same]

theorem setBin_myLittleHeap (s : State) (ind other : Fin numHeaps) (c d : ℕ) (bin : List ℕ) :
    ((s.setBin ind c bin).heap other).myLittleHeap d =
      if other = ind ∧ d = c then bin else (s.heap other).myLittleHeap d := by
  by_cases same : other = ind
  · subst same
    by_cases here : d = c
    · subst here
      simp [State.setBin]
    · simp [State.setBin, here]
  · simp [State.setBin, same]

/-- The bytes of all parts depend on what the layers below the lists have. -/
theorem extent_congr (xheap : s'.xheap = s.xheap)
    (arena : ∀ ind, (s'.heap ind).currentArena = (s.heap ind).currentArena)
    (arenas : s'.arenas = s.arenas) (objects : s'.objects = s.objects) (size : s'.size = s.size) :
    s'.extent = s.extent := by
  funext piece
  cases piece with
  | fresh => simp only [State.extent, xheap]
  | rest ind => simp only [State.extent, arena]
  | arena buf => simp only [State.extent, arenas]
  | object ptr => simp only [State.extent, objects, size]

/-! ## What `xheap::malloc` does -/

theorem Handout.malloc {h h' : Xheap} {ranges : List (ℕ × ℕ)} {p : ℕ} (out : Handout h ranges)
    (returned : h.malloc sz = some (h', p)) :
    Handout h' ((p, pageRound sz) :: ranges) ∧ p = h.position ∧
      pageRound sz ≤ h.remaining ∧ h'.position = h.position + pageRound sz ∧
      h'.remaining = h.remaining - pageRound sz ∧ h'.start = h.start := by
  rw [Xheap.malloc, Option.ite_none_left_eq_some] at returned
  obtain ⟨free, equal⟩ := returned
  obtain ⟨rfl, rfl⟩ := Prod.mk.inj (Option.some.inj equal)
  have enough : pageRound sz ≤ h.remaining := by
    by_contra less
    exact free (.inr (.inr (Nat.lt_of_not_le less)))
  refine ⟨⟨?_, ?_, ?_, ?_, ?_⟩, rfl, enough, rfl, rfl, rfl⟩
  · exact Nat.dvd_add out.aligned (pageSize_dvd_pageRound sz)
  · have room := out.room
    simp only [Xheap.finish] at room ⊢
    omega
  · exact out.low.trans (Nat.le_add_right _ _)
  · intro range member
    rcases List.mem_cons.mp member with rfl | old
    · exact ⟨out.aligned, out.low, le_rfl⟩
    · obtain ⟨page, low, high⟩ := out.inside range old
      exact ⟨page, low, high.trans (Nat.le_add_right _ _)⟩
  · -- what was handed out before ends where the new range starts
    apply List.pairwise_cons.mpr
    refine ⟨fun range old => ?_, out.apart⟩
    apply Set.disjoint_left.mpr
    intro x new earlier
    have high := (out.inside range old).2.2
    rw [mem_span] at new earlier
    omega

/-! ## Refilling and placing -/

theorem Records.keep (records : Records s)
    (bins : ∀ ind, (s'.heap ind).myLittleHeap = (s.heap ind).myLittleHeap)
    (live : s'.live = s.live)
    (objects : ∀ ptr ∈ s.objects, ptr ∈ s'.objects ∧ s'.size ptr = s.size ptr)
    (sized : ∀ ptr ∈ s'.objects, ptr ∉ s.objects → Sized (s'.size ptr)) : Records s' := by
  have listed : s'.listed = s.listed := by
    funext place
    cases place with
    | live => simp only [State.listed, live]
    | bin ind c => simp only [State.listed, bins]
  constructor
  · intro ptr member
    by_cases old : ptr ∈ s.objects
    · rw [(objects ptr old).2]
      exact records.sized ptr old
    · exact sized ptr member old
  · intro place ptr member
    rw [listed] at member
    exact (objects ptr (records.known place ptr member)).1
  · rw [listed]
    exact records.spread
  · intro ind c ptr member
    rw [bins] at member
    have known := records.known (.bin ind c) ptr member
    rw [(objects ptr known).2]
    exact records.classes ind c ptr member
  · intro block member
    rw [live] at member
    have known := records.known .live block.ptr (List.mem_map_of_mem member)
    rw [(objects _ known).2]
    exact records.enough block member

/-- The range that a new arena takes has room for its header and for all it says it has. -/
theorem arena_le_pageRound {allocSize : ℕ} (fits : allocSize + 4127 < 2 ^ 64) :
    arenaHeaderSize + allocSize ≤ pageRound (sizeT (arenaHeaderSize + allocSize)) := by
  unfold arenaHeaderSize
  have same : sizeT (32 + allocSize) = 32 + allocSize := Nat.mod_eq_of_lt (by omega)
  rw [same]
  exact le_pageRound (by omega)

/-- A new arena comes out of the fresh space: its header, and then what it has left. -/
theorem Inv.refill (inv : Inv s) (fits : sz + 4127 < 2 ^ 64)
    (returned : refill s ind sz = some (s', arena)) :
    Inv s' ∧ (s'.heap ind).currentArena = some arena ∧ sz ≤ arena.remaining ∧
      s'.live = s.live ∧ ∀ ind, (s'.heap ind).myLittleHeap = (s.heap ind).myLittleHeap := by
  obtain ⟨⟨xheap, buf⟩, handed, equal⟩ := Option.map_eq_some_iff.mp returned
  obtain ⟨out, rfl, enough, position, remaining, -⟩ := inv.handout.malloc handed
  obtain ⟨same, rfl⟩ := Prod.mk.inj equal
  generalize alloc : (if protectedHeapChunk < sz then sz else protectedHeapChunk) = allocSize
    at enough out position remaining same ⊢
  have large : sz ≤ allocSize ∧ allocSize + 4127 < 2 ^ 64 := by
    unfold protectedHeapChunk at alloc
    split at alloc <;> omega
  have whole := arena_le_pageRound large.2
  generalize pageRound (sizeT (arenaHeaderSize + allocSize)) = length at *
  have current : ∀ other, (s'.heap other).currentArena = if other = ind then
      some ⟨allocSize, s.xheap.position + arenaHeaderSize⟩ else (s.heap other).currentArena := by
    intro other
    rw [← same]
    exact setArena_currentArena ..
  have bins : ∀ other, (s'.heap other).myLittleHeap = (s.heap other).myLittleHeap := by
    intro other
    rw [← same]
    exact setArena_myLittleHeap ..
  have arenas : s'.arenas = s.xheap.position :: s.arenas := by rw [← same]
  have ranges : s'.ranges = (s.xheap.position, length) :: s.ranges := by rw [← same]
  have source : s'.xheap = xheap := by rw [← same]
  have objects : s'.objects = s.objects ∧ s'.size = s.size ∧ s'.live = s.live := by
    rw [← same]
    exact ⟨rfl, rfl, rfl⟩
  -- What a part has now is from the new range, or it is what it had.
  have cut : ∀ piece, ∀ x ∈ s'.extent piece, x ∈ span s.xheap.position length ∧ piece =
      (if x < s.xheap.position + arenaHeaderSize then .arena s.xheap.position else .rest ind) ∨
      x ∈ s.extent piece ∧ (piece = .fresh → x ∉ span s.xheap.position length) := by
    intro piece x member
    cases piece with
    | fresh =>
      simp only [State.extent, source, mem_span] at member ⊢
      exact .inr ⟨by omega, fun _ => by omega⟩
    | rest other =>
      obtain ⟨arena, here, within⟩ := member
      rw [current other] at here
      split at here
      · next mine =>
        obtain rfl := Option.some.inj here
        change x ∈ span (s.xheap.position + arenaHeaderSize) allocSize at within
        rw [mem_span] at within
        left
        rw [if_neg (Nat.not_lt.mpr within.1), mine, mem_span]
        exact ⟨by omega, rfl⟩
      · exact .inr ⟨⟨arena, here, within⟩, nofun⟩
    | arena buf =>
      obtain ⟨listed, within⟩ := member
      rw [arenas] at listed
      rcases List.mem_cons.mp listed with rfl | old
      · rw [mem_span] at within
        left
        rw [if_pos within.2, mem_span]
        exact ⟨by omega, rfl⟩
      · exact .inr ⟨⟨old, within⟩, nofun⟩
    | object ptr =>
      simp only [State.extent, objects.1, objects.2.1] at member
      exact .inr ⟨member, nofun⟩
  refine ⟨⟨?_, ?_, ?_, ?_⟩, ?_, large.1, objects.2.2, bins⟩
  · rw [source, ranges]
    exact out
  · refine Carving.pairwise_carve inv.apart ?_ _ cut
    intro x member
    simp only [State.extent, mem_span] at member ⊢
    omega
  · intro piece used x member
    rw [ranges]
    rcases cut piece x member with ⟨new, -⟩ | ⟨old, -⟩
    · exact ⟨_, List.mem_cons_self, new⟩
    · obtain ⟨range, listed, within⟩ := inv.handed piece used x old
      exact ⟨range, List.mem_cons_of_mem _ listed, within⟩
  · apply inv.records.keep bins objects.2.2
    · intro ptr known
      rw [objects.1, objects.2.1]
      exact ⟨known, rfl⟩
    · exact fun ptr known new => absurd (objects.1 ▸ known) new
  · rw [current, if_pos rfl]

/-- Where a request leaves a pointer: it is an object of the size, and listed nowhere. -/
structure Grants (s s' : State) (ptr sz : ℕ) : Prop where
  inv : Inv s'
  known : ptr ∈ s'.objects
  unlisted : ∀ place, ptr ∉ s'.listed place
  enough : sz ≤ s'.size ptr
  live : s'.live = s.live

/-- The state once an arena has given an object with its header. -/
def State.place (s : State) (ind : Fin numHeaps) (arena : Arena) (sz : ℕ) : State :=
  let taken := sz + objectHeaderSize
  { s.setArena ind (some ⟨arena.remaining - taken, arena.arenaSpace + taken⟩) with
    size := Function.update s.size (arena.arenaSpace + objectHeaderSize) sz
    objects := (arena.arenaSpace + objectHeaderSize) :: s.objects }

/-- The place of a header in an arena is not in any object. -/
theorem Inv.place_new (inv : Inv s) (current : (s.heap ind).currentArena = some arena)
    (room : objectHeaderSize ≤ arena.remaining) :
    arena.arenaSpace + objectHeaderSize ∉ s.objects := by
  intro old
  unfold objectHeaderSize at room
  have header : arena.arenaSpace ∈ s.extent (.rest ind) :=
    ⟨arena, current, mem_span.mpr (by omega)⟩
  have inside : arena.arenaSpace ∈ s.extent (.object (arena.arenaSpace + objectHeaderSize)) := by
    refine ⟨old, le_rfl, ?_⟩
    unfold objectHeaderSize
    omega
  cases Carving.eq_of_mem inv.apart header inside

/-- An object and its header come out of what an arena has left. -/
theorem Inv.place (inv : Inv s) (current : (s.heap ind).currentArena = some arena)
    (room : sz + objectHeaderSize ≤ arena.remaining) (sized : Sized sz) :
    Grants s (s.place ind arena sz) (arena.arenaSpace + objectHeaderSize) sz := by
  generalize at_ : arena.arenaSpace + objectHeaderSize = ptr
  have heap : ∀ other, ((s.place ind arena sz).heap other).currentArena = if other = ind then
      some ⟨arena.remaining - (sz + objectHeaderSize), arena.arenaSpace + (sz + objectHeaderSize)⟩
      else (s.heap other).currentArena := fun other => setArena_currentArena ..
  have bins : ∀ other, ((s.place ind arena sz).heap other).myLittleHeap =
      (s.heap other).myLittleHeap := fun other => setArena_myLittleHeap ..
  have size : (s.place ind arena sz).size = Function.update s.size ptr sz := by
    rw [← at_]
    rfl
  have objects : (s.place ind arena sz).objects = ptr :: s.objects := by
    rw [← at_]
    rfl
  -- The bytes of the object and of its header lie in what the arena has left.
  have available : span arena.arenaSpace (sz + objectHeaderSize) ⊆ s.extent (.rest ind) := by
    intro x member
    rw [mem_span] at member
    exact ⟨arena, current, member.1, by omega⟩
  have new : ptr ∉ s.objects := at_ ▸ inv.place_new current (by omega)
  -- They are cut out of the rest of the arena; every other piece is as it was.
  have cut : ∀ piece, ∀ x ∈ (s.place ind arena sz).extent piece,
      x ∈ span arena.arenaSpace (sz + objectHeaderSize) ∧ piece = .object ptr ∨
      x ∈ s.extent piece ∧
        (piece = .rest ind → x ∉ span arena.arenaSpace (sz + objectHeaderSize)) := by
    intro piece x member
    cases piece with
    | fresh => exact .inr ⟨member, nofun⟩
    | rest other =>
      obtain ⟨left, here, within⟩ := member
      rw [heap other] at here
      split at here
      · next mine =>
        obtain rfl := Option.some.inj here
        change x ∈ span (arena.arenaSpace + (sz + objectHeaderSize))
          (arena.remaining - (sz + objectHeaderSize)) at within
        rw [mem_span] at within
        refine .inr ⟨⟨arena, mine ▸ current, ?_⟩, fun _ => ?_⟩
        · rw [mem_span]
          omega
        · rw [mem_span]
          omega
      · next elsewhere =>
        exact .inr ⟨⟨left, here, within⟩, fun same => absurd (Piece.rest.inj same) elsewhere⟩
    | arena buf => exact .inr ⟨member, nofun⟩
    | object other =>
      obtain ⟨listed, header, within⟩ := member
      rw [size] at within
      -- The new object ends where the bytes that are cut out end.
      by_cases same : other = ptr
      · subst same
        rw [Function.update_self] at within
        left
        rw [mem_span]
        exact ⟨by omega, rfl⟩
      · rw [objects] at listed
        rw [Function.update_of_ne same] at within
        exact .inr ⟨⟨(List.mem_cons.mp listed).resolve_left same, header, within⟩, nofun⟩
  have records : Records (s.place ind arena sz) := by
    apply inv.records.keep bins rfl
    · intro other known
      rw [objects, size]
      have different : other ≠ ptr := fun same => new (same ▸ known)
      exact ⟨List.mem_cons_of_mem _ known, Function.update_of_ne different _ _⟩
    · intro other known old
      rw [objects] at known
      obtain rfl := (List.mem_cons.mp known).resolve_right old
      rw [size, Function.update_self]
      exact sized
  -- The lists of blocks are untouched.
  have listed : (s.place ind arena sz).listed = s.listed := by
    funext place
    cases place with
    | live => rfl
    | bin ind c => simp only [State.listed, bins]
  refine ⟨⟨inv.handout, ?_, ?_, records⟩, ?_, ?_, ?_, rfl⟩
  · exact Carving.pairwise_carve inv.apart available _ cut
  · intro piece used x member
    rcases cut piece x member with ⟨new, -⟩ | ⟨old, -⟩
    · exact inv.handed (.rest ind) nofun x (available new)
    · exact inv.handed piece used x old
  · rw [objects]
    exact List.mem_cons_self
  · intro place member
    rw [listed] at member
    exact new (inv.records.known place ptr member)
  · rw [size, Function.update_self]

/-! ## Requests and frees -/

theorem listed_setBin (s : State) (ind : Fin numHeaps) (c : ℕ) (bin : List ℕ) :
    (s.setBin ind c bin).listed = Function.update s.listed (.bin ind c) bin := by
  funext place
  cases place with
  | live => rfl
  | bin other d =>
    rw [State.listed, setBin_myLittleHeap]
    by_cases here : other = ind ∧ d = c
    · obtain ⟨rfl, rfl⟩ := here
      simp
    · have different : Place.bin other d ≠ .bin ind c :=
        fun same => here (Place.bin.inj same)
      rw [if_neg here, Function.update_of_ne different, State.listed]

theorem arenaMalloc_of_le (room : sz ≤ arena.remaining) : arenaMalloc s ind arena sz =
    some (s.setArena ind (some ⟨arena.remaining - sz, arena.arenaSpace + sz⟩),
      arena.arenaSpace) := by
  rw [arenaMalloc, Arena.malloc, if_neg (Nat.not_lt.mpr room)]
  rfl

/-- What the objects and the lists are like is not changed by a new arena. -/
structure Refilled (s s₁ : State) : Prop where
  inv : Inv s₁
  size : s₁.size = s.size
  objects : s₁.objects = s.objects
  live : s₁.live = s.live
  bins : ∀ ind, (s₁.heap ind).myLittleHeap = (s.heap ind).myLittleHeap

/-- A request to the zone that fits a `size_t` with all that is added to it is placed in the
current arena, or in a new one. -/
theorem Inv.bigMalloc_cases (inv : Inv s) (multiple : 8 ∣ sz) (fits : sz + 4143 < 2 ^ 64)
    (returned : bigMalloc s ind sz = some (s', ptr)) :
    ∃ s₁ arena, Refilled s s₁ ∧ (s₁.heap ind).currentArena = some arena ∧
      sz + objectHeaderSize ≤ arena.remaining ∧ s' = s₁.place ind arena sz ∧
      ptr = arena.arenaSpace + objectHeaderSize := by
  have whole : align (sizeT (sz + objectHeaderSize)) = sz + objectHeaderSize := by
    unfold objectHeaderSize
    have same : sizeT (sz + 16) = sz + 16 := Nat.mod_eq_of_lt (by omega)
    rw [same]
    exact align_of_dvd (by omega) (by omega)
  obtain ⟨⟨s₂, p⟩, given, equal⟩ := Option.map_eq_some_iff.mp returned
  obtain ⟨after, at_⟩ := Prod.mk.inj equal
  -- once the arena has room, the object comes out of it
  have cut : ∀ {s₁ : State} {arena : Arena}, Refilled s s₁ →
      (s₁.heap ind).currentArena = some arena → sz + objectHeaderSize ≤ arena.remaining →
      arenaMalloc s₁ ind arena (sz + objectHeaderSize) = some (s₂, p) →
      ∃ s₁ arena, Refilled s s₁ ∧ (s₁.heap ind).currentArena = some arena ∧
        sz + objectHeaderSize ≤ arena.remaining ∧ s' = s₁.place ind arena sz ∧
        ptr = arena.arenaSpace + objectHeaderSize := by
    intro s₁ arena refilled current room given
    rw [arenaMalloc_of_le room] at given
    obtain ⟨rfl, rfl⟩ := Prod.mk.inj (Option.some.inj given)
    exact ⟨s₁, arena, refilled, current, room, after.symm, at_.symm⟩
  have slow : slowMalloc s ind (sz + objectHeaderSize) = some (s₂, p) →
      ∃ s₁ arena, Refilled s s₁ ∧ (s₁.heap ind).currentArena = some arena ∧
        sz + objectHeaderSize ≤ arena.remaining ∧ s' = s₁.place ind arena sz ∧
        ptr = arena.arenaSpace + objectHeaderSize := by
    intro given
    obtain ⟨⟨s₁, arena⟩, refilled, given⟩ := Option.bind_eq_some_iff.mp given
    obtain ⟨inv₁, current, room, live, bins⟩ :=
      inv.refill (by unfold objectHeaderSize; omega) refilled
    obtain ⟨_, -, equal⟩ := Option.map_eq_some_iff.mp refilled
    obtain ⟨rfl, -⟩ := Prod.mk.inj equal
    exact cut ⟨inv₁, rfl, rfl, live, bins⟩ current room given
  simp only [zoneMalloc, whole] at given
  split at given
  · next arena current =>
    split at given
    · next room => exact cut ⟨inv, rfl, rfl, rfl, fun _ => rfl⟩ current room given
    · exact slow given
  · exact slow given

theorem Inv.bigMalloc (inv : Inv s) (multiple : 8 ∣ sz) (fits : sz + 4143 < 2 ^ 64)
    (sized : Sized sz)
    (returned : bigMalloc s ind sz = some (s', ptr)) : Grants s s' ptr sz := by
  obtain ⟨s₁, arena, refilled, current, room, rfl, rfl⟩ :=
    inv.bigMalloc_cases multiple fits returned
  have grants := refilled.inv.place current room sized
  exact { grants with live := grants.live.trans refilled.live }

/-- An object of the class is taken from the list. -/
theorem Inv.pop (inv : Inv s) {c : ℕ} {rest : List ℕ}
    (first : (s.heap ind).myLittleHeap c = ptr :: rest) :
    Grants s (s.setBin ind c rest) ptr (class2Size c) := by
  have extent : (s.setBin ind c rest).extent = s.extent :=
    extent_congr rfl (fun _ => setBin_currentArena ..) rfl rfl rfl
  have listed : s.listed (.bin ind c) = ptr :: rest := first
  obtain ⟨spread, nowhere⟩ := inv.records.spread.pop listed
  rw [← listed_setBin] at spread nowhere
  have fewer : ∀ other d, ∀ p ∈ ((s.setBin ind c rest).heap other).myLittleHeap d,
      p ∈ (s.heap other).myLittleHeap d := by
    intro other d p member
    rw [setBin_myLittleHeap] at member
    split at member
    · next here =>
      obtain ⟨rfl, rfl⟩ := here
      exact first ▸ List.mem_cons_of_mem ptr member
    · exact member
  have records : Records (s.setBin ind c rest) := by
    refine ⟨inv.records.sized, ?_, spread, ?_, inv.records.enough⟩
    · intro place p member
      cases place with
      | live => exact inv.records.known .live p member
      | bin other d => exact inv.records.known (.bin other d) p (fewer other d p member)
    · exact fun other d p member => inv.records.classes other d p (fewer other d p member)
  have mine : ptr ∈ (s.heap ind).myLittleHeap c := first ▸ List.mem_cons_self
  refine ⟨⟨inv.handout, extent ▸ inv.apart, extent ▸ inv.handed, records⟩, ?_, nowhere, ?_, rfl⟩
  · exact inv.records.known (.bin ind c) ptr mine
  · exact (inv.records.classes ind c ptr mine).ge

/-- What a request for so many bytes comes to after the first rounding. -/
theorem ansi_spec {bytes : ℕ} (fits : bytes ≤ 2 ^ 64 - 4144) :
    bytes ≤ align (if bytes < 16 then 16 else bytes) ∧
      8 ∣ align (if bytes < 16 then 16 else bytes) ∧
      align (if bytes < 16 then 16 else bytes) + 4143 < 2 ^ 64 := by
  generalize same : (if bytes < 16 then 16 else bytes) = size
  have bounds : bytes ≤ size ∧ size ≤ 2 ^ 64 - 4144 := by
    split at same <;> omega
  obtain ⟨enough, multiple, close⟩ : size ≤ align size ∧ 8 ∣ align size ∧ align size < size + 8 :=
    align_spec (by omega)
  exact ⟨by omega, multiple, by omega⟩

/-- What the rounded size asks for is granted if nothing wraps. -/
theorem Inv.segMalloc (inv : Inv s) (multiple : 8 ∣ sz) (close : sz + 4143 < 2 ^ 64)
    (returned : segMalloc s ind sz = some (s', ptr)) : Grants s s' ptr sz := by
  rw [Pheap.segMalloc] at returned
  split at returned
  · next small =>
    have large := le_class2Size sz
    -- what a class grants may be more than what was asked for
    have weaken : Grants s s' ptr (class2Size (size2Class sz)) → Grants s s' ptr sz := by
      intro grants
      exact { grants with enough := large.trans grants.enough }
    split at returned
    · next ptr' rest first =>
      obtain ⟨rfl, rfl⟩ := Prod.mk.inj (Option.some.inj returned)
      exact weaken (inv.pop first)
    · have most := class2Size_le_max small
      have bound : maxObjectSize = 2147483648 := by decide
      have sized : Sized (class2Size (size2Class sz)) := .inr ⟨_, rfl⟩
      exact weaken (inv.bigMalloc (eight_dvd_class2Size _) (by omega) sized returned)
  · next large =>
    have sized : Sized sz := .inl (Nat.lt_of_not_le large)
    exact inv.bigMalloc multiple close sized returned

/-- **A request that fits is granted.** -/
theorem Inv.malloc (inv : Inv s) {bytes : ℕ} (fits : bytes ≤ 2 ^ 64 - 4144)
    (returned : malloc s ind (sizeT bytes) = some (s', ptr)) : Grants s s' ptr bytes := by
  have same : sizeT bytes = bytes := Nat.mod_eq_of_lt (by omega)
  rw [same, Pheap.malloc] at returned
  obtain ⟨enough, multiple, close⟩ := ansi_spec fits
  have grants := inv.segMalloc multiple close returned
  exact { grants with enough := enough.trans grants.enough }

/-- The program holds what it was granted. -/
theorem Grants.hold {bytes : ℕ} (grants : Grants s s' ptr bytes) :
    Inv { s' with live := ⟨ptr, bytes⟩ :: s'.live } := by
  have extent : State.extent { s' with live := ⟨ptr, bytes⟩ :: s'.live } = s'.extent :=
    extent_congr rfl (fun _ => rfl) rfl rfl rfl
  have listed : State.listed { s' with live := ⟨ptr, bytes⟩ :: s'.live } =
      Function.update s'.listed .live (ptr :: s'.listed .live) := by
    funext place
    cases place with
    | live => rw [Function.update_self]; rfl
    | bin ind c => rfl
  have records := grants.inv.records
  refine ⟨grants.inv.handout, extent ▸ grants.inv.apart, extent ▸ grants.inv.handed, ?_⟩
  refine ⟨records.sized, ?_, ?_, records.classes, ?_⟩
  · intro place p member
    cases place with
    | live =>
      rcases List.mem_cons.mp member with rfl | old
      · exact grants.known
      · exact records.known .live p old
    | bin ind c => exact records.known (.bin ind c) p member
  · rw [listed]
    exact records.spread.push grants.unlisted
  · intro block member
    rcases List.mem_cons.mp member with rfl | old
    · exact grants.enough
    · exact records.enough block old

/-- A block that the program gives up. -/
theorem Inv.drop (inv : Inv s) (ptr : ℕ) :
    Inv { s with live := s.live.eraseP fun block => block.ptr = ptr } ∧
      ∀ place, ptr ∈ s.listed .live →
        ptr ∉ State.listed { s with live := s.live.eraseP fun block => block.ptr = ptr } place := by
  have sub : (s.live.eraseP fun block => block.ptr = ptr).Sublist s.live := List.eraseP_sublist
  have extent : State.extent { s with live := s.live.eraseP fun block => block.ptr = ptr } =
      s.extent := extent_congr rfl (fun _ => rfl) rfl rfl rfl
  have records := inv.records
  have fewer : ∀ place, (State.listed
      { s with live := s.live.eraseP fun block => block.ptr = ptr } place).Sublist
        (s.listed place) := by
    intro place
    cases place with
    | live => exact sub.map Block.ptr
    | bin ind c => exact List.Sublist.refl _
  constructor
  · refine ⟨inv.handout, extent ▸ inv.apart, extent ▸ inv.handed, ?_⟩
    refine ⟨records.sized, ?_, records.spread.shrink fewer, records.classes, ?_⟩
    · exact fun place p member => records.known place p ((fewer place).subset member)
    · exact fun block member => records.enough block (sub.subset member)
  · intro place held member
    cases place with
    | live =>
      obtain ⟨block, inside, at_⟩ := List.mem_map.mp member
      exact Carving.ne_of_mem_eraseP (records.spread.nodup .live) inside at_
    | bin ind c => cases records.spread.single ptr .live (.bin ind c) held member

/-- **A freed block goes to the list of its class**, or is not used again. -/
theorem Inv.free (inv : Inv s) (unlisted : ∀ place, ptr ∉ s.listed place)
    (known : ptr ∈ s.objects) : Inv (free s ind ptr) := by
  have records := inv.records
  simp only [Pheap.free]
  split
  · exact inv
  -- A block that is small enough for a list has the size of its class.
  · next used =>
    obtain ⟨c, size⟩ : ∃ c, s.size ptr = class2Size c :=
      (records.sized ptr known).resolve_left fun large => used (.inr (.inr large))
    rw [size, size2Class_class2Size, fitClass_class2Size]
    generalize same : s.setBin ind c (ptr :: (s.heap ind).myLittleHeap c) = s'
    have extent : s'.extent = s.extent := by
      rw [← same]
      exact extent_congr rfl (fun _ => setBin_currentArena ..) rfl rfl rfl
    have listed :
        s'.listed = Function.update s.listed (.bin ind c) (ptr :: s.listed (.bin ind c)) := by
      rw [← same]
      exact listed_setBin ..
    -- Only the list of this class is longer, by the block.
    have bins : ∀ other d, ∀ p ∈ (s'.heap other).myLittleHeap d,
        p = ptr ∧ d = c ∨ p ∈ (s.heap other).myLittleHeap d := by
      intro other d p member
      rw [← same, setBin_myLittleHeap] at member
      split at member
      · next here =>
        obtain ⟨rfl, rfl⟩ := here
        exact (List.mem_cons.mp member).imp_left fun new => ⟨new, rfl⟩
      · exact .inr member
    have frame : s'.xheap = s.xheap ∧ s'.ranges = s.ranges ∧ s'.size = s.size ∧
        s'.objects = s.objects ∧ s'.live = s.live := by
      rw [← same]
      exact ⟨rfl, rfl, rfl, rfl, rfl⟩
    obtain ⟨xheap, ranges, size', objects, live⟩ := frame
    refine ⟨xheap ▸ ranges ▸ inv.handout, extent ▸ inv.apart, extent ▸ ranges ▸ inv.handed, ?_⟩
    refine ⟨objects ▸ size' ▸ records.sized, ?_, ?_, ?_, live ▸ size' ▸ records.enough⟩
    · intro place p member
      rw [objects]
      cases place with
      | live =>
        rw [State.listed, live] at member
        exact records.known .live p member
      | bin other d =>
        rcases bins other d p member with ⟨rfl, -⟩ | old
        · exact known
        · exact records.known (.bin other d) p old
    · rw [listed]
      exact records.spread.push unlisted
    · intro other d p member
      rw [size']
      rcases bins other d p member with ⟨rfl, rfl⟩ | old
      · exact size
      · exact records.classes other d p old

/-! ## Other sub-heaps -/

section Others

variable {other : Fin numHeaps} (different : other ≠ ind)

include different

theorem setArena_heap_of_ne (s : State) (arena : Option Arena) :
    (s.setArena ind arena).heap other = s.heap other := Function.update_of_ne different _ _

theorem setBin_heap_of_ne (s : State) (c : ℕ) (bin : List ℕ) :
    (s.setBin ind c bin).heap other = s.heap other := Function.update_of_ne different _ _

theorem arenaMalloc_heap_of_ne (given : arenaMalloc s ind arena sz = some (s', ptr)) :
    s'.heap other = s.heap other := by
  obtain ⟨result, -, equal⟩ := Option.map_eq_some_iff.mp given
  obtain ⟨rfl, -⟩ := Prod.mk.inj equal
  exact setArena_heap_of_ne different s _

theorem slowMalloc_heap_of_ne (given : slowMalloc s ind sz = some (s', ptr)) :
    s'.heap other = s.heap other := by
  obtain ⟨⟨s₁, arena⟩, refilled, given⟩ := Option.bind_eq_some_iff.mp given
  rw [arenaMalloc_heap_of_ne different given]
  obtain ⟨result, -, equal⟩ := Option.map_eq_some_iff.mp refilled
  obtain ⟨rfl, -⟩ := Prod.mk.inj equal
  exact setArena_heap_of_ne different s _

theorem zoneMalloc_heap_of_ne (given : zoneMalloc s ind sz = some (s', ptr)) :
    s'.heap other = s.heap other := by
  simp only [zoneMalloc] at given
  split at given
  · split at given
    · exact arenaMalloc_heap_of_ne different given
    · exact slowMalloc_heap_of_ne different given
  · exact slowMalloc_heap_of_ne different given

theorem bigMalloc_heap_of_ne (given : bigMalloc s ind sz = some (s', ptr)) :
    s'.heap other = s.heap other := by
  obtain ⟨⟨s₁, p⟩, zone, equal⟩ := Option.map_eq_some_iff.mp given
  obtain ⟨rfl, -⟩ := Prod.mk.inj equal
  have same : s₁.heap other = s.heap other := zoneMalloc_heap_of_ne different zone
  exact same

theorem malloc_heap_of_ne (given : malloc s ind sz = some (s', ptr)) :
    s'.heap other = s.heap other := by
  rw [malloc] at given
  generalize align (if sz < 16 then 16 else sz) = size at given
  rw [segMalloc] at given
  split at given
  · split at given
    · obtain ⟨rfl, -⟩ := Prod.mk.inj (Option.some.inj given)
      exact setBin_heap_of_ne different s _ _
    · exact bigMalloc_heap_of_ne different given
  · exact bigMalloc_heap_of_ne different given

/-- **A request leaves the other sub-heaps as they are.** -/
theorem step_heap_of_ne {label : Label} (for_ind : label.ind = ind)
    (move : step s label = some s') : s'.heap other = s.heap other := by
  subst for_ind
  cases label with
  | malloc ind request =>
    obtain ⟨-, returned⟩ := Option.ite_none_right_eq_some.mp move
    obtain ⟨⟨s₁, ptr⟩, given, rfl⟩ := Option.map_eq_some_iff.mp returned
    have same : s₁.heap other = s.heap other := malloc_heap_of_ne different given
    exact same
  | fails ind request =>
    obtain ⟨-, rfl⟩ := guarded move
    exact setArena_heap_of_ne different s none
  | free ind ptr =>
    obtain ⟨-, rfl⟩ := guarded move
    simp only [free]
    split
    · rfl
    · exact setBin_heap_of_ne different s _ _

end Others

/-! ## Every run -/

theorem inv_initial {start : ℕ} (page : pageSize ∣ start) : Inv (initial start) := by
  have nothing : ∀ piece ≠ Piece.fresh, (initial start).extent piece = ∅ := by
    intro piece used
    apply Set.eq_empty_of_forall_notMem
    intro x member
    cases piece with
    | fresh => exact used rfl
    | rest ind => obtain ⟨arena, current, -⟩ := member; cases current
    | arena buf => cases member.1
    | object ptr => cases member.1
  have empty : ∀ place, (initial start).listed place = [] := fun place => by cases place <;> rfl
  refine ⟨⟨page, rfl, le_rfl, fun _ member => absurd member List.not_mem_nil, .nil⟩, ?_, ?_, ?_⟩
  · intro piece piece' different
    show Disjoint ((initial start).extent piece) ((initial start).extent piece')
    by_cases used : piece = .fresh
    · rw [nothing piece' fun same => different (used.trans same.symm)]
      exact Set.disjoint_empty _
    · rw [nothing piece used]
      exact Set.empty_disjoint _
  · intro piece used x member
    rw [nothing piece used] at member
    cases member
  · refine ⟨fun _ member => absurd member List.not_mem_nil, ?_, ⟨?_, ?_⟩,
      fun _ _ _ member => absurd member List.not_mem_nil,
      fun _ member => absurd member List.not_mem_nil⟩
    · intro place ptr member
      rw [empty] at member
      cases member
    · intro place
      rw [empty]
      exact .nil
    · intro ptr place place' member
      rw [empty] at member
      cases member

/-- The arena is given up and the lock is not released. -/
theorem Inv.fails (inv : Inv s) :
    Inv { s.setArena ind none with xheap := { s.xheap with locked := true } } := by
  generalize same : { s.setArena ind none with xheap := { s.xheap with locked := true } } = s'
  have sub : ∀ piece, s'.extent piece ⊆ s.extent piece := by
    intro piece x member
    rw [← same] at member
    cases piece with
    | rest other =>
      obtain ⟨arena, current, within⟩ := member
      simp only [setArena_currentArena] at current
      split at current
      · cases current
      · exact ⟨arena, current, within⟩
    | fresh => exact member
    | arena buf => exact member
    | object ptr => exact member
  have bins : ∀ other, (s'.heap other).myLittleHeap = (s.heap other).myLittleHeap := by
    intro other
    rw [← same]
    exact setArena_myLittleHeap ..
  have frame : s'.ranges = s.ranges ∧ s'.size = s.size ∧ s'.objects = s.objects ∧
      s'.live = s.live := by
    rw [← same]
    exact ⟨rfl, rfl, rfl, rfl⟩
  obtain ⟨ranges, size, objects, live⟩ := frame
  refine ⟨?_, Carving.pairwise_shrink inv.apart sub, ?_, ?_⟩
  · rw [ranges, ← same]
    have out := inv.handout
    exact ⟨out.aligned, out.room, out.low, out.inside, out.apart⟩
  · intro piece used x member
    rw [ranges]
    exact inv.handed piece used x (sub piece member)
  · apply inv.records.keep bins live
    · intro ptr known
      rw [objects, size]
      exact ⟨known, rfl⟩
    · exact fun ptr known new => absurd (objects ▸ known) new

/-- The bytes of a block, up to what its header says. -/
def State.block (s : State) (b : Block) : Set ℕ := span b.ptr (s.size b.ptr)

/-- The bytes of allocator headers. -/
def State.headers (s : State) : Set ℕ :=
  {x | (∃ buf ∈ s.arenas, x ∈ span buf arenaHeaderSize) ∨
    ∃ ptr ∈ s.objects, ptr ≤ x + objectHeaderSize ∧ x < ptr}

/-- Blocks are of the size asked for, made of bytes that `xheap` handed out, apart from each
other and from all headers, and `xheap` hands out whole pages of its space once. -/
structure Sound (s : State) : Prop where
  ranges : ∀ range ∈ s.ranges, pageSize ∣ range.1 ∧ s.xheap.start ≤ range.1 ∧
    range.1 + range.2 ≤ s.xheap.finish
  apart : s.ranges.Pairwise fun a b => Disjoint (span a.1 a.2) (span b.1 b.2)
  enough : ∀ block ∈ s.live, block.requested ≤ s.size block.ptr
  handed : ∀ block ∈ s.live, ∀ x ∈ s.block block, ∃ range ∈ s.ranges, x ∈ span range.1 range.2
  blocks : s.live.Pairwise fun a b => Disjoint (s.block a) (s.block b)
  headers : ∀ block ∈ s.live, Disjoint (s.block block) s.headers

/-- What is asked for leaves room below the bound of a `size_t` for all that is added to it. -/
def Fits (_ : State) : Label → Prop
  | .malloc _ request => request.bytes ≤ 2 ^ 64 - 4144
  | _ => True

theorem Inv.block_subset (inv : Inv s) {block : Block} (held : block ∈ s.live) :
    s.block block ⊆ s.extent (.object block.ptr) := by
  intro x member
  rw [State.block, mem_span] at member
  have known := inv.records.known .live block.ptr (List.mem_map_of_mem held)
  exact ⟨known, by omega, member.2⟩

theorem Inv.sound (inv : Inv s) : Sound s where
  ranges range listed := by
    obtain ⟨page, low, high⟩ := inv.handout.inside range listed
    have room := inv.handout.room
    exact ⟨page, low, by omega⟩
  apart := inv.handout.apart
  enough := inv.records.enough
  handed block held x member :=
    inv.handed (.object block.ptr) nofun x (inv.block_subset held member)
  blocks := by
    have distinct : s.live.Pairwise fun a b => a.ptr ≠ b.ptr :=
      List.pairwise_map.mp (inv.records.spread.nodup .live)
    apply distinct.imp_of_mem
    intro a b left right different
    have apart := inv.apart (fun same : Piece.object a.ptr = .object b.ptr =>
      different (Piece.object.inj same))
    exact apart.mono (inv.block_subset left) (inv.block_subset right)
  headers block held := by
    apply Set.disjoint_left.mpr
    intro x member header
    have mine := inv.block_subset held member
    rcases header with ⟨buf, listed, within⟩ | ⟨ptr, known, low, high⟩
    · have other : x ∈ s.extent (.arena buf) := ⟨listed, within⟩
      cases Carving.eq_of_mem inv.apart mine other
    · have other : x ∈ s.extent (.object ptr) := ⟨known, low, by omega⟩
      -- the header that belongs to the block itself ends where the block starts
      obtain rfl := Piece.object.inj (Carving.eq_of_mem inv.apart mine other)
      exact absurd member.1 (Nat.not_le.mpr high)

theorem free_live (s : State) (ind : Fin numHeaps) (ptr : ℕ) (live : List Block) :
    { free s ind ptr with live := live } = free { s with live := live } ind ptr := by
  simp only [Pheap.free]
  split <;> rfl

/-- **One step.** A request that returns grants its block, and a free takes one back. -/
theorem Inv.step (inv : Inv s) {label : Label} (fits : Fits s label)
    (move : system.step s label = some s') : Inv s' := by
  change Pheap.step s label = some s' at move
  cases label with
  | malloc ind request =>
    obtain ⟨-, returned⟩ := Option.ite_none_right_eq_some.mp move
    obtain ⟨⟨s₁, ptr⟩, given, rfl⟩ := Option.map_eq_some_iff.mp returned
    exact (inv.malloc fits given).hold
  | fails ind request =>
    obtain ⟨-, rfl⟩ := guarded move
    exact inv.fails
  | free ind ptr =>
    obtain ⟨valid, rfl⟩ := guarded move
    obtain ⟨dropped, gone⟩ := inv.drop ptr
    rw [free_live]
    rcases valid with rfl | held
    · rw [Pheap.free, if_pos (.inl rfl)]
      exact dropped
    · exact dropped.free (fun place => gone place held) (inv.records.known .live ptr held)

/-- A sound block is no larger than the space. -/
theorem Sound.size_le (sound : Sound s) {block : Block} (held : block ∈ s.live) :
    s.size block.ptr ≤ protectedHeapSize :=
  length_le_space (fun range listed => (sound.ranges range listed).2) (sound.handed block held)

/-- **Blocks are sound just as long as requests fit.** In every run, the blocks are disjoint and
long enough in all states if and only if no request that returns is for more than
`2 ^ 64 - 4144` bytes. -/
theorem sound_iff_fits (s s' : State) (labels : List Label) (init : system.Init s)
    (execution : system.run s labels = some s') :
    system.Throughout Sound s labels ↔ system.Complies Fits s labels := by
  obtain ⟨start, -, page, -, rfl⟩ := init
  apply System.throughout_iff_complies (fun _ inv => inv.sound)
    (fun _ _ _ inv fits move => inv.step fits move) _ (inv_initial page) execution
  intro s label s' _ move sound
  change step s label = some s' at move
  cases label with
  | malloc ind request =>
    obtain ⟨-, returned⟩ := Option.ite_none_right_eq_some.mp move
    obtain ⟨⟨s₁, ptr⟩, -, rfl⟩ := Option.map_eq_some_iff.mp returned
    have enough := sound.enough _ List.mem_cons_self
    have small := sound.size_le List.mem_cons_self
    exact (enough.trans small).trans (by decide)
  | fails ind request => trivial
  | free ind ptr => trivial

/-- A request of each kind in two sub-heaps, and a free in the other one. -/
def requestRun : List Label :=
  [.malloc 0 (.malloc 100), .malloc 1 (.calloc 10 10), .free 1 4144]

theorem sound_requestRun : system.Throughout Sound (initial pageSize) requestRun := by
  have run : (system.run (initial pageSize) requestRun).isSome = true := by decide +kernel
  obtain ⟨s', execution⟩ := Option.isSome_iff_exists.mp run
  have init : system.Init (initial pageSize) := ⟨pageSize, by decide, dvd_rfl, by decide, rfl⟩
  apply (sound_iff_fits _ s' _ init execution).mpr
  apply System.complies_of_forall
  intro label member s
  simp only [requestRun, List.mem_cons, List.not_mem_nil, or_false] at member
  rcases member with rfl | rfl | rfl
  · simp [Fits, Request.bytes]
  · simp [Fits, Request.bytes]
  · trivial

/-- The largest `size_t` rounds up to nothing, and the block has eight bytes. -/
theorem not_sound_largest : ¬ ∀ s s' labels, system.Init s → system.run s labels = some s' →
    system.Throughout Sound s labels := by
  intro sound
  have run : (system.run (initial pageSize) [.malloc 0 (.malloc (2 ^ 64 - 1))]).any fun s =>
      s.live = [⟨4144, 2 ^ 64 - 1⟩] ∧ s.size 4144 = 8 := by decide +kernel
  obtain ⟨s', execution, facts⟩ := (Option.any_eq_true _ _).mp run
  obtain ⟨live, size⟩ := of_decide_eq_true facts
  have init : system.Init (initial pageSize) := ⟨pageSize, by decide, dvd_rfl, by decide, rfl⟩
  obtain ⟨s₁, move, same⟩ := Option.bind_eq_some_iff.mp execution
  obtain rfl := Option.some.inj same
  have final : Sound s₁ := (sound _ _ _ init execution).2 s₁ move
  have enough := final.enough ⟨4144, 2 ^ 64 - 1⟩ (live ▸ List.mem_cons_self)
  rw [size] at enough
  exact absurd enough (by decide)

end Tthread.Pheap
