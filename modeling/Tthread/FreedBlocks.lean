/-
# Where freed blocks go

The class for a freed block is found from the size in its header. An object has the size of its
class there, or one that is too large for the classes. `memalign` cuts a block in two, writes a
header for each part and frees the first one, whose size wraps so that it is dropped. The header of
the second part has the size that the program asked for: any number, of which 1 to 7 are smaller
than the smallest class. The loop of `StrictSegHeap::free` then goes below class 0.

A block that was cut still fits the list it goes to otherwise. The proof follows the heap next to
one in which each such block has the size of its class.
-/

import Tthread.Library.Alignment
import Tthread.Pheap

namespace Tthread.FreedBlocks

open Transition Pheap

/-! ## Frees -/

/-- What `StrictSegHeap::free` does with an object. -/
inductive Sent
  /-- the size is 0, so something is wrong -/
  | dropped
  /-- to the heap for large objects -/
  | big
  /-- to the list of a class -/
  | bin (c : ℤ)
  deriving DecidableEq

/-- The loop of `StrictSegHeap::free`, on the exponent in `class2Size`, which is the class and 3. It
stops at an object of one byte at the latest. -/
def fitExponent (objectSize : ℕ) : ℕ → ℕ
  | 0 => 0
  | k + 1 => if objectSize < 2 ^ (k + 1) then fitExponent objectSize k else k + 1

def sendTo (objectSize : ℕ) : Sent :=
  if objectSize = 0 then .dropped
  else if maxObjectSize < objectSize then .big
  else .bin (fitExponent objectSize (size2Class objectSize + 3) - 3)

/-- A free that was done: where the block went, and what was known about it. -/
structure Freed where
  sent : Sent
  /-- how many bytes the block had -/
  capacity : ℕ
  /-- it was too large for the classes when it was obtained -/
  big : Bool
  /-- it is the first part of a block that was cut -/
  unwanted : Bool
  deriving DecidableEq

structure State where
  heap : Pheap.State
  /-- ghost: how many bytes a block has, whatever its header says -/
  capacity : ℕ → ℕ
  /-- ghost: the block was too large for the classes -/
  big : ℕ → Bool
  /-- ghost: all frees -/
  freed : List Freed

/-- The list of a class below 0 is in front of all lists, where no list is. -/
def put (heap : Pheap.State) (ind : Fin numHeaps) (ptr : ℕ) : Sent → Pheap.State
  | .bin (.ofNat c) => heap.setBin ind c (ptr :: (heap.heap ind).myLittleHeap c)
  | _ => heap

/-- `xrun::free` -/
def State.free (s : State) (ind : Fin numHeaps) (ptr : ℕ) (unwanted : Bool) : State :=
  if ptr = 0 then s
  else
    let sent := sendTo (s.heap.size ptr)
    { s with
      heap := put s.heap ind ptr sent
      freed := ⟨sent, s.capacity ptr, s.big ptr, unwanted⟩ :: s.freed }

/-! ## Requests -/

/-- An object that is new has the size in its header. -/
def State.grow (s : State) (heap : Pheap.State) (ptr : ℕ) : State :=
  { s with
    heap
    capacity := Function.update s.capacity ptr (heap.size ptr)
    big := Function.update s.big ptr (maxObjectSize < heap.size ptr) }

/-- `xrun::malloc`. -/
def State.malloc (s : State) (ind : Fin numHeaps) (sz : ℕ) : Option (State × ℕ) :=
  (Pheap.malloc s.heap ind sz).map fun (heap, ptr) =>
    if heap.objects.length = s.heap.objects.length then ({ s with heap }, ptr)
    else (s.grow heap ptr, ptr)

inductive Errno
  | einval
  deriving DecidableEq

/-- `-n` of a `size_t`. -/
def neg (n : ℕ) : ℕ := sizeT (2 ^ 64 - n)

/-- `(mem + align - 1) & (-align)` -/
def alignUp (mem align : ℕ) : ℕ := sizeT (mem + align - 1) &&& neg align

/-- `mem - aligned - sizeof(objectHeader)` as a `size_t`. -/
def prefixSize (mem aligned : ℕ) : ℕ :=
  (((mem : ℤ) - aligned - objectHeaderSize) % 2 ^ 64).toNat

/-- A header is written in front of a pointer. -/
def State.writeHeader (s : State) (ptr size : ℕ) : State :=
  { s with heap := { s.heap with size := Function.update s.heap.size ptr size } }

/-- The bytes and the origin of a block are those of the rest of another one. -/
def State.cut (s : State) (mem aligned : ℕ) : State :=
  { s with
    capacity := Function.update (Function.update s.capacity mem (aligned - objectHeaderSize - mem))
      aligned (s.capacity mem - (aligned - mem))
    big := Function.update s.big aligned (s.big mem) }

/-- The block that was obtained starts too early. -/
def State.shift (s : State) (ind : Fin numHeaps) (mem aligned size : ℕ) : State :=
  let s := (s.writeHeader mem (prefixSize mem aligned)).cut mem aligned
  (s.free ind mem true).writeHeader aligned size

/-- `xrun::memalign`. -/
def State.memalign (s : State) (ind : Fin numHeaps) (align size : ℕ) :
    Option (State × Except Errno ℕ) :=
  if align &&& neg align ≠ align then some (s, .error .einval)
  else if align ≤ 32 then (s.malloc ind size).map fun (s, ptr) => (s, .ok ptr)
  else
    (s.malloc ind (sizeT (size + align - 1))).map fun (s, mem) =>
      let aligned := alignUp mem align
      if aligned = mem then (s, .ok mem) else (s.shift ind mem aligned size, .ok aligned)

/-! ## The program -/

inductive Call
  | malloc (sz : ℕ)
  | calloc (nmemb sz : ℕ)
  | realloc (ptr sz : ℕ)
  | memalign (align size : ℕ)

/-- The arguments are numbers of type `size_t`. -/
def Call.Typed : Call → Prop
  | .malloc sz => sz < 2 ^ 64
  | .calloc nmemb sz => nmemb < 2 ^ 64 ∧ sz < 2 ^ 64
  | .realloc _ sz => sz < 2 ^ 64
  | .memalign align size => align < 2 ^ 64 ∧ size < 2 ^ 64

instance : DecidablePred Call.Typed := fun call => by
  cases call <;> unfold Call.Typed <;> infer_instance

/-- What a call asks `malloc` of the memory for, if it does. -/
def Call.asks : Call → Option ℕ
  | .malloc sz => some sz
  | .calloc nmemb sz => some (sizeT (nmemb * sz))
  | .realloc ptr sz => if ptr = 0 ∨ sz ≠ 0 then some sz else none
  | .memalign align size =>
      if align &&& neg align ≠ align then none
      else if align ≤ 32 then some size else some (sizeT (size + align - 1))

/-- The program has a block. -/
def State.hold (s : State) (ptr bytes : ℕ) : State :=
  { s with heap := { s.heap with live := ⟨ptr, bytes⟩ :: s.heap.live } }

/-- The program gives a block up. -/
def State.release (s : State) (ptr : ℕ) : State :=
  { s with heap := { s.heap with live := s.heap.live.eraseP fun block => block.ptr = ptr } }

/-- The program may free it. -/
def State.Freeable (s : State) (ptr : ℕ) : Prop := ptr = 0 ∨ ptr ∈ s.heap.live.map Block.ptr

instance (s : State) (ptr : ℕ) : Decidable (s.Freeable ptr) := by
  unfold State.Freeable
  infer_instance

/-- `malloc`, `calloc`, `realloc` and `memalign` of `xrun`, and `free`. -/
def State.perform (s : State) (ind : Fin numHeaps) : Call → Option State
  | .malloc sz => (s.malloc ind sz).map fun (s, ptr) => s.hold ptr sz
  | .calloc nmemb sz =>
      (s.malloc ind (sizeT (nmemb * sz))).map fun (s, ptr) => s.hold ptr (nmemb * sz)
  | .realloc ptr sz =>
      if ptr = 0 then (s.malloc ind sz).map fun (s, ptr) => s.hold ptr sz
      else if sz = 0 then some ((s.release ptr).free ind ptr false)
      else
        (s.malloc ind sz).map fun (s, newptr) =>
          ((s.hold newptr sz).release ptr).free ind ptr false
  | .memalign align size =>
      (s.memalign ind align size).map fun (s, result) =>
        match result with
        | .ok ptr => s.hold ptr size
        | .error _ => s

inductive Label
  /-- a call that returns -/
  | call (ind : Fin numHeaps) (call : Call)
  /-- a call that does not return, as there is no memory -/
  | fails (ind : Fin numHeaps) (call : Call)
  | free (ind : Fin numHeaps) (ptr : ℕ)

/-- The blocks that the program names in a call are its own. -/
def State.Valid (s : State) : Call → Prop
  | .realloc ptr _ => s.Freeable ptr
  | _ => True

instance (s : State) : DecidablePred s.Valid := fun call => by
  cases call <;> unfold State.Valid <;> infer_instance

def step (s : State) : Label → Option State
  | .call ind call => if call.Typed ∧ s.Valid call then s.perform ind call else none
  | .fails ind call =>
      -- the arena is given up before `xheap` is asked, and the lock stays taken
      if call.Typed ∧ call.asks.any fun sz => (Pheap.malloc s.heap ind sz).isNone then
        some { s with heap := { s.heap.setArena ind none with
          xheap := { s.heap.xheap with locked := true } } }
      else none
  | .free ind ptr => if s.Freeable ptr then some ((s.release ptr).free ind ptr false) else none

def initial (start : ℕ) : State where
  heap := Pheap.initial start
  capacity _ := 0
  big _ := false
  freed := []

def system : System State Label where
  Init s := ∃ start, 0 < start ∧ Pheap.pageSize ∣ start ∧ start + protectedHeapSize ≤ 2 ^ 64 ∧
    s = initial start
  step := step

/-! ## What has to hold -/

/-- A block goes to the list of a class that it is large enough for, or to the heap for large
objects if it came from there or is not wanted, or it is dropped. -/
def Freed.Fits (freed : Freed) : Prop :=
  match freed.sent with
  | .dropped => True
  | .big => freed.big = true ∨ freed.unwanted = true
  | .bin c => 0 ≤ c ∧ c < numBins ∧ class2Size c.toNat ≤ freed.capacity

/-- All frees fit, and what is in a list is large enough for it. -/
structure Landed (s : State) : Prop where
  frees : ∀ freed ∈ s.freed, freed.Fits
  bins : ∀ ind c, ∀ ptr ∈ (s.heap.heap ind).myLittleHeap c,
    c < numBins ∧ class2Size c ≤ s.capacity ptr

/-- The size after the rounding of `ANSIWrapper`. -/
def rounded (sz : ℕ) : ℕ := align (if sz < 16 then 16 else sz)

/-- The rounded size leaves room in a `size_t` for all that is added to it. -/
def Roomy (sz : ℕ) : Prop := rounded sz + 4143 < 2 ^ 64

/-- The header of a block does not have a size from 1 to 7. -/
def State.Classed (s : State) (ptr : ℕ) : Prop :=
  ptr = 0 ∨ s.heap.size ptr = 0 ∨ 8 ≤ s.heap.size ptr

/-- No sum wraps where `memalign` cuts a block. -/
def State.CutsRight (s : State) (ind : Fin numHeaps) (align size : ℕ) : Prop :=
  align &&& neg align = align → 32 < align → ∀ s' mem,
    s.malloc ind (sizeT (size + align - 1)) = some (s', mem) →
      alignUp mem align = mem ∨ size + align - 1 ≤ 2 ^ 64 - 4144

/-- Nothing wraps in a call that returns, and no block with a size from 1 to 7 is given back. -/
def Ok (s : State) : Label → Prop
  | .call ind call => (∀ sz, call.asks = some sz → Roomy sz) ∧
      match call with
      | .realloc ptr _ => s.Classed ptr
      | .memalign align size => s.CutsRight ind align size
      | _ => True
  | .fails .. => True
  | .free _ ptr => s.Classed ptr

/-! ## Sizes and classes -/

/-- The loop ends at a power that is not larger. -/
theorem two_pow_fitExponent_le {objectSize : ℕ} (positive : 0 < objectSize) (k : ℕ) :
    2 ^ fitExponent objectSize k ≤ objectSize := by
  induction k with
  | zero => exact positive
  | succ k ih =>
    rw [fitExponent]
    split_ifs with less
    · exact ih
    · exact Nat.le_of_not_lt less

/-- The loop does not go below a power that is not larger. -/
theorem le_fitExponent {objectSize j k : ℕ} (le : 2 ^ j ≤ objectSize) (below : j ≤ k) :
    j ≤ fitExponent objectSize k := by
  induction k with
  | zero => exact below
  | succ k ih =>
    rw [fitExponent]
    split_ifs with less
    · refine ih (Nat.le_of_lt_succ (Nat.lt_of_le_of_ne below fun same => ?_))
      rw [same] at le
      omega
    · exact below

/-- The class that a size of at least 8 is sent to. -/
def fit (objectSize : ℕ) : ℕ := fitExponent objectSize (size2Class objectSize + 3) - 3

theorem fitExponent_eq {objectSize : ℕ} (low : 8 ≤ objectSize) :
    fitExponent objectSize (size2Class objectSize + 3) = fit objectSize + 3 := by
  have three : 3 ≤ fitExponent objectSize (size2Class objectSize + 3) :=
    le_fitExponent low (Nat.le_add_left 3 _)
  rw [fit]
  omega

theorem class2Size_fit_le {objectSize : ℕ} (low : 8 ≤ objectSize) :
    class2Size (fit objectSize) ≤ objectSize := by
  rw [class2Size, ← fitExponent_eq low]
  exact two_pow_fitExponent_le (by omega) _

theorem fit_class2Size (c : ℕ) : fit (class2Size c) = c := by
  have enough : c + 3 ≤ fitExponent (class2Size c) (size2Class (class2Size c) + 3) := by
    rw [size2Class_class2Size]
    exact le_fitExponent le_rfl le_rfl
  have low : 8 ≤ class2Size c := Nat.pow_le_pow_right Nat.two_pos (Nat.le_add_left 3 c)
  have most := class2Size_fit_le low
  have order := (Nat.pow_le_pow_iff_right (a := 2) Nat.one_lt_two).mp most
  rw [fitExponent_eq low] at enough
  omega

theorem sendTo_of_fits {objectSize : ℕ} (low : 8 ≤ objectSize) (high : objectSize ≤ maxObjectSize) :
    sendTo objectSize = .bin (.ofNat (fit objectSize)) := by
  rw [sendTo, if_neg (by omega), if_neg (by omega), fitExponent_eq low]
  congr 1
  push_cast
  simp

/-! ## The heap behind the headers -/

variable {h h' g g' : Pheap.State} {s s' : State} {owner : ℕ → ℕ} {ind : Fin numHeaps}
  {sz ptr mem : ℕ} {size : ℕ → ℕ} {objects : List ℕ} {live : List Block}

/-- The same heap with other records of the objects. -/
def recount (h : Pheap.State) (size : ℕ → ℕ) (objects : List ℕ) (live : List Block) :
    Pheap.State := { h with size, objects, live }

/-- The zone does not look at objects. -/
theorem zoneMalloc_recount : zoneMalloc (recount h size objects live) ind sz =
    (zoneMalloc h ind sz).map fun given => (recount given.1 size objects live, given.2) := by
  have arena : ∀ (h : Pheap.State) arena sz,
      arenaMalloc (recount h size objects live) ind arena sz =
        (arenaMalloc h ind arena sz).map fun given =>
          (recount given.1 size objects live, given.2) := by
    intro h arena sz
    rw [arenaMalloc, arenaMalloc, Option.map_map]
    rfl
  have slow : ∀ sz, slowMalloc (recount h size objects live) ind sz =
      (slowMalloc h ind sz).map fun given => (recount given.1 size objects live, given.2) := by
    intro sz
    have refilled : refill (recount h size objects live) ind sz =
        (refill h ind sz).map fun given => (recount given.1 size objects live, given.2) := by
      rw [refill, refill, Option.map_map]
      rfl
    rw [slowMalloc, slowMalloc, refilled, Option.bind_map, Option.map_bind]
    exact Option.bind_congr fun given _ => arena given.1 given.2 sz
  have same : ((recount h size objects live).heap ind).currentArena =
      (h.heap ind).currentArena := rfl
  simp only [zoneMalloc, same]
  split
  · split
    · exact arena h _ _
    · exact slow _
  · exact slow _

/-- The zone does not change what is known about objects. -/
theorem zoneMalloc_frame (given : zoneMalloc h ind sz = some (h', ptr)) :
    h'.size = h.size ∧ h'.objects = h.objects ∧ h'.live = h.live := by
  have same : zoneMalloc (recount h h.size h.objects h.live) ind sz = some (h', ptr) := given
  rw [zoneMalloc_recount, given] at same
  have kept : recount h' h.size h.objects h.live = h' :=
    (Prod.mk.inj (Option.some.inj same)).1
  rw [← kept]
  exact ⟨rfl, rfl, rfl⟩

theorem zoneMalloc_bins (given : zoneMalloc h ind sz = some (h', ptr)) (other : Fin numHeaps) :
    (h'.heap other).myLittleHeap = (h.heap other).myLittleHeap := by
  have arena : ∀ {h₁ : Pheap.State} {arena sz}, arenaMalloc h₁ ind arena sz = some (h', ptr) →
      (h'.heap other).myLittleHeap = (h₁.heap other).myLittleHeap := by
    intro h₁ arena sz given
    obtain ⟨result, -, equal⟩ := Option.map_eq_some_iff.mp given
    obtain ⟨rfl, -⟩ := Prod.mk.inj equal
    exact setArena_myLittleHeap ..
  have slow : ∀ {sz}, slowMalloc h ind sz = some (h', ptr) →
      (h'.heap other).myLittleHeap = (h.heap other).myLittleHeap := by
    intro sz given
    obtain ⟨⟨h₁, arena₁⟩, refilled, given⟩ := Option.bind_eq_some_iff.mp given
    obtain ⟨result, -, equal⟩ := Option.map_eq_some_iff.mp refilled
    obtain ⟨rfl, -⟩ := Prod.mk.inj equal
    rw [arena given]
    exact setArena_myLittleHeap ..
  simp only [zoneMalloc] at given
  split at given
  · split at given
    · exact arena given
    · exact slow given
  · exact slow given

/-- What a new object adds. -/
theorem bigMalloc_frame (given : bigMalloc h ind sz = some (h', ptr)) :
    h'.size = Function.update h.size ptr sz ∧ h'.objects = ptr :: h.objects ∧
      h'.live = h.live ∧ ∀ ind, (h'.heap ind).myLittleHeap = (h.heap ind).myLittleHeap := by
  obtain ⟨⟨h₁, p⟩, zone, equal⟩ := Option.map_eq_some_iff.mp given
  obtain ⟨rfl, rfl⟩ := Prod.mk.inj equal
  obtain ⟨size, objects, live⟩ := zoneMalloc_frame zone
  refine ⟨?_, ?_, live, fun other => zoneMalloc_bins zone other⟩
  · rw [← size]
  · rw [← objects]

theorem bigMalloc_recount : bigMalloc (recount h size objects live) ind sz =
    (bigMalloc h ind sz).map fun given =>
      (recount given.1 (Function.update size given.2 sz) (given.2 :: objects) live, given.2) := by
  rw [bigMalloc, bigMalloc, zoneMalloc_recount, Option.map_map, Option.map_map]
  rfl

/-- An object comes from the list of its class, or it is new. Which of the two does not depend on
what is known about objects. -/
theorem malloc_cases (given : Pheap.malloc h ind sz = some (h', ptr)) :
    (∃ rest, rounded sz ≤ maxObjectSize ∧
      (h.heap ind).myLittleHeap (size2Class (rounded sz)) = ptr :: rest ∧
      h' = h.setBin ind (size2Class (rounded sz)) rest ∧
      ∀ size objects live, Pheap.malloc (recount h size objects live) ind sz =
        some (recount h' size objects live, ptr)) ∨
    ∃ n, (rounded sz ≤ maxObjectSize ∧ n = class2Size (size2Class (rounded sz)) ∨
        maxObjectSize < rounded sz ∧ n = rounded sz) ∧
      bigMalloc h ind n = some (h', ptr) ∧
      ∀ size objects live,
        bigMalloc (recount h size objects live) ind n =
          some (recount h' (Function.update size ptr n) (ptr :: objects) live, ptr) ∧
        Pheap.malloc (recount h size objects live) ind sz =
          some (recount h' (Function.update size ptr n) (ptr :: objects) live, ptr) := by
  -- `bigMalloc` does not read what is recounted, so it gives the same object in both.
  have new : ∀ {n}, bigMalloc h ind n = some (h', ptr) → ∀ size objects live,
      bigMalloc (recount h size objects live) ind n =
        some (recount h' (Function.update size ptr n) (ptr :: objects) live, ptr) := by
    intro n given size objects live
    rw [bigMalloc_recount, given]
    rfl
  change segMalloc h ind (rounded sz) = _ at given
  rw [segMalloc] at given
  split at given
  · next small =>
    split at given
    · next p rest first =>
      obtain ⟨rfl, rfl⟩ := Prod.mk.inj (Option.some.inj given)
      refine .inl ⟨rest, small, first, rfl, fun size objects live => ?_⟩
      have listed : ((recount h size objects live).heap ind).myLittleHeap
          (size2Class (rounded sz)) = p :: rest := first
      show segMalloc (recount h size objects live) ind (rounded sz) = _
      rw [segMalloc, if_pos small, listed]
      rfl
    -- The list of the class is empty: a new object of the size of the class.
    · next empty =>
      refine .inr ⟨_, .inl ⟨small, rfl⟩, given, fun size objects live => ⟨new given .., ?_⟩⟩
      have listed : ((recount h size objects live).heap ind).myLittleHeap
          (size2Class (rounded sz)) = [] := empty
      show segMalloc (recount h size objects live) ind (rounded sz) = _
      rw [segMalloc, if_pos small, listed]
      exact new given ..
  -- Too large for a class: a new object of the size asked for.
  · next large =>
    refine .inr ⟨_, .inr ⟨Nat.lt_of_not_le large, rfl⟩, given, fun size objects live =>
      ⟨new given .., ?_⟩⟩
    exact (if_neg large).trans (new given ..)

/-- A request asks `xheap` for a range, or for nothing. -/
theorem malloc_source (given : Pheap.malloc h ind sz = some (h', ptr)) :
    h'.xheap = h.xheap ∧ h'.ranges = h.ranges ∨
      ∃ length buf, h.xheap.malloc length = some (h'.xheap, buf) ∧
        h'.ranges = (buf, pageRound length) :: h.ranges := by
  have arena : ∀ {h₁ h₂ : Pheap.State} {arena sz p}, arenaMalloc h₁ ind arena sz = some (h₂, p) →
      h₂.xheap = h₁.xheap ∧ h₂.ranges = h₁.ranges := by
    intro h₁ h₂ arena sz p given
    obtain ⟨result, -, equal⟩ := Option.map_eq_some_iff.mp given
    obtain ⟨rfl, -⟩ := Prod.mk.inj equal
    exact ⟨rfl, rfl⟩
  have slow : ∀ {h₂ sz p}, slowMalloc h ind sz = some (h₂, p) →
      ∃ length buf, h.xheap.malloc length = some (h₂.xheap, buf) ∧
        h₂.ranges = (buf, pageRound length) :: h.ranges := by
    intro h₂ sz p given
    obtain ⟨⟨h₁, arena₁⟩, refilled, given⟩ := Option.bind_eq_some_iff.mp given
    obtain ⟨⟨xheap, buf⟩, handed, equal⟩ := Option.map_eq_some_iff.mp refilled
    obtain ⟨rfl, -⟩ := Prod.mk.inj equal
    obtain ⟨source, ranges⟩ := arena given
    rw [source, ranges]
    exact ⟨_, buf, handed, rfl⟩
  have zone : ∀ {h₂ sz p}, zoneMalloc h ind sz = some (h₂, p) →
      h₂.xheap = h.xheap ∧ h₂.ranges = h.ranges ∨
        ∃ length buf, h.xheap.malloc length = some (h₂.xheap, buf) ∧
          h₂.ranges = (buf, pageRound length) :: h.ranges := by
    intro h₂ sz p given
    simp only [zoneMalloc] at given
    split at given
    · split at given
      · exact .inl (arena given)
      · exact .inr (slow given)
    · exact .inr (slow given)
  rcases malloc_cases given with ⟨rest, -, -, rfl, -⟩ | ⟨n, -, new, -⟩
  · exact .inl ⟨rfl, rfl⟩
  · obtain ⟨⟨h₁, p⟩, taken, equal⟩ := Option.map_eq_some_iff.mp new
    obtain ⟨rfl, -⟩ := Prod.mk.inj equal
    have source := zone taken
    exact source

/-- Whatever is asked for, what `xheap` has handed out stays in order, and the space where it is. -/
theorem malloc_handout (given : Pheap.malloc h ind sz = some (h', ptr))
    (out : Handout h.xheap h.ranges) :
    Handout h'.xheap h'.ranges ∧ h'.xheap.start = h.xheap.start := by
  rcases malloc_source given with ⟨source, ranges⟩ | ⟨length, buf, handed, ranges⟩
  · rw [source, ranges]
    exact ⟨out, rfl⟩
  · obtain ⟨out', -, -, -, -, start⟩ := out.malloc handed
    rw [ranges]
    exact ⟨out', start⟩

/-! ## Cutting an object in two -/

/-- The rest of an object is an object, and the object is none. -/
def split (g : Pheap.State) (mem aligned n : ℕ) : Pheap.State :=
  recount g (Function.update g.size aligned n) (aligned :: g.objects.filter (· ≠ mem)) g.live

/-- A pointer whose header is among the bytes of an object. -/
def Within (g : Pheap.State) (o ptr : ℕ) : Prop :=
  ∃ x ∈ g.extent (.object o), x + objectHeaderSize = ptr

theorem within_self (known : ptr ∈ g.objects) {x : ℕ} (behind : x + objectHeaderSize = ptr) :
    x ∈ g.extent (.object ptr) := by
  have positive : 0 < objectHeaderSize := by decide
  exact ⟨known, behind.ge, by omega⟩

/-- The header of an object is not among the bytes of another one. -/
theorem Within.eq {o : ℕ} (within : Within g o ptr) (inv : Inv g) (known : ptr ∈ g.objects) :
    o = ptr := by
  obtain ⟨x, inside, behind⟩ := within
  exact Piece.object.inj (Carving.eq_of_mem inv.apart inside (within_self known behind))

theorem split_inv {aligned n : ℕ} (inv : Inv g) (known : mem ∈ g.objects)
    (unlisted : ∀ place, mem ∉ g.listed place) (later : mem ≤ aligned)
    (within : Within g mem aligned) (other : aligned ≠ mem)
    (fits : aligned + n ≤ mem + g.size mem) (sized : Sized n) : Inv (split g mem aligned n) := by
  -- `aligned` lies inside `mem`, and objects that are known do not overlap.
  have new : aligned ∉ g.objects := fun old => other (within.eq inv old).symm
  have same : ∀ o, o ∈ g.objects → (split g mem aligned n).size o = g.size o := by
    intro o old
    have different : o ≠ aligned := fun equal => new (equal ▸ old)
    exact Function.update_of_ne different _ _
  -- The new object is cut out of the old one, and every other piece is as it was.
  have cut : ∀ piece, ∀ x ∈ (split g mem aligned n).extent piece,
      x ∈ g.extent (.object mem) ∧ piece = .object aligned ∨
      x ∈ g.extent piece ∧ (piece = .object mem → x ∉ g.extent (.object mem)) := by
    intro piece x member
    cases piece with
    | fresh => exact .inr ⟨member, nofun⟩
    | rest other => exact .inr ⟨member, nofun⟩
    | arena buf => exact .inr ⟨member, nofun⟩
    | object o =>
      obtain ⟨listed, low, high⟩ := member
      rcases List.mem_cons.mp listed with rfl | old
      · have size : (split g mem o n).size o = n := Function.update_self ..
        rw [size] at high
        exact .inl ⟨⟨known, by omega, by omega⟩, rfl⟩
      · obtain ⟨old, kept⟩ := List.mem_filter.mp old
        rw [same o old] at high
        refine .inr ⟨⟨old, low, high⟩, fun gone => ?_⟩
        simp [Piece.object.inj gone] at kept
  have listed : (split g mem aligned n).listed = g.listed := by
    funext place
    cases place <;> rfl
  -- What is listed is not the object that is cut, so it stays an object.
  have kept : ∀ place, ∀ p ∈ g.listed place, p ∈ g.objects ∧
      p ∈ (split g mem aligned n).objects := by
    intro place p member
    have old := inv.records.known place p member
    have different : p ≠ mem := fun equal => unlisted place (equal ▸ member)
    exact ⟨old, List.mem_cons_of_mem _ (List.mem_filter.mpr ⟨old, by simpa using different⟩)⟩
  refine ⟨inv.handout, Carving.pairwise_carve inv.apart subset_rfl _ cut, ?_, ?_, ?_, ?_, ?_, ?_⟩
  · intro piece used x member
    rcases cut piece x member with ⟨part, -⟩ | ⟨old, -⟩
    · exact inv.handed (.object mem) nofun x part
    · exact inv.handed piece used x old
  · intro o member
    rcases List.mem_cons.mp member with rfl | old
    · have size : (split g mem o n).size o = n := Function.update_self ..
      rw [size]
      exact sized
    · rw [same o (List.mem_filter.mp old).1]
      exact inv.records.sized o (List.mem_filter.mp old).1
  · intro place p member
    rw [listed] at member
    exact (kept place p member).2
  · rw [listed]
    exact inv.records.spread
  · intro ind c p member
    rw [same p (kept (.bin ind c) p member).1]
    exact inv.records.classes ind c p member
  · intro block member
    rw [same _ (kept .live block.ptr (List.mem_map_of_mem member)).1]
    exact inv.records.enough block member

/-! ## Following the heap -/

/-- A block that fits the class it is sent to. -/
structure Fitting (s : State) (g : Pheap.State) (ptr : ℕ) : Prop where
  low : 8 ≤ s.heap.size ptr
  high : s.heap.size ptr ≤ maxObjectSize
  size : g.size ptr = class2Size (fit (s.heap.size ptr))
  enough : g.size ptr ≤ s.capacity ptr

/-- A block lies in an object that the program has. It is the object itself if it can go to a
list. -/
structure Owns (s : State) (g : Pheap.State) (ptr o : ℕ) : Prop where
  held : o ∈ g.listed .live
  within : Within g o ptr
  fitting : 8 ≤ s.heap.size ptr → s.heap.size ptr ≤ maxObjectSize → o = ptr ∧ Fitting s g ptr
  large : maxObjectSize < s.heap.size ptr → s.big ptr = true

/-- The heap next to one whose objects have the sizes of their classes. -/
structure Shadow (s : State) (g : Pheap.State) (owner : ℕ → ℕ) : Prop where
  frame : g = recount s.heap g.size g.objects g.live
  inv : Inv g
  start : 0 < s.heap.xheap.start
  finish : s.heap.xheap.finish ≤ 2 ^ 64
  bins : ∀ ind c, ∀ ptr ∈ (s.heap.heap ind).myLittleHeap c, Fitting s g ptr
  nodup : (s.heap.listed .live).Nodup
  owns : ∀ ptr ∈ s.heap.listed .live, Owns s g ptr (owner ptr)
  single : ∀ p ∈ s.heap.listed .live, ∀ q ∈ s.heap.listed .live, owner p = owner q → p = q
  frees : ∀ freed ∈ s.freed, freed.Fits

theorem Fitting.keep (fitting : Fitting s g ptr) (header : s'.heap.size ptr = s.heap.size ptr)
    (capacity : s'.capacity ptr = s.capacity ptr) (size : g'.size ptr = g.size ptr) :
    Fitting s' g' ptr where
  low := header ▸ fitting.low
  high := header ▸ fitting.high
  size := by rw [size, header, fitting.size]
  enough := by
    rw [size, capacity]
    exact fitting.enough

/-- An object that stays as it is has the bytes that it had. -/
theorem Within.keep {o : ℕ} (within : Within g o ptr) (known : o ∈ g'.objects)
    (size : g'.size o = g.size o) : Within g' o ptr := by
  obtain ⟨x, ⟨-, low, high⟩, behind⟩ := within
  exact ⟨x, ⟨known, low, size ▸ high⟩, behind⟩

theorem Owns.keep {o : ℕ} (owns : Owns s g ptr o) (held : o ∈ g'.listed .live)
    (within : Within g' o ptr) (header : s'.heap.size ptr = s.heap.size ptr)
    (capacity : s'.capacity ptr = s.capacity ptr) (big : s'.big ptr = s.big ptr)
    (size : g'.size o = g.size o) : Owns s' g' ptr o where
  held := held
  within := within
  fitting := by
    rw [header]
    intro low high
    obtain ⟨rfl, fitting⟩ := owns.fitting low high
    exact ⟨rfl, fitting.keep header capacity size⟩
  large := by
    rw [header, big]
    exact owns.large

theorem Shadow.known (shadow : Shadow s g owner) {place : Place} (listed : ptr ∈ g.listed place) :
    ptr ∈ g.objects := shadow.inv.records.known place ptr listed

theorem Shadow.binned (shadow : Shadow s g owner) {ind : Fin numHeaps} {c : ℕ}
    (listed : ptr ∈ (s.heap.heap ind).myLittleHeap c) : ptr ∈ g.listed (.bin ind c) := by
  rw [shadow.frame]
  exact listed

/-- The heap with its frees and lists is as it should be. -/
theorem Shadow.landed (shadow : Shadow s g owner) : Landed s where
  frees := shadow.frees
  bins ind c ptr listed := by
    have fitting := shadow.bins ind c ptr listed
    have size := shadow.inv.records.classes ind c ptr (shadow.binned listed)
    have enough := fitting.enough
    have least := (class2Size_fit_le fitting.low).trans fitting.high
    rw [size] at enough
    rw [← fitting.size, size] at least
    have order := (Nat.pow_le_pow_iff_right (a := 2) Nat.one_lt_two).mp least
    refine ⟨?_, enough⟩
    unfold numBins at order ⊢
    omega

/-- An object has its header in front of it, and ends in the space. -/
theorem Shadow.bounds (shadow : Shadow s g owner) (known : ptr ∈ g.objects) :
    objectHeaderSize ≤ ptr ∧ ptr + g.size ptr ≤ 2 ^ 64 := by
  have source : g.xheap = s.heap.xheap := by rw [shadow.frame]; rfl
  have inside : ∀ x ∈ g.extent (.object ptr), 0 < x ∧ x < 2 ^ 64 := by
    intro x member
    obtain ⟨range, listed, within⟩ := shadow.inv.handed (.object ptr) nofun x member
    obtain ⟨-, low, high⟩ := shadow.inv.handout.inside range listed
    have room := shadow.inv.handout.room
    have start := shadow.start
    have finish := shadow.finish
    rw [source] at low room high
    rw [mem_span] at within
    omega
  have positive : 0 < g.size ptr := by
    rcases shadow.inv.records.sized ptr known with large | ⟨c, size⟩
    · omega
    · rw [size]
      exact Nat.two_pow_pos _
  have header : objectHeaderSize ≤ ptr := by
    by_contra short
    have first := (inside 0 ⟨known, by omega, by unfold objectHeaderSize at short; omega⟩).1
    omega
  refine ⟨header, ?_⟩
  by_contra long
  have last := (inside (2 ^ 64) ⟨known, ?_, by omega⟩).2
  · omega
  · have low := (inside (ptr - objectHeaderSize) ⟨known, by omega, ?_⟩).2
    · unfold objectHeaderSize at low ⊢
      omega
    · unfold objectHeaderSize at header ⊢
      omega

/-- The block of an object that the program does not have is not one of its blocks. -/
theorem Shadow.ne_of_within (shadow : Shadow s g owner) {p o : ℕ} (held : p ∈ s.heap.listed .live)
    (within : Within g o ptr) (unlisted : o ∉ g.listed .live) : p ≠ ptr := by
  rintro rfl
  have owns := shadow.owns p held
  obtain ⟨x, inside, behind⟩ := owns.within
  obtain ⟨y, inside', behind'⟩ := within
  obtain rfl : x = y := by omega
  have same := Piece.object.inj (Carving.eq_of_mem shadow.inv.apart inside inside')
  exact unlisted (same ▸ owns.held)

/-! ## What `malloc` obtains -/

/-- A request has obtained an object that the program does not have yet. -/
structure Obtained (s s' : State) (g g' : Pheap.State) (owner : ℕ → ℕ) (sz ptr : ℕ) : Prop where
  shadow : Shadow s' g' owner
  known : ptr ∈ g'.objects
  unlisted : ∀ place, ptr ∉ g'.listed place
  asked : rounded sz ≤ g'.size ptr
  room : g'.size ptr ≤ s'.capacity ptr
  header : g'.size ptr ≤ s'.heap.size ptr
  fitting : s'.heap.size ptr ≤ maxObjectSize → Fitting s' g' ptr
  large : maxObjectSize < s'.heap.size ptr → s'.big ptr = true
  live : s'.heap.live = s.heap.live
  headers : ∀ p ∈ s.heap.listed .live, s'.heap.size p = s.heap.size p

theorem eight_dvd_rounded (sz : ℕ) : 8 ∣ rounded sz := Nat.dvd_mul_left 8 _

theorem eight_le_class2Size (c : ℕ) : 8 ≤ class2Size c :=
  Nat.pow_le_pow_right Nat.two_pos (Nat.le_add_left 3 c)

/-- **An object from a list.** -/
theorem Shadow.pop (shadow : Shadow s g owner) (roomy : Roomy sz) {rest : List ℕ}
    (first : (s.heap.heap ind).myLittleHeap (size2Class (rounded sz)) = ptr :: rest)
    (given : Pheap.malloc g ind sz =
      some (recount (s.heap.setBin ind (size2Class (rounded sz)) rest) g.size g.objects g.live,
        ptr)) :
    ∃ g', Obtained s { s with heap := s.heap.setBin ind (size2Class (rounded sz)) rest } g g' owner
      sz ptr := by
  have grants := shadow.inv.segMalloc (eight_dvd_rounded sz) roomy given
  have listed : ptr ∈ (s.heap.heap ind).myLittleHeap (size2Class (rounded sz)) :=
    first ▸ List.mem_cons_self
  have fitting := shadow.bins ind _ ptr listed
  have fewer : ∀ other c, ∀ p ∈ ((s.heap.setBin ind (size2Class (rounded sz)) rest).heap
      other).myLittleHeap c, p ∈ (s.heap.heap other).myLittleHeap c := by
    intro other c p member
    rw [setBin_myLittleHeap] at member
    split at member
    · next here =>
      obtain ⟨rfl, rfl⟩ := here
      exact first ▸ List.mem_cons_of_mem ptr member
    · exact member
  have kept : Fitting { s with heap := s.heap.setBin ind (size2Class (rounded sz)) rest }
      (recount (s.heap.setBin ind (size2Class (rounded sz)) rest) g.size g.objects g.live) ptr :=
    fitting.keep rfl rfl rfl
  refine ⟨_, ⟨rfl, grants.inv, shadow.start, shadow.finish, ?_, shadow.nodup, ?_, shadow.single,
    shadow.frees⟩, grants.known, grants.unlisted, grants.enough, fitting.enough, ?_,
    fun _ => kept, ?_, rfl, fun _ _ => rfl⟩
  · exact fun other c p member => (shadow.bins other c p (fewer other c p member)).keep rfl rfl rfl
  · intro p held
    have owns := shadow.owns p held
    exact owns.keep owns.held (owns.within.keep (shadow.known owns.held) rfl) rfl rfl rfl rfl
  · have least := class2Size_fit_le fitting.low
    rw [← fitting.size] at least
    exact least
  · exact fun over_ => absurd fitting.high (Nat.not_le_of_lt over_)

/-- A new object is none that was there before. -/
theorem bigMalloc_new {n : ℕ} (inv : Inv g) (multiple : 8 ∣ n) (fits : n + 4143 < 2 ^ 64)
    (given : bigMalloc g ind n = some (g', ptr)) : ptr ∉ g.objects := by
  obtain ⟨g₁, arena, refilled, current, room, -, rfl⟩ := inv.bigMalloc_cases multiple fits given
  rw [← refilled.objects]
  exact refilled.inv.place_new current (by omega)

/-- The heap with a new object. -/
def add (g h' : Pheap.State) (ptr n : ℕ) : Pheap.State :=
  recount h' (Function.update g.size ptr n) (ptr :: g.objects) g.live

theorem add_size_self {n : ℕ} : (add g h' ptr n).size ptr = n := Function.update_self ..

theorem add_size_of_ne {n o : ℕ} (different : o ≠ ptr) : (add g h' ptr n).size o = g.size o :=
  Function.update_of_ne different _ _

theorem grow_capacity_self : (s.grow h' ptr).capacity ptr = h'.size ptr := Function.update_self ..

theorem grow_capacity_of_ne {o : ℕ} (different : o ≠ ptr) :
    (s.grow h' ptr).capacity o = s.capacity o := Function.update_of_ne different _ _

theorem grow_big_self : (s.grow h' ptr).big ptr = decide (maxObjectSize < h'.size ptr) :=
  Function.update_self ..

theorem grow_big_of_ne {o : ℕ} (different : o ≠ ptr) : (s.grow h' ptr).big o = s.big o :=
  Function.update_of_ne different _ _

/-- **A new object.** -/
theorem Shadow.fresh (shadow : Shadow s g owner) (roomy : Roomy sz) {n : ℕ}
    (which : rounded sz ≤ maxObjectSize ∧ n = class2Size (size2Class (rounded sz)) ∨
      maxObjectSize < rounded sz ∧ n = rounded sz)
    (new : bigMalloc s.heap ind n = some (h', ptr))
    (new' : bigMalloc g ind n = some (add g h' ptr n, ptr))
    (given : Pheap.malloc g ind sz = some (add g h' ptr n, ptr)) :
    ∃ g', Obtained s (s.grow h' ptr) g g' owner sz ptr := by
  have grants := shadow.inv.segMalloc (eight_dvd_rounded sz) roomy given
  obtain ⟨size, objects, live, bins⟩ := bigMalloc_frame new
  have start : h'.xheap.start = s.heap.xheap.start := by
    have same := (malloc_handout given shadow.inv.handout).2
    rw [shadow.frame] at same
    exact same
  have header : h'.size ptr = n := by rw [size, Function.update_self]
  have multiple : 8 ∣ n := by
    rcases which with ⟨-, rfl⟩ | ⟨-, rfl⟩
    · exact eight_dvd_class2Size _
    · exact eight_dvd_rounded sz
  have bound : maxObjectSize = 2147483648 := by decide
  have fits : n + 4143 < 2 ^ 64 := by
    rcases which with ⟨small, rfl⟩ | ⟨-, rfl⟩
    · have most := class2Size_le_max small
      omega
    · exact roomy
  have unknown := bigMalloc_new shadow.inv multiple fits new'
  have other : ∀ o ∈ g.objects,
      o ∈ (add g h' ptr n).objects ∧
        (add g h' ptr n).size o = g.size o := by
    intro o old
    have different : o ≠ ptr := fun equal => unknown (equal ▸ old)
    exact ⟨List.mem_cons_of_mem _ old, add_size_of_ne different⟩
  -- no block of the program has its header where the new one is
  have away : ∀ p ∈ s.heap.listed .live, p ≠ ptr := by
    rintro p held rfl
    have owns := shadow.owns p held
    have old := shadow.known owns.held
    obtain ⟨known, same⟩ := other _ old
    have equal := (owns.within.keep known same).eq grants.inv grants.known
    exact unknown (equal ▸ old)
  have kept : ∀ p, p ≠ ptr → h'.size p = s.heap.size p := by
    intro p different
    rw [size, Function.update_of_ne different]
  have listed : h'.listed .live = s.heap.listed .live := by rw [State.listed, live]; rfl
  have fitting : n ≤ maxObjectSize → Fitting (s.grow h' ptr) (add g h' ptr n) ptr := by
    intro small
    obtain ⟨c, rfl⟩ : ∃ c, n = class2Size c := by
      rcases which with ⟨-, equal⟩ | ⟨large, rfl⟩
      · exact ⟨_, equal⟩
      · omega
    refine ⟨header ▸ eight_le_class2Size c, header ▸ small, ?_, ?_⟩
    · rw [add_size_self]
      change _ = class2Size (fit (h'.size ptr))
      rw [header, fit_class2Size]
    · rw [add_size_self, grow_capacity_self, header]
  refine ⟨add g h' ptr n, ⟨rfl, grants.inv, start ▸ shadow.start, ?_, ?_, ?_, ?_, ?_,
    shadow.frees⟩, grants.known, grants.unlisted, grants.enough, ?_, ?_, ?_, ?_, live, ?_⟩
  · have finish := shadow.finish
    change h'.xheap.finish ≤ 2 ^ 64
    rw [Xheap.finish] at finish ⊢
    rw [start]
    exact finish
  · intro other_ c p member
    change p ∈ (h'.heap other_).myLittleHeap c at member
    rw [bins] at member
    have old := shadow.known (shadow.binned member)
    have different : p ≠ ptr := fun equal => unknown (equal ▸ old)
    exact (shadow.bins other_ c p member).keep (kept p different)
      (grow_capacity_of_ne different) (other p old).2
  · change (h'.listed .live).Nodup
    rw [listed]
    exact shadow.nodup
  · change ∀ p ∈ h'.listed .live, _
    rw [listed]
    intro p held
    have owns := shadow.owns p held
    obtain ⟨known, same⟩ := other _ (shadow.known owns.held)
    exact owns.keep owns.held (owns.within.keep known same) (kept p (away p held))
      (grow_capacity_of_ne (away p held)) (grow_big_of_ne (away p held)) same
  · change ∀ p ∈ h'.listed .live, ∀ q ∈ h'.listed .live, _
    rw [listed]
    exact shadow.single
  · rw [add_size_self, grow_capacity_self, header]
  · rw [add_size_self]
    exact header.ge
  · intro small
    exact fitting (header ▸ small)
  · intro large
    rw [grow_big_self]
    exact decide_eq_true large
  · exact fun p held => kept p (away p held)

/-- **What a request that returns obtains.** -/
theorem Shadow.malloc (shadow : Shadow s g owner) (roomy : Roomy sz)
    (returned : s.malloc ind sz = some (s', ptr)) : ∃ g', Obtained s s' g g' owner sz ptr := by
  obtain ⟨⟨h', p⟩, given, equal⟩ := Option.map_eq_some_iff.mp returned
  change (if h'.objects.length = s.heap.objects.length then ({ s with heap := h' }, p)
    else (s.grow h' p, p)) = (s', ptr) at equal
  rcases malloc_cases given with ⟨rest, -, first, rfl, same⟩ | ⟨n, which, new, same⟩
  · have length : (s.heap.setBin ind (size2Class (rounded sz)) rest).objects.length =
        s.heap.objects.length := rfl
    rw [if_pos length] at equal
    obtain ⟨rfl, rfl⟩ := Prod.mk.inj equal
    have parallel := same g.size g.objects g.live
    rw [← shadow.frame] at parallel
    exact shadow.pop roomy first parallel
  · have length : h'.objects.length ≠ s.heap.objects.length := by
      rw [(bigMalloc_frame new).2.1, List.length_cons]
      omega
    rw [if_neg length] at equal
    obtain ⟨rfl, rfl⟩ := Prod.mk.inj equal
    obtain ⟨new', parallel⟩ := same g.size g.objects g.live
    rw [← shadow.frame] at new' parallel
    exact shadow.fresh roomy which new new' parallel

/-! ## Blocks of the program -/

/-- The heap with an object in the hands of the program. -/
def adopt (g : Pheap.State) (o : ℕ) : Pheap.State :=
  recount g g.size g.objects (⟨o, 0⟩ :: g.live)

theorem hold_listed {bytes : ℕ} : (s.hold ptr bytes).heap.listed .live =
    ptr :: s.heap.listed .live := rfl

/-- **A block that lies in an object that nobody has** is one more of the program. -/
theorem Shadow.adopt {o bytes : ℕ} (shadow : Shadow s g owner) (known : o ∈ g.objects)
    (unlisted : ∀ place, o ∉ g.listed place) (within : Within g o ptr)
    (fitting : 8 ≤ s.heap.size ptr → s.heap.size ptr ≤ maxObjectSize →
      o = ptr ∧ Fitting s g ptr)
    (large : maxObjectSize < s.heap.size ptr → s.big ptr = true) :
    Shadow (s.hold ptr bytes) (FreedBlocks.adopt g o) (Function.update owner ptr o) := by
  -- The object holds no block yet, so no block of the program starts at `ptr`.
  have away : ∀ p ∈ s.heap.listed .live, p ≠ ptr := fun p held =>
    shadow.ne_of_within held within (unlisted .live)
  have grants : Grants g g o 0 := ⟨shadow.inv, known, unlisted, Nat.zero_le _, rfl⟩
  have mine : Owns (s.hold ptr bytes) (FreedBlocks.adopt g o) ptr o := by
    refine ⟨List.mem_cons_self, within.keep known rfl, fun low high => ?_, large⟩
    obtain ⟨same, fitting⟩ := fitting low high
    exact ⟨same, fitting.keep rfl rfl rfl⟩
  have others : ∀ p ∈ s.heap.listed .live, Owns (s.hold ptr bytes) (FreedBlocks.adopt g o) p
      (owner p) := by
    intro p held
    have owns := shadow.owns p held
    exact owns.keep (List.mem_cons_of_mem _ owns.held)
      (owns.within.keep (shadow.known owns.held) rfl) rfl rfl rfl rfl
  refine ⟨?_, grants.hold, shadow.start, shadow.finish, ?_, ?_, ?_, ?_, shadow.frees⟩
  · have frame := shadow.frame
    rw [FreedBlocks.adopt, frame]
    rfl
  · exact fun ind c p member => (shadow.bins ind c p member).keep rfl rfl rfl
  · rw [hold_listed]
    exact List.nodup_cons.mpr ⟨fun held => away ptr held rfl, shadow.nodup⟩
  · intro p held
    rw [hold_listed] at held
    rcases List.mem_cons.mp held with rfl | old
    · rw [Function.update_self]
      exact mine
    · rw [Function.update_of_ne (away p old)]
      exact others p old
  · -- Two blocks have different owners: the new one is in an object that had none.
    have apart : ∀ q ∈ s.heap.listed .live, owner q ≠ o := by
      intro q held same
      exact unlisted .live (same ▸ (shadow.owns q held).held)
    intro p held q held' same
    rw [hold_listed] at held held'
    rcases List.mem_cons.mp held with rfl | old
    · rcases List.mem_cons.mp held' with rfl | old'
      · rfl
      · rw [Function.update_self, Function.update_of_ne (away q old')] at same
        exact absurd same.symm (apart q old')
    · rcases List.mem_cons.mp held' with rfl | old'
      · rw [Function.update_self, Function.update_of_ne (away p old)] at same
        exact absurd same (apart p old)
      · rw [Function.update_of_ne (away p old), Function.update_of_ne (away q old')] at same
        exact shadow.single p old q old' same

/-- The program gives a block up without giving it back. -/
theorem Shadow.release (shadow : Shadow s g owner) (ptr : ℕ) :
    Shadow (s.release ptr) g owner := by
  have sub : ((s.release ptr).heap.listed .live).Sublist (s.heap.listed .live) :=
    List.eraseP_sublist.map Block.ptr
  refine ⟨shadow.frame, shadow.inv, shadow.start, shadow.finish, ?_, shadow.nodup.sublist sub,
    ?_, ?_, shadow.frees⟩
  · exact fun ind c p member => (shadow.bins ind c p member).keep rfl rfl rfl
  · intro p held
    have owns := shadow.owns p (sub.subset held)
    exact owns.keep owns.held owns.within rfl rfl rfl rfl
  · exact fun p held q held' => shadow.single p (sub.subset held) q (sub.subset held')

/-- What was given up is not listed any more. -/
theorem Shadow.released (shadow : Shadow s g owner) {p : ℕ}
    (held : p ∈ (s.release ptr).heap.listed .live) : p ≠ ptr := by
  obtain ⟨block, member, rfl⟩ := List.mem_map.mp held
  exact Carving.ne_of_mem_eraseP shadow.nodup member

/-! ## What a free does -/

/-- A free that fits is one more of them. -/
theorem Shadow.note (shadow : Shadow s g owner) {freed : Freed} (fits : freed.Fits) :
    Shadow { s with freed := freed :: s.freed } g owner where
  frame := shadow.frame
  inv := shadow.inv
  start := shadow.start
  finish := shadow.finish
  bins ind c p member := (shadow.bins ind c p member).keep rfl rfl rfl
  nodup := shadow.nodup
  owns p held := by
    have owns := shadow.owns p held
    exact owns.keep owns.held owns.within rfl rfl rfl rfl
  single := shadow.single
  frees := List.forall_mem_cons.mpr ⟨fits, shadow.frees⟩

/-- The heap that a block goes back to. -/
def putBack (g : Pheap.State) (ind : Fin numHeaps) (ptr c : ℕ) : Pheap.State :=
  let g := recount g g.size g.objects (g.live.eraseP fun block => block.ptr = ptr)
  g.setBin ind c (ptr :: (g.heap ind).myLittleHeap c)

theorem putBack_inv (inv : Inv g) {c : ℕ} (held : ptr ∈ g.listed .live) (positive : ptr ≠ 0)
    (size : g.size ptr = class2Size c) (small : class2Size c ≤ maxObjectSize) :
    Inv (putBack g ind ptr c) := by
  obtain ⟨dropped, gone⟩ := inv.drop ptr
  have freed : Inv (Pheap.free _ ind ptr) := dropped.free (fun place => gone place held)
    (inv.records.known .live ptr held)
  have used : ¬ (ptr = 0 ∨ class2Size c = 0 ∨ maxObjectSize < class2Size c) := by
    have least := eight_le_class2Size c
    omega
  rw [Pheap.free] at freed
  change Inv (if ptr = 0 ∨ g.size ptr = 0 ∨ maxObjectSize < g.size ptr then _ else
    State.setBin _ ind (fitClass (g.size ptr) (size2Class (g.size ptr))) _) at freed
  rw [size, if_neg used, size2Class_class2Size, fitClass_class2Size] at freed
  exact freed

/-- A block of a class goes back to the list of the class. -/
theorem Shadow.putBack (shadow : Shadow s g owner) (held : ptr ∈ s.heap.listed .live)
    (low : 8 ≤ s.heap.size ptr) (high : s.heap.size ptr ≤ maxObjectSize) {freed : Freed}
    (fits : freed.Fits) :
    Shadow
      { s.release ptr with
        heap := (s.release ptr).heap.setBin ind (fit (s.heap.size ptr))
          (ptr :: (s.heap.heap ind).myLittleHeap (fit (s.heap.size ptr)))
        freed := freed :: s.freed }
      (FreedBlocks.putBack g ind ptr (fit (s.heap.size ptr))) owner := by
  have owns := shadow.owns ptr held
  obtain ⟨same, fitting⟩ := owns.fitting low high
  have released := shadow.release ptr
  have bins : ∀ other c, ∀ p ∈ (((s.release ptr).heap.setBin ind (fit (s.heap.size ptr))
      (ptr :: (s.heap.heap ind).myLittleHeap (fit (s.heap.size ptr)))).heap other).myLittleHeap c,
      Fitting s g p := by
    intro other c p member
    rw [setBin_myLittleHeap] at member
    split at member
    · next here =>
      obtain ⟨rfl, rfl⟩ := here
      rcases List.mem_cons.mp member with rfl | old
      · exact fitting
      · exact shadow.bins _ _ p old
    · exact shadow.bins other c p member
  have kept : ∀ p ∈ (s.release ptr).heap.listed .live,
      owner p ∈ (FreedBlocks.putBack g ind ptr (fit (s.heap.size ptr))).listed .live := by
    intro p listed
    have held' : p ∈ s.heap.listed .live := (List.eraseP_sublist.map Block.ptr).subset listed
    -- another block has another owner, which is still held
    have different : owner p ≠ ptr := by
      intro equal
      exact shadow.released listed (shadow.single p held' ptr held (equal.trans same.symm))
    obtain ⟨block, member, at_⟩ := List.mem_map.mp (shadow.owns p held').held
    refine List.mem_map.mpr ⟨block, ?_, at_⟩
    change block ∈ g.live.eraseP _
    rw [List.mem_eraseP_of_neg (by simpa [at_] using different)]
    exact member
  refine ⟨?_, ?_, shadow.start, shadow.finish, ?_, released.nodup, ?_, released.single,
    List.forall_mem_cons.mpr ⟨fits, shadow.frees⟩⟩
  · have frame := shadow.frame
    rw [FreedBlocks.putBack, frame]
    rfl
  · have mine : ptr ∈ g.listed .live := by
      have held := owns.held
      rw [same] at held
      exact held
    have positive : ptr ≠ 0 := by
      have header := (shadow.bounds (shadow.known mine)).1
      unfold objectHeaderSize at header
      omega
    exact putBack_inv shadow.inv mine positive fitting.size ((class2Size_fit_le low).trans high)
  · exact fun other c p member => (bins other c p member).keep rfl rfl rfl
  · intro p listed
    have owns := released.owns p listed
    exact owns.keep (kept p listed) (owns.within.keep (shadow.known owns.held) rfl) rfl rfl rfl rfl

/-- **A free** of a block whose size is not from 1 to 7. -/
theorem Shadow.free (shadow : Shadow s g owner) (freeable : s.Freeable ptr)
    (classed : s.Classed ptr) :
    ∃ g', Shadow ((s.release ptr).free ind ptr false) g' owner := by
  rw [State.free]
  split
  · exact ⟨g, shadow.release ptr⟩
  · next positive =>
    have held := freeable.resolve_left positive
    change ∃ g', Shadow { s.release ptr with
      heap := put (s.release ptr).heap ind ptr (sendTo (s.heap.size ptr))
      freed := ⟨sendTo (s.heap.size ptr), s.capacity ptr, s.big ptr, false⟩ :: s.freed } g' owner
    rcases classed.resolve_left positive with nothing | low
    · have sent : sendTo (s.heap.size ptr) = .dropped := if_pos nothing
      rw [sent]
      exact ⟨g, (shadow.release ptr).note trivial⟩
    · by_cases high : s.heap.size ptr ≤ maxObjectSize
      · rw [sendTo_of_fits low high]
        have owns := shadow.owns ptr held
        obtain ⟨-, fitting⟩ := owns.fitting low high
        have least := (class2Size_fit_le low).trans high
        have order := (Nat.pow_le_pow_iff_right (a := 2) Nat.one_lt_two).mp least
        refine ⟨_, shadow.putBack held low high ⟨Int.natCast_nonneg _, ?_, ?_⟩⟩
        · unfold numBins at order ⊢
          exact Int.ofNat_lt.mpr (by omega)
        · exact fitting.size ▸ fitting.enough
      · have large := Nat.lt_of_not_le high
        have sent : sendTo (s.heap.size ptr) = .big := by
          rw [sendTo, if_neg (by omega), if_pos large]
        rw [sent]
        exact ⟨g, (shadow.release ptr).note (.inl ((shadow.owns ptr held).large large))⟩

/-! ## What `memalign` does -/

/-- The prefix is dropped, however long it is. -/
theorem sendTo_prefixSize {aligned : ℕ} (later : mem < aligned) (inside : aligned < mem + 2 ^ 63) :
    sendTo (prefixSize mem aligned) = .big := by
  have bound : maxObjectSize = 2147483648 := by decide
  have large : maxObjectSize < prefixSize mem aligned := by
    rw [prefixSize, bound, objectHeaderSize]
    omega
  rw [sendTo, if_neg (by omega), if_pos large]

/-- An alignment that passes the test is a power of two, and its mask takes addresses up. -/
theorem masked_spec {align : ℕ} (masked : align &&& neg align = align) (large : 32 < align)
    (fits : align < 2 ^ 64) :
    64 ∣ align ∧ align ≤ 2 ^ 63 ∧ ∀ mem, mem + align - 1 < 2 ^ 64 →
      mem ≤ alignUp mem align ∧ alignUp mem align < mem + align ∧ align ∣ alignUp mem align := by
  have negated : neg align = 2 ^ 64 - align := Nat.mod_eq_of_lt (by omega)
  rw [negated] at masked
  obtain ⟨k, rfl⟩ := Alignment.exists_eq_two_pow (by omega) fits.le masked
  have high : k < 64 := (Nat.pow_lt_pow_iff_right Nat.one_lt_two).mp fits
  have low : 5 < k := (Nat.pow_lt_pow_iff_right Nat.one_lt_two).mp large
  refine ⟨pow_dvd_pow 2 low, Nat.pow_le_pow_right Nat.two_pos (by omega), fun mem inside => ?_⟩
  have same : sizeT (mem + 2 ^ k - 1) = mem + 2 ^ k - 1 := Nat.mod_eq_of_lt inside
  rw [alignUp, same, negated]
  exact Alignment.le_and_neg_two_pow high.le inside

/-- What a cut changes. -/
theorem shift_eq {aligned size : ℕ} (positive : mem ≠ 0)
    (dropped : sendTo (prefixSize mem aligned) = .big) (other : aligned ≠ mem) :
    s.shift ind mem aligned size =
      { ((s.writeHeader mem (prefixSize mem aligned)).writeHeader aligned size).cut mem aligned with
        freed := ⟨.big, aligned - objectHeaderSize - mem, s.big mem, true⟩ :: s.freed } := by
  have header : ((s.writeHeader mem (prefixSize mem aligned)).cut mem aligned).heap.size mem =
      prefixSize mem aligned := Function.update_self ..
  have capacity : ((s.writeHeader mem (prefixSize mem aligned)).cut mem aligned).capacity mem =
      aligned - objectHeaderSize - mem := by
    change Function.update (Function.update s.capacity _ _) _ _ _ = _
    rw [Function.update_of_ne other.symm, Function.update_self]
  have big :
      ((s.writeHeader mem (prefixSize mem aligned)).cut mem aligned).big mem = s.big mem := by
    exact Function.update_of_ne other.symm _ _
  simp only [State.shift, State.free, if_neg positive, header, dropped, capacity, big]
  rfl

/-- An object that nobody has may be cut. -/
theorem Shadow.split {aligned n : ℕ} (shadow : Shadow s g owner) (known : mem ∈ g.objects)
    (unlisted : ∀ place, mem ∉ g.listed place) (later : mem ≤ aligned)
    (within : Within g mem aligned) (other : aligned ≠ mem)
    (fits : aligned + n ≤ mem + g.size mem) (sized : Sized n) :
    Shadow s (FreedBlocks.split g mem aligned n) owner := by
  have inv := split_inv shadow.inv known unlisted later within other fits sized
  have new : aligned ∉ g.objects := fun old => other (within.eq shadow.inv old).symm
  have same : ∀ {o}, o ∈ g.objects → (FreedBlocks.split g mem aligned n).size o = g.size o := by
    intro o old
    have different : o ≠ aligned := fun equal => new (equal ▸ old)
    exact Function.update_of_ne different _ _
  refine ⟨?_, inv, shadow.start, shadow.finish, ?_, shadow.nodup, ?_, shadow.single,
    shadow.frees⟩
  · have frame := shadow.frame
    rw [FreedBlocks.split, frame]
    rfl
  · intro ind c p member
    have old := shadow.known (shadow.binned member)
    exact (shadow.bins ind c p member).keep rfl rfl (same old)
  · intro p held
    have owns := shadow.owns p held
    have old := shadow.known owns.held
    have kept : owner p ∈ (FreedBlocks.split g mem aligned n).objects :=
      inv.records.known .live _ owns.held
    exact owns.keep owns.held (owns.within.keep kept (same old)) rfl rfl rfl (same old)

/-- The records of an object that nobody has may change, and so may what is written inside it. -/
theorem Shadow.scribble {aligned : ℕ} {size' : ℕ → ℕ} {capacity' : ℕ → ℕ} {big' : ℕ → Bool}
    (shadow : Shadow s g owner) (known : mem ∈ g.objects)
    (unlisted : ∀ place, mem ∉ g.listed place) (within : Within g mem aligned)
    (other : aligned ≠ mem) (rest : ∀ p, p ≠ mem → p ≠ aligned →
      size' p = s.heap.size p ∧ capacity' p = s.capacity p ∧ big' p = s.big p) :
    Shadow { s with
      heap := { s.heap with size := size' }, capacity := capacity', big := big' } g owner := by
  have listed : ∀ ind c, ∀ p ∈ (s.heap.heap ind).myLittleHeap c, p ≠ mem ∧ p ≠ aligned := by
    intro ind c p member
    have binned := shadow.binned member
    constructor
    · rintro rfl
      exact unlisted _ binned
    · rintro rfl
      exact other (within.eq shadow.inv (shadow.known binned)).symm
  have held : ∀ p ∈ s.heap.listed .live, p ≠ mem ∧ p ≠ aligned := by
    intro p held
    refine ⟨?_, shadow.ne_of_within held within (unlisted .live)⟩
    rintro rfl
    have owns := shadow.owns p held
    have equal := owns.within.eq shadow.inv known
    exact unlisted .live (equal ▸ owns.held)
  refine ⟨?_, shadow.inv, shadow.start, shadow.finish, ?_, shadow.nodup, ?_, shadow.single,
    shadow.frees⟩
  · exact shadow.frame
  · intro ind c p member
    obtain ⟨header, capacity, -⟩ := rest p (listed ind c p member).1 (listed ind c p member).2
    exact (shadow.bins ind c p member).keep header capacity rfl
  · intro p member
    obtain ⟨header, capacity, big⟩ := rest p (held p member).1 (held p member).2
    have owns := shadow.owns p member
    exact owns.keep owns.held owns.within header capacity big rfl

/-- **A block that is cut** lies in an object that nobody has. -/
theorem Shadow.shift {aligned size bytes : ℕ} (shadow : Shadow s g owner) (known : mem ∈ g.objects)
    (unlisted : ∀ place, mem ∉ g.listed place) (room : g.size mem ≤ s.capacity mem)
    (later : mem < aligned) (near : aligned < mem + 2 ^ 63)
    (fits : aligned + size ≤ mem + g.size mem) (inside : aligned < mem + g.size mem)
    (large : maxObjectSize < size → s.big mem = true) :
    ∃ g' o, Shadow ((s.shift ind mem aligned size).hold aligned bytes) g'
      (Function.update owner aligned o) := by
  have header := (shadow.bounds known).1
  have positive : 0 < objectHeaderSize := by decide
  have other : aligned ≠ mem := later.ne'
  have within : Within g mem aligned :=
    ⟨aligned - objectHeaderSize, ⟨known, by omega, by omega⟩, by omega⟩
  rw [shift_eq (by omega) (sendTo_prefixSize later near) other]
  generalize change : ({ ((s.writeHeader mem (prefixSize mem aligned)).writeHeader aligned size).cut
    mem aligned with freed := _ :: s.freed } : State) = s'
  have cut : Shadow s' g owner := by
    rw [← change]
    refine Shadow.note (Shadow.scribble shadow known unlisted within other ?_) (.inr rfl)
    intro p first second
    refine ⟨?_, ?_, ?_⟩
    · change Function.update (Function.update s.heap.size _ _) _ _ p = _
      rw [Function.update_of_ne second, Function.update_of_ne first]
    · rw [Function.update_of_ne second, Function.update_of_ne first]
      rfl
    · exact Function.update_of_ne second _ _
  have written : s'.heap.size aligned = size := by
    rw [← change]
    exact Function.update_self ..
  have capacity : s'.capacity aligned = s.capacity mem - (aligned - mem) := by
    rw [← change]
    exact Function.update_self ..
  have big : s'.big aligned = s.big mem := by
    rw [← change]
    exact Function.update_self ..
  have large' : maxObjectSize < s'.heap.size aligned → s'.big aligned = true := by
    rw [written, big]
    exact large
  by_cases small : 8 ≤ size ∧ size ≤ maxObjectSize
  · -- the second part can go to a list, and is an object of its own
    have least := class2Size_fit_le small.1
    have parts := cut.split known unlisted later.le within other
      (n := class2Size (fit size)) (by omega) (.inr ⟨_, rfl⟩)
    have header' : (FreedBlocks.split g mem aligned (class2Size (fit size))).size aligned =
        class2Size (fit size) := Function.update_self ..
    have new : aligned ∉ g.objects := fun old => other (within.eq shadow.inv old).symm
    have nowhere : ∀ place, aligned ∉ (FreedBlocks.split g mem aligned
        (class2Size (fit size))).listed place := by
      intro place listed
      have listed' : aligned ∈ g.listed place := by
        cases place <;> exact listed
      exact new (shadow.known listed')
    refine ⟨_, aligned, parts.adopt List.mem_cons_self nowhere ?_ (fun _ _ => ⟨rfl, ?_⟩) large'⟩
    · exact ⟨aligned - objectHeaderSize, within_self List.mem_cons_self (by omega), by omega⟩
    · refine ⟨written ▸ small.1, written ▸ small.2, ?_, ?_⟩
      · rw [header', written]
      · rw [header', capacity]
        omega
  · refine ⟨_, mem, cut.adopt known unlisted within (fun low high => ?_) large'⟩
    rw [written] at low high
    exact absurd ⟨low, high⟩ small

/-- The program has what it obtained. -/
theorem Obtained.hold {bytes : ℕ} (obtained : Obtained s s' g g' owner sz ptr) :
    Shadow (s'.hold ptr bytes) (FreedBlocks.adopt g' ptr) (Function.update owner ptr ptr) := by
  have header := (obtained.shadow.bounds obtained.known).1
  have within : Within g' ptr ptr :=
    ⟨ptr - objectHeaderSize, within_self obtained.known (by omega), by omega⟩
  exact obtained.shadow.adopt obtained.known obtained.unlisted within
    (fun _ high => ⟨rfl, obtained.fitting high⟩) obtained.large

/-- There is room for an aligned block in what was asked for. -/
theorem Obtained.aligned {align size : ℕ}
    (obtained : Obtained s s' g g' owner (sizeT (size + align - 1)) mem)
    (masked : align &&& neg align = align) (large : 32 < align) (fits : align < 2 ^ 64)
    (sums : size + align - 1 ≤ 2 ^ 64 - 4144) :
    mem ≤ alignUp mem align ∧ alignUp mem align < mem + 2 ^ 63 ∧
      alignUp mem align + size ≤ mem + g'.size mem ∧ alignUp mem align < mem + g'.size mem ∧
      align ∣ alignUp mem align ∧ size ≤ g'.size mem := by
  obtain ⟨multiple, small, up⟩ := masked_spec masked large fits
  have same : sizeT (size + align - 1) = size + align - 1 := Nat.mod_eq_of_lt (by omega)
  have asked := obtained.asked
  have space := (obtained.shadow.bounds obtained.known).2
  have eight := eight_dvd_rounded (sizeT (size + align - 1))
  have enough := (ansi_spec sums).1
  change size + align - 1 ≤ rounded (size + align - 1) at enough
  rw [same] at asked eight
  have whole : align ≤ rounded (size + align - 1) := by omega
  obtain ⟨le, lt, aligned⟩ := up mem (by omega)
  exact ⟨le, by omega, by omega, by omega, aligned, by omega⟩

/-- **`memalign`.** -/
theorem Shadow.memalign {align size : ℕ} (shadow : Shadow s g owner)
    (typed : (Call.memalign align size).Typed)
    (roomy : ∀ sz, (Call.memalign align size).asks = some sz → Roomy sz)
    (cuts : s.CutsRight ind align size)
    (returned : s.perform ind (.memalign align size) = some s') :
    ∃ g' owner', Shadow s' g' owner' := by
  obtain ⟨⟨s₁, result⟩, returned, equal⟩ := Option.map_eq_some_iff.mp returned
  rw [State.memalign] at returned
  rw [Call.asks] at roomy
  -- The two tests of `memalign`: is it a power of two, and does `malloc` give it anyway.
  by_cases masked : align &&& neg align = align
  · rw [if_neg (not_not_intro masked)] at returned roomy
    by_cases large : 32 < align
    · rw [if_neg (Nat.not_le_of_lt large)] at returned roomy
      obtain ⟨⟨s₂, mem⟩, given, cut⟩ := Option.map_eq_some_iff.mp returned
      obtain ⟨g', obtained⟩ := shadow.malloc (roomy _ rfl) given
      change (if alignUp mem align = mem then (s₂, _) else _) = _ at cut
      split at cut
      · obtain ⟨rfl, rfl⟩ := Prod.mk.inj cut
        rw [← equal]
        exact ⟨_, _, obtained.hold⟩
      · next other =>
        obtain ⟨rfl, rfl⟩ := Prod.mk.inj cut
        -- By the condition the sums of `memalign` do not wrap around when it has to move the block.
        have sums := (cuts masked large s₂ mem given).resolve_left other
        obtain ⟨le, near, fits, inside, -, enough⟩ :=
          obtained.aligned masked large typed.1 sums
        rw [← equal]
        have big : maxObjectSize < size → s₂.big mem = true := by
          intro over_
          have header := obtained.header
          exact obtained.large (by omega)
        have after : ∃ g₂ o, Shadow
            ((s₂.shift ind mem (alignUp mem align) size).hold (alignUp mem align) size) g₂
            (Function.update owner (alignUp mem align) o) :=
          obtained.shadow.shift obtained.known obtained.unlisted obtained.room
            (Nat.lt_of_le_of_ne le (Ne.symm other)) near fits inside big
        obtain ⟨g₂, o, after⟩ := after
        exact ⟨g₂, _, after⟩
    · rw [if_pos (Nat.le_of_not_lt large)] at returned roomy
      obtain ⟨⟨s₂, ptr⟩, given, cut⟩ := Option.map_eq_some_iff.mp returned
      obtain ⟨rfl, rfl⟩ := Prod.mk.inj cut
      obtain ⟨g', obtained⟩ := shadow.malloc (roomy _ rfl) given
      rw [← equal]
      exact ⟨_, _, obtained.hold⟩
  · -- The alignment is no power of two: nothing is returned.
    rw [if_pos masked] at returned
    obtain ⟨rfl, rfl⟩ := Prod.mk.inj (Option.some.inj returned)
    rw [← equal]
    exact ⟨g, owner, shadow⟩

/-! ## Every run -/

theorem Shadow.perform {call : Call} (shadow : Shadow s g owner) (typed : call.Typed)
    (valid : s.Valid call) (ok : Ok s (.call ind call))
    (returned : s.perform ind call = some s') : ∃ g' owner', Shadow s' g' owner' := by
  obtain ⟨roomy, ok⟩ := ok
  -- a call that asks for memory and has it
  have plain : ∀ {sz bytes}, Roomy sz →
      ((s.malloc ind sz).map fun given => given.1.hold given.2 bytes) = some s' →
      ∃ g' owner', Shadow s' g' owner' := by
    intro sz bytes roomy returned
    obtain ⟨⟨s₁, ptr⟩, given, rfl⟩ := Option.map_eq_some_iff.mp returned
    obtain ⟨g', obtained⟩ := shadow.malloc roomy given
    exact ⟨_, _, obtained.hold⟩
  cases call with
  | malloc sz => exact plain (roomy sz rfl) returned
  | calloc nmemb sz => exact plain (roomy _ rfl) returned
  | memalign align size => exact shadow.memalign typed roomy ok returned
  | realloc ptr sz =>
    rw [State.perform] at returned
    rw [Call.asks] at roomy
    split at returned
    · next null => exact plain (roomy sz (if_pos (.inl null))) returned
    · next block =>
      split at returned
      · obtain rfl := Option.some.inj returned
        obtain ⟨g', after⟩ := shadow.free valid ok
        exact ⟨g', owner, after⟩
      · next some_ =>
        obtain ⟨⟨s₁, newptr⟩, given, rfl⟩ := Option.map_eq_some_iff.mp returned
        obtain ⟨g', obtained⟩ := shadow.malloc (roomy sz (if_pos (.inr some_))) given
        have held := valid.resolve_left block
        -- the old block is as it was when it is given back
        have freeable : (s₁.hold newptr sz).Freeable ptr := by
          have live := obtained.live
          refine .inr (List.mem_cons_of_mem _ ?_)
          rw [live]
          exact held
        have classed : (s₁.hold newptr sz).Classed ptr := by
          have same := obtained.headers ptr held
          refine .inr ?_
          change s₁.heap.size ptr = 0 ∨ 8 ≤ s₁.heap.size ptr
          rw [same]
          exact ok.resolve_left block
        obtain ⟨g₂, after⟩ := obtained.hold.free freeable classed
        exact ⟨g₂, _, after⟩

theorem Shadow.fails (shadow : Shadow s g owner) (ind : Fin numHeaps) :
    ∃ g', Shadow { s with heap := { s.heap.setArena ind none with
      xheap := { s.heap.xheap with locked := true } } } g' owner := by
  refine ⟨{ g.setArena ind none with xheap := { g.xheap with locked := true } },
    ?_, shadow.inv.fails, shadow.start, shadow.finish, ?_, shadow.nodup, ?_, shadow.single,
    shadow.frees⟩
  · have frame := shadow.frame
    rw [frame]
    rfl
  · intro other c p member
    have same : ((s.heap.setArena ind none).heap other).myLittleHeap =
        (s.heap.heap other).myLittleHeap := setArena_myLittleHeap ..
    change p ∈ ((s.heap.setArena ind none).heap other).myLittleHeap c at member
    rw [same] at member
    exact (shadow.bins other c p member).keep rfl rfl rfl
  · intro p held
    have owns := shadow.owns p held
    exact owns.keep owns.held (owns.within.keep (shadow.known owns.held) rfl) rfl rfl rfl rfl

/-- Some heap of objects goes with the heap. -/
def Tracked (s : State) : Prop := ∃ g owner, Shadow s g owner

theorem tracked_initial {start : ℕ} (positive : 0 < start) (page : Pheap.pageSize ∣ start)
    (finish : start + protectedHeapSize ≤ 2 ^ 64) : Tracked (initial start) := by
  refine ⟨Pheap.initial start, id, rfl, inv_initial page, positive, finish, ?_, List.nodup_nil, ?_,
    ?_, ?_⟩
  · exact fun ind c p member => absurd member List.not_mem_nil
  · exact fun p held => absurd held List.not_mem_nil
  · exact fun p held => absurd held List.not_mem_nil
  · exact fun freed member => absurd member List.not_mem_nil

/-- **One step.** -/
theorem Tracked.step (tracked : Tracked s) {label : Label} (ok : Ok s label)
    (move : system.step s label = some s') : Tracked s' := by
  obtain ⟨g, owner, shadow⟩ := tracked
  change FreedBlocks.step s label = some s' at move
  cases label with
  | call ind call =>
    obtain ⟨⟨typed, valid⟩, returned⟩ := Option.ite_none_right_eq_some.mp move
    exact shadow.perform typed valid ok returned
  | fails ind call =>
    obtain ⟨-, rfl⟩ := guarded move
    obtain ⟨g', after⟩ := shadow.fails ind
    exact ⟨g', owner, after⟩
  | free ind ptr =>
    obtain ⟨freeable, rfl⟩ := guarded move
    obtain ⟨g', after⟩ := shadow.free freeable ok
    exact ⟨g', owner, after⟩

theorem tracked_of_reachable (reach : system.Reachable Ok s) : Tracked s := by
  apply reach.invariant Tracked
  · rintro s ⟨start, positive, page, finish, rfl⟩
    exact tracked_initial positive page finish
  · exact fun s label s' tracked ok move => tracked.step ok move

/-- **Freed blocks land where they fit**, in every run in which nothing wraps and no block with a
size from 1 to 7 is given back. -/
theorem landed_of_reachable (reach : system.Reachable Ok s) : Landed s := by
  obtain ⟨g, owner, shadow⟩ := tracked_of_reachable reach
  exact shadow.landed

theorem init_initial : system.Init (initial Pheap.pageSize) :=
  ⟨Pheap.pageSize, by decide, dvd_rfl, by decide, rfl⟩

/-- A block that is cut, and goes to the list of the class below its size. -/
def alignedRun : List Label := [.call 0 (.memalign 64 100), .free 0 4160]

theorem landed_alignedRun :
    ∃ s, system.run (initial Pheap.pageSize) alignedRun = some s ∧ Landed s := by
  have run : (system.run (initial Pheap.pageSize) alignedRun).isSome = true := by decide +kernel
  obtain ⟨s, execution⟩ := Option.isSome_iff_exists.mp run
  have first : (system.step (initial Pheap.pageSize) (.call 0 (.memalign 64 100))).any fun s =>
      s.heap.size 4160 = 100 := by decide +kernel
  have complies : system.Complies Ok (initial Pheap.pageSize) alignedRun := by
    refine ⟨⟨fun sz asked => ?_, fun _ _ s' mem _ => .inr (by decide)⟩, fun s' move =>
      ⟨.inr (.inr ?_), fun _ _ => trivial⟩⟩
    · have asks : (Call.memalign 64 100).asks = some 163 := by decide +kernel
      rw [asks] at asked
      obtain rfl := Option.some.inj asked
      unfold Roomy
      decide +kernel
    · rw [move] at first
      have size : s'.heap.size 4160 = 100 := of_decide_eq_true first
      rw [size]
      decide
  exact ⟨s, execution, landed_of_reachable (.follow (.init init_initial) complies execution)⟩

/-- The aligned block of the test is of one byte, and goes to the list of class -3. -/
theorem not_landed_test : ¬ ∀ s, system.Reachable AnyStep s → Landed s := by
  intro landed
  have run : (system.run (initial Pheap.pageSize)
      [.call 0 (.memalign 64 1), .free 0 4160]).any fun s =>
      s.freed.head?.map Freed.sent = some (.bin (-3)) := by decide +kernel
  obtain ⟨s, execution, sent⟩ := (Option.any_eq_true _ _).mp run
  have sent := of_decide_eq_true sent
  have frees := (landed s (.run (.init init_initial) execution)).frees
  cases freed : s.freed with
  | nil => simp [freed] at sent
  | cons last rest =>
    rw [freed] at sent frees
    have fits := frees last List.mem_cons_self
    have at_ : last.sent = .bin (-3) := Option.some.inj sent
    rw [Freed.Fits, at_] at fits
    exact absurd fits.1 (by decide)

end Tthread.FreedBlocks
