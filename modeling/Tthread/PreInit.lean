/-
# Blocks from before the initialization

Until the library is initialized, and whenever it is not, `malloc` maps each block by itself and
notes it in a table. Afterwards it asks the heap. `free`, `realloc` and `malloc_usable_size` ask the
one or the other by the same flag, whoever the block is from. They do right by a block as long as
the flag is what it was when the block was made. Three more calls go wrong before the
initialization: a mapping that fails keeps its place in the table, `realloc` of `NULL` takes a free
place for that of a block, and `free` calls the `munmap` of the library, which calls the one of the
system through a pointer that is `NULL` until `init_real_functions`.
-/

import Mathlib.Data.UInt
import Tthread.FreedBlocks

namespace Tthread.PreInit

open Transition
open Pheap hiding State Label Inv system initial step

/-! ## The state -/

/-- `mmap_allocation_t`. A place is free if its pointer is `NULL`. -/
structure MmapAllocation where
  ptr : ℕ
  size : ℕ
  deriving DecidableEq

def maxMmapAllocations : ℕ := 1024

/-- `MAP_FAILED` -/
def mapFailed : ℕ := 2 ^ 64 - 1

structure State where
  initialized : Bool
  /-- `WRAP(munmap)` is set, so it is not `NULL` -/
  wrapped : Bool
  /-- `preinit_mmap_allocations` -/
  table : ℕ → MmapAllocation
  heap : Pheap.State
  memory : ℕ → UInt8
  /-- ghost: the mapped blocks that the program has -/
  mapped : List Block
  /-- what the last call returned -/
  result : ℕ

/-- Some bytes get new values. -/
def write (region : Set ℕ) [DecidablePred (· ∈ region)] (values memory : ℕ → UInt8) : ℕ → UInt8 :=
  fun x => if x ∈ region then values x else memory x

instance (address length : ℕ) : DecidablePred (· ∈ span address length) := fun x =>
  inferInstanceAs (Decidable (address ≤ x ∧ x < address + length))

instance (heap : Pheap.State) : DecidablePred (· ∈ heap.headers) := fun x =>
  inferInstanceAs (Decidable ((∃ buf ∈ heap.arenas, x ∈ span buf arenaHeaderSize) ∨
    ∃ ptr ∈ heap.objects, ptr ≤ x + objectHeaderSize ∧ x < ptr))

/-- The first place with a pointer. -/
def State.place (s : State) (ptr : ℕ) : Option ℕ :=
  (List.range maxMmapAllocations).find? fun i => (s.table i).ptr = ptr

def State.setPlace (s : State) (i ptr size : ℕ) : State :=
  { s with table := Function.update s.table i ⟨ptr, size⟩ }

/-! ## The heap -/

/-- A request to the heap. What it writes are headers. -/
def State.request (s : State) (ind : Fin numHeaps) (request : Request) (junk : ℕ → UInt8) :
    Option (State × ℕ) :=
  (Pheap.malloc s.heap ind request.sz).map fun (heap, ptr) =>
    ({ s with
      heap := { heap with live := ⟨ptr, request.bytes⟩ :: heap.live }
      memory := write heap.headers junk s.memory }, ptr)

/-- `xrun::free`. What it writes is the link of a list. -/
def State.giveBack (s : State) (ind : Fin numHeaps) (ptr : ℕ) (junk : ℕ → UInt8) : State :=
  if ptr = 0 then s
  else
    { s with
      heap := { free s.heap ind ptr with
        live := s.heap.live.eraseP fun block => block.ptr = ptr }
      memory := write (span ptr 8) junk s.memory }

/-- `xrun::getSize` -/
def State.getSize (s : State) (ptr : ℕ) : ℕ := if ptr = 0 then 0 else s.heap.size ptr

/-- `memcpy` -/
def State.copy (s : State) (dest src n : ℕ) : State :=
  { s with memory := write (span dest n) (fun x => s.memory (src + (x - dest))) s.memory }

/-- `xrun::realloc` -/
def State.heapRealloc (s : State) (ind : Fin numHeaps) (ptr sz : ℕ) (junk : ℕ → UInt8) :
    Option (State × ℕ) :=
  -- for `NULL` it is `malloc`, and for no bytes `free`
  if ptr = 0 then s.request ind (.malloc sz) junk
  else if sz = 0 then some (s.giveBack ind ptr junk, 0)
  else
    (s.request ind (.malloc sz) junk).map fun (s', newptr) =>
      ((s'.copy newptr ptr (min (s.getSize ptr) sz)).giveBack ind ptr junk, newptr)

/-! ## The table -/

/-- What the kernel can map: whole pages of addresses that nobody has. -/
def State.Unmapped (s : State) (ptr sz : ℕ) : Prop :=
  0 < sz ∧ 0 < ptr ∧ Pheap.pageSize ∣ ptr ∧ ptr + sz < 2 ^ 64 ∧
    (ptr + sz ≤ s.heap.xheap.start ∨ s.heap.xheap.finish ≤ ptr) ∧
    ∀ block ∈ s.mapped, ptr + sz ≤ block.ptr ∨ block.ptr + block.requested ≤ ptr

instance (s : State) (ptr sz : ℕ) : Decidable (s.Unmapped ptr sz) := by
  unfold State.Unmapped
  infer_instance

/-- `malloc` before the initialization, with the answer of the kernel. -/
def State.mmapMalloc (s : State) (sz : ℕ) (answer : Option ℕ) : Option (State × ℕ) :=
  match s.place 0 with
  | none => none
  | some i =>
      match answer with
      -- the place is taken all the same
      | none => some (s.setPlace i mapFailed sz, 0)
      | some ptr =>
          -- the kernel returns pages that nobody has, and they are zero
          if s.Unmapped ptr sz then
            some ({ s.setPlace i ptr sz with
              memory := write (span ptr sz) 0 s.memory
              mapped := ⟨ptr, sz⟩ :: s.mapped }, ptr)
          else none

/-- `free` before the initialization; `none` where it calls `munmap` through `NULL`. For `NULL` it
finds a free place, and with `NDEBUG` nobody looks at what `munmap` says. -/
def State.munmapFree (s : State) (ptr : ℕ) (junk : ℕ → UInt8) : Option State :=
  match s.place ptr with
  | none => some s
  | some i =>
      if s.wrapped then
        some { s.setPlace i 0 0 with
          memory := write (span ptr (s.table i).size) junk s.memory
          mapped := s.mapped.eraseP fun block => block.ptr = ptr }
      else none

/-- A mapping can get another size where it is. -/
def State.Resizable (s : State) (ptr sz : ℕ) : Prop :=
  0 < sz ∧ ptr ∈ s.mapped.map Block.ptr ∧ ptr + sz < 2 ^ 64 ∧
    (ptr + sz ≤ s.heap.xheap.start ∨ s.heap.xheap.finish ≤ ptr) ∧
    ∀ block ∈ s.mapped, block.ptr = ptr ∨
      ptr + sz ≤ block.ptr ∨ block.ptr + block.requested ≤ ptr

instance (s : State) (ptr sz : ℕ) : Decidable (s.Resizable ptr sz) := by
  unfold State.Resizable
  infer_instance

/-- A block has another size. -/
def resize (ptr sz : ℕ) (block : Block) : Block := if block.ptr = ptr then ⟨ptr, sz⟩ else block

/-- `realloc` before the initialization. Without a flag, `mremap` leaves a mapping where it is, or
fails. -/
def State.mremapRealloc (s : State) (ptr sz : ℕ) (resizes : Bool) (junk : ℕ → UInt8) :
    Option (State × ℕ) :=
  match s.place ptr with
  | none => some (s, 0)
  | some i =>
      if resizes then
        if s.Resizable ptr sz then
          let old := (s.table i).size
          some ({ s.setPlace i ptr sz with
            memory := write (span (ptr + min old sz) (max old sz - min old sz)) junk s.memory
            mapped := s.mapped.map (resize ptr sz) }, ptr)
        else none
      else some (s, 0)

/-! ## The calls -/

inductive Label
  /-- the first that `initialize` does -/
  | initRealFunctions
  /-- the last that `initialize` does, `finalize`, or around a call of `backtrace` -/
  | setInitialized (value : Bool)
  | malloc (ind : Fin numHeaps) (sz : ℕ) (answer : Option ℕ) (junk : ℕ → UInt8)
  | calloc (ind : Fin numHeaps) (nmemb sz : ℕ) (answer : Option ℕ) (junk : ℕ → UInt8)
  | free (ind : Fin numHeaps) (ptr : ℕ) (junk : ℕ → UInt8)
  | usableSize (ptr : ℕ)
  | realloc (ind : Fin numHeaps) (ptr sz : ℕ) (resizes : Bool) (junk : ℕ → UInt8)
  /-- the program writes to one of its blocks -/
  | store (x : ℕ) (value : UInt8)

/-- A block that the program has. -/
def State.Live (s : State) (block : Block) : Prop := block ∈ s.heap.live ∨ block ∈ s.mapped

instance (s : State) (block : Block) : Decidable (s.Live block) := by
  unfold State.Live
  infer_instance

/-- The program may name a pointer. -/
def State.Names (s : State) (ptr : ℕ) : Prop :=
  ptr = 0 ∨ ∃ block ∈ s.heap.live ++ s.mapped, block.ptr = ptr

instance (s : State) (ptr : ℕ) : Decidable (s.Names ptr) := by
  unfold State.Names
  infer_instance

/-- A call returns. -/
def returns (outcome : State × ℕ) : State := { outcome.1 with result := outcome.2 }

/-- `malloc` -/
def State.malloc (s : State) (ind : Fin numHeaps) (sz : ℕ) (answer : Option ℕ)
    (junk : ℕ → UInt8) : Option State :=
  if s.initialized then (s.request ind (.malloc sz) junk).map returns
  else (s.mmapMalloc sz answer).map returns

/-- `calloc`. It sets the bytes of a block that is not there, or aborts, if there is none. -/
def State.calloc (s : State) (ind : Fin numHeaps) (nmemb sz : ℕ) (answer : Option ℕ)
    (junk : ℕ → UInt8) : Option State :=
  let n := sizeT (nmemb * sz)
  let outcome := if s.initialized then s.request ind (.calloc nmemb sz) junk
    else s.mmapMalloc n answer
  outcome.bind fun (s, ptr) =>
    if ptr = 0 then none
    else some (returns ({ s with memory := write (span ptr n) 0 s.memory }, ptr))

/-- `malloc_usable_size` -/
def State.usableSize (s : State) (ptr : ℕ) : ℕ :=
  if s.initialized then s.getSize ptr
  else (s.place ptr).elim 0 fun i => (s.table i).size

def step (s : State) : Label → Option State
  | .initRealFunctions => some { s with wrapped := true }
  | .setInitialized value =>
      if value = true → s.wrapped = true then some { s with initialized := value } else none
  | .malloc ind sz answer junk => if sz < 2 ^ 64 then s.malloc ind sz answer junk else none
  | .calloc ind nmemb sz answer junk =>
      if nmemb < 2 ^ 64 ∧ sz < 2 ^ 64 then s.calloc ind nmemb sz answer junk else none
  | .free ind ptr junk =>
      if s.Names ptr then
        if s.initialized then some (s.giveBack ind ptr junk) else s.munmapFree ptr junk
      else none
  | .usableSize ptr =>
      if s.Names ptr then some { s with result := s.usableSize ptr } else none
  | .realloc ind ptr sz resizes junk =>
      if s.Names ptr ∧ sz < 2 ^ 64 then
        (if s.initialized then s.heapRealloc ind ptr sz junk
          else s.mremapRealloc ptr sz resizes junk).map returns
      else none
  | .store x value =>
      if ∃ block ∈ s.heap.live ++ s.mapped, x ∈ span block.ptr block.requested then
        some { s with memory := Function.update s.memory x value }
      else none

def initial (start : ℕ) (memory : ℕ → UInt8) : State where
  initialized := false
  wrapped := false
  table _ := ⟨0, 0⟩
  heap := Pheap.initial start
  memory := memory
  mapped := []
  result := 0

def system : System State Label where
  Init s := ∃ start memory, 0 < start ∧ Pheap.pageSize ∣ start ∧
    start + protectedHeapSize ≤ 2 ^ 64 ∧
    s = initial start memory
  step := step

/-! ## What has to hold -/

inductive Allocator
  | table
  | heap
  deriving DecidableEq

/-- Who made a block that the program has. -/
def State.producer (s : State) (ptr : ℕ) : Option Allocator :=
  if ptr ∈ s.heap.live.map Block.ptr then some .heap
  else if ptr ∈ s.mapped.map Block.ptr then some .table
  else none

/-- Who looks after a block in a call. -/
def State.server (s : State) (ptr : ℕ) : Option Allocator :=
  if s.initialized then some .heap else (s.place ptr).map fun _ => .table

/-- The pointer that a call is about. -/
def Label.about : Label → Option ℕ
  | .free _ ptr _ | .usableSize ptr | .realloc _ ptr _ _ _ => some ptr
  | _ => none

/-- A call about a block is served by who made it; `realloc` does what `malloc` does for `NULL`, and
keeps what a block has of both sizes otherwise. -/
structure Right (s : State) (label : Label) (s' : State) : Prop where
  served : ∀ ptr, label.about = some ptr → ptr ≠ 0 → s.server ptr = s.producer ptr
  null : ∀ ind sz resizes junk, label = .realloc ind 0 sz resizes junk →
    ∃ answer, step s label = step s (.malloc ind sz answer junk)
  kept : ∀ ind ptr sz resizes junk, label = .realloc ind ptr sz resizes junk →
    ∀ block, s.Live block → block.ptr = ptr → s'.result ≠ 0 →
      ∀ i < min block.requested sz, s'.memory (s'.result + i) = s.memory (ptr + i)

/-- A place of the table has a block that the program has, or it is free, and each block of the
table has a single place. -/
structure Occupied (s : State) : Prop where
  live : ∀ i < maxMmapAllocations, (s.table i).ptr ≠ 0 →
    ⟨(s.table i).ptr, (s.table i).size⟩ ∈ s.mapped
  placed : ∀ block ∈ s.mapped, ∃ i < maxMmapAllocations,
    s.table i = ⟨block.ptr, block.requested⟩ ∧
      ∀ j < maxMmapAllocations, (s.table j).ptr = block.ptr → j = i

/-- The flag is as it was when the block was made. -/
def State.InPhase (s : State) (ptr : ℕ) : Prop :=
  ptr = 0 ∨ (s.initialized = true ↔ ptr ∈ s.heap.live.map Block.ptr)

/-- `free` does not call through `NULL`. -/
def State.CanFree (s : State) (ptr : ℕ) : Prop :=
  s.initialized = true ∨ s.wrapped = true ∨ s.place ptr = none

/-- A block is given back in its phase, and not before `init_real_functions`, `NULL` is not
reallocated before the initialization, a mapping does not fail there, and no request to the heap
wraps. -/
def Ok (s : State) : Label → Prop
  | .malloc _ sz answer _ =>
      if s.initialized then sz ≤ 2 ^ 64 - 4144 else answer.isSome = true
  | .calloc _ nmemb sz _ _ => s.initialized = true → nmemb * sz ≤ 2 ^ 64 - 4144
  | .free _ ptr _ => s.InPhase ptr ∧ s.CanFree ptr
  | .usableSize ptr => s.InPhase ptr
  | .realloc _ ptr sz _ _ => s.InPhase ptr ∧ (ptr = 0 → s.initialized = true) ∧
      (s.initialized = true → sz ≤ 2 ^ 64 - 4144)
  | .initRealFunctions | .setInitialized _ | .store _ _ => True

instance (s : State) (ptr : ℕ) : Decidable (s.InPhase ptr) := by
  unfold State.InPhase
  infer_instance

instance (s : State) (ptr : ℕ) : Decidable (s.CanFree ptr) := by
  unfold State.CanFree
  infer_instance

instance (s : State) (label : Label) : Decidable (Ok s label) := by
  cases label <;> unfold Ok <;> infer_instance

/-- Two blocks have no byte in common. -/
def Apart (a b : Block) : Prop :=
  a.ptr + a.requested ≤ b.ptr ∨ b.ptr + b.requested ≤ a.ptr

/-- The heap is in order, the table has the mapped blocks, and these lie outside of the heap and
apart from each other. -/
structure Inv (s : State) : Prop where
  heap : Pheap.Inv s.heap
  start : 0 < s.heap.xheap.start
  occupied : Occupied s
  positive : ∀ block ∈ s.mapped, 0 < block.ptr ∧ 0 < block.requested
  apart : s.mapped.Pairwise Apart
  outside : ∀ block ∈ s.mapped, block.ptr + block.requested ≤ s.heap.xheap.start ∨
    s.heap.xheap.finish ≤ block.ptr

/-! ## Places -/

variable {s s' : State} {ind : Fin numHeaps} {ptr sz i : ℕ} {junk : ℕ → UInt8} {block : Block}

theorem of_place (found : s.place ptr = some i) :
    i < maxMmapAllocations ∧ (s.table i).ptr = ptr := by
  have inside := List.mem_range.mp (List.mem_of_find?_eq_some found)
  have same := List.find?_some found
  exact ⟨inside, of_decide_eq_true same⟩

theorem place_isSome (inside : i < maxMmapAllocations) (same : (s.table i).ptr = ptr) :
    (s.place ptr).isSome := by
  rw [State.place, List.find?_isSome]
  exact ⟨i, List.mem_range.mpr inside, decide_eq_true same⟩

/-- The place that is found for a block is its own. -/
theorem Occupied.place_eq (occupied : Occupied s) (member : block ∈ s.mapped)
    (found : s.place block.ptr = some i) : s.table i = ⟨block.ptr, block.requested⟩ ∧
      ∀ j < maxMmapAllocations, (s.table j).ptr = block.ptr → j = i := by
  obtain ⟨k, -, entry, single⟩ := occupied.placed block member
  obtain ⟨inside, same⟩ := of_place found
  obtain rfl := single i inside same
  exact ⟨entry, single⟩

/-- A block of the heap is in the space. -/
theorem Inv.heap_inside (inv : Inv s) (held : ptr ∈ s.heap.live.map Block.ptr) :
    s.heap.xheap.start ≤ ptr ∧ ptr < s.heap.xheap.finish := by
  obtain ⟨block, member, rfl⟩ := List.mem_map.mp held
  have sound := inv.heap.sound
  have positive : 0 < s.heap.size block.ptr := by
    rcases inv.heap.records.sized _ (inv.heap.records.known .live _ held) with large | ⟨c, size⟩
    · omega
    · rw [size]
      exact Nat.two_pow_pos _
  obtain ⟨range, listed, within⟩ :=
    sound.handed block member block.ptr (mem_span.mpr (by omega))
  obtain ⟨-, low, high⟩ := sound.ranges range listed
  rw [mem_span] at within
  omega

/-- No block is from both. -/
theorem Inv.heap_ne_mapped (inv : Inv s) (member : block ∈ s.mapped) :
    block.ptr ∉ s.heap.live.map Block.ptr := by
  intro held
  obtain ⟨low, high⟩ := inv.heap_inside held
  obtain ⟨-, positive⟩ := inv.positive block member
  rcases inv.outside block member with before | behind <;> omega

theorem Inv.producer_mapped (inv : Inv s) (member : block ∈ s.mapped) :
    s.producer block.ptr = some .table := by
  rw [State.producer, if_neg (inv.heap_ne_mapped member), if_pos (List.mem_map_of_mem member)]

theorem Occupied.place_isSome (occupied : Occupied s) (member : block ∈ s.mapped) :
    (s.place block.ptr).isSome := by
  obtain ⟨i, inside, entry, -⟩ := occupied.placed block member
  exact PreInit.place_isSome inside (congrArg MmapAllocation.ptr entry)

/-- A call in its phase is served by who made the block. -/
theorem Inv.server_eq (inv : Inv s) (names : s.Names ptr) (phase : s.InPhase ptr)
    (block_ : ptr ≠ 0) : s.server ptr = s.producer ptr := by
  obtain ⟨block, listed, rfl⟩ := names.resolve_left block_
  have phase := phase.resolve_left block_
  by_cases flag : s.initialized = true
  · rw [State.server, if_pos flag, State.producer, if_pos (phase.mp flag)]
  · rcases List.mem_append.mp listed with held | member
    · exact absurd (phase.mpr (List.mem_map_of_mem held)) flag
    · rw [inv.producer_mapped member, State.server, if_neg flag]
      obtain ⟨i, found⟩ := Option.isSome_iff_exists.mp (inv.occupied.place_isSome member)
      rw [found]
      rfl

/-! ## Steps of the heap -/

/-- The table does not care for the heap, as long as the space is where it was. -/
theorem Inv.withHeap (inv : Inv s) {h : Pheap.State} (heap : Pheap.Inv h)
    (start : h.xheap.start = s.heap.xheap.start) (memory : ℕ → UInt8) (result : ℕ) :
    Inv { s with heap := h, memory := memory, result := result } where
  heap := heap
  start := start ▸ inv.start
  occupied := ⟨inv.occupied.live, inv.occupied.placed⟩
  positive := inv.positive
  apart := inv.apart
  outside := by
    have same : h.xheap.finish = s.heap.xheap.finish := by rw [Xheap.finish, start, Xheap.finish]
    change ∀ block ∈ s.mapped, block.ptr + block.requested ≤ h.xheap.start ∨
      h.xheap.finish ≤ block.ptr
    rw [start, same]
    exact inv.outside

/-- What a request to the heap does. -/
theorem request_cases {request : Request}
    (returned : s.request ind request junk = some (s', ptr)) :
    ∃ h, Pheap.malloc s.heap ind request.sz = some (h, ptr) ∧
      s' = { s with
        heap := { h with live := ⟨ptr, request.bytes⟩ :: h.live }
        memory := write h.headers junk s.memory } := by
  obtain ⟨⟨h, p⟩, given, equal⟩ := Option.map_eq_some_iff.mp returned
  obtain ⟨rfl, rfl⟩ := Prod.mk.inj equal
  exact ⟨h, given, rfl⟩

theorem Inv.request {request : Request} (inv : Inv s) (fits : request.bytes ≤ 2 ^ 64 - 4144)
    (returned : s.request ind request junk = some (s', ptr)) :
    Inv s' ∧ s'.heap.live = ⟨ptr, request.bytes⟩ :: s.heap.live := by
  obtain ⟨h, given, rfl⟩ := request_cases returned
  have grants := inv.heap.malloc fits given
  have start := (FreedBlocks.malloc_handout given inv.heap.handout).2
  refine ⟨inv.withHeap grants.hold start _ _, ?_⟩
  change _ :: h.live = _
  rw [grants.live]

/-- A block goes back to the heap. -/
theorem Inv.giveBack (inv : Inv s) (held : ptr = 0 ∨ ptr ∈ s.heap.live.map Block.ptr) :
    Inv (s.giveBack ind ptr junk) := by
  rw [State.giveBack]
  split
  · exact inv
  · have move : Pheap.step s.heap (.free ind ptr) =
        some { free s.heap ind ptr with
          live := s.heap.live.eraseP fun block => block.ptr = ptr } := if_pos held
    have start : (free s.heap ind ptr).xheap.start = s.heap.xheap.start := by
      simp only [free]
      split <;> rfl
    have fits : Fits s.heap (.free ind ptr) := trivial
    exact inv.withHeap (inv.heap.step fits move) start _ _

theorem Inv.heapRealloc (inv : Inv s) (held : ptr = 0 ∨ ptr ∈ s.heap.live.map Block.ptr)
    (fits : sz ≤ 2 ^ 64 - 4144) {result : ℕ}
    (returned : s.heapRealloc ind ptr sz junk = some (s', result)) : Inv s' := by
  have fits : (Request.malloc sz).bytes ≤ 2 ^ 64 - 4144 := fits
  rw [State.heapRealloc] at returned
  split at returned
  · exact (inv.request fits returned).1
  · next block =>
    split at returned
    · obtain ⟨rfl, -⟩ := Prod.mk.inj (Option.some.inj returned)
      exact inv.giveBack held
    · obtain ⟨⟨s₁, newptr⟩, given, equal⟩ := Option.map_eq_some_iff.mp returned
      obtain ⟨rfl, -⟩ := Prod.mk.inj equal
      obtain ⟨inv₁, live⟩ := inv.request fits given
      have copied : Inv (s₁.copy newptr ptr (min (s.getSize ptr) sz)) :=
        inv₁.withHeap inv₁.heap rfl _ _
      refine copied.giveBack (.inr ?_)
      change ptr ∈ s₁.heap.live.map Block.ptr
      rw [live]
      exact List.mem_cons_of_mem _ (held.resolve_left block)

theorem write_of_mem {region : Set ℕ} [DecidablePred (· ∈ region)] {values memory : ℕ → UInt8}
    {x : ℕ} (member : x ∈ region) : write region values memory x = values x := if_pos member

theorem write_of_notMem {region : Set ℕ} [DecidablePred (· ∈ region)] {values memory : ℕ → UInt8}
    {x : ℕ} (outside : x ∉ region) : write region values memory x = memory x := if_neg outside

/-- **What `realloc` of the heap keeps.** -/
theorem heapRealloc_kept (inv : Inv s) (member : block ∈ s.heap.live)
    (fits : sz ≤ 2 ^ 64 - 4144) {newptr : ℕ}
    (returned : s.heapRealloc ind block.ptr sz junk = some (s', newptr)) (some_ : newptr ≠ 0) :
    ∀ i < min block.requested sz, s'.memory (newptr + i) = s.memory (block.ptr + i) := by
  intro i less
  have held : block.ptr ∈ s.heap.live.map Block.ptr := List.mem_map_of_mem member
  have block_ : block.ptr ≠ 0 := by
    have low := (inv.heap_inside held).1
    have start := inv.start
    omega
  rw [State.heapRealloc, if_neg block_, if_neg (by omega)] at returned
  obtain ⟨⟨s₁, p⟩, given, equal⟩ := Option.map_eq_some_iff.mp returned
  obtain ⟨rfl, rfl⟩ := Prod.mk.inj equal
  have fits : (Request.malloc sz).bytes ≤ 2 ^ 64 - 4144 := fits
  obtain ⟨inv₁, live⟩ := inv.request fits given
  obtain ⟨h, -, after⟩ := request_cases given
  have headers : s₁.memory = write s₁.heap.headers junk s.memory := by
    rw [after]
    rfl
  have both : ⟨p, sz⟩ ∈ s₁.heap.live ∧ block ∈ s₁.heap.live := by
    rw [live]
    exact ⟨List.mem_cons_self, List.mem_cons_of_mem _ member⟩
  have sound := inv₁.heap.sound
  have old : block.ptr + i ∈ s₁.heap.block block := by
    have enough := sound.enough block both.2
    exact mem_span.mpr (by omega)
  have new : p + i ∈ s₁.heap.block ⟨p, sz⟩ := by
    have enough := sound.enough ⟨p, sz⟩ both.1
    simp only at enough
    exact mem_span.mpr ⟨Nat.le_add_right p i, by simp only; omega⟩
  -- the link that the free writes is in the old block
  have away : p + i ∉ span block.ptr 8 := by
    intro linked
    have low : 8 ≤ s₁.heap.size block.ptr := by
      have known := inv₁.heap.records.known .live block.ptr (List.mem_map_of_mem both.2)
      rcases inv₁.heap.records.sized _ known with large | ⟨c, size⟩
      · have bound : maxObjectSize = 2147483648 := by decide
        omega
      · rw [size]
        exact FreedBlocks.eight_le_class2Size c
    have blocks := sound.blocks
    rw [live] at blocks
    have apart := (List.pairwise_cons.mp blocks).1 block member
    rw [mem_span] at linked
    exact Set.disjoint_left.mp apart new (mem_span.mpr (by omega))
  have copied : p + i ∈ span p (min (s.getSize block.ptr) sz) := by
    have enough := inv.heap.sound.enough block member
    have size : s.getSize block.ptr = s.heap.size block.ptr := if_neg block_
    rw [size]
    exact mem_span.mpr (by omega)
  have kept : block.ptr + i ∉ s₁.heap.headers :=
    Set.disjoint_left.mp (sound.headers block both.2) old
  have final : ((s₁.copy p block.ptr (min (s.getSize block.ptr) sz)).giveBack ind block.ptr
      junk).memory = write (span block.ptr 8) junk
        (write (span p (min (s.getSize block.ptr) sz))
          (fun x => s₁.memory (block.ptr + (x - p))) s₁.memory) := by
    rw [State.giveBack, if_neg block_]
    rfl
  rw [final, write_of_notMem away, write_of_mem copied, Nat.add_sub_cancel_left, headers,
    write_of_notMem kept]

/-! ## Steps of the table -/

theorem Inv.nodup (inv : Inv s) : (s.mapped.map Block.ptr).Nodup := by
  apply List.pairwise_map.mpr
  apply inv.apart.imp_of_mem
  intro a b listed_a listed_b apart same
  have first := (inv.positive a listed_a).2
  have second := (inv.positive b listed_b).2
  rcases apart with before | behind <;> omega

/-- One place gets what another block has. -/
theorem Occupied.setPlace (occupied : Occupied s) (inside : i < maxMmapAllocations)
    (positive : ∀ block ∈ s.mapped, 0 < block.ptr) {mapped : List Block} {memory : ℕ → UInt8}
    (members : ∀ block, block ∈ mapped ↔
      block ∈ s.mapped ∧ block.ptr ≠ (s.table i).ptr ∨ ptr ≠ 0 ∧ block = ⟨ptr, sz⟩)
    (fresh : ptr ≠ 0 → ∀ block ∈ s.mapped, block.ptr = ptr → ptr = (s.table i).ptr) :
    Occupied { s.setPlace i ptr sz with memory := memory, mapped := mapped } := by
  -- no two places have a block
  have single : ∀ j < maxMmapAllocations, (s.table j).ptr ≠ 0 →
      (s.table j).ptr = (s.table i).ptr → j = i := by
    intro j inside_j taken same
    obtain ⟨k, -, -, only⟩ := occupied.placed _ (occupied.live j inside_j taken)
    rw [only j inside_j rfl, only i inside same.symm]
  constructor
  · intro j inside_j taken
    change ⟨(Function.update s.table i ⟨ptr, sz⟩ j).ptr,
      (Function.update s.table i ⟨ptr, sz⟩ j).size⟩ ∈ mapped
    change (Function.update s.table i ⟨ptr, sz⟩ j).ptr ≠ 0 at taken
    by_cases here : j = i
    · rw [here, Function.update_self] at taken ⊢
      exact (members _).mpr (.inr ⟨taken, rfl⟩)
    · rw [Function.update_of_ne here] at taken ⊢
      refine (members _).mpr (.inl ⟨occupied.live j inside_j taken, ?_⟩)
      exact fun same => here (single j inside_j taken same)
  · intro block member
    change ∃ k < maxMmapAllocations,
      Function.update s.table i ⟨ptr, sz⟩ k = ⟨block.ptr, block.requested⟩ ∧
        ∀ j < maxMmapAllocations,
          (Function.update s.table i ⟨ptr, sz⟩ j).ptr = block.ptr → j = k
    rcases (members block).mp member with ⟨old, different⟩ | ⟨some_, rfl⟩
    · obtain ⟨k, inside_k, entry, only⟩ := occupied.placed block old
      have elsewhere : k ≠ i := by
        rintro rfl
        exact different (congrArg MmapAllocation.ptr entry).symm
      refine ⟨k, inside_k, by rwa [Function.update_of_ne elsewhere], ?_⟩
      intro j inside_j same
      by_cases here : j = i
      · rw [here, Function.update_self] at same
        have some_ : ptr ≠ 0 := fun none_ => (positive block old).ne' (same.symm.trans none_)
        exact absurd (same.symm.trans (fresh some_ block old same.symm)) different
      · rw [Function.update_of_ne here] at same
        exact only j inside_j same
    · refine ⟨i, inside, Function.update_self i _ _, ?_⟩
      intro j inside_j same
      by_contra here
      rw [Function.update_of_ne here] at same
      have taken : (s.table j).ptr ≠ 0 := same ▸ some_
      have known := fresh some_ _ (occupied.live j inside_j taken) same
      exact here (single j inside_j taken (same.trans known))

/-- One place gets what another block has, and what is mapped stays in order. -/
theorem Inv.setPlace (inv : Inv s) (inside : i < maxMmapAllocations) {mapped : List Block}
    {memory : ℕ → UInt8} (members : ∀ block, block ∈ mapped ↔
      block ∈ s.mapped ∧ block.ptr ≠ (s.table i).ptr ∨ ptr ≠ 0 ∧ block = ⟨ptr, sz⟩)
    (fresh : ptr ≠ 0 → ∀ block ∈ s.mapped, block.ptr = ptr → ptr = (s.table i).ptr)
    (apart : mapped.Pairwise Apart)
    (held : ptr ≠ 0 → 0 < sz ∧
      (ptr + sz ≤ s.heap.xheap.start ∨ s.heap.xheap.finish ≤ ptr)) :
    Inv { s.setPlace i ptr sz with memory := memory, mapped := mapped } where
  heap := inv.heap
  start := inv.start
  occupied := inv.occupied.setPlace inside (fun block member => (inv.positive block member).1)
    members fresh
  positive := by
    intro block member
    rcases (members block).mp member with ⟨old, -⟩ | ⟨some_, rfl⟩
    · exact inv.positive block old
    · exact ⟨Nat.pos_of_ne_zero some_, (held some_).1⟩
  apart := apart
  outside := by
    intro block member
    rcases (members block).mp member with ⟨old, -⟩ | ⟨some_, rfl⟩
    · exact inv.outside block old
    · exact (held some_).2

/-- A mapping is noted in the table. -/
theorem Inv.mmapMalloc (inv : Inv s) {answer : Option ℕ} (served : answer.isSome)
    (returned : s.mmapMalloc sz answer = some (s', ptr)) : Inv s' := by
  obtain ⟨p, rfl⟩ := Option.isSome_iff_exists.mp served
  unfold State.mmapMalloc at returned
  generalize found : s.place 0 = place at returned
  cases place with
  | none => exact absurd returned (Option.some_ne_none _).symm
  | some i =>
    obtain ⟨inside, free⟩ := of_place found
    simp only at returned
    split at returned
    · next unmapped =>
      obtain ⟨rfl, rfl⟩ := Prod.mk.inj (Option.some.inj returned)
      obtain ⟨positive, some_, -, -, outside, apart⟩ := unmapped
      apply inv.setPlace inside
      · intro block
        rw [List.mem_cons, free]
        constructor
        · rintro (rfl | member)
          · exact .inr ⟨some_.ne', rfl⟩
          · exact .inl ⟨member, (inv.positive block member).1.ne'⟩
        · rintro (⟨member, -⟩ | ⟨-, rfl⟩)
          · exact .inr member
          · exact .inl rfl
      · intro _ block member same
        have size := (inv.positive block member).2
        rcases apart block member with before | behind <;> omega
      · exact List.pairwise_cons.mpr ⟨apart, inv.apart⟩
      · exact fun _ => ⟨positive, outside⟩
    · exact absurd returned (Option.some_ne_none _).symm

/-- A mapping leaves the table. -/
theorem Inv.munmapFree (inv : Inv s) (returned : s.munmapFree ptr junk = some s') : Inv s' := by
  unfold State.munmapFree at returned
  generalize found : s.place ptr = place at returned
  cases place with
  | none =>
    obtain rfl := Option.some.inj returned
    exact inv
  | some i =>
    obtain ⟨-, rfl⟩ := guarded returned
    obtain ⟨inside, same⟩ := of_place found
    apply inv.setPlace inside
    · intro block
      rw [same]
      constructor
      · intro member
        exact .inl ⟨List.mem_of_mem_eraseP member, Carving.ne_of_mem_eraseP inv.nodup member⟩
      · rintro (⟨member, different⟩ | ⟨none_, -⟩)
        · exact (List.mem_eraseP_of_neg (by simpa using different)).mpr member
        · exact absurd rfl none_
    · exact absurd rfl
    · exact inv.apart.sublist List.eraseP_sublist
    · exact absurd rfl

theorem resize_of_eq (same : block.ptr = ptr) : resize ptr sz block = ⟨ptr, sz⟩ := if_pos same

theorem resize_of_ne (different : block.ptr ≠ ptr) : resize ptr sz block = block :=
  if_neg different

/-- What `mremap` does. -/
theorem mremapRealloc_cases {resizes : Bool} {result : ℕ}
    (returned : s.mremapRealloc ptr sz resizes junk = some (s', result)) :
    s' = s ∧ result = 0 ∨ result = ptr ∧ s.Resizable ptr sz ∧
      ∃ i, s.place ptr = some i ∧ s' = { s.setPlace i ptr sz with
        memory := write (span (ptr + min (s.table i).size sz)
          (max (s.table i).size sz - min (s.table i).size sz)) junk s.memory
        mapped := s.mapped.map (resize ptr sz) } := by
  unfold State.mremapRealloc at returned
  generalize s.place ptr = place at returned ⊢
  cases place with
  | none =>
    obtain ⟨rfl, rfl⟩ := Prod.mk.inj (Option.some.inj returned)
    exact .inl ⟨rfl, rfl⟩
  | some i =>
    simp only at returned
    split at returned
    · split at returned
      · next resizable =>
        obtain ⟨rfl, rfl⟩ := Prod.mk.inj (Option.some.inj returned)
        exact .inr ⟨rfl, resizable, i, rfl, rfl⟩
      · exact absurd returned (Option.some_ne_none _).symm
    · obtain ⟨rfl, rfl⟩ := Prod.mk.inj (Option.some.inj returned)
      exact .inl ⟨rfl, rfl⟩

/-- A mapping has another size. -/
theorem Inv.mremapRealloc (inv : Inv s) {resizes : Bool} {result : ℕ}
    (returned : s.mremapRealloc ptr sz resizes junk = some (s', result)) : Inv s' := by
  rcases mremapRealloc_cases returned with ⟨rfl, -⟩ | ⟨-, resizable, i, found, rfl⟩
  · exact inv
  obtain ⟨positive, mapped, -, outside, apart⟩ := resizable
  obtain ⟨inside, same⟩ := of_place found
  obtain ⟨held, member, rfl⟩ := List.mem_map.mp mapped
  apply inv.setPlace inside
  · intro block
    rw [same, List.mem_map]
    constructor
    · rintro ⟨old, listed, rfl⟩
      by_cases here : old.ptr = held.ptr
      · rw [resize_of_eq here]
        exact .inr ⟨(inv.positive held member).1.ne', rfl⟩
      · rw [resize_of_ne here]
        exact .inl ⟨listed, here⟩
    · rintro (⟨listed, different⟩ | ⟨-, rfl⟩)
      · exact ⟨block, listed, resize_of_ne different⟩
      · exact ⟨held, member, resize_of_eq rfl⟩
  · exact fun _ _ _ _ => same.symm
  · apply List.pairwise_map.mpr
    apply (inv.apart.and (List.pairwise_map.mp inv.nodup)).imp_of_mem
    intro a b listed_a listed_b both
    obtain ⟨apart_ab, different⟩ := both
    by_cases first : a.ptr = held.ptr
    · have second : b.ptr ≠ held.ptr := fun here => different (first.trans here.symm)
      rw [resize_of_eq first, resize_of_ne second]
      exact (apart b listed_b).resolve_left second
    · rw [resize_of_ne first]
      by_cases second : b.ptr = held.ptr
      · rw [resize_of_eq second]
        exact ((apart a listed_a).resolve_left first).symm
      · rwa [resize_of_ne second]
  · exact fun _ => ⟨positive, outside⟩

/-- **What `mremap` keeps.** -/
theorem mremapRealloc_kept (inv : Inv s) (member : block ∈ s.mapped) {resizes : Bool}
    {result : ℕ} (returned : s.mremapRealloc block.ptr sz resizes junk = some (s', result))
    (some_ : result ≠ 0) :
    ∀ i < min block.requested sz, s'.memory (result + i) = s.memory (block.ptr + i) := by
  intro i less
  rcases mremapRealloc_cases returned with ⟨-, none_⟩ | ⟨rfl, -, k, found, rfl⟩
  · exact absurd none_ some_
  have size : (s.table k).size = block.requested :=
    congrArg MmapAllocation.size (inv.occupied.place_eq member found).1
  apply write_of_notMem
  rw [mem_span, size]
  omega

/-! ## Steps of the program -/

/-- The bytes do not matter to who has what. -/
theorem Inv.bytes (inv : Inv s) (memory : ℕ → UInt8) (result : ℕ) :
    Inv { s with memory := memory, result := result } :=
  inv.withHeap inv.heap rfl memory result

theorem Inv.setInitialized (inv : Inv s) (value : Bool) :
    Inv { s with initialized := value } where
  heap := inv.heap
  start := inv.start
  occupied := ⟨inv.occupied.live, inv.occupied.placed⟩
  positive := inv.positive
  apart := inv.apart
  outside := inv.outside

theorem Inv.initRealFunctions (inv : Inv s) : Inv { s with wrapped := true } where
  heap := inv.heap
  start := inv.start
  occupied := ⟨inv.occupied.live, inv.occupied.placed⟩
  positive := inv.positive
  apart := inv.apart
  outside := inv.outside

theorem inv_initial {start : ℕ} (positive : 0 < start) (page : Pheap.pageSize ∣ start)
    (memory : ℕ → UInt8) : Inv (initial start memory) where
  heap := Pheap.inv_initial page
  start := positive
  occupied := ⟨fun _ _ taken => absurd rfl taken, fun _ => nofun⟩
  positive _ := nofun
  apart := .nil
  outside _ := nofun

/-- A pointer that is named in the phase of the heap is one of the heap. -/
theorem held_of_inPhase (phase : s.InPhase ptr) (flag : s.initialized = true) :
    ptr = 0 ∨ ptr ∈ s.heap.live.map Block.ptr :=
  phase.imp_right fun same => same.mp flag

theorem Inv.malloc (inv : Inv s) {answer : Option ℕ} (ok : Ok s (.malloc ind sz answer junk))
    (returned : s.malloc ind sz answer junk = some s') : Inv s' := by
  rw [State.malloc] at returned
  rw [Ok] at ok
  split at returned
  · next flag =>
    rw [if_pos flag] at ok
    obtain ⟨⟨s₁, p⟩, given, rfl⟩ := Option.map_eq_some_iff.mp returned
    have fits : (Request.malloc sz).bytes ≤ 2 ^ 64 - 4144 := ok
    exact (inv.request fits given).1.bytes _ _
  · next flag =>
    rw [if_neg flag] at ok
    obtain ⟨⟨s₁, p⟩, given, rfl⟩ := Option.map_eq_some_iff.mp returned
    exact (inv.mmapMalloc ok given).bytes _ _

/-- A mapping that fails has no address. -/
theorem isSome_of_mmapMalloc {answer : Option ℕ} (some_ : ptr ≠ 0)
    (returned : s.mmapMalloc sz answer = some (s', ptr)) : answer.isSome := by
  cases answer with
  | some p => rfl
  | none =>
    unfold State.mmapMalloc at returned
    generalize s.place 0 = place at returned
    cases place with
    | none => exact absurd returned (Option.some_ne_none _).symm
    | some i => exact absurd (Prod.mk.inj (Option.some.inj returned)).2.symm some_

theorem Inv.calloc (inv : Inv s) {nmemb : ℕ} {answer : Option ℕ}
    (ok : Ok s (.calloc ind nmemb sz answer junk))
    (returned : s.calloc ind nmemb sz answer junk = some s') : Inv s' := by
  rw [State.calloc] at returned
  obtain ⟨⟨s₁, p⟩, given, returned⟩ := Option.bind_eq_some_iff.mp returned
  simp only at returned
  split at returned
  · exact absurd returned (Option.some_ne_none _).symm
  · next some_ =>
    obtain rfl := Option.some.inj returned
    have inv₁ : Inv s₁ := by
      split at given
      · next flag =>
        have fits : (Request.calloc nmemb sz).bytes ≤ 2 ^ 64 - 4144 := ok flag
        exact (inv.request fits given).1
      · exact inv.mmapMalloc (isSome_of_mmapMalloc some_ given) given
    exact inv₁.bytes _ _

/-- **A step that meets the condition** keeps the heap and the table in order. -/
theorem Inv.step (inv : Inv s) {label : Label} (ok : Ok s label)
    (move : PreInit.step s label = some s') : Inv s' := by
  cases label with
  | initRealFunctions =>
    obtain rfl := Option.some.inj move
    exact inv.initRealFunctions
  | setInitialized value =>
    obtain ⟨-, rfl⟩ := guarded move
    exact inv.setInitialized value
  | malloc ind sz answer junk => exact inv.malloc ok (Option.ite_none_right_eq_some.mp move).2
  | calloc ind nmemb sz answer junk => exact inv.calloc ok (Option.ite_none_right_eq_some.mp move).2
  | free ind ptr junk =>
    obtain ⟨-, returned⟩ := Option.ite_none_right_eq_some.mp move
    split at returned
    · next flag =>
      obtain rfl := Option.some.inj returned
      exact inv.giveBack (held_of_inPhase ok.1 flag)
    · exact inv.munmapFree returned
  | usableSize ptr =>
    obtain ⟨-, rfl⟩ := guarded move
    exact inv.bytes s.memory _
  | realloc ind ptr sz resizes junk =>
    obtain ⟨phase, -, fits⟩ := ok
    obtain ⟨-, returned⟩ := Option.ite_none_right_eq_some.mp move
    obtain ⟨⟨s₁, result⟩, given, rfl⟩ := Option.map_eq_some_iff.mp returned
    suffices Inv s₁ from this.bytes _ _
    split at given
    · next flag => exact inv.heapRealloc (held_of_inPhase phase flag) (fits flag) given
    · exact inv.mremapRealloc given
  | store x value =>
    obtain ⟨-, rfl⟩ := guarded move
    exact inv.bytes _ s.result

theorem Inv.of_reachable (reach : system.Reachable Ok s) : Inv s := by
  apply reach.invariant Inv
  · rintro _ ⟨start, memory, positive, page, -, rfl⟩
    exact inv_initial positive page memory
  · exact fun _ _ _ inv ok move => inv.step ok move

/-! ## Who serves a call -/

/-- Of a live block, the phase says where it is from. -/
theorem Inv.cases (inv : Inv s) (live : s.Live block) (phase : s.InPhase block.ptr) :
    if s.initialized then block ∈ s.heap.live else block ∈ s.mapped := by
  have some_ : block.ptr ≠ 0 := by
    rcases live with held | member
    · have low := (inv.heap_inside (List.mem_map_of_mem held)).1
      have start := inv.start
      omega
    · exact (inv.positive block member).1.ne'
  have phase := phase.resolve_left some_
  split
  · next flag =>
    have elsewhere : block ∉ s.mapped := fun member => inv.heap_ne_mapped member (phase.mp flag)
    exact live.resolve_right elsewhere
  · next flag =>
    have elsewhere : block ∉ s.heap.live := fun held =>
      flag (phase.mpr (List.mem_map_of_mem held))
    exact live.resolve_left elsewhere

/-- What a call is about is named, and in its phase. -/
theorem about_names {label : Label} (ok : Ok s label) (move : PreInit.step s label = some s')
    (about : label.about = some ptr) : s.Names ptr ∧ s.InPhase ptr := by
  cases label <;> simp only [Label.about, reduceCtorEq, Option.some.injEq] at about
  case free =>
    subst about
    exact ⟨(Option.ite_none_right_eq_some.mp move).1, ok.1⟩
  case usableSize =>
    subst about
    exact ⟨(guarded move).1, ok⟩
  case realloc =>
    subst about
    exact ⟨(Option.ite_none_right_eq_some.mp move).1.1, ok.1⟩

/-- **A call that meets the condition** does right by its block. -/
theorem Inv.right (inv : Inv s) {label : Label} (ok : Ok s label)
    (move : PreInit.step s label = some s') : Right s label s' where
  served := by
    intro ptr about some_
    obtain ⟨names, phase⟩ := about_names ok move about
    exact inv.server_eq names phase some_
  null := by
    rintro ind sz resizes junk rfl
    have flag := ok.2.1 rfl
    have small := (Option.ite_none_right_eq_some.mp move).1.2
    refine ⟨none, ?_⟩
    have first : PreInit.step s (.realloc ind 0 sz resizes junk) =
        (s.heapRealloc ind 0 sz junk).map returns := by
      rw [PreInit.step, if_pos ⟨.inl rfl, small⟩, if_pos flag]
    have second : PreInit.step s (.malloc ind sz none junk) =
        (s.request ind (.malloc sz) junk).map returns := by
      rw [PreInit.step, if_pos small, State.malloc, if_pos flag]
    rw [first, second, State.heapRealloc, if_pos rfl]
  kept := by
    rintro ind _ sz resizes junk rfl block live rfl some_
    have known := inv.cases live ok.1
    obtain ⟨-, returned⟩ := Option.ite_none_right_eq_some.mp move
    obtain ⟨⟨s₁, result⟩, given, rfl⟩ := Option.map_eq_some_iff.mp returned
    have some_ : result ≠ 0 := some_
    change ∀ i < min block.requested sz, s₁.memory (result + i) = s.memory (block.ptr + i)
    split at given
    · next flag =>
      rw [if_pos flag] at known
      exact heapRealloc_kept inv known (ok.2.2 flag) given some_
    · next flag =>
      rw [if_neg flag] at known
      exact mremapRealloc_kept inv known given some_

/-- `free` returns where it does not call through `NULL`. -/
theorem free_returns (can : s.CanFree ptr) (names : s.Names ptr) :
    (PreInit.step s (.free ind ptr junk)).isSome := by
  change (if s.Names ptr then _ else _ : Option State).isSome
  rw [if_pos names]
  split
  · rfl
  · next flag =>
    unfold State.munmapFree
    rcases can with set | wrapped | absent
    · exact absurd set flag
    · split
      · rfl
      · rw [if_pos wrapped]
        rfl
    · rw [absent]
      rfl

/-- **Blocks are released by the allocator that made them**, as long as each is released in the
phase in which it was made, and after `init_real_functions`. -/
theorem right_of_reachable (reach : system.Reachable Ok s) : Occupied s ∧
    (∀ label s', Ok s label → system.step s label = some s' → Right s label s') ∧
    ∀ ind ptr junk, s.Names ptr → Ok s (.free ind ptr junk) →
      (system.step s (.free ind ptr junk)).isSome := by
  have inv := Inv.of_reachable reach
  exact ⟨inv.occupied, fun label s' ok move => inv.right ok move,
    fun ind ptr junk names ok => free_returns ok.2 names⟩

/-- An address behind the heap. -/
def mappedAt : ℕ := 2 ^ 33

/-- A block from before the initialization is there again, and goes, when the flag is cleared. -/
def phases : List Label :=
  [.malloc 0 100 (some mappedAt) 0, .initRealFunctions, .setInitialized true, .malloc 0 40 none 0,
    .realloc 0 4144 100 false 0, .setInitialized false, .realloc 0 mappedAt 50 true 0,
    .free 0 mappedAt 0]

theorem init_initial : system.Init (initial Pheap.pageSize 0) := by
  refine ⟨Pheap.pageSize, 0, ?_, dvd_refl Pheap.pageSize, ?_, rfl⟩ <;> decide

theorem right_phases : ∃ s, system.run (initial Pheap.pageSize 0) phases = some s ∧ Occupied s ∧
    (∀ label s', Ok s label → system.step s label = some s' → Right s label s') ∧
    ∀ ind ptr junk, s.Names ptr → Ok s (.free ind ptr junk) →
      (system.step s (.free ind ptr junk)).isSome := by
  have run : (system.runIf (fun s label => decide (Ok s label)) (initial Pheap.pageSize 0)
      phases).isSome = true := by decide +kernel
  obtain ⟨s, execution⟩ := Option.isSome_iff_exists.mp run
  obtain ⟨complies, follows⟩ :=
    System.complies_of_runIf (fun _ _ passes => of_decide_eq_true passes) execution
  exact ⟨s, follows, right_of_reachable (.follow (.init init_initial) complies follows)⟩

/-- The heap is asked to free a block of the table. -/
theorem not_right_early : ¬ ∀ s, system.Reachable AnyStep s →
    Occupied s ∧ ∀ label s', system.step s label = some s' → Right s label s' := by
  intro right
  have run : (system.run (initial Pheap.pageSize 0)
      [.malloc 0 100 (some mappedAt) 0, .initRealFunctions, .setInitialized true]).any fun s =>
      (system.step s (.free 0 mappedAt 0)).isSome &&
        decide (s.server mappedAt ≠ s.producer mappedAt) := by decide +kernel
  obtain ⟨s, execution, bad⟩ := (Option.any_eq_true _ _).mp run
  obtain ⟨moves, differs⟩ := Bool.and_eq_true_iff.mp bad
  obtain ⟨s', move⟩ := Option.isSome_iff_exists.mp moves
  have served := ((right s (.run (.init init_initial) execution)).2 _ s' move).served
  exact of_decide_eq_true differs (served mappedAt rfl (by decide))

end Tthread.PreInit
