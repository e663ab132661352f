/-
# The contract of memalign

Up to 32 bytes `memalign` leaves the alignment to `malloc`, whose blocks start at multiples of 16.
For more, it asks for as many bytes as a shift can cost on top. The sum is a `size_t`: where it
wraps, the block is too short, and the header that is written says that it is not.
-/

import Tthread.FreedBlocks

namespace Tthread.Memalign

open Transition FreedBlocks
open Pheap hiding State Label initial step system

/-- What is asked of `malloc`, as a number. -/
def needs (align size : ℕ) : ℕ := if align ≤ 32 then size else size + align - 1

/-- A block is a multiple of the alignment, has as many bytes as asked for, and is a part of the
block that came from `malloc`, behind both headers. -/
structure Honours (s s' : State) (ind : Fin numHeaps) (align size ptr : ℕ) : Prop where
  aligned : align ∣ ptr
  getSize : size ≤ s'.heap.size ptr
  inside : ∃ s₁ mem, s.malloc ind (sizeT (needs align size)) = some (s₁, mem) ∧
    span ptr size ⊆ span mem (s₁.capacity mem) ∧
    Disjoint (span ptr size) (span (mem - objectHeaderSize) objectHeaderSize) ∧
    Disjoint (span ptr size) (span (ptr - objectHeaderSize) objectHeaderSize)
  handed : ∀ x ∈ span ptr size, ∃ range ∈ s'.heap.ranges, x ∈ span range.1 range.2

/-- `memalign` fails, or it honours its contract. -/
def Contract (s : State) (ind : Fin numHeaps) (align size : ℕ) : Prop :=
  ∀ s' ptr, s.memalign ind align size = some (s', .ok ptr) → Honours s s' ind align size ptr

/-- The length of the range for a new arena with room for `n` bytes. -/
def arenaLength (n : ℕ) : ℕ :=
  sizeT (arenaHeaderSize + if protectedHeapChunk < n then n else protectedHeapChunk)

/-- `xheap` has a range of this length. -/
def Gives (h : Xheap) (length : ℕ) : Prop :=
  h.locked = false ∧ h.remaining ≠ 0 ∧ pageRound length ≤ h.remaining

instance (h : Xheap) (length : ℕ) : Decidable (Gives h length) :=
  inferInstanceAs (Decidable (_ ∧ _ ∧ _))

/-- Where a request will be served, as the heap is before it. -/
inductive Source
  /-- the list of the class, with this object at its head -/
  | list (head : ℕ)
  /-- the current arena -/
  | current (arena : Arena)
  /-- a new arena -/
  | fresh
  /-- nothing is left -/
  | exhausted

/-- The source of a new object of `n` bytes. -/
def objectSource (h : Pheap.State) (ind : Fin numHeaps) (n : ℕ) : Source :=
  let taken := Pheap.align (sizeT (n + objectHeaderSize))
  let next := if Gives h.xheap (arenaLength taken) then .fresh else .exhausted
  match (h.heap ind).currentArena with
  | some arena => if taken ≤ arena.remaining then .current arena else next
  | none => next

/-- The source of a request of `sz` bytes. -/
def source (h : Pheap.State) (ind : Fin numHeaps) (sz : ℕ) : Source :=
  if rounded sz ≤ maxObjectSize then
    match (h.heap ind).myLittleHeap (size2Class (rounded sz)) with
    | ptr :: _ => .list ptr
    | [] => objectSource h ind (class2Size (size2Class (rounded sz)))
  else objectSource h ind (rounded sz)

/-- Nothing is left for the call, or nothing wraps in the bytes that it needs and, if the alignment
is 32, it meets a list whose head is a multiple of 32 or an arena that goes on 16 bytes before
one. -/
def Source.Suits (needed align : ℕ) : Source → Prop
  | .list head => needed ≤ 2 ^ 64 - 4144 ∧ (align = 32 → 32 ∣ head)
  | .current arena => needed ≤ 2 ^ 64 - 4144 ∧
      (align = 32 → 32 ∣ arena.arenaSpace + objectHeaderSize)
  | .fresh => needed ≤ 2 ^ 64 - 4144 ∧ align ≠ 32
  | .exhausted => True

instance (needed align : ℕ) : DecidablePred (Source.Suits needed align)
  | .list _ | .current _ | .fresh => inferInstanceAs (Decidable (_ ∧ _))
  | .exhausted => inferInstanceAs (Decidable True)

def Suits (h : Pheap.State) (ind : Fin numHeaps) (align size : ℕ) : Prop :=
  (source h ind (sizeT (needs align size))).Suits (needs align size) align

instance (h : Pheap.State) (ind : Fin numHeaps) (align size : ℕ) :
    Decidable (Suits h ind align size) :=
  inferInstanceAs (Decidable (Source.Suits _ _ _))

variable {s s₁ s' : State} {g g₁ : Pheap.State} {owner : ℕ → ℕ} {ind : Fin numHeaps}
  {align size sz mem ptr k : ℕ}

/-! ## Where the block comes from -/

/-- The block that a source has for a request, where new ranges begin at this position. -/
def Source.block (position : ℕ) : Source → Option ℕ
  | .list head => some head
  | .current arena => some (arena.arenaSpace + objectHeaderSize)
  | .fresh => some (position + arenaHeaderSize + objectHeaderSize)
  | .exhausted => none

theorem arenaMalloc_block {h : Pheap.State} {arena : Arena} {n : ℕ} (room : n ≤ arena.remaining) :
    (arenaMalloc h ind arena n).map Prod.snd = some arena.arenaSpace := by
  rw [arenaMalloc, Arena.malloc, if_neg (Nat.not_lt.mpr room)]
  rfl

/-- A new arena has room for what it is made for, so the block is its first one. -/
theorem slowMalloc_block {h : Pheap.State} {n : ℕ} :
    (slowMalloc h ind n).map Prod.snd =
      if Gives h.xheap (arenaLength n) then some (h.xheap.position + arenaHeaderSize)
        else none := by
  have handed : h.xheap.malloc (arenaLength n) =
      if Gives h.xheap (arenaLength n) then
        some ({ h.xheap with
          position := h.xheap.position + pageRound (arenaLength n)
          remaining := h.xheap.remaining - pageRound (arenaLength n) }, h.xheap.position)
      else none := by
    have either : (h.xheap.locked = true ∨ h.xheap.remaining = 0 ∨
        h.xheap.remaining < pageRound (arenaLength n)) ↔ ¬ Gives h.xheap (arenaLength n) := by
      rw [Gives, not_and_or, not_and_or, Bool.not_eq_false, not_not, Nat.not_le]
    rw [Xheap.malloc, if_congr either rfl rfl, ite_not]
  change (((h.xheap.malloc (arenaLength n)).map _).bind _).map _ = _
  rw [handed]
  by_cases gives : Gives h.xheap (arenaLength n)
  · have enough : n ≤ if protectedHeapChunk < n then n else protectedHeapChunk := by
      split <;> omega
    rw [if_pos gives, if_pos gives]
    exact arenaMalloc_block enough
  · rw [if_neg gives, if_neg gives]
    rfl

theorem bigMalloc_block {h : Pheap.State} {n : ℕ} :
    (bigMalloc h ind n).map Prod.snd = (objectSource h ind n).block h.xheap.position := by
  have shifted : (bigMalloc h ind n).map Prod.snd =
      ((zoneMalloc h ind (sizeT (n + objectHeaderSize))).map Prod.snd).map
        (· + objectHeaderSize) := by
    rw [bigMalloc, Option.map_map, Option.map_map]
    rfl
  have slow : ((slowMalloc h ind (Pheap.align (sizeT (n + objectHeaderSize)))).map Prod.snd).map
      (· + objectHeaderSize) = Source.block h.xheap.position
        (if Gives h.xheap (arenaLength (Pheap.align (sizeT (n + objectHeaderSize))))
          then .fresh else .exhausted) := by
    rw [slowMalloc_block]
    split <;> rfl
  rw [shifted, zoneMalloc, objectSource]
  cases (h.heap ind).currentArena with
  | none => exact slow
  | some arena =>
    dsimp only
    split
    · next room =>
      rw [arenaMalloc_block room]
      rfl
    · exact slow

/-- A request gets its block from the source that it meets. -/
theorem malloc_block {h : Pheap.State} {n : ℕ} :
    (Pheap.malloc h ind n).map Prod.snd = (source h ind n).block h.xheap.position := by
  change (segMalloc h ind (rounded n)).map Prod.snd = _
  rw [segMalloc, source]
  split
  · cases (h.heap ind).myLittleHeap (size2Class (rounded n)) with
    | nil => exact bigMalloc_block
    | cons head rest => rfl
  · exact bigMalloc_block

/-- Bytes that are needed and where the block is, in the words of what `malloc` returns. -/
def Returns (s : State) (ind : Fin numHeaps) (align size : ℕ) : Prop :=
  ∀ s₁ mem, s.malloc ind (sizeT (needs align size)) = some (s₁, mem) →
    needs align size ≤ 2 ^ 64 - 4144 ∧ (align = 32 → 32 ∣ mem)

theorem malloc_snd (s : State) (ind : Fin numHeaps) (n : ℕ) :
    (s.malloc ind n).map Prod.snd = (Pheap.malloc s.heap ind n).map Prod.snd := by
  rw [State.malloc, Option.map_map]
  congr 1
  funext given
  dsimp only [Function.comp]
  split <;> rfl

/-- The first block of a new arena is 48 bytes behind a page, so it is no multiple of 32. -/
theorem suits_iff_returns (page : Pheap.pageSize ∣ s.heap.xheap.position) :
    Suits s.heap ind align size ↔ Returns s ind align size := by
  have block := (malloc_snd s ind (sizeT (needs align size))).trans malloc_block
  have given : Returns s ind align size ↔
      ∀ mem, (source s.heap ind (sizeT (needs align size))).block s.heap.xheap.position = some mem →
        needs align size ≤ 2 ^ 64 - 4144 ∧ (align = 32 → 32 ∣ mem) := by
    rw [← block]
    constructor
    · intro returns mem found
      obtain ⟨⟨s₁, p⟩, given, rfl⟩ := Option.map_eq_some_iff.mp found
      exact returns s₁ p given
    · intro returns s₁ mem given
      exact returns mem (Option.map_eq_some_iff.mpr ⟨_, given, rfl⟩)
  rw [given, Suits]
  cases source s.heap ind (sizeT (needs align size)) with
  | list head => simp [Source.block, Source.Suits]
  | current arena => simp [Source.block, Source.Suits]
  | fresh =>
    have apart : ¬ 32 ∣ s.heap.xheap.position + arenaHeaderSize + objectHeaderSize := by
      obtain ⟨k, same⟩ := page
      rw [same, Pheap.pageSize, arenaHeaderSize, objectHeaderSize]
      omega
    simp [Source.block, Source.Suits, apart]
  | exhausted => simp [Source.block, Source.Suits]

/-! ## The two cases -/

theorem masked_two_pow (small : k < 64) : 2 ^ k &&& neg (2 ^ k) = 2 ^ k := by
  have order : 2 ^ k < 2 ^ 64 := Nat.pow_lt_pow_right Nat.one_lt_two small
  have positive : 0 < 2 ^ k := Nat.two_pow_pos k
  have negated : neg (2 ^ k) = 2 ^ 64 - 2 ^ k := Nat.mod_eq_of_lt (by omega)
  rw [negated]
  exact Alignment.two_pow_and_neg small

/-- The block itself, or one that is cut off it. -/
theorem memalign_eq (masked : align &&& neg align = align) (fits : size < 2 ^ 64) :
    s.memalign ind align size =
      (s.malloc ind (sizeT (needs align size))).map fun (s₁, mem) =>
        if align ≤ 32 ∨ alignUp mem align = mem then (s₁, .ok mem)
        else (s₁.shift ind mem (alignUp mem align) size, .ok (alignUp mem align)) := by
  rw [State.memalign, if_neg (not_not_intro masked), needs]
  by_cases small : align ≤ 32
  · have same : sizeT size = size := Nat.mod_eq_of_lt fits
    rw [if_pos small, if_pos small, same]
    simp [small]
  · rw [if_neg small, if_neg small]
    simp [small]

/-- A cut does not ask for memory. -/
theorem shift_ranges {aligned : ℕ} :
    (s.shift ind mem aligned size).heap.ranges = s.heap.ranges := by
  have put_ranges : ∀ (heap : Pheap.State) sent, (put heap ind mem sent).ranges = heap.ranges := by
    intro heap sent
    rw [put.eq_def]
    split <;> rfl
  change (((s.writeHeader mem _).cut mem aligned).free ind mem true).heap.ranges = _
  rw [State.free]
  split
  · rfl
  · exact put_ranges _ _

/-! ## What has room -/

/-- Bytes that `xheap` has handed out are no more than the space has. -/
theorem size_le_space (out : Handout s.heap.xheap s.heap.ranges)
    (handed : ∀ x ∈ span ptr size, ∃ range ∈ s.heap.ranges, x ∈ span range.1 range.2) :
    size ≤ protectedHeapSize := by
  have inside : ∀ range ∈ s.heap.ranges,
      s.heap.xheap.start ≤ range.1 ∧ range.1 + range.2 ≤ s.heap.xheap.finish := by
    intro range listed
    obtain ⟨-, low, high⟩ := out.inside range listed
    exact ⟨low, high.trans (Nat.le.intro out.room)⟩
  exact length_le_space inside handed

/-- Nothing that wraps has room. -/
theorem needs_le (small : size ≤ protectedHeapSize) (masked : align ≤ 2 ^ 63) :
    needs align size ≤ 2 ^ 64 - 4144 := by
  have bound : protectedHeapSize = 4294967296 := rfl
  rw [needs]
  split <;> omega

/-- The first bytes of what was obtained are its own, and were handed out. -/
theorem obtained_inside {n : ℕ} (count : ℕ) (obtained : Obtained s s₁ g g₁ owner n mem)
    (later : mem ≤ ptr) (fits : ptr + count ≤ mem + g₁.size mem) :
    span ptr count ⊆ span mem (s₁.capacity mem) ∧
      Disjoint (span ptr count) (span (mem - objectHeaderSize) objectHeaderSize) ∧
      Disjoint (span ptr count) (span (ptr - objectHeaderSize) objectHeaderSize) ∧
      ∀ x ∈ span ptr count, ∃ range ∈ s₁.heap.ranges, x ∈ span range.1 range.2 := by
  have room := obtained.room
  have header := (obtained.shadow.bounds obtained.known).1
  refine ⟨?_, ?_, ?_, ?_⟩
  · intro x member
    rw [mem_span] at member ⊢
    omega
  · apply Set.disjoint_left.mpr
    intro x member before
    rw [mem_span] at member before
    omega
  · apply Set.disjoint_left.mpr
    intro x member before
    rw [mem_span] at member before
    omega
  · intro x member
    rw [mem_span] at member
    have ranges : g₁.ranges = s₁.heap.ranges := by rw [obtained.shadow.frame]; rfl
    rw [← ranges]
    exact obtained.shadow.inv.handed (.object mem) nofun x
      ⟨obtained.known, by omega, by omega⟩

/-! ## The contract -/

/-- A small power of two divides what 16 and, if need be, 32 divide. -/
theorem dvd_of_small (power : align = 2 ^ k) (low : align ≤ 32) (sixteen : 16 ∣ mem)
    (thirtyTwo : align = 32 → 32 ∣ mem) : align ∣ mem := by
  by_cases same : align = 32
  · exact same ▸ thirtyTwo same
  · have less : k < 5 := by
      rw [← Nat.pow_lt_pow_iff_right (a := 2) Nat.one_lt_two, ← power]
      omega
    have divides : 2 ^ k ∣ 2 ^ 4 := pow_dvd_pow 2 (by omega)
    rw [power]
    exact divides.trans sixteen

/-- The call honours its contract on a heap in order if `malloc` returns what suits it. -/
theorem contract_of_returns (tracked : Tracked s) (power : align = 2 ^ k) (small : k < 64)
    (fits : size < 2 ^ 64)
    (sixteen : ∀ s₁ mem, s.malloc ind (sizeT (needs align size)) = some (s₁, mem) → 16 ∣ mem)
    (returns : Returns s ind align size) : Contract s ind align size := by
  intro s' ptr returned
  obtain ⟨g, owner, shadow⟩ := tracked
  have masked : align &&& neg align = align := power ▸ masked_two_pow small
  have word : align < 2 ^ 64 := power ▸ Nat.pow_lt_pow_right Nat.one_lt_two small
  -- `memalign` is a `malloc` and, for a block that starts too early, a cut.
  rw [memalign_eq masked fits] at returned
  obtain ⟨⟨s₁, mem⟩, given, cut⟩ := Option.map_eq_some_iff.mp returned
  change (if align ≤ 32 ∨ alignUp mem align = mem then (s₁, _) else _) = _ at cut
  obtain ⟨sums, thirtyTwo⟩ := returns s₁ mem given
  -- The sums do not wrap, so `malloc` is asked for what `memalign` means to ask for.
  have same : sizeT (needs align size) = needs align size := Nat.mod_eq_of_lt (by omega)
  have asked := ansi_spec sums
  have roomy : Roomy (sizeT (needs align size)) := by
    rw [same]
    exact asked.2.2
  obtain ⟨g₁, obtained⟩ := shadow.malloc roomy given
  by_cases low : align ≤ 32
  · rw [if_pos (.inl low)] at cut
    obtain ⟨rfl, equal⟩ := Prod.mk.inj cut
    obtain rfl := Except.ok.inj equal
    -- The block of `malloc` is returned as it is, and it is aligned by the hypotheses.
    have enough : size ≤ g₁.size mem := by
      have more := asked.1.trans (same ▸ obtained.asked)
      rw [needs, if_pos low] at more
      exact more
    obtain ⟨within, before, own, handed⟩ := obtained_inside size obtained le_rfl (by omega)
    exact ⟨dvd_of_small power low (sixteen _ mem given) thirtyTwo, enough.trans obtained.header,
      ⟨s₁, mem, given, within, before, own⟩, handed⟩
  · have high : 32 < align := Nat.lt_of_not_le low
    have sum : needs align size = size + align - 1 := if_neg low
    have obtained' := obtained
    rw [sum] at obtained' sums
    obtain ⟨later, -, room, -, multiple, enough⟩ := obtained'.aligned masked high word sums
    split at cut
    · next either =>
      -- The block starts at a multiple of the alignment by chance.
      have start := either.resolve_left low
      obtain ⟨rfl, equal⟩ := Prod.mk.inj cut
      obtain rfl := Except.ok.inj equal
      obtain ⟨within, before, own, handed⟩ := obtained_inside size obtained le_rfl (by omega)
      exact ⟨start ▸ multiple, enough.trans obtained.header,
        ⟨s₁, mem, given, within, before, own⟩, handed⟩
    · obtain ⟨rfl, equal⟩ := Prod.mk.inj cut
      obtain rfl := Except.ok.inj equal
      obtain ⟨within, before, own, handed⟩ := obtained_inside size obtained later room
      -- Otherwise the aligned part of the block is returned, under a header of its own.
      have header : (s₁.shift ind mem (alignUp mem align) size).heap.size (alignUp mem align) =
          size := Function.update_self ..
      refine ⟨multiple, header.ge, ⟨s₁, mem, given, within, before, own⟩, ?_⟩
      rw [shift_ranges]
      exact handed

/-- A call that honours its contract was suited. -/
theorem returns_of_contract (tracked : Tracked s) (power : align = 2 ^ k) (small : k < 64)
    (fits : size < 2 ^ 64) (contract : Contract s ind align size) : Returns s ind align size := by
  intro s₁ mem given
  obtain ⟨g, owner, shadow⟩ := tracked
  have masked : align &&& neg align = align := power ▸ masked_two_pow small
  have top : align ≤ 2 ^ 63 := power ▸ Nat.pow_le_pow_right Nat.two_pos (by omega)
  have whole : s.memalign ind align size = _ := memalign_eq masked fits
  rw [given] at whole
  -- what is returned was handed out, so it is smaller than the space
  have out : Handout s₁.heap.xheap s₁.heap.ranges := by
    obtain ⟨⟨heap, p⟩, parent, equal⟩ := Option.map_eq_some_iff.mp given
    have before : Handout s.heap.xheap s.heap.ranges := by
      have handout := shadow.inv.handout
      rw [shadow.frame] at handout
      exact handout
    have after := (malloc_handout parent before).1
    change (if heap.objects.length = s.heap.objects.length then _ else _) = _ at equal
    split at equal
    · obtain ⟨rfl, -⟩ := Prod.mk.inj equal
      exact after
    · obtain ⟨rfl, -⟩ := Prod.mk.inj equal
      exact after
  change _ = some (if align ≤ 32 ∨ alignUp mem align = mem then _ else _) at whole
  split at whole
  · next either =>
    have honours := contract _ _ whole
    refine ⟨needs_le (size_le_space out honours.handed) top, fun same => ?_⟩
    exact same ▸ honours.aligned
  · next shifted =>
    have honours := contract _ _ whole
    have handed := honours.handed
    rw [shift_ranges] at handed
    refine ⟨needs_le (size_le_space out handed) top, fun same => ?_⟩
    exact absurd (.inl same.le) shifted

/-- **The contract of `memalign`.** After calls in which nothing wraps, `memalign` fails or honours
its contract for a power of two, on blocks at multiples of 16, if the heap suits it, and only
then. -/
theorem contract_iff_suits (reach : system.Reachable Ok s) (power : align = 2 ^ k) (small : k < 64)
    (fits : size < 2 ^ 64)
    (sixteen : ∀ s₁ mem, s.malloc ind (sizeT (needs align size)) = some (s₁, mem) → 16 ∣ mem) :
    Contract s ind align size ↔ Suits s.heap ind align size := by
  have tracked := tracked_of_reachable reach
  have page : Pheap.pageSize ∣ s.heap.xheap.position := by
    obtain ⟨g, owner, shadow⟩ := tracked
    have aligned := shadow.inv.handout.aligned
    rw [shadow.frame] at aligned
    exact aligned
  rw [suits_iff_returns page]
  exact ⟨returns_of_contract tracked power small fits,
    contract_of_returns tracked power small fits sixteen⟩

theorem sixteen_of_all {n : ℕ} (all : (s.malloc ind n).all fun given => 16 ∣ given.2) :
    ∀ s₁ mem, s.malloc ind n = some (s₁, mem) → 16 ∣ mem := by
  intro s₁ mem given
  rw [given] at all
  exact of_decide_eq_true all

/-- Behind a first block of 32 bytes, the next one starts at a multiple of 32. -/
theorem contract_secondBlock :
    ∃ s, system.run (initial Pheap.pageSize) [.call 0 (.malloc 32)] = some s ∧
      Contract s 0 32 1 := by
  have run : (system.run (initial Pheap.pageSize) [.call 0 (.malloc 32)]).any fun s =>
      Suits s.heap 0 32 1 ∧ (s.malloc 0 (sizeT (needs 32 1))).all fun given => 16 ∣ given.2 := by
    decide +kernel
  obtain ⟨s, execution, facts⟩ := (Option.any_eq_true _ _).mp run
  obtain ⟨suits, sixteen⟩ := of_decide_eq_true facts
  have complies : system.Complies Ok (initial Pheap.pageSize) [.call 0 (.malloc 32)] := by
    refine ⟨⟨fun sz asked => ?_, trivial⟩, fun _ _ => trivial⟩
    obtain rfl := Option.some.inj asked
    unfold Roomy
    decide +kernel
  have reach := (System.Reachable.init init_initial).follow complies execution
  have power : 32 = 2 ^ 5 := rfl
  exact ⟨s, execution, (contract_iff_suits reach power (by decide) (by decide)
    (sixteen_of_all sixteen)).mpr suits⟩

/-- The first block of a heap is a multiple of 16, and not of 32. -/
theorem not_contract_32 :
    (∀ s₁ mem, (initial Pheap.pageSize).malloc 0 (sizeT (needs 32 1)) = some (s₁, mem) → 16 ∣ mem) ∧
      ¬ Contract (initial Pheap.pageSize) 0 32 1 := by
  refine ⟨sixteen_of_all (by decide +kernel), fun contract => ?_⟩
  have run : ((initial Pheap.pageSize).memalign 0 32 1).any fun given =>
      given.2.toOption = some 4144 := by decide +kernel
  obtain ⟨⟨s', result⟩, returned, at_⟩ := (Option.any_eq_true _ _).mp run
  cases result with
  | error errno => exact nomatch of_decide_eq_true at_
  | ok ptr =>
    have same : ptr = 4144 := Option.some.inj (of_decide_eq_true at_)
    have aligned := (contract s' ptr returned).aligned
    rw [same] at aligned
    exact absurd aligned (by decide)

end Tthread.Memalign
