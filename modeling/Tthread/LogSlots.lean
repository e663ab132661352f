/-
# Log slots

Which events end up in the slot they reserved. A process whose window was mapped
before it reserved an index either finds the slot inside that window or calls
`growLog`, so the check itself never errs. `growLog` maps the newest window and
`add` does not check again: the slot is inside it exactly when it does not cross
a window boundary and the file has not grown past it in the meantime.
-/

import Tthread.Xlogger

open Transition

namespace Tthread.Xlogger

/-- The file offset of slot `next`. -/
def slotStart (next : ℕ) : ℤ := headerSize + next * eventSize

/-- Every store hit the mapped window and the file, every stored event is in its
slot, and nothing else was written. -/
structure Exact (s : State) : Prop where
  inside : s.wild = []
  kept : ∀ next event, (next, event) ∈ s.stored →
    ∀ byte : Fin eventSize, s.file (slotStart next + byte) = some (event byte)
  nothingElse : ∀ offset value, s.file offset = some value → ∃ next event,
    (next, event) ∈ s.stored ∧ slotStart next ≤ offset ∧ offset < slotStart next + eventSize

/-- The slot lies in one window and that window is the newest of the file. -/
def SlotInNewestWindow (s : State) (next : ℕ) : Prop :=
  next * eventSize % requestSize + eventSize ≤ requestSize ∧
    s.fileSize = (requestSize * (next * eventSize / requestSize + 1) : ℕ)

instance (s : State) (next : ℕ) : Decidable (SlotInNewestWindow s next) :=
  inferInstanceAs (Decidable (_ ∧ _))

/-- The condition on a step: an index is reserved only while slot ends are file
offsets, and a process that has to map a new window finds its slot there. -/
def GrowsInTime (s : State) : Label → Prop
  | .add _ _ => (s.next + 1) * eventSize < 2 ^ 63
  | .act p => ∀ mmapOffset next event,
      s.process p = some ⟨mmapOffset, .remap next event⟩ → SlotInNewestWindow s next
  | _ => True

/-! ## The invariant -/

/-- The mapped window contains the slot. -/
def SlotInWindow (mmapOffset : ℤ) (next : ℕ) : Prop :=
  mmapOffset ≤ next * eventSize ∧ (next + 1) * eventSize ≤ mmapOffset + requestSize

/-- What one process relies on. -/
structure ProcessOk (s : State) (p : ℕ) (q : Process) : Prop where
  window : 0 ≤ q.mmapOffset ∧ q.mmapOffset + requestSize ≤ s.fileSize
  fresh : ∀ next, q.pc.index = some next → next < s.next ∧ ∀ event, (next, event) ∉ s.stored
  mutex : q.pc.holdsMutex = true → s.truncateMutex = some p
  truncated : ∀ next event newSize, q.pc = .truncated next event newSize →
    s.fileSize ≤ newSize ∧ newSize + headerSize ≤ s.fileLength
  idle : q.pc = .idle → q.mmapOffset ≤ s.next * eventSize
  reserved : ∀ next event, q.pc = .reserved next event → q.mmapOffset ≤ next * eventSize
  store : ∀ next event, q.pc = .store next event → SlotInWindow q.mmapOffset next

structure Inv (s : State) : Prop where
  exact : Exact s
  length : s.fileSize + headerSize ≤ s.fileLength
  storedLt : ∀ next event, (next, event) ∈ s.stored → next < s.next
  bound : s.next * eventSize < 2 ^ 63
  processOk : ∀ p q, s.process p = some q → ProcessOk s p q
  distinct : ∀ p p' q q' next, s.process p = some q → s.process p' = some q' →
    q.pc.index = some next → q'.pc.index = some next → p = p'

variable {s s' : State} {p p' : ℕ} {q q' : Process}

/-- What a process relies on survives a change of the shared part that keeps the
sizes while it holds the mutex. -/
theorem ProcessOk.transfer (ok : ProcessOk s p q) (grown : s.fileSize ≤ s'.fileSize)
    (later : s.next ≤ s'.next)
    (unfilled : ∀ next event, q.pc.index = some next →
      (next, event) ∈ s'.stored → (next, event) ∈ s.stored)
    (held : q.pc.holdsMutex = true → s'.truncateMutex = s.truncateMutex ∧
      s'.fileSize = s.fileSize ∧ s'.fileLength = s.fileLength) : ProcessOk s' p q where
  window := ⟨ok.window.1, ok.window.2.trans grown⟩
  fresh next index :=
    ⟨(ok.fresh next index).1.trans_le later, fun event filled =>
      (ok.fresh next index).2 event (unfilled next event index filled)⟩
  mutex holds := (held holds).1.trans (ok.mutex holds)
  truncated next event newSize pc := by
    obtain ⟨-, size, length⟩ := held (by rw [pc]; rfl)
    rw [size, length]
    exact ok.truncated next event newSize pc
  idle pc := by
    have := ok.idle pc
    have : (s.next : ℤ) * eventSize ≤ s'.next * eventSize := by
      exact_mod_cast Nat.mul_le_mul_right _ later
    omega
  reserved := ok.reserved
  store := ok.store

@[simp] theorem setProcess_process_self (s : State) (p : ℕ) (q : Process) :
    (s.setProcess p q).process p = some q := by
  simp [State.setProcess]

theorem setProcess_process_of_ne (s : State) (q : Process) (different : p' ≠ p) :
    (s.setProcess p q).process p' = s.process p' := by
  simp [State.setProcess, different]

/-- One process moves to `q` and the shared part changes from that of `s` to that
of `s'`. An index the moved process holds is its old one or a new one. -/
theorem Inv.setProcess (inv : Inv s) (s' : State) (others : s'.process = s.process)
    (exact : Exact s') (length : s'.fileSize + headerSize ≤ s'.fileLength)
    (storedLt : ∀ next event, (next, event) ∈ s'.stored → next < s'.next)
    (bound : s'.next * eventSize < 2 ^ 63)
    (keep : ∀ p' q', p' ≠ p → s.process p' = some q' → ProcessOk s' p' q')
    (moved : ProcessOk s' p q)
    (index : ∀ next, q.pc.index = some next →
      (∃ old, s.process p = some old ∧ old.pc.index = some next) ∨ s.next ≤ next) :
    Inv (s'.setProcess p q) where
  exact := ⟨exact.inside, exact.kept, exact.nothingElse⟩
  length := length
  storedLt := storedLt
  bound := bound
  processOk p' q' found := by
    have ok : ProcessOk s' p' q' := by
      by_cases same : p' = p
      · subst same
        rw [setProcess_process_self] at found
        obtain rfl := Option.some.inj found
        exact moved
      · rw [setProcess_process_of_ne _ _ same, others] at found
        exact keep p' q' same found
    exact ok.transfer le_rfl le_rfl (fun _ _ _ filled => filled) fun _ => ⟨rfl, rfl, rfl⟩
  distinct := by
    -- an index the moved process shares with another one was its own already
    have clash : ∀ p' q' next, p' ≠ p → s.process p' = some q' → q.pc.index = some next →
        q'.pc.index = some next → False := by
      intro p' q' next different found mine theirs
      obtain ⟨old, atP, oldIndex⟩ | later := index next mine
      · exact different (inv.distinct p' p q' old next found atP theirs oldIndex)
      · exact absurd ((inv.processOk p' q' found).fresh next theirs).1 (Nat.not_lt.mpr later)
    intro p₁ p₂ q₁ q₂ next found₁ found₂ index₁ index₂
    by_cases same₁ : p₁ = p <;> by_cases same₂ : p₂ = p
    · exact same₁.trans same₂.symm
    · subst same₁
      rw [setProcess_process_self] at found₁
      rw [setProcess_process_of_ne _ _ same₂, others] at found₂
      obtain rfl := Option.some.inj found₁
      exact (clash p₂ q₂ next same₂ found₂ index₁ index₂).elim
    · subst same₂
      rw [setProcess_process_self] at found₂
      rw [setProcess_process_of_ne _ _ same₁, others] at found₁
      obtain rfl := Option.some.inj found₂
      exact (clash p₁ q₁ next same₁ found₁ index₂ index₁).elim
    · rw [setProcess_process_of_ne _ _ same₁, others] at found₁
      rw [setProcess_process_of_ne _ _ same₂, others] at found₂
      exact inv.distinct p₁ p₂ q₁ q₂ next found₁ found₂ index₁ index₂

/-- A step that changes nothing shared. -/
theorem Inv.move (inv : Inv s) {old : Process} (at_p : s.process p = some old)
    (moved : ProcessOk s p q) (index : ∀ next, q.pc.index = some next → old.pc.index = some next) :
    Inv (s.setProcess p q) :=
  inv.setProcess s rfl inv.exact inv.length inv.storedLt inv.bound
    (fun p' q' _ found => inv.processOk p' q' found) moved
    fun next here => .inl ⟨old, at_p, index next here⟩

/-! ## A store through a window that contains the slot -/

section Store

variable {mmapOffset : ℤ} {next : ℕ}

theorem mapped_byte (fits : SlotInWindow mmapOffset next)
    (window : mmapOffset + requestSize ≤ s.fileSize)
    (length : s.fileSize + headerSize ≤ s.fileLength)
    {byte : ℤ} (nonneg : 0 ≤ byte) (small : byte < eventSize) :
    Mapped s mmapOffset (byteOffset next mmapOffset + byte) := by
  obtain ⟨low, high⟩ := fits
  have size : (eventSize : ℤ) = 21 := rfl
  simp only [Mapped, byteOffset, size] at *
  omega

theorem storeWild_eq_nil (fits : SlotInWindow mmapOffset next)
    (window : mmapOffset + requestSize ≤ s.fileSize)
    (length : s.fileSize + headerSize ≤ s.fileLength) : storeWild s mmapOffset next = [] := by
  simp only [storeWild, List.filter_eq_nil_iff, List.mem_map, List.mem_range, decide_eq_true_eq,
    not_not]
  rintro _ ⟨byte, small, rfl⟩
  exact mapped_byte fits window length (by omega) (by exact_mod_cast small)

theorem storeFile_slot (fits : SlotInWindow mmapOffset next)
    (window : mmapOffset + requestSize ≤ s.fileSize)
    (length : s.fileSize + headerSize ≤ s.fileLength) (event : Event) (byte : Fin eventSize) :
    storeFile s mmapOffset next event (slotStart next + byte) = some (event byte) := by
  have address : slotStart next + (byte : ℤ) - (headerSize + mmapOffset) -
      byteOffset next mmapOffset = byte := by
    simp only [slotStart, byteOffset]; omega
  have mapped := mapped_byte fits window length (Int.natCast_nonneg byte.1)
    (by exact_mod_cast byte.2)
  have here : slotStart next + (byte : ℤ) - (headerSize + mmapOffset) =
      byteOffset next mmapOffset + byte := by omega
  have small : (byte : ℤ) < eventSize := by exact_mod_cast byte.2
  simp only [storeFile, address]
  rw [dif_pos ⟨⟨Int.natCast_nonneg _, small⟩, here ▸ mapped⟩]
  simp

theorem storeFile_of_outside (event : Event) {offset : ℤ}
    (outside : offset < slotStart next ∨ slotStart next + eventSize ≤ offset) :
    storeFile s mmapOffset next event offset = s.file offset := by
  have : ¬ (0 ≤ offset - (headerSize + mmapOffset) - byteOffset next mmapOffset ∧
      offset - (headerSize + mmapOffset) - byteOffset next mmapOffset < eventSize) := by
    simp only [slotStart, byteOffset] at *; omega
  simp only [storeFile]
  rw [dif_neg fun h => this h.1]

/-- Different indices have disjoint slots. -/
theorem slotStart_disjoint {other : ℕ} (different : other ≠ next) :
    slotStart other + eventSize ≤ slotStart next ∨ slotStart next + eventSize ≤
      slotStart other := by
  have size : (eventSize : ℤ) = 21 := rfl
  simp only [slotStart, size]
  omega

/-- A store through a window that contains the slot keeps the log exact. -/
theorem Exact.store (exact : Exact s) (fits : SlotInWindow mmapOffset next)
    (window : mmapOffset + requestSize ≤ s.fileSize)
    (length : s.fileSize + headerSize ≤ s.fileLength)
    (unfilled : ∀ event, (next, event) ∉ s.stored) (event : Event) :
    Exact { s with
      file := storeFile s mmapOffset next event
      wild := storeWild s mmapOffset next ++ s.wild
      stored := (next, event) :: s.stored } where
  inside := by simp [storeWild_eq_nil fits window length, exact.inside]
  kept other event' stored byte := by
    rcases List.mem_cons.mp stored with same | earlier
    · obtain ⟨rfl, rfl⟩ := Prod.mk.inj same
      exact storeFile_slot fits window length event' byte
    · have different : other ≠ next := fun same => unfilled event' (same ▸ earlier)
      have small : (byte : ℤ) < eventSize := by exact_mod_cast byte.2
      have := slotStart_disjoint different
      dsimp only
      rw [storeFile_of_outside event (by omega)]
      exact exact.kept other event' earlier byte
  nothingElse offset value found := by
    by_cases inSlot : slotStart next ≤ offset ∧ offset < slotStart next + eventSize
    · exact ⟨next, event, List.mem_cons_self, inSlot⟩
    · dsimp only at found
      rw [storeFile_of_outside event (by omega)] at found
      obtain ⟨other, event', stored, range⟩ := exact.nothingElse offset value found
      exact ⟨other, event', List.mem_cons_of_mem _ stored, range⟩

end Store

/-! ## Every step preserves the invariant -/

/-- The check of `add`: a window mapped before the reservation either ends before
the slot does, or contains it. -/
theorem slotInWindow_of_requiredSize {mmapOffset : ℤ} {next : ℕ} (low : 0 ≤ mmapOffset)
    (before : mmapOffset ≤ next * eventSize) (bound : (next + 1) * eventSize < 2 ^ 63)
    (enough : ¬ requiredSize next mmapOffset > requestSize) : SlotInWindow mmapOffset next := by
  have size : eventSize = 21 := rfl
  simp only [requiredSize, SlotInWindow, size] at *
  omega

/-- A window mapped while the slot is in the newest window of the file. -/
theorem slotInWindow_of_newest {next : ℕ} (newest : SlotInNewestWindow s next) :
    SlotInWindow (s.fileSize - requestSize) next := by
  obtain ⟨oneWindow, size⟩ := newest
  have event : eventSize = 21 := rfl
  have request : requestSize = 65536 := rfl
  simp only [SlotInWindow, event, request] at *
  omega

/-- A pc that carries the same index and is neither a critical section nor a store
needs nothing new. -/
theorem ProcessOk.goto {mmapOffset : ℤ} {pc pc' : Pc} (ok : ProcessOk s p ⟨mmapOffset, pc⟩)
    (index : ∀ next, pc'.index = some next → pc.index = some next)
    (free : pc'.holdsMutex = false) (notIdle : pc' ≠ .idle)
    (notReserved : ∀ next event, pc' ≠ .reserved next event)
    (store : ∀ next event, pc' = .store next event → SlotInWindow mmapOffset next) :
    ProcessOk s p ⟨mmapOffset, pc'⟩ where
  window := ok.window
  fresh next here := ok.fresh next (index next here)
  mutex held := by rw [free] at held; cases held
  truncated next event newSize here := by
    dsimp only at here
    rw [here] at free
    cases free
  idle here := (notIdle here).elim
  reserved next event here := (notReserved next event here).elim
  store := store

theorem act_inv (inv : Inv s) {mmapOffset : ℤ} {pc : Pc}
    (at_p : s.process p = some ⟨mmapOffset, pc⟩)
    (inTime : ∀ next event, pc = .remap next event → SlotInNewestWindow s next)
    (move : act s p mmapOffset pc = some s') : Inv s' := by
  have ok := inv.processOk p _ at_p
  -- the holder of the mutex is the only process inside `growLog`'s locked part
  have others : ∀ s₁ : State, pc.holdsMutex = true → s.fileSize ≤ s₁.fileSize →
      s₁.next = s.next → s₁.stored = s.stored →
      ∀ p' q', p' ≠ p → s.process p' = some q' → ProcessOk s₁ p' q' := by
    intro s₁ holds grown next stored p' q' different found
    refine (inv.processOk p' q' found).transfer grown next.ge
      (fun _ _ _ filled => stored ▸ filled) fun held => ?_
    have := (inv.processOk p' q' found).mutex held
    rw [ok.mutex holds] at this
    exact absurd (Option.some.inj this).symm different
  cases pc with
  | idle => cases move
  | aborted => cases move
  | reserved next event =>
    simp only [act] at move
    split at move
    · obtain rfl := Option.some.inj move
      exact inv.move at_p (ok.goto (fun _ here => here) rfl nofun nofun nofun) fun _ here => here
    · rename_i enough
      obtain rfl := Option.some.inj move
      have bound : (next + 1) * eventSize < 2 ^ 63 :=
        (Nat.mul_le_mul_right _ (ok.fresh next rfl).1).trans_lt inv.bound
      refine inv.move at_p (ok.goto (fun _ here => here) rfl nofun nofun ?_) fun _ here => here
      rintro _ _ ⟨⟩
      exact slotInWindow_of_requiredSize ok.window.1 (ok.reserved next event rfl) bound enough
  | growLog next event =>
    simp only [act] at move
    split at move <;> obtain rfl := Option.some.inj move <;>
      exact inv.move at_p (ok.goto (fun _ here => here) rfl nofun nofun nofun) fun _ here => here
  | lockWait next event currentSize =>
    simp only [act] at move
    split at move
    · rename_i free
      obtain rfl := Option.some.inj move
      refine inv.setProcess { s with truncateMutex := some p } rfl ⟨inv.exact.inside,
        inv.exact.kept, inv.exact.nothingElse⟩ inv.length inv.storedLt inv.bound ?_ ?_
        fun _ here => .inl ⟨_, at_p, here⟩
      · intro p' q' _ found
        refine (inv.processOk p' q' found).transfer le_rfl le_rfl (fun _ _ _ filled => filled)
          fun held => ?_
        rw [(inv.processOk p' q' found).mutex held] at free
        cases free
      · exact ⟨ok.window, ok.fresh, fun _ => rfl, nofun, nofun, nofun, nofun⟩
    · cases move
  | locked next event currentSize =>
    simp only [act] at move
    split at move
    · rename_i current
      split at move
      · obtain rfl := Option.some.inj move
        have length := inv.length
        refine inv.setProcess
          { s with fileLength := currentSize + requestSize + headerSize } rfl
          ⟨inv.exact.inside, inv.exact.kept, inv.exact.nothingElse⟩ (by dsimp only; omega)
          inv.storedLt inv.bound (others _ rfl le_rfl rfl rfl) ?_ fun _ here => .inl ⟨_, at_p, here⟩
        refine ⟨ok.window, ok.fresh, fun _ => ok.mutex rfl, ?_, nofun, nofun, nofun⟩
        rintro _ _ _ ⟨⟩
        exact ⟨by dsimp only; omega, le_rfl⟩
      · cases move
    · obtain rfl := Option.some.inj move
      exact inv.move at_p ⟨ok.window, ok.fresh, fun _ => ok.mutex rfl, nofun, nofun, nofun, nofun⟩
        fun _ here => here
  | truncated next event newSize =>
    obtain rfl := Option.some.inj move
    obtain ⟨grown, length⟩ := ok.truncated next event newSize rfl
    refine inv.setProcess { s with fileSize := newSize } rfl
      ⟨inv.exact.inside, inv.exact.kept, inv.exact.nothingElse⟩ length inv.storedLt inv.bound
      (others _ rfl grown rfl rfl) ?_ fun _ here => .inl ⟨_, at_p, here⟩
    exact ⟨⟨ok.window.1, ok.window.2.trans grown⟩, ok.fresh, fun _ => ok.mutex rfl, nofun, nofun,
      nofun, nofun⟩
  | unlocking next event =>
    obtain rfl := Option.some.inj move
    refine inv.setProcess { s with truncateMutex := none } rfl
      ⟨inv.exact.inside, inv.exact.kept, inv.exact.nothingElse⟩ inv.length inv.storedLt inv.bound
      (others _ rfl le_rfl rfl rfl) ?_ fun _ here => .inl ⟨_, at_p, here⟩
    exact ⟨ok.window, ok.fresh, nofun, nofun, nofun, nofun, nofun⟩
  | remap next event =>
    obtain rfl := Option.some.inj move
    have newest := inTime next event rfl
    have low : (0 : ℤ) ≤ s.fileSize - requestSize := by
      have := newest.2
      have request : requestSize = 65536 := rfl
      simp only [request] at *
      omega
    refine inv.move at_p ⟨⟨low, by dsimp only; omega⟩, ok.fresh, nofun, nofun, nofun, nofun, ?_⟩
      fun _ here => here
    rintro _ _ ⟨⟩
    exact slotInWindow_of_newest newest
  | store next event =>
    obtain rfl := Option.some.inj move
    have fits := ok.store next event rfl
    have reserved := ok.fresh next rfl
    refine inv.setProcess { s with
        file := storeFile s mmapOffset next event
        wild := storeWild s mmapOffset next ++ s.wild
        stored := (next, event) :: s.stored } rfl
      (inv.exact.store fits ok.window.2 inv.length reserved.2 event) inv.length ?_ inv.bound ?_ ?_
      nofun
    · intro other event' stored
      rcases List.mem_cons.mp stored with same | earlier
      · exact (Prod.mk.inj same).1 ▸ reserved.1
      · exact inv.storedLt other event' earlier
    · intro p' q' different found
      refine (inv.processOk p' q' found).transfer le_rfl le_rfl ?_ fun _ => ⟨rfl, rfl, rfl⟩
      intro other event' index stored
      rcases List.mem_cons.mp stored with same | earlier
      · -- another process waits with a different index
        obtain ⟨rfl, -⟩ := Prod.mk.inj same
        exact absurd (inv.distinct p' p q' _ other found at_p index rfl) different
      · exact earlier
    · refine ⟨ok.window, nofun, nofun, nofun, fun _ => ?_, nofun, nofun⟩
      have : next * eventSize ≤ s.next * eventSize := Nat.mul_le_mul_right _ reserved.1.le
      have low : mmapOffset ≤ next * eventSize := fits.1
      dsimp only
      omega

theorem step_inv {label : Label} (inv : Inv s) (inTime : GrowsInTime s label)
    (move : step s label = some s') : Inv s' := by
  cases label with
  -- The child inherits the window, and has written nothing of its own.
  | fork parent child =>
    simp only [step] at move
    split at move
    · rename_i mmapOffset at_parent absent
      obtain rfl := Option.some.inj move
      have ok := inv.processOk parent _ at_parent
      exact inv.setProcess s rfl inv.exact inv.length inv.storedLt inv.bound
        (fun p' q' _ found => inv.processOk p' q' found)
        ⟨ok.window, nofun, nofun, nofun, fun _ => ok.idle rfl, nofun, nofun⟩ nofun
    · cases move
  | add p event =>
    simp only [step] at move
    split at move
    · rename_i mmapOffset at_p
      obtain rfl := Option.some.inj move
      have ok := inv.processOk p _ at_p
      -- By the condition the counter is far from its end, so it does not wrap.
      have bound : (s.next + 1) * eventSize < 2 ^ 63 := inTime
      have next : (s.next + 1) % 2 ^ 64 = s.next + 1 := by
        have size : eventSize = 21 := rfl
        rw [size] at bound
        omega
      refine inv.setProcess { s with next := (s.next + 1) % 2 ^ 64 } rfl
        ⟨inv.exact.inside, inv.exact.kept, inv.exact.nothingElse⟩ inv.length ?_ ?_ ?_ ?_ ?_
      · intro other event' stored
        rw [next]
        exact (inv.storedLt other event' stored).trans (Nat.lt_succ_self _)
      · rw [next]
        exact bound
      · intro p' q' _ found
        refine (inv.processOk p' q' found).transfer le_rfl ?_ (fun _ _ _ filled => filled)
          fun _ => ⟨rfl, rfl, rfl⟩
        rw [next]
        exact Nat.le_succ _
      · refine ⟨ok.window, ?_, nofun, nofun, nofun, ?_, nofun⟩
        · -- The slot is new: whatever is stored lies before the counter.
          rintro _ ⟨⟩
          rw [next]
          exact ⟨Nat.lt_succ_self _, fun event' stored =>
            absurd (inv.storedLt _ event' stored) (Nat.lt_irrefl _)⟩
        · rintro _ _ ⟨⟩
          exact ok.idle rfl
      · rintro _ ⟨⟩
        exact .inr le_rfl
    · cases move
  | act p =>
    simp only [step] at move
    split at move
    · rename_i mmapOffset pc at_p
      -- The steps of a write have a lemma of their own.
      exact act_inv inv at_p (fun next event here => inTime mmapOffset next event (here ▸ at_p))
        move
    · cases move
  | abort p =>
    simp only [step] at move
    split at move
    · rename_i mmapOffset next event currentSize at_p
      split at move
      · -- A write that is given up leaves its slot empty.
        obtain rfl := Option.some.inj move
        have ok := inv.processOk p _ at_p
        exact inv.move at_p ⟨ok.window, nofun, nofun, nofun, nofun, nofun, nofun⟩ nofun
      · cases move
    · cases move

theorem initial_inv : Inv initial where
  exact := ⟨rfl, by simp [initial], by simp [initial]⟩
  length := le_rfl
  storedLt := by simp [initial]
  bound := by simp [initial]
  processOk p q found := by
    obtain ⟨-, rfl⟩ : p = 0 ∧ q = ⟨0, .idle⟩ := by
      simp only [initial, Function.update_apply] at found
      split at found
      · exact ⟨by assumption, (Option.some.inj found).symm⟩
      · cases found
    constructor <;> simp [initial, Pc.index, Pc.holdsMutex]
  distinct p p' q q' next found found' index _ := by
    simp only [initial, Function.update_apply] at found
    split at found
    · rw [← Option.some.inj found] at index
      cases index
    · cases found

/-! ## Exactness over whole runs -/

/-- In every run in which each process that maps a new window finds its slot
inside the newest one, the log is exact in every state reached. -/
theorem exact_of_growsInTime (reach : system.Reachable GrowsInTime s) : Exact s := by
  have inv : Inv s := reach.invariant Inv
    (fun _ start => by rw [show _ = initial from start]; exact initial_inv)
    fun _ _ _ inv ok move => step_inv inv ok move
  exact inv.exact

/-- A blank event. -/
def blank : Event := fun _ => 0

/-- A test for the condition. -/
def growsInTime (s : State) : Label → Bool
  | .add _ _ => (s.next + 1) * eventSize < 2 ^ 63
  | .act p =>
      match s.process p with
      | some ⟨_, .remap next _⟩ => SlotInNewestWindow s next
      | _ => true
  | _ => true

theorem growsInTime_sound (s : State) (label : Label) (passes : growsInTime s label = true) :
    GrowsInTime s label := by
  cases label with
  | add p event =>
    have bound : (s.next + 1) * eventSize < 2 ^ 63 := of_decide_eq_true passes
    exact bound
  | act p =>
    intro mmapOffset next event at_p
    simp only [growsInTime, at_p] at passes
    exact of_decide_eq_true passes
  | fork | abort => trivial

/-- The master process fills its first window up to the last slot that fits, and other processes
do nothing. -/
theorem reachable_fill {s₀ : State} (reach₀ : system.Reachable GrowsInTime s₀) (next₀ : s₀.next = 0)
    (size₀ : s₀.fileSize = requestSize) (mutex₀ : s₀.truncateMutex = none)
    (at_0 : s₀.process 0 = some ⟨0, .idle⟩) (n : ℕ) (fits : n ≤ 3120) :
    ∃ s, system.Reachable GrowsInTime s ∧ s.next = n ∧ s.fileSize = requestSize ∧
      s.truncateMutex = none ∧ s.process 0 = some ⟨0, .idle⟩ ∧
        ∀ p, p ≠ 0 → s.process p = s₀.process p := by
  induction n with
  | zero => exact ⟨s₀, reach₀, next₀, size₀, mutex₀, at_0, fun _ _ => rfl⟩
  | succ n ih =>
    obtain ⟨s, reach, next, size, mutex, at_0, others⟩ := ih (by omega)
    have small : ¬ requiredSize n 0 > requestSize := by
      show ¬ (((n : ℤ) + 1) * 21 - 0) % 2 ^ 64 > 65536
      rw [Int.emod_eq_of_lt (by omega) (by omega)]
      omega
    have bound : (n + 1) * eventSize < 9223372036854775808 := by
      show (n + 1) * 21 < _
      omega
    have run : ∃ s', system.runIf growsInTime s [.add 0 blank, .act 0, .act 0] = some s' ∧
        s'.next = n + 1 ∧ s'.fileSize = requestSize ∧ s'.truncateMutex = none ∧
        s'.process 0 = some ⟨0, .idle⟩ ∧ ∀ p, p ≠ 0 → s'.process p = s.process p := by
      simp [System.runIf, growsInTime, system, step, act, at_0, next, small, size, mutex, bound,
        State.setProcess]
      refine ⟨by omega, fun p different => ?_⟩
      simp [Function.update_of_ne different]
    obtain ⟨s', execution, next', size', mutex', at_0', others'⟩ := run
    exact ⟨s', reach.runIf growsInTime_sound execution, next', size', mutex', at_0',
      fun p different => (others' p different).trans (others p different)⟩

/-- The master process has a child and fills its first window. While it waits with the event that
crosses the end of that, the child stores the next one through the window it has mapped. -/
theorem exact_secondWindow : ∃ s, system.Reachable GrowsInTime s ∧ (3121, blank) ∈ s.stored ∧
    s.fileSize = requestSize + requestSize ∧ s.process 0 = some ⟨0, .reserved 3120 blank⟩ ∧
      s.process 1 = some ⟨requestSize, .idle⟩ ∧ Exact s := by
  let forked : State := initial.setProcess 1 ⟨0, .idle⟩
  have reach₀ : system.Reachable GrowsInTime forked := .step (.fork 0 1) (.init rfl) trivial rfl
  obtain ⟨s, reach, next, size, mutex, at_0, others⟩ :=
    reachable_fill reach₀ rfl rfl rfl rfl 3120 le_rfl
  have at_1 : s.process 1 = some ⟨0, .idle⟩ := (others 1 Nat.one_ne_zero).trans rfl
  have large : requiredSize 3121 0 > requestSize := by decide
  have bounds : 3121 * eventSize < 9223372036854775808 ∧
      3122 * eventSize < 9223372036854775808 := by decide
  have room : (requestSize + requestSize + headerSize : ℤ) < 9223372036854775808 := by decide
  have newest : ∀ s : State, s.fileSize = requestSize + requestSize →
      SlotInNewestWindow s 3121 := by
    intro s size
    unfold SlotInNewestWindow
    rw [size]
    decide
  have run : ∃ s', system.runIf growsInTime s
      (.add 0 blank :: .add 1 blank :: List.replicate 8 (.act 1)) = some s' ∧
        (3121, blank) ∈ s'.stored ∧ s'.fileSize = requestSize + requestSize ∧
        s'.process 0 = some ⟨0, .reserved 3120 blank⟩ ∧
          s'.process 1 = some ⟨requestSize, .idle⟩ := by
    simp [System.runIf, growsInTime, system, step, act, at_0, at_1, next, large, size, mutex,
      bounds, room, newest, State.setProcess]
  obtain ⟨s', execution, stored, size', at_0', at_1'⟩ := run
  have reach' := reach.runIf growsInTime_sound execution
  exact ⟨s', reach', stored, size', at_0', at_1', exact_of_growsInTime reach'⟩

/-- The log is not exact in every run: the event with index 3120 crosses the end
of the first window, so the window `growLog` maps does not contain its slot. -/
theorem not_exact_straddling : ¬ ∀ s, system.Reachable AnyStep s → Exact s := by
  intro exact
  obtain ⟨s, reach, next, size, mutex, at_0, -⟩ :=
    reachable_fill (.init rfl) rfl rfl rfl rfl 3120 le_rfl
  have large : requiredSize 3120 0 > requestSize := by decide
  have run : ∃ s', system.run s (.add 0 blank :: List.replicate 8 (.act 0)) = some s' ∧
      (-16 : ℤ) ∈ s'.wild := by
    have room : (requestSize + requestSize + headerSize : ℤ) < 9223372036854775808 := by decide
    have before : (-16 : ℤ) ∈ storeWild
        { s with
          next := 3121
          fileSize := requestSize + requestSize
          truncateMutex := none
          fileLength := requestSize + requestSize + headerSize
          process := Function.update s.process 0 (some ⟨requestSize, .store 3120 blank⟩) }
        requestSize 3120 := by
      simp only [storeWild, List.mem_filter, List.mem_map, List.mem_range]
      exact ⟨⟨0, by decide, by decide⟩, by simp [Mapped]⟩
    simp [system, step, act, at_0, next, large, size, mutex, State.setProcess, room, before]
  obtain ⟨s', execution, stray⟩ := run
  rw [(exact s' ((reach.mono fun _ _ _ => trivial).run execution)).inside] at stray
  cases stray

end Tthread.Xlogger
