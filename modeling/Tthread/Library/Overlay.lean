/-
# Changes laid over a whole

Several agents start from one original and change a part of it each. Their versions are merged
one after the other: where a version differs from a base, it counts. If no two versions differ
from the base at the same place, the order does not matter, and if the base is the original,
the result is the original overlaid with all changes.
-/

import Mathlib.Data.List.Basic

namespace Overlay

variable {α β ι : Type*} {orig base content content' : α → β} {mine : ι → α → β} {i : ι}
  {done done' : List ι}

/-- The original, with the place of every version that differs from it. -/
def overlay [DecidableEq β] (orig : α → β) (mine : ι → α → β) (agents : List ι) (x : α) : β :=
  match agents.find? fun i => mine i x ≠ orig x with
  | some i => mine i x
  | none => orig x

/-- The content has what the versions of some agents have against the base, and nothing else
has changed. -/
structure Carries (orig base : α → β) (mine : ι → α → β) (done : List ι) (content : α → β) :
    Prop where
  changed : ∀ i ∈ done, ∀ x, mine i x ≠ base x → content x = mine i x
  kept : ∀ x, (∀ i ∈ done, mine i x = base x) → content x = orig x

theorem carries_nil : Carries orig base mine [] orig := ⟨nofun, fun _ _ => rfl⟩

/-- **One merge.** The places where the version differs are nobody else's. -/
theorem Carries.merge (carries : Carries orig base mine done content)
    (apart : ∀ j ∈ done, ∀ x, mine i x ≠ base x → mine j x = base x)
    (merged : ∀ x, (mine i x ≠ base x → content' x = mine i x) ∧
      (mine i x = base x → content' x = content x)) :
    Carries orig base mine (i :: done) content' := by
  constructor
  · intro j member x differs
    rcases List.mem_cons.mp member with rfl | earlier
    · exact (merged x).1 differs
    · have same : mine i x = base x := by
        by_contra other
        exact differs (apart j earlier x other)
      rw [(merged x).2 same]
      exact carries.changed j earlier x differs
  · intro x none
    rw [(merged x).2 (none i List.mem_cons_self)]
    exact carries.kept x fun j earlier => none j (List.mem_cons_of_mem i earlier)

/-- Who has been merged matters, and not in which order. -/
theorem Carries.congr (carries : Carries orig base mine done content)
    (same : ∀ i, i ∈ done' ↔ i ∈ done) : Carries orig base mine done' content where
  changed i member := carries.changed i ((same i).mp member)
  kept x none := carries.kept x fun i member => none i ((same i).mpr member)

/-- **Merges against the original are the overlay.** -/
theorem Carries.eq_overlay [DecidableEq β] (carries : Carries orig orig mine done content) :
    content = overlay orig mine done := by
  funext x
  unfold overlay
  split
  · next i found =>
    have differs : mine i x ≠ orig x := by simpa using List.find?_some found
    exact carries.changed i (List.mem_of_find?_eq_some found) x differs
  · next none =>
    apply carries.kept
    intro i member
    simpa using List.find?_eq_none.mp none i member

theorem overlay_singleton [DecidableEq β] : overlay orig mine [i] = mine i := by
  funext x
  unfold overlay
  split
  · next j found => rw [List.mem_singleton.mp (List.mem_of_find?_eq_some found)]
  · next none =>
    have same : mine i x = orig x := by
      simpa using List.find?_eq_none.mp none i List.mem_cons_self
    exact same.symm

/-- One merge against another base is the overlay just when the base has none of the changes
already. -/
theorem Carries.eq_overlay_singleton_iff [DecidableEq β]
    (carries : Carries orig base mine [i] content) :
    content = overlay orig mine [i] ↔ ∀ x, mine i x ≠ orig x → mine i x ≠ base x := by
  rw [overlay_singleton]
  constructor
  · intro equal x differs same
    have kept : content x = orig x := by
      apply carries.kept x
      intro j member
      rw [List.mem_singleton.mp member, same]
    exact differs ((congrFun equal x).symm.trans kept)
  · intro apart
    funext x
    by_cases same : mine i x = base x
    · have unchanged : mine i x = orig x := by
        by_contra differs
        exact apart x differs same
      have kept : content x = orig x := by
        apply carries.kept x
        intro j member
        rw [List.mem_singleton.mp member, same]
      exact kept.trans unchanged.symm
    · exact carries.changed i List.mem_cons_self x same

end Overlay
