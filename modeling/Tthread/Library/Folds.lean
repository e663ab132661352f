/-
# Loops

A loop whose rounds change separate places of a table changes each place once. A
computation in two steps that may fail succeeds if both do, and a loop over more input
succeeds if it does over the first part and then over the rest.
-/

import Mathlib.Data.List.Basic

namespace Folds

/-! ## Loops over the places of a table -/

section Places

variable {ι κ α : Type*} {place : ι → κ} {step : (ι → α) → κ → ι → α}

/-- A place that no round is about keeps its value. -/
theorem foldl_elsewhere (elsewhere : ∀ table k i, place i ≠ k → step table k i = table i)
    {rounds : List κ} {i : ι} (unvisited : place i ∉ rounds) (table : ι → α) :
    rounds.foldl step table i = table i := by
  induction rounds generalizing table with
  | nil => rfl
  | cons k rest ih =>
    rw [List.mem_cons, not_or] at unvisited
    rw [List.foldl_cons, ih unvisited.2, elsewhere table k i unvisited.1]

/-- With no round twice, a place is changed by its own round only. -/
theorem foldl_here (change : ι → α → α)
    (here : ∀ table i, step table (place i) i = change i (table i))
    (elsewhere : ∀ table k i, place i ≠ k → step table k i = table i)
    {rounds : List κ} (nodup : rounds.Nodup) {i : ι} (visited : place i ∈ rounds)
    (table : ι → α) :
    rounds.foldl step table i = change i (table i) := by
  induction rounds generalizing table with
  | nil => cases visited
  | cons k rest ih =>
    rw [List.nodup_cons] at nodup
    rw [List.foldl_cons]
    by_cases now : place i = k
    · subst now
      rw [foldl_elsewhere elsewhere nodup.1, here]
    · have later : place i ∈ rest := (List.mem_cons.mp visited).resolve_left now
      rw [ih nodup.2 later, elsewhere table k i now]

end Places

/-! ## Loops that may fail -/

variable {ε : Type*} {α β : Type}

/-- A computation in two steps succeeds if both do. -/
theorem bind_ok {x : Except ε α} {f : α → Except ε β} {b : β} :
    x >>= f = .ok b ↔ ∃ a, x = .ok a ∧ f a = .ok b := by
  cases x with
  | error e => exact iff_of_false (fun same => by cases same) (fun ⟨_, same, _⟩ => by cases same)
  | ok a => exact ⟨fun same => ⟨a, rfl, same⟩, fun ⟨_, same, value⟩ => by cases same; exact value⟩

theorem map_ok {γ : Type} {x : Except ε α} {f : α → γ} {c : γ} :
    x.map f = .ok c ↔ ∃ a, x = .ok a ∧ f a = c := by
  cases x with
  | error e => exact iff_of_false (fun same => by cases same) (fun ⟨_, same, _⟩ => by cases same)
  | ok a => exact ⟨fun same => ⟨a, rfl, Except.ok.inj same⟩,
      fun ⟨_, same, value⟩ => by cases same; exact congrArg _ value⟩

/-- A loop over more input succeeds if it does over the first part and then over
the rest. -/
theorem foldlM_append_ok {f : β → α → Except ε β} {first rest : List α} {b c : β} :
    (first ++ rest).foldlM f b = .ok c ↔
      ∃ middle, first.foldlM f b = .ok middle ∧ rest.foldlM f middle = .ok c := by
  rw [List.foldlM_append, bind_ok]

theorem foldlM_singleton {f : β → α → Except ε β} {a : α} {b : β} :
    [a].foldlM f b = f b a := by
  rw [List.foldlM_cons]
  cases f b a <;> rfl

/-- A loop that only fails in asking for one value per element succeeds if each is given. -/
theorem exists_foldlM_map {δ : Type} {ask : α → Except ε δ} {take : β → α → δ → β}
    {list : List α} {b : β} :
    (∃ c, list.foldlM (fun b a => (ask a).map (take b a)) b = .ok c) ↔
      ∀ a ∈ list, ∃ d, ask a = .ok d := by
  induction list generalizing b with
  | nil => exact iff_of_true ⟨b, rfl⟩ fun _ member => absurd member List.not_mem_nil
  | cons first rest ih =>
    simp only [List.foldlM_cons, bind_ok, map_ok, List.forall_mem_cons]
    constructor
    · rintro ⟨c, middle, ⟨d, given, -⟩, later⟩
      exact ⟨⟨d, given⟩, ih.mp ⟨c, later⟩⟩
    · rintro ⟨⟨d, given⟩, later⟩
      obtain ⟨c, run⟩ := ih.mpr later
      exact ⟨c, _, ⟨d, given, rfl⟩, run⟩

/-- A loop of checks succeeds if each does. -/
theorem forM_ok {check : α → Except ε Unit} {list : List α}
    (checks : ∀ a ∈ list, check a = .ok ()) : list.forM check = .ok () := by
  induction list with
  | nil => rfl
  | cons first rest ih =>
    show (check first >>= fun _ => rest.forM check) = .ok ()
    rw [checks first List.mem_cons_self]
    exact ih fun a member => checks a (List.mem_cons_of_mem _ member)

end Folds
