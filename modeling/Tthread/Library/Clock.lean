/-
# Clocks with rounded sums

A simulation adds a span to the time at which it begins. Where times are floating-point numbers
the sum is rounded to a number of the format. Rounding keeps the order and leaves the numbers of
the format alone, so sums are monotone and a sum with zero is exact. Nothing else is left of the
laws of addition: spans of different lengths may end at one time, and the end of several spans
depends on the order in which they are added.
-/

import Mathlib.Algebra.Field.Rat
import Mathlib.Algebra.Order.Monoid.WithTop
import Mathlib.Algebra.Order.Ring.Defs
import Mathlib.Algebra.Order.Ring.Rat
import Mathlib.Data.Nat.Cast.Order.Ring

/-- The numbers of a clock. A span that nobody knows is `⊥`, and so is its end. -/
class Clock (T : Type) extends LinearOrder T, OrderBot T, AddZeroClass T, NatCast T where
  add_mono : ∀ {a b c d : T}, a ≤ b → c ≤ d → a + c ≤ b + d
  add_bot : ∀ a : T, a + ⊥ = ⊥
  bot_lt_zero : ⊥ < (0 : T)
  /-- a span so many times over -/
  times : T → ℕ → T
  times_nonneg : ∀ {a : T} (n : ℕ), 0 ≤ a → 0 ≤ times a n

namespace Clock

section Laws

variable {T : Type} [Clock T] {a b : T}

instance : AddLeftMono T := ⟨fun _ _ _ le => add_mono le_rfl le⟩

instance : AddRightMono T := ⟨fun _ _ _ le => add_mono le le_rfl⟩

theorem ne_bot_of_nonneg (nonneg : 0 ≤ a) : a ≠ ⊥ := (bot_lt_zero.trans_le nonneg).ne'

theorem not_nonneg_bot : ¬ 0 ≤ (⊥ : T) := bot_lt_zero.not_ge

/-- The end of a span that is unknown or not negative is unknown, or not before its beginning. -/
theorem end_of_unsigned (unsigned : b = ⊥ ∨ 0 ≤ b) : a + b = ⊥ ∨ a ≤ a + b := by
  obtain rfl | nonneg := unsigned
  · exact .inl (add_bot a)
  · exact .inr (le_add_of_nonneg_right nonneg)

/-- The end of some spans, one after the other. -/
def after (start : T) (spans : List T) : T := spans.foldl (· + ·) start

theorem after_mono (spans : List T) : Monotone fun start => after start spans := by
  induction spans with
  | nil => exact monotone_id
  | cons span rest ih => exact fun a b le => ih (add_mono le le_rfl)

/-- One job after the other takes as long as they do together, where each is done no earlier than
the one before it and its own span. -/
theorem after_le_of_chain {α : Type*} {finish span : α → T} {start : T} {jobs : List α}
    (first : ∀ job ∈ jobs.head?, start + span job ≤ finish job)
    (chain : jobs.IsChain fun before job => finish before + span job ≤ finish job) :
    ∀ last ∈ jobs.getLast?, after start (jobs.map span) ≤ finish last := by
  induction jobs generalizing start with
  | nil => exact fun _ none => by cases none
  | cons job rest ih =>
    have le : start + span job ≤ finish job := first job rfl
    have later := after_mono (rest.map span) le
    cases rest with
    | nil =>
      rintro _ ⟨⟩
      exact le
    | cons next rest =>
      obtain ⟨step, chain⟩ := List.isChain_cons_cons.mp chain
      intro last final
      rw [List.getLast?_cons_cons] at final
      exact later.trans (ih (fun _ same => Option.mem_some_iff.mp same ▸ step) chain last final)

end Laws

/-- A bottom below numbers with monotone sums makes a clock of them. -/
abbrev withBot {K : Type} [LinearOrder K] [AddZeroClass K] [NatCast K] [AddLeftMono K]
    [AddRightMono K] (times : K → ℕ → K)
    (times_nonneg : ∀ {a : K} (n : ℕ), 0 ≤ a → 0 ≤ times a n) : Clock (WithBot K) where
  natCast n := ((n : K) : WithBot K)
  add_mono := add_le_add
  add_bot := WithBot.add_bot
  bot_lt_zero := WithBot.bot_lt_coe 0
  times a n := a.map (times · n)
  times_nonneg {a} n nonneg := by
    cases a with
    | bot => exact absurd nonneg (WithBot.bot_lt_coe 0).not_ge
    | coe a => exact WithBot.coe_nonneg.mpr (times_nonneg n (WithBot.coe_nonneg.mp nonneg))

/-- The clock that does not round. -/
instance exact {K : Type} [Semiring K] [LinearOrder K] [IsStrictOrderedRing K] :
    Clock (WithBot K) :=
  withBot (fun a n => a * n) fun n nonneg => mul_nonneg nonneg n.cast_nonneg

end Clock

/-! ## Numbers of a format -/

/-- What rounding to a format does: it keeps the order, and the numbers of the format. -/
structure Rounding (K : Type) [Preorder K] [Zero K] where
  round : K → K
  mono : Monotone round
  round_round : ∀ a, round (round a) = round a
  round_zero : round 0 = 0

namespace Rounding

variable {K : Type} [Semiring K] [LinearOrder K] [IsStrictOrderedRing K] (r : Rounding K)

/-- The numbers of the format. -/
def Number : Type := {a : K // r.round a = a}

instance : LinearOrder r.Number := inferInstanceAs (LinearOrder {a : K // r.round a = a})

/-- The number of the format that some number is rounded to. -/
def number (a : K) : r.Number := ⟨r.round a, r.round_round a⟩

instance : Zero r.Number := ⟨⟨0, r.round_zero⟩⟩

instance : Add r.Number := ⟨fun a b => r.number (a.1 + b.1)⟩

instance : NatCast r.Number := ⟨fun n => r.number n⟩

instance : AddZeroClass r.Number where
  add_zero a := Subtype.ext ((congrArg r.round (add_zero a.1)).trans a.2)
  zero_add a := Subtype.ext ((congrArg r.round (zero_add a.1)).trans a.2)

instance : AddLeftMono r.Number := ⟨fun a _ _ le => r.mono (add_le_add_right (α := K) le a.1)⟩

instance : AddRightMono r.Number := ⟨fun a _ _ le => r.mono (add_le_add_left (α := K) le a.1)⟩

/-- **The numbers of a format are a clock**, whose sums and products are rounded. -/
instance clock : Clock (WithBot r.Number) :=
  Clock.withBot (fun a n => r.number (a.1 * n)) fun n nonneg =>
    (r.round_zero.symm.trans_le (r.mono (mul_nonneg nonneg n.cast_nonneg)) :)

end Rounding
