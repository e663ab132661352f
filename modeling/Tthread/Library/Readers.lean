/-
# Readers that run out of input

A reader takes tokens from the front of a list and gives a value or a fault, and one fault says
that the tokens have run out. Some tokens are a block for a reader if it takes exactly these,
whatever follows them, and runs out of input on each part of them that is cut off. Readers that
take one block after another compose, and so do loops that read blocks until the input runs out.
-/

import Mathlib.Data.List.Basic
import Mathlib.Order.Basic

namespace Tthread.Readers

/-- A computation on the tokens that are left. -/
abbrev Reader (ε τ : Type) := StateT (List τ) (Except ε)

variable {ε τ β γ ι : Type} {out fault : ε}

/-- The next token. -/
def next (out : ε) : Reader ε τ τ
  | [] => .error out
  | token :: rest => .ok (token, rest)

/-- The tokens are a block for the reader, and this is what comes of it. -/
structure Reads (out : ε) (reader : Reader ε τ β) (tokens : List τ) (result : Except ε β) :
    Prop where
  whole : ∀ rest, reader (tokens ++ rest) = (·, rest) <$> result
  torn : ∀ k < tokens.length, reader (tokens.take k) = .error out

theorem Reads.pure (b : β) : Reads out (pure b : Reader ε τ β) [] (.ok b) where
  whole _ := rfl
  torn _ short := absurd short (Nat.not_lt_zero _)

theorem Reads.next (token : τ) : Reads out (next out) [token] (.ok token) where
  whole _ := rfl
  torn k short := by
    obtain rfl : k = 0 := by simpa using short
    rfl

/-- A computation that takes no token. -/
theorem Reads.lift (x : Except ε β) : Reads out (liftM x : Reader ε τ β) [] x where
  whole rest := by cases x <;> rfl
  torn _ short := absurd short (Nat.not_lt_zero _)

/-- One block after another. -/
theorem Reads.bind {first : Reader ε τ β} {second : β → Reader ε τ γ} {xs ys : List τ} {b : β}
    {result : Except ε γ} (head : Reads out first xs (.ok b))
    (tail : Reads out (second b) ys result) :
    Reads out (first >>= second) (xs ++ ys) result where
  whole rest := by
    have read : first (xs ++ (ys ++ rest)) = .ok (b, ys ++ rest) := head.whole _
    show (first ((xs ++ ys) ++ rest) >>= fun read => second read.1 read.2) = _
    rw [List.append_assoc, read]
    exact tail.whole rest
  torn k short := by
    show (first ((xs ++ ys).take k) >>= fun read => second read.1 read.2) = _
    by_cases inside : k < xs.length
    · rw [List.take_append_of_le_length (Nat.le_of_lt inside), head.torn k inside]
      rfl
    · have read : first (xs ++ ys.take (k - xs.length)) = .ok (b, ys.take (k - xs.length)) :=
        head.whole _
      rw [List.take_append, List.take_of_length_le (Nat.le_of_not_lt inside), read]
      refine tail.torn _ ?_
      rw [List.length_append] at short
      omega

/-- Nothing is read behind a fault. -/
theorem Reads.fails {first : Reader ε τ β} {second : β → Reader ε τ γ} {xs : List τ}
    (head : Reads out first xs (.error fault)) :
    Reads out (first >>= second) xs (.error fault) where
  whole rest := by
    show (first (xs ++ rest) >>= fun read => second read.1 read.2) = _
    rw [head.whole]
    rfl
  torn k short := by
    show (first (xs.take k) >>= fun read => second read.1 read.2) = _
    rw [head.torn k short]
    rfl

/-- A computation that takes no token, at the end of a block. -/
theorem Reads.finish {first : Reader ε τ β} {second : β → Reader ε τ γ} {xs : List τ} {b : β}
    {result : Except ε γ} (head : Reads out first xs (.ok b))
    (tail : Reads out (second b) [] result) : Reads out (first >>= second) xs result := by
  have both := head.bind tail
  rwa [List.append_nil] at both

/-- A computation that takes no token, in front of a block. -/
theorem Reads.start {x : Except ε β} {second : β → Reader ε τ γ} {ys : List τ} {b : β}
    {result : Except ε γ} (value : x = .ok b) (tail : Reads out (second b) ys result) :
    Reads out ((liftM x : Reader ε τ β) >>= second) ys result := by
  subst value
  exact (Reads.lift (.ok b)).bind tail

/-! ## A number of tokens -/

/-- One token after another, each of them folded into a value. -/
def times (out : ε) (step : β → τ → Except ε β) : ℕ → β → Reader ε τ β
  | 0, b => pure b
  | n + 1, b => do
      let token ← next out
      let b ← step b token
      times out step n b

/-- As many tokens as asked for are a block if they can be folded. -/
theorem Reads.times {step : β → τ → Except ε β} {tokens : List τ} {b c : β}
    (folded : tokens.foldlM step b = .ok c) :
    Reads out (times out step tokens.length b) tokens (.ok c) := by
  induction tokens generalizing b with
  | nil =>
    obtain rfl : b = c := Except.ok.inj folded
    exact Reads.pure b
  | cons token tokens ih =>
    rw [List.foldlM_cons] at folded
    cases taken : step b token with
    | error fault =>
      rw [taken] at folded
      cases folded
    | ok d =>
      rw [taken] at folded
      exact (Reads.next token).bind (Reads.start taken (ih folded))

/-! ## Computations that do not run out -/

/-- The computation may fail, but not for want of input. -/
def Clean (out : ε) (x : Except ε β) : Prop := x ≠ .error out

theorem Clean.ok (b : β) : Clean out (.ok b) := fun same => by cases same

theorem Clean.bind {x : Except ε β} {f : β → Except ε γ} (first : Clean out x)
    (second : ∀ b, Clean out (f b)) : Clean out (x >>= f) := by
  cases x with
  | error fault => exact fun same => first (congrArg Except.error (Except.error.inj same))
  | ok b => exact second b

theorem Clean.map {x : Except ε β} (first : Clean out x) (f : β → γ) : Clean out (f <$> x) := by
  cases x with
  | error fault => exact fun same => first (congrArg Except.error (Except.error.inj same))
  | ok b => exact Clean.ok (f b)

theorem Clean.mapM {f : ι → Except ε β} (each : ∀ i, Clean out (f i)) {list : List ι} :
    Clean out (list.mapM f) := by
  induction list with
  | nil => exact Clean.ok []
  | cons i list ih =>
    rw [List.mapM_cons]
    exact (each i).bind fun b => ih.bind fun bs => Clean.ok (b :: bs)

theorem Clean.foldlM {step : β → ι → Except ε β} (each : ∀ b i, Clean out (step b i))
    {list : List ι} {b : β} : Clean out (list.foldlM step b) := by
  induction list generalizing b with
  | nil => exact Clean.ok b
  | cons i list ih =>
    rw [List.foldlM_cons]
    exact (each b i).bind fun c => ih

/-! ## Progress -/

/-- The reader takes this many tokens at least, unless it fails. -/
def Takes (n : ℕ) (reader : Reader ε τ β) : Prop :=
  ∀ tokens b rest, reader tokens = .ok (b, rest) → rest.length + n ≤ tokens.length

theorem Takes.pure (b : β) : Takes 0 (pure b : Reader ε τ β) := by
  rintro tokens _ _ ⟨⟩
  exact Nat.le_refl _

theorem Takes.next (out : ε) : Takes 1 (next out : Reader ε τ τ) := by
  rintro (_ | ⟨token, tokens⟩) b rest ⟨⟩
  exact Nat.le_refl _

theorem Takes.lift (x : Except ε β) : Takes 0 (liftM x : Reader ε τ β) := by
  intro tokens b rest read
  cases x with
  | error fault => cases read
  | ok c =>
    obtain ⟨rfl, rfl⟩ : c = b ∧ tokens = rest := by simpa using Except.ok.inj read
    exact Nat.le_refl _

theorem Takes.bind {m n : ℕ} {first : Reader ε τ β} {second : β → Reader ε τ γ}
    (head : Takes m first) (tail : ∀ b, Takes n (second b)) : Takes (m + n) (first >>= second) := by
  intro tokens c rest read
  have read : (first tokens >>= fun read => second read.1 read.2) = .ok (c, rest) := read
  cases result : first tokens with
  | error fault =>
    rw [result] at read
    cases read
  | ok middle =>
    rw [result] at read
    have once := head tokens middle.1 middle.2 result
    have again := tail middle.1 middle.2 c rest read
    omega

theorem Takes.zero {n : ℕ} {reader : Reader ε τ β} (takes : Takes n reader) : Takes 0 reader :=
  fun tokens b rest read => by have := takes tokens b rest read; omega

theorem Takes.seq {first : Reader ε τ β} {second : β → Reader ε τ γ} (head : Takes 0 first)
    (tail : ∀ b, Takes 0 (second b)) : Takes 0 (first >>= second) := (head.bind tail).zero

theorem Takes.times {step : β → τ → Except ε β} (n : ℕ) (b : β) :
    Takes 0 (times out step n b) := by
  induction n generalizing b with
  | zero => exact Takes.pure b
  | succ n ih => exact (Takes.next out).zero.seq fun token => (Takes.lift _).seq fun b => ih b

/-! ## What a reader gives -/

/-- Whatever the reader gives has the property. -/
def Gives (P : β → Prop) (reader : Reader ε τ β) : Prop :=
  ∀ tokens b rest, reader tokens = .ok (b, rest) → P b

theorem Gives.pure {P : β → Prop} {b : β} (good : P b) : Gives P (pure b : Reader ε τ β) := by
  rintro tokens _ _ ⟨⟩
  exact good

theorem Gives.lift {P : β → Prop} {x : Except ε β} (good : ∀ b, x = .ok b → P b) :
    Gives P (liftM x : Reader ε τ β) := by
  intro tokens b rest read
  cases x with
  | error fault => cases read
  | ok c =>
    obtain ⟨rfl, -⟩ : c = b ∧ tokens = rest := by simpa using Except.ok.inj read
    exact good c rfl

theorem Gives.bind {P : γ → Prop} {first : Reader ε τ β} {second : β → Reader ε τ γ}
    (good : ∀ b, Gives P (second b)) : Gives P (first >>= second) := by
  intro tokens c rest read
  have read : (first tokens >>= fun read => second read.1 read.2) = .ok (c, rest) := read
  cases result : first tokens with
  | error fault =>
    rw [result] at read
    cases read
  | ok middle =>
    rw [result] at read
    exact good middle.1 middle.2 c rest read

/-! ## Until the input runs out -/

/-- Read again and again, until the input runs out in the middle of it. What was read up to then is
the result. -/
def untilOut [DecidableEq ε] (out : ε) (body : β → Reader ε τ β) :
    ℕ → β → List τ → Except ε β
  | 0, b, _ => .ok b
  | rounds + 1, b, tokens =>
      match body b tokens with
      | .error fault => if fault = out then .ok b else .error fault
      | .ok (b, rest) => untilOut out body rounds b rest

section Loop

variable [DecidableEq ε] {body : β → Reader ε τ β}

/-- Blocks, and a part of another one, are read as the blocks one after another. -/
theorem untilOut_blocks {write : ι → List τ} {step : β → ι → Except ε β}
    (reads : ∀ b i, Reads out (body b) (write i) (step b i)) (clean : ∀ b i, Clean out (step b i))
    (last : ι) {k : ℕ} (short : k < (write last).length)
    (blocks : List ι) {rounds : ℕ} (b : β) (enough : blocks.length < rounds) :
    untilOut out body rounds b (blocks.flatMap write ++ (write last).take k) =
      blocks.foldlM step b := by
  induction blocks generalizing rounds b with
  | nil =>
    obtain ⟨rounds, rfl⟩ : ∃ n, rounds = n + 1 := ⟨rounds - 1, by omega⟩
    simp only [List.flatMap_nil, List.nil_append, untilOut, (reads b last).torn k short, if_true]
    rfl
  | cons block blocks ih =>
    obtain ⟨rounds, rfl⟩ : ∃ n, rounds = n + 1 := ⟨rounds - 1, by omega⟩
    rw [List.flatMap_cons, List.append_assoc, List.foldlM_cons, untilOut, (reads b block).whole]
    cases result : step b block with
    | error fault =>
      have other : fault ≠ out := fun same => clean b block (same ▸ result)
      simp only [Functor.map, Except.map, if_neg other]
      rfl
    | ok c =>
      rw [List.length_cons] at enough
      exact ih c (by omega)

/-- What a round keeps is kept up to the end. -/
theorem untilOut_invariant {P : β → Prop}
    (keeps : ∀ {b c tokens rest}, P b → body b tokens = .ok (c, rest) → P c) {rounds : ℕ} {b c : β}
    {tokens : List τ} (first : P b) (read : untilOut out body rounds b tokens = .ok c) : P c := by
  induction rounds generalizing b tokens with
  | zero =>
    obtain rfl : b = c := Except.ok.inj read
    exact first
  | succ rounds ih =>
    rw [untilOut] at read
    split at read
    · split at read
      · obtain rfl : b = c := Except.ok.inj read
        exact first
      · cases read
    · next result => exact ih (keeps first result) read

/-- If a round takes a token at least, more rounds than there are tokens make no difference. -/
theorem untilOut_rounds (takes : ∀ b, Takes 1 (body b)) {rounds others : ℕ} {b : β}
    {tokens : List τ} (enough : tokens.length < rounds) (also : tokens.length < others) :
    untilOut out body rounds b tokens = untilOut out body others b tokens := by
  induction rounds generalizing others b tokens with
  | zero => exact absurd enough (Nat.not_lt_zero _)
  | succ rounds ih =>
    obtain ⟨others, rfl⟩ : ∃ n, others = n + 1 := ⟨others - 1, by omega⟩
    rw [untilOut, untilOut]
    cases result : body b tokens with
    | error fault => rfl
    | ok read =>
      have fewer := takes b tokens read.1 read.2 result
      exact ih (by omega) (by omega)

end Loop

end Tthread.Readers
