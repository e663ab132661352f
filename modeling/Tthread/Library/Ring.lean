/-
# Circular doubly linked lists

Links give every node a next and a previous node. A path is a list of nodes whose
neighbours are linked both ways, and a ring is a cycle of distinct nodes linked all the
way round. Every operation on rings is made of one: to link one node to another. The two
results are that a path can be spliced into a ring and that a node can be taken out.
-/

import Mathlib.Data.List.Cycle
import Mathlib.Data.List.Iterate

namespace DoublyLinked

variable {α : Type*}

structure Links (α : Type*) where
  next : α → α
  prev : α → α

namespace Links

/-- The pointers between the two nodes agree. -/
def Linked (links : Links α) (a b : α) : Prop := links.next a = b ∧ links.prev b = a

def Path (links : Links α) (l : List α) : Prop := l.IsChain links.Linked

/-- Distinct nodes, linked all the way round. -/
structure Ring (links : Links α) (c : Cycle α) : Prop where
  nodup : c.Nodup
  chain : c.Chain links.Linked

variable {links links' : Links α} {a b x y : α} {l r s : List α}

/-! ## What a ring says about its nodes -/

theorem Path.congr (path : links.Path l) (next : ∀ a ∈ l, links'.next a = links.next a)
    (prev : ∀ a ∈ l, links'.prev a = links.prev a) : links'.Path l := by
  refine List.IsChain.imp_of_mem_imp (fun x y source target linked => ?_) path
  exact ⟨(next x source).trans linked.1, (prev y target).trans linked.2⟩

theorem ring_cons_iff :
    links.Ring ↑(a :: l) ↔ (a :: l).Nodup ∧ links.Path (a :: (l ++ [a])) :=
  ⟨fun ring => ⟨ring.nodup, ring.chain⟩, fun both => ⟨both.1, both.2⟩⟩

instance [DecidableEq α] (links : Links α) (a b : α) : Decidable (links.Linked a b) :=
  inferInstanceAs (Decidable (_ ∧ _))

instance [DecidableEq α] (links : Links α) (l : List α) : Decidable (links.Path l) :=
  inferInstanceAs (Decidable (l.IsChain links.Linked))

theorem ring_nil : links.Ring ↑([] : List α) := ⟨Cycle.nodup_nil, Cycle.Chain.nil _⟩

theorem Ring.rotate (ring : links.Ring ↑(l ++ r)) : links.Ring ↑(r ++ l) := by
  have rotated : ((r ++ l : List α) : Cycle α) = ↑(l ++ r) :=
    Cycle.coe_eq_coe.mpr List.isRotated_append
  rwa [rotated]

/-- Every node can be taken for the first. -/
theorem Ring.startAt (ring : links.Ring ↑l) (member : a ∈ l) :
    ∃ rest, l ~r a :: rest ∧ links.Ring ↑(a :: rest) := by
  obtain ⟨front, back, rfl⟩ := List.append_of_mem member
  exact ⟨back ++ front, List.isRotated_append, ring.rotate⟩

/-- A ring only depends on the links of its nodes. -/
theorem Ring.congr (ring : links.Ring ↑l) (next : ∀ a ∈ l, links'.next a = links.next a)
    (prev : ∀ a ∈ l, links'.prev a = links.prev a) : links'.Ring ↑l := by
  cases l with
  | nil => exact ring_nil
  | cons a l =>
    obtain ⟨nodup, path⟩ := ring_cons_iff.mp ring
    have members : ∀ x ∈ a :: (l ++ [a]), x ∈ a :: l := by
      intro x member
      rw [List.mem_cons, List.mem_append, List.mem_singleton] at member
      rw [List.mem_cons]
      tauto
    refine ring_cons_iff.mpr ⟨nodup, path.congr ?_ ?_⟩
    · exact fun x member => next x (members x member)
    · exact fun x member => prev x (members x member)

theorem Ring.next_head (ring : links.Ring ↑(a :: l)) :
    (l ++ [a]).head? = some (links.next a) := by
  obtain ⟨-, path⟩ := ring_cons_iff.mp ring
  cases l with
  | nil => rw [(List.isChain_cons_cons.mp path).1.1, List.nil_append, List.head?_cons]
  | cons b l => rw [(List.isChain_cons_cons.mp path).1.1, List.cons_append, List.head?_cons]

theorem Ring.prev_head (ring : links.Ring ↑(a :: l)) :
    (a :: l).getLast? = some (links.prev a) := by
  obtain ⟨-, path⟩ := ring_cons_iff.mp ring
  rcases l.eq_nil_or_concat with rfl | ⟨front, last, rfl⟩
  · rw [(List.isChain_cons_cons.mp path).1.2, List.getLast?_singleton]
  · rw [List.concat_eq_append, List.append_assoc] at path
    have linked := (List.isChain_cons_append_cons_cons.mp path).2.1
    rw [linked.2, List.concat_eq_append, ← List.cons_append, List.getLast?_concat]

theorem Ring.next_mem (ring : links.Ring ↑l) (member : a ∈ l) : links.next a ∈ l := by
  obtain ⟨rest, rotated, ring⟩ := ring.startAt member
  have next := List.mem_of_mem_head? ring.next_head
  rw [rotated.mem_iff]
  rw [List.mem_append, List.mem_singleton] at next
  rw [List.mem_cons]
  exact next.symm

theorem Ring.prev_mem (ring : links.Ring ↑l) (member : a ∈ l) : links.prev a ∈ l := by
  obtain ⟨rest, rotated, ring⟩ := ring.startAt member
  rw [rotated.mem_iff]
  exact List.mem_of_mem_getLast? ring.prev_head

theorem Ring.next_prev (ring : links.Ring ↑l) (member : a ∈ l) :
    links.next (links.prev a) = a := by
  obtain ⟨rest, -, ring⟩ := ring.startAt member
  obtain ⟨front, ends⟩ := List.getLast?_eq_some_iff.mp ring.prev_head
  have rotated : links.Ring ↑(links.prev a :: front) := by
    rw [ends] at ring
    exact ring.rotate
  have next := rotated.next_head
  rw [← ends, List.head?_cons] at next
  exact (Option.some.inj next).symm

/-- Following the links along a path visits its elements. -/
theorem Path.iterate (path : links.Path (a :: l)) :
    List.iterate links.next a (a :: l).length = a :: l := by
  induction l generalizing a with
  | nil => rfl
  | cons b l ih =>
    obtain ⟨linked, path⟩ := List.isChain_cons_cons.mp path
    rw [List.length_cons, List.iterate, linked.1, ih path]

theorem Ring.single (ring : links.Ring ↑[a]) : links.next a = a ∧ links.prev a = a :=
  ⟨(Option.some.inj ring.next_head).symm, (Option.some.inj ring.prev_head).symm⟩

theorem Ring.path (ring : links.Ring ↑l) : links.Path l := by
  cases l with
  | nil => exact List.isChain_nil
  | cons a l =>
    have inside : a :: l <+: a :: (l ++ [a]) := ⟨[a], by simp⟩
    exact List.IsChain.prefix (ring_cons_iff.mp ring).2 inside

/-- Once round a ring, or further, visits its elements. -/
theorem Ring.mem_iterate {n : ℕ} (ring : links.Ring ↑(a :: l)) (round : (a :: l).length ≤ n) :
    b ∈ List.iterate links.next a n ↔ b ∈ a :: l := by
  constructor
  · have stays : ∀ n, links.next^[n] a ∈ a :: l := by
      intro n
      induction n with
      | zero => exact List.mem_cons_self
      | succ n ih =>
        rw [Function.iterate_succ_apply']
        exact ring.next_mem ih
    intro visited
    obtain ⟨steps, -, rfl⟩ := List.mem_iterate.mp visited
    exact stays steps
  · intro member
    obtain ⟨more, rfl⟩ := Nat.exists_eq_add_of_le round
    rw [List.iterate_add, ring.path.iterate]
    exact List.mem_append_left _ member

/-! ## Linking one node to another -/

variable [DecidableEq α]

def link (links : Links α) (a b : α) : Links α where
  next := Function.update links.next a b
  prev := Function.update links.prev b a

theorem linked_link : (links.link a b).Linked a b := by
  constructor
  · exact Function.update_self ..
  · exact Function.update_self ..

theorem Linked.link (linked : links.Linked x y) (source : x ≠ a) (target : y ≠ b) :
    (links.link a b).Linked x y := by
  constructor
  · rw [← linked.1]
    exact Function.update_of_ne source _ _
  · rw [← linked.2]
    exact Function.update_of_ne target _ _

/-- A path that neither leaves `a` nor enters `b`. -/
theorem Path.link (path : links.Path l) (leaves : a ∉ l.dropLast) (enters : b ∉ l.tail) :
    (links.link a b).Path l := by
  induction l with
  | nil => exact List.isChain_nil
  | cons x rest ih =>
    cases rest with
    | nil => exact List.isChain_singleton x
    | cons y rest =>
      obtain ⟨linked, path⟩ := List.isChain_cons_cons.mp path
      rw [List.dropLast_cons_cons, List.mem_cons, not_or] at leaves
      rw [List.tail_cons, List.mem_cons, not_or] at enters
      refine List.isChain_cons_cons.mpr ⟨?_, ih path leaves.2 enters.2⟩
      exact linked.link (Ne.symm leaves.1) (Ne.symm enters.1)

/-- Linking the end of one path to the start of another joins them. -/
theorem Path.join (left : links.Path (l ++ [a])) (right : links.Path (b :: r))
    (leaves : a ∉ l ++ (b :: r).dropLast) (enters : b ∉ (l ++ [a]).tail ++ r) :
    (links.link a b).Path (l ++ a :: b :: r) := by
  rw [List.mem_append, not_or] at leaves enters
  refine List.isChain_append_cons_cons.mpr ⟨?_, linked_link, ?_⟩
  · refine Path.link left ?_ enters.1
    rw [List.dropLast_concat]
    exact leaves.1
  · exact Path.link right leaves.2 enters.2

/-- A path of other nodes, from `x` to `y`, is linked in behind `a`. -/
theorem Ring.splice (ring : links.Ring ↑(a :: l)) (path : links.Path (x :: s))
    (last : (x :: s).getLast? = some y) (nodup : (a :: (x :: s ++ l)).Nodup) :
    ((links.link y (links.next a)).link a x).Ring ↑(a :: (x :: s ++ l)) := by
  obtain ⟨front, ends⟩ := List.getLast?_eq_some_iff.mp last
  obtain ⟨rest, starts⟩ := List.head?_eq_some_iff.mp ring.next_head
  have around : links.Path (links.next a :: rest) := by
    rw [← starts]
    exact List.IsChain.tail (ring_cons_iff.mp ring).2
  have apart : ∀ z ∈ x :: s, z ∉ l ∧ z ≠ a := by
    intro z member
    rw [List.nodup_cons, List.nodup_append] at nodup
    refine ⟨fun other => nodup.2.2.2 z member z other rfl, ?_⟩
    rintro rfl
    exact nodup.1 (List.mem_append_left _ member)
  have nodupPath : (x :: s).Nodup := (List.nodup_append.mp (List.nodup_cons.mp nodup).2).1
  have nodupAround : (links.next a :: rest).Nodup := by
    rw [← starts]
    exact (Ring.rotate (l := [a]) ring).nodup
  have headAround : links.next a ∈ l ++ [a] := List.mem_of_mem_head? ring.next_head
  have aroundIs : ∀ z, z ∈ links.next a :: rest ↔ z ∈ l ∨ z = a := by
    intro z
    rw [← starts, List.mem_append, List.mem_singleton]
  -- the end of the path to the node behind `a`, then `a` to its start
  have joined : (links.link y (links.next a)).Path (x :: s ++ (l ++ [a])) := by
    rw [ends, starts, List.append_assoc]
    refine Path.join (ends ▸ path) around ?_ ?_
    · rw [← starts, List.dropLast_concat, List.mem_append, not_or]
      rw [ends, List.nodup_append] at nodupPath
      have other :=
        apart y (by rw [ends]; exact List.mem_append_right _ (List.mem_singleton_self y))
      refine ⟨fun inFront => nodupPath.2.2 y inFront y (List.mem_singleton_self y) rfl, other.1⟩
    · rw [← ends, List.tail_cons, List.mem_append, not_or]
      refine ⟨fun inPath => ?_, (List.nodup_cons.mp nodupAround).1⟩
      have other := apart _ (List.mem_cons_of_mem x inPath)
      rw [List.mem_append, List.mem_singleton] at headAround
      tauto
  have closed : ((links.link y (links.next a)).link a x).Path
      ([] ++ a :: x :: (s ++ (l ++ [a]))) := by
    refine Path.join (List.isChain_singleton a) joined ?_ ?_
    · rw [List.nil_append, ← List.cons_append, ← List.append_assoc, List.dropLast_concat]
      exact (List.nodup_cons.mp nodup).1
    · rw [List.nil_append, List.tail_cons, List.nil_append, List.mem_append, not_or]
      have other := apart x List.mem_cons_self
      rw [List.mem_append, List.mem_singleton]
      exact ⟨(List.nodup_cons.mp nodupPath).1, not_or.mpr other⟩
  rw [ring_cons_iff]
  refine ⟨nodup, ?_⟩
  rwa [List.append_assoc]

/-- A node is taken out of a ring of several. -/
theorem Ring.unlink (ring : links.Ring ↑(x :: l)) (others : l ≠ []) :
    (links.link (links.prev x) (links.next x)).Ring ↑l := by
  obtain ⟨b, l, rfl⟩ := List.exists_cons_of_ne_nil others
  obtain ⟨nodup, path⟩ := ring_cons_iff.mp ring
  have next : links.next x = b := (Option.some.inj ring.next_head).symm
  obtain ⟨front, ends⟩ : ∃ front, b :: l = front ++ [links.prev x] := by
    have last := ring.prev_head
    rw [List.getLast?_cons_cons] at last
    exact List.getLast?_eq_some_iff.mp last
  have inner : links.Path (b :: l) := by
    have inside : b :: l <:+: x :: (b :: l ++ [x]) := ⟨[x], [x], by simp⟩
    exact List.IsChain.infix path inside
  have nodupInner : (b :: l).Nodup := (List.nodup_cons.mp nodup).2
  have joined : (links.link (links.prev x) b).Path (front ++ links.prev x :: b :: []) := by
    refine Path.join (ends ▸ inner) (List.isChain_singleton b) ?_ ?_
    · rw [ends, List.nodup_append] at nodupInner
      simp only [List.dropLast_singleton, List.append_nil]
      exact fun inFront => nodupInner.2.2 _ inFront _ (List.mem_singleton_self _) rfl
    · rw [← ends, List.tail_cons, List.append_nil]
      exact (List.nodup_cons.mp nodupInner).1
  rw [next, ring_cons_iff]
  refine ⟨nodupInner, ?_⟩
  rwa [← List.cons_append, ends, List.append_assoc]

end Links

end DoublyLinked
