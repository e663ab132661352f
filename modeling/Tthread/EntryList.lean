/-
# Lists of thread entries

The intrusive lists of `list.h`. A head points to the first entry of a circular doubly
linked list, or is NULL. Each operation is the sequence of its stores; what it does to the
list is stated by the nodes in order.
-/

import Tthread.Library.Ring

namespace Tthread

open DoublyLinked

variable {Entry : Type*} [DecidableEq Entry]

namespace EntryList

def setNext (links : Links Entry) (entry value : Entry) : Links Entry :=
  { links with next := Function.update links.next entry value }

def setPrev (links : Links Entry) (entry value : Entry) : Links Entry :=
  { links with prev := Function.update links.prev entry value }

/-- The list at `src` is linked in behind `prev`, and `src` becomes NULL. -/
def moveWholeList (links : Links Entry) (prev : Entry) (src : Option Entry) : Links Entry :=
  match src with
  | none => links
  | some srchead =>
      let next := links.next prev
      let srctail := links.prev srchead
      let links := setPrev links next srctail
      let links := setPrev links srchead prev
      let links := setNext links srctail next
      setNext links prev srchead

def insertTail (links : Links Entry) (entry : Entry) (head : Option Entry) :
    Links Entry × Option Entry :=
  match head with
  | none => (setNext (setPrev links entry entry) entry entry, some entry)
  | some header =>
      let tail := links.prev header
      let links := setNext links tail entry
      let links := setPrev links header entry
      let links := setPrev links entry tail
      (setNext links entry header, head)

/-- Behind the entry that `head` points to, which stays what it is. -/
def insertHead (links : Links Entry) (entry header : Entry) : Links Entry :=
  let next := links.next header
  let links := setNext links header entry
  let links := setPrev links next entry
  let links := setPrev links entry header
  setNext links entry next

def removeEntry (links : Links Entry) (entry : Entry) (head : Option Entry) :
    Links Entry × Option Entry :=
  let prev := links.prev entry
  let next := links.next entry
  if prev = entry ∧ next = entry then (links, none)
  else
    (setPrev (setNext links prev next) next prev, if head = some entry then some next else head)

/-- The entries of the list in order. -/
structure IsList (links : Links Entry) (head : Option Entry) (l : List Entry) : Prop where
  head : head = l.head?
  ring : links.Ring ↑l

/-- The pointers of the entry are what they were. -/
def Same (links links' : Links Entry) (entry : Entry) : Prop :=
  links'.next entry = links.next entry ∧ links'.prev entry = links.prev entry

section

omit [DecidableEq Entry]

variable {links links' : Links Entry} {head : Option Entry} {l : List Entry}

theorem IsList.congr (list : IsList links head l) (same : ∀ a ∈ l, Same links links' a) :
    IsList links' head l :=
  ⟨list.head, list.ring.congr (fun a member => (same a member).1) fun a member => (same a member).2⟩

theorem IsList.nil : IsList links none [] := ⟨rfl, Links.ring_nil⟩

/-- The links and the head determine the entries of a list. -/
theorem IsList.perm {l' : List Entry} (list : IsList links head l) (other : IsList links head l') :
    l.Perm l' := by
  have heads := list.head.symm.trans other.head
  cases l with
  | nil =>
    rw [List.head?_nil] at heads
    rw [List.head?_eq_none_iff.mp heads.symm]
  | cons a rest =>
    cases l' with
    | nil => cases heads
    | cons b rest' =>
      obtain rfl := Option.some.inj heads
      rw [List.perm_ext_iff_of_nodup list.ring.nodup other.ring.nodup]
      intro entry
      -- Both are what the links visit from the common head.
      rw [← list.ring.mem_iterate (Nat.le_add_right _ (a :: rest').length),
        ← other.ring.mem_iterate (Nat.le_add_left _ (a :: rest).length)]

end

variable {links : Links Entry} {head src : Option Entry} {entry header prev other : Entry}
  {l q : List Entry}

/-! ## Insertion -/

/-- What the stores of an insertion behind the header amount to. -/
theorem insertHead_eq (different : entry ≠ header) (absent : links.next header ≠ entry) :
    insertHead links entry header =
      (links.link entry (links.next header)).link header entry := by
  simp only [insertHead, setNext, setPrev, Links.link]
  rw [Function.update_comm different, Function.update_comm absent]

/-- The entry comes behind the header. -/
theorem insertHead_ring (ring : links.Ring ↑(header :: l)) (fresh : entry ∉ header :: l) :
    (insertHead links entry header).Ring ↑(header :: entry :: l) := by
  have different : entry ≠ header := List.ne_of_not_mem_cons fresh
  have absent : links.next header ≠ entry := by
    rintro rfl
    exact fresh (ring.next_mem List.mem_cons_self)
  rw [insertHead_eq different absent]
  refine Links.Ring.splice ring (List.isChain_singleton entry) rfl ?_
  exact (List.Perm.swap header entry l).nodup_iff.mp (List.nodup_cons.mpr ⟨fresh, ring.nodup⟩)

theorem insertHead_same (ring : links.Ring ↑l) (member : header ∈ l) (outside : other ∉ l)
    (different : other ≠ entry) : Same links (insertHead links entry header) other := by
  have notHeader : other ≠ header := fun same => outside (same ▸ member)
  have notNext : other ≠ links.next header := fun same => outside (same ▸ ring.next_mem member)
  constructor
  · show Function.update (Function.update links.next header entry) entry _ other = _
    rw [Function.update_of_ne different, Function.update_of_ne notHeader]
  · show Function.update (Function.update links.prev _ entry) entry _ other = _
    rw [Function.update_of_ne different, Function.update_of_ne notNext]

/-- The last entry is the one before the header. -/
theorem insertTail_some (ring : links.Ring ↑l) (member : header ∈ l) :
    insertTail links entry (some header) =
      (insertHead links entry (links.prev header), some header) := by
  simp only [insertTail, insertHead, ring.next_prev member]

/-- The entry comes last. -/
theorem insertTail_isList (list : IsList links head l) (fresh : entry ∉ l) :
    IsList (insertTail links entry head).1 (insertTail links entry head).2 (l ++ [entry]) := by
  obtain ⟨rfl, ring⟩ := list
  cases l with
  | nil =>
    refine ⟨rfl, Links.ring_cons_iff.mpr ⟨List.nodup_singleton entry, ?_⟩⟩
    refine List.isChain_pair.mpr ⟨?_, ?_⟩
    · exact Function.update_self ..
    · exact Function.update_self ..
  | cons header rest =>
    obtain ⟨front, ends⟩ := List.getLast?_eq_some_iff.mp ring.prev_head
    rw [List.head?_cons, insertTail_some ring List.mem_cons_self]
    refine ⟨rfl, ?_⟩
    rw [ends] at ring fresh ⊢
    have absent : entry ∉ links.prev header :: front := by
      simpa [or_comm] using fresh
    have behind := insertHead_ring (Links.Ring.rotate ring) absent
    rw [List.append_assoc]
    exact Links.Ring.rotate (l := [_, _]) behind

theorem insertTail_same (list : IsList links head l) (outside : other ∉ l)
    (different : other ≠ entry) : Same links (insertTail links entry head).1 other := by
  obtain ⟨rfl, ring⟩ := list
  cases l with
  | nil => exact ⟨Function.update_of_ne different _ _, Function.update_of_ne different _ _⟩
  | cons header rest =>
    rw [List.head?_cons, insertTail_some ring List.mem_cons_self]
    exact insertHead_same ring (ring.prev_mem List.mem_cons_self) outside different

/-! ## Removal -/

/-- The entry points to itself. -/
def Alone (links : Links Entry) (entry : Entry) : Prop :=
  links.prev entry = entry ∧ links.next entry = entry

omit [DecidableEq Entry] in
theorem eq_nil_of_next (ring : links.Ring ↑(entry :: l)) (itself : links.next entry = entry) :
    l = [] := by
  by_contra others
  obtain ⟨b, l, rfl⟩ := List.exists_cons_of_ne_nil others
  have second : links.next entry = b := (Option.some.inj ring.next_head).symm
  rw [itself] at second
  exact (List.nodup_cons.mp ring.nodup).1 (second ▸ List.mem_cons_self)

omit [DecidableEq Entry] in
theorem alone_iff (ring : links.Ring ↑(entry :: l)) : Alone links entry ↔ l = [] := by
  constructor
  · rintro ⟨-, next⟩
    exact eq_nil_of_next ring next
  · rintro rfl
    exact ring.single.symm

theorem removeEntry_alone (alone : Alone links entry) :
    removeEntry links entry head = (links, none) := if_pos alone

theorem removeEntry_linked (several : ¬Alone links entry) : removeEntry links entry head =
    (links.link (links.prev entry) (links.next entry),
      if head = some entry then some (links.next entry) else head) := if_neg several

/-- The pointers of the removed entry stay. -/
theorem removeEntry_next_self : (removeEntry links entry head).1.next entry = links.next entry := by
  by_cases alone : Alone links entry
  · rw [removeEntry_alone alone]
  · rw [removeEntry_linked alone]
    show Function.update links.next (links.prev entry) (links.next entry) entry = _
    by_cases itself : entry = links.prev entry
    · rw [← itself, Function.update_self]
    · rw [Function.update_of_ne itself]

theorem removeEntry_isList (list : IsList links head l) (member : entry ∈ l) :
    IsList (removeEntry links entry head).1 (removeEntry links entry head).2 (l.erase entry) := by
  obtain ⟨rfl, ring⟩ := list
  obtain ⟨front, back, rfl⟩ := List.append_of_mem member
  have notFront : entry ∉ front := by
    intro inFront
    have apart := (List.nodup_append.mp ring.nodup).2.2
    exact apart entry inFront entry List.mem_cons_self rfl
  rw [List.erase_append_right _ notFront, List.erase_cons_head]
  have around : links.Ring ↑(entry :: (back ++ front)) := ring.rotate
  by_cases alone : Alone links entry
  · obtain ⟨rfl, rfl⟩ := List.append_eq_nil_iff.mp ((alone_iff around).mp alone)
    rw [removeEntry_alone alone]
    exact IsList.nil
  · have others : back ++ front ≠ [] := fun empty => alone ((alone_iff around).mpr empty)
    rw [removeEntry_linked alone]
    refine ⟨?_, Links.Ring.rotate (around.unlink others)⟩
    cases front with
    | nil =>
      obtain ⟨b, back, rfl⟩ := List.exists_cons_of_ne_nil (List.append_nil back ▸ others)
      rw [List.nil_append, List.head?_cons, if_pos rfl]
      exact (around.next_head).symm
    | cons a front =>
      have different : some a ≠ some entry := by
        rintro same
        exact notFront (Option.some.inj same ▸ List.mem_cons_self)
      exact if_neg different

/-- What follows the entry is still there, unless nothing is. -/
theorem next_mem_erase (ring : links.Ring ↑l) (member : entry ∈ l) (rest : l.erase entry ≠ []) :
    links.next entry ∈ l.erase entry := by
  obtain ⟨front, back, rfl⟩ := List.append_of_mem member
  have around : links.Ring ↑(entry :: (back ++ front)) := ring.rotate
  have apart := (List.nodup_cons.mp around.nodup).1
  have next := around.next_mem List.mem_cons_self
  rw [List.mem_append, not_or] at apart
  rw [List.erase_append_right _ apart.2, List.erase_cons_head] at rest ⊢
  have several : back ++ front ≠ [] := by
    simpa [and_comm] using rest
  rcases List.mem_cons.mp next with itself | next
  · exact absurd (eq_nil_of_next around itself) several
  · simpa [or_comm] using next

theorem removeEntry_same (ring : links.Ring ↑l) (member : entry ∈ l) (outside : other ∉ l) :
    Same links (removeEntry links entry head).1 other := by
  by_cases alone : Alone links entry
  · rw [removeEntry_alone alone]
    exact ⟨rfl, rfl⟩
  · rw [removeEntry_linked alone]
    have notPrev : other ≠ links.prev entry := fun same => outside (same ▸ ring.prev_mem member)
    have notNext : other ≠ links.next entry := fun same => outside (same ▸ ring.next_mem member)
    exact ⟨Function.update_of_ne notPrev _ _, Function.update_of_ne notNext _ _⟩

/-! ## Moving a list -/

/-- The whole list comes behind `prev`, in its order. -/
theorem moveWholeList_ring (ring : links.Ring ↑(prev :: l)) (list : IsList links src q)
    (apart : ∀ a ∈ q, a ∉ prev :: l) : (moveWholeList links prev src).Ring ↑(prev :: (q ++ l)) := by
  obtain ⟨rfl, moved⟩ := list
  cases q with
  | nil => exact ring
  | cons srchead rest =>
    refine Links.Ring.splice ring moved.path moved.prev_head ?_
    have nodup : (srchead :: rest ++ prev :: l).Nodup :=
      List.nodup_append.mpr ⟨moved.nodup, ring.nodup, fun a inSrc b inList same =>
        apart a inSrc (same ▸ inList)⟩
    exact List.nodup_middle.mp nodup

theorem moveWholeList_same (ring : links.Ring ↑l) (member : prev ∈ l) (list : IsList links src q)
    (outside : other ∉ l) (away : other ∉ q) : Same links (moveWholeList links prev src) other := by
  obtain ⟨rfl, moved⟩ := list
  cases q with
  | nil => exact ⟨rfl, rfl⟩
  | cons srchead rest =>
    have notPrev : other ≠ prev := fun same => outside (same ▸ member)
    have notNext : other ≠ links.next prev := fun same => outside (same ▸ ring.next_mem member)
    have notHead : other ≠ srchead := fun same => away (same ▸ List.mem_cons_self)
    have notTail : other ≠ links.prev srchead :=
      fun same => away (same ▸ moved.prev_mem List.mem_cons_self)
    constructor
    · show Function.update (Function.update links.next _ _) _ _ other = _
      rw [Function.update_of_ne notPrev, Function.update_of_ne notTail]
    · show Function.update (Function.update links.prev _ _) _ _ other = _
      rw [Function.update_of_ne notHead, Function.update_of_ne notNext]

/-! ## Several lists over the same entries -/

section Family

variable {Place : Type*} [DecidableEq Place]

/-- Disjoint lists, each with its head. -/
structure Family (links : Links Entry) (heads : Place → Option Entry)
    (lists : Place → List Entry) : Prop where
  list : ∀ p, IsList links (heads p) (lists p)
  apart : ∀ p q entry, entry ∈ lists p → entry ∈ lists q → p = q

/-- The entries `q` come behind `prev`. -/
def behind (prev : Entry) (q : List Entry) : List Entry → List Entry
  | [] => []
  | a :: l => if a = prev then a :: (q ++ l) else a :: behind prev q l

variable {heads : Place → Option Entry} {lists : Place → List Entry} {p p' : Place}
  {links' : Links Entry} {a : Entry} {front back : List Entry}

omit [DecidableEq Entry] in
theorem mem_update_iff {l : List Entry} :
    a ∈ Function.update lists p l p' ↔ (p' = p ∧ a ∈ l) ∨ (p' ≠ p ∧ a ∈ lists p') := by
  by_cases here : p' = p
  · subst here
    simp
  · simp [here]

theorem behind_append (absent : prev ∉ front) :
    behind prev q (front ++ prev :: back) = front ++ prev :: (q ++ back) := by
  induction front with
  | nil => exact if_pos rfl
  | cons a front ih =>
    rw [List.mem_cons, not_or] at absent
    rw [List.cons_append, behind, if_neg (Ne.symm absent.1), ih absent.2, List.cons_append]

theorem head?_behind : (behind prev q l).head? = l.head? := by
  cases l with
  | nil => rfl
  | cons a l =>
    unfold behind
    split <;> rfl

theorem mem_behind (member : prev ∈ l) : a ∈ behind prev q l ↔ a ∈ q ∨ a ∈ l := by
  induction l with
  | nil => cases member
  | cons b l ih =>
    unfold behind
    split
    · simp only [List.mem_cons, List.mem_append]
      tauto
    · next different =>
      have rest : prev ∈ l := (List.mem_cons.mp member).resolve_left (Ne.symm different)
      simp only [List.mem_cons, ih rest]
      tauto

omit [DecidableEq Entry] in
/-- One list changes, and only the links of its entries. -/
theorem Family.update (family : Family links heads lists) {heads' : Place → Option Entry}
    {l : List Entry} (list : IsList links' (heads' p) l)
    (elsewhere : ∀ p' ≠ p, heads' p' = heads p')
    (same : ∀ p' ≠ p, ∀ a ∈ lists p', Same links links' a)
    (apart : ∀ p' ≠ p, ∀ a ∈ lists p', a ∉ l) :
    Family links' heads' (Function.update lists p l) where
  list p' := by
    by_cases here : p' = p
    · subst here
      rwa [Function.update_self]
    · rw [Function.update_of_ne here, elsewhere p' here]
      exact (family.list p').congr (same p' here)
  apart p' q' entry inP inQ := by
    rcases mem_update_iff.mp inP with ⟨hereP, inP⟩ | ⟨otherP, inP⟩ <;>
      rcases mem_update_iff.mp inQ with ⟨hereQ, inQ⟩ | ⟨otherQ, inQ⟩
    · exact hereP.trans hereQ.symm
    · exact absurd inP (apart q' otherQ entry inQ)
    · exact absurd inQ (apart p' otherP entry inP)
    · exact family.apart p' q' entry inP inQ

theorem Family.removeEntry (family : Family links heads lists) (member : entry ∈ lists p) :
    Family (EntryList.removeEntry links entry (heads p)).1
      (Function.update heads p (EntryList.removeEntry links entry (heads p)).2)
      (Function.update lists p ((lists p).erase entry)) := by
  have list := family.list p
  refine family.update ?_ (fun p' different => Function.update_of_ne different _ _) ?_ ?_
  · rw [Function.update_self]
    exact removeEntry_isList list member
  · intro p' different a inOther
    have outside : a ∉ lists p := fun here => different (family.apart p' p a inOther here)
    exact removeEntry_same list.ring member outside
  · intro p' different a inOther here
    exact different (family.apart p' p a inOther (List.mem_of_mem_erase here))

theorem Family.insertTail (family : Family links heads lists) (fresh : ∀ p, entry ∉ lists p) :
    Family (EntryList.insertTail links entry (heads p)).1
      (Function.update heads p (EntryList.insertTail links entry (heads p)).2)
      (Function.update lists p (lists p ++ [entry])) := by
  have list := family.list p
  refine family.update ?_ (fun p' different => Function.update_of_ne different _ _) ?_ ?_
  · rw [Function.update_self]
    exact insertTail_isList list (fresh p)
  · intro p' different a inOther
    have outside : a ∉ lists p := fun here => different (family.apart p' p a inOther here)
    exact insertTail_same list outside fun same => fresh p' (same ▸ inOther)
  · intro p' different a inOther here
    rcases List.mem_append.mp here with here | here
    · exact different (family.apart p' p a inOther here)
    · exact fresh p' (List.mem_singleton.mp here ▸ inOther)

/-- A list of the ring's entries in order, with some more behind one of them. -/
theorem isList_behind (list : IsList links head l) (member : prev ∈ l)
    (ring : ∀ rest, links.Ring ↑(prev :: rest) → (∀ a, a ∈ prev :: rest ↔ a ∈ l) →
      links'.Ring ↑(prev :: (q ++ rest))) : IsList links' head (behind prev q l) := by
  obtain ⟨front, back, rfl⟩ := List.append_of_mem member
  have absent : prev ∉ front := by
    intro inFront
    have apart := (List.nodup_append.mp list.ring.nodup).2.2
    exact apart prev inFront prev List.mem_cons_self rfl
  have members : ∀ a, a ∈ prev :: (back ++ front) ↔ a ∈ front ++ prev :: back := by
    intro a
    simp only [List.mem_cons, List.mem_append]
    tauto
  refine ⟨list.head.trans head?_behind.symm, ?_⟩
  rw [behind_append absent]
  have around := ring (back ++ front) (Links.Ring.rotate list.ring) members
  rw [← List.append_assoc] at around
  exact Links.Ring.rotate (l := prev :: (q ++ back)) around

theorem Family.insertHead (family : Family links heads lists) (member : header ∈ lists p)
    (fresh : ∀ p, entry ∉ lists p) :
    Family (EntryList.insertHead links entry header) heads
      (Function.update lists p (behind header [entry] (lists p))) := by
  have list := family.list p
  refine family.update ?_ (fun _ _ => rfl) ?_ ?_
  · refine isList_behind list member fun rest ring members => insertHead_ring ring fun inside => ?_
    exact fresh p ((members entry).mp inside)
  · intro p' different a inOther
    have outside : a ∉ lists p := fun here => different (family.apart p' p a inOther here)
    exact insertHead_same list.ring member outside fun same => fresh p' (same ▸ inOther)
  · intro p' different a inOther here
    rcases (mem_behind member).mp here with here | here
    · exact fresh p' (List.mem_singleton.mp here ▸ inOther)
    · exact different (family.apart p' p a inOther here)

/-- The list at `p'` comes behind an entry of the one at `p`. -/
theorem Family.moveWholeList (family : Family links heads lists) (p' : Place)
    (member : prev ∈ lists p) (different : p' ≠ p) :
    Family (EntryList.moveWholeList links prev (heads p')) (Function.update heads p' none)
      (Function.update (Function.update lists p' []) p (behind prev (lists p') (lists p))) := by
  have list := family.list p
  have moved := family.list p'
  have apart : ∀ a ∈ lists p', a ∉ lists p := fun a inMoved here =>
    different (family.apart p' p a inMoved here)
  have emptied : Family links (Function.update heads p' none) (Function.update lists p' []) := by
    refine family.update ?_ (fun _ other => Function.update_of_ne other _ _) ?_ ?_
    · rw [Function.update_self]
      exact IsList.nil
    · exact fun _ _ _ _ => ⟨rfl, rfl⟩
    · exact fun _ _ _ _ => List.not_mem_nil
  refine emptied.update ?_ (fun _ _ => rfl) ?_ ?_
  · rw [Function.update_of_ne (Ne.symm different)]
    refine isList_behind list member fun rest ring members => moveWholeList_ring ring moved ?_
    exact fun a inMoved inside => apart a inMoved ((members a).mp inside)
  · intro q' other a inOther
    obtain ⟨away, inOther⟩ : q' ≠ p' ∧ a ∈ lists q' :=
      (mem_update_iff.mp inOther).resolve_left fun both => by cases both.2
    refine moveWholeList_same list.ring member moved ?_ ?_
    · exact fun here => other (family.apart q' p a inOther here)
    · exact fun here => away (family.apart q' p' a inOther here)
  · intro q' other a inOther here
    obtain ⟨away, inOther⟩ : q' ≠ p' ∧ a ∈ lists q' :=
      (mem_update_iff.mp inOther).resolve_left fun both => by cases both.2
    rcases (mem_behind member).mp here with here | here
    · exact away (family.apart q' p' a inOther here)
    · exact other (family.apart q' p a inOther here)

end Family

end EntryList

end Tthread
