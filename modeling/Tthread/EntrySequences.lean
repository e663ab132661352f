/-
# Entry lists as sequences

The users of `list.h` think of its lists as sequences. Each call stores a handful of pointers,
which may be cells of one entry or of several, as in a list of one entry or where neighbours are
removed. In memory with disjoint lists a call changes the sequences as it should, keeps the
lists disjoint and well formed, and leaves all entries of other lists as they were.
-/

import Tthread.EntryList

namespace Tthread

open DoublyLinked

variable {Entry Place : Type*} [DecidableEq Entry] [DecidableEq Place]

namespace EntryList

def insertNext (links : Links Entry) (entry prev : Entry) : Links Entry :=
  let next := links.next prev
  let links := setPrev links next entry
  let links := setPrev links entry prev
  let links := setNext links entry next
  setNext links prev entry

/-- The entry that is returned, or NULL, the entries, and the head. -/
def removeHeadEntry (links : Links Entry) (head : Option Entry) :
    Option Entry × Links Entry × Option Entry :=
  match head with
  | none => (none, links, none)
  | some header => (some header, removeEntry links header head)

/-- The entries, and the heads of the lists. -/
structure Memory (Entry Place : Type*) where
  links : Links Entry
  head : Place → Option Entry

inductive Call (Entry Place : Type*)
  | insertTail (entry : Entry) (list : Place)
  | insertHead (entry : Entry) (list : Place)
  | insertNext (entry prev : Entry)
  | removeEntry (entry : Entry) (list : Place)
  | removeHeadEntry (list : Place)
  | moveWholeList (prev : Entry) (src : Place)

namespace Call

/-- What a call does to memory. `insertHead` needs an entry in the list. -/
def run (m : Memory Entry Place) : Call Entry Place → Memory Entry Place
  | insertTail entry list =>
      let after := EntryList.insertTail m.links entry (m.head list)
      ⟨after.1, Function.update m.head list after.2⟩
  | insertHead entry list =>
      match m.head list with
      | none => m
      | some header => { m with links := EntryList.insertHead m.links entry header }
  | insertNext entry prev => { m with links := EntryList.insertNext m.links entry prev }
  | removeEntry entry list =>
      let after := EntryList.removeEntry m.links entry (m.head list)
      ⟨after.1, Function.update m.head list after.2⟩
  | removeHeadEntry list =>
      let after := EntryList.removeHeadEntry m.links (m.head list)
      ⟨after.2.1, Function.update m.head list after.2.2⟩
  | moveWholeList prev src =>
      ⟨EntryList.moveWholeList m.links prev (m.head src), Function.update m.head src none⟩

/-- What a call returns. -/
def result (m : Memory Entry Place) : Call Entry Place → Option Entry
  | removeHeadEntry list => (EntryList.removeHeadEntry m.links (m.head list)).1
  | _ => none

variable (lists : Place → List Entry)

/-- What a call does to the sequences. -/
def effect : Call Entry Place → Place → List Entry
  | insertTail entry list => Function.update lists list (lists list ++ [entry])
  | insertHead entry list =>
      Function.update lists list
        (match lists list with
        | [] => []
        | header :: rest => header :: entry :: rest)
  | insertNext entry prev => fun p => behind prev [entry] (lists p)
  | removeEntry entry list => Function.update lists list ((lists list).erase entry)
  | removeHeadEntry list => Function.update lists list (lists list).tail
  | moveWholeList prev src => fun p => if p = src then [] else behind prev (lists src) (lists p)

/-- What a call returns of the sequences. -/
def output : Call Entry Place → Option Entry
  | removeHeadEntry list => (lists list).head?
  | _ => none

/-- An entry is inserted from outside of the lists, behind one of their entries, and removed from
the list that it is in. A list that has entries is moved into another one. -/
def Allowed : Call Entry Place → Prop
  | insertTail entry _ => ∀ p, entry ∉ lists p
  | insertHead entry list => (∀ p, entry ∉ lists p) ∧ lists list ≠ []
  | insertNext entry prev => (∀ p, entry ∉ lists p) ∧ ∃ p, prev ∈ lists p
  | removeEntry entry list => entry ∈ lists list
  | removeHeadEntry _ => True
  | moveWholeList prev src => lists src = [] ∨ ∃ p, p ≠ src ∧ prev ∈ lists p

/-- The entries of the lists that a call is about, and the one that it inserts. -/
def Involved (a : Entry) : Call Entry Place → Prop
  | insertTail entry list | insertHead entry list => a = entry ∨ a ∈ lists list
  | insertNext entry prev => a = entry ∨ ∃ p, prev ∈ lists p ∧ a ∈ lists p
  | removeEntry _ list | removeHeadEntry list => a ∈ lists list
  | moveWholeList prev src => a ∈ lists src ∨ ∃ p, prev ∈ lists p ∧ a ∈ lists p

end Call

variable {links : Links Entry} {heads : Place → Option Entry} {lists : Place → List Entry}
  {m : Memory Entry Place} {call : Call Entry Place} {entry prev a : Entry} {p : Place}
  {q l : List Entry}

theorem insertNext_eq (different : entry ≠ prev) :
    insertNext links entry prev = insertHead links entry prev := by
  simp only [insertNext, insertHead, setNext, setPrev]
  rw [Function.update_comm different]

theorem behind_of_notMem (absent : prev ∉ l) : behind prev q l = l := by
  induction l with
  | nil => rfl
  | cons b l ih =>
    rw [List.mem_cons, not_or] at absent
    rw [behind, if_neg (Ne.symm absent.1), ih absent.2]

theorem behind_nil : behind prev [] l = l := by
  induction l with
  | nil => rfl
  | cons b l ih =>
    rw [behind, ih, List.nil_append, ite_self]

/-- An entry is in one list only, so that only one list changes. -/
theorem Family.behind_eq_update (family : Family links heads lists) (member : prev ∈ lists p) :
    (fun p' => behind prev q (lists p')) =
      Function.update lists p (behind prev q (lists p)) := by
  funext p'
  by_cases here : p' = p
  · subst here
    rw [Function.update_self]
  · rw [Function.update_of_ne here]
    exact behind_of_notMem fun other => here (family.apart p' p prev other member)

theorem Family.removeHeadEntry (family : Family links heads lists) (p : Place) :
    (EntryList.removeHeadEntry links (heads p)).1 = (lists p).head? ∧
      Family (EntryList.removeHeadEntry links (heads p)).2.1
        (Function.update heads p (EntryList.removeHeadEntry links (heads p)).2.2)
        (Function.update lists p (lists p).tail) := by
  have head := (family.list p).head
  cases sequence : lists p with
  | nil =>
    have none : heads p = none := head.trans (by rw [sequence]; rfl)
    rw [none]
    refine ⟨rfl, ?_⟩
    rw [EntryList.removeHeadEntry, ← none, Function.update_eq_self, List.tail_nil, ← sequence,
      Function.update_eq_self]
    exact family
  | cons header rest =>
    have first : heads p = some header := head.trans (by rw [sequence]; rfl)
    have inside : header ∈ lists p := by
      rw [sequence]
      exact List.mem_cons_self
    have removed := family.removeEntry inside
    rw [sequence, List.erase_cons_head] at removed
    have result : EntryList.removeHeadEntry links (heads p) =
        (some header, EntryList.removeEntry links header (heads p)) := by
      rw [first]
      rfl
    rw [result]
    exact ⟨rfl, removed⟩

omit [DecidableEq Place] in
theorem removeHeadEntry_same (family : Family links heads lists) (outside : a ∉ lists p) :
    Same links (EntryList.removeHeadEntry links (heads p)).2.1 a := by
  have list := family.list p
  have head := list.head
  cases sequence : lists p with
  | nil =>
    have none : heads p = none := head.trans (by rw [sequence]; rfl)
    rw [none]
    exact ⟨rfl, rfl⟩
  | cons header rest =>
    have first : heads p = some header := head.trans (by rw [sequence]; rfl)
    have member : header ∈ lists p := by rw [sequence]; exact List.mem_cons_self
    rw [first]
    exact removeEntry_same list.ring member outside

/-- **Step.** A call changes the sequences as it should. -/
theorem Family.run (family : Family m.links m.head lists) (allowed : call.Allowed lists) :
    Family (call.run m).links (call.run m).head (call.effect lists) := by
  cases call with
  | insertTail entry list => exact family.insertTail allowed
  | insertHead entry list =>
    obtain ⟨fresh, some⟩ := allowed
    obtain ⟨header, rest, sequence⟩ := List.exists_cons_of_ne_nil some
    have head : m.head list = .some header := (family.list list).head.trans (by rw [sequence]; rfl)
    have member : header ∈ lists list := by rw [sequence]; exact List.mem_cons_self
    have inserted := family.insertHead member fresh
    simp only [Call.run, Call.effect, head, sequence]
    rw [sequence, behind, if_pos rfl] at inserted
    exact inserted
  | insertNext entry prev =>
    obtain ⟨fresh, p, member⟩ := allowed
    have different : entry ≠ prev := fun same => fresh p (same ▸ member)
    show Family (insertNext m.links entry prev) m.head fun p => behind prev [entry] (lists p)
    rw [insertNext_eq different, family.behind_eq_update member]
    exact family.insertHead member fresh
  | removeEntry entry list => exact family.removeEntry allowed
  | removeHeadEntry list => exact (family.removeHeadEntry list).2
  | moveWholeList prev src =>
    show Family (EntryList.moveWholeList m.links prev (m.head src))
      (Function.update m.head src none)
      fun p => if p = src then [] else behind prev (lists src) (lists p)
    obtain empty | ⟨p, other, member⟩ := allowed
    · -- nothing to move
      have none : m.head src = none := (family.list src).head.trans (by rw [empty]; rfl)
      have same : (fun p => if p = src then [] else behind prev (lists src) (lists p)) = lists := by
        funext p
        split_ifs with here
        · rw [here, empty]
        · rw [empty, behind_nil]
      rw [same, none, ← none, Function.update_eq_self, none]
      exact family
    · have same : (fun p => if p = src then [] else behind prev (lists src) (lists p)) =
          Function.update (Function.update lists src []) p (behind prev (lists src) (lists p)) := by
        rw [← Function.update_comm (Ne.symm other).symm, ← family.behind_eq_update member]
        funext p'
        rw [Function.update_apply]
      rw [same]
      exact family.moveWholeList src member (Ne.symm other)

/-- What a call is not about stays as it was. -/
theorem Family.run_same (family : Family m.links m.head lists) (allowed : call.Allowed lists)
    (outside : ¬ call.Involved lists a) : Same m.links (call.run m).links a := by
  cases call with
  | insertTail entry list =>
    obtain ⟨different, outside⟩ := not_or.mp outside
    exact insertTail_same (family.list list) outside different
  | insertHead entry list =>
    obtain ⟨different, outside⟩ := not_or.mp outside
    obtain ⟨fresh, some⟩ := allowed
    obtain ⟨header, rest, sequence⟩ := List.exists_cons_of_ne_nil some
    have head : m.head list = .some header := (family.list list).head.trans (by rw [sequence]; rfl)
    have member : header ∈ lists list := by rw [sequence]; exact List.mem_cons_self
    simp only [Call.run, head]
    exact insertHead_same (family.list list).ring member outside different
  | insertNext entry prev =>
    obtain ⟨different, outside⟩ := not_or.mp outside
    obtain ⟨fresh, p, member⟩ := allowed
    have apart : entry ≠ prev := fun same => fresh p (same ▸ member)
    show Same m.links (insertNext m.links entry prev) a
    rw [insertNext_eq apart]
    exact insertHead_same (family.list p).ring member (fun inside => outside ⟨p, member, inside⟩)
      different
  | removeEntry entry list => exact removeEntry_same (family.list list).ring allowed outside
  | removeHeadEntry list => exact removeHeadEntry_same family outside
  | moveWholeList prev src =>
    obtain ⟨away, outside⟩ := not_or.mp outside
    obtain empty | ⟨p, -, member⟩ := allowed
    · have none : m.head src = none := (family.list src).head.trans (by rw [empty]; rfl)
      show Same m.links (EntryList.moveWholeList m.links prev (m.head src)) a
      rw [none]
      exact ⟨rfl, rfl⟩
    · exact moveWholeList_same (family.list p).ring member (family.list src)
        (fun inside => outside ⟨p, member, inside⟩) away

theorem Family.result (family : Family m.links m.head lists) :
    call.result m = call.output lists := by
  cases call with
  | removeHeadEntry list => exact (family.removeHeadEntry list).1
  | _ => rfl

/-- **The lists are sequences.** In memory with disjoint lists, a call leaves disjoint lists with
the sequences that it should, returns what it should, and changes no entry that it is not about. -/
theorem refines_sequences (family : Family m.links m.head lists) (allowed : call.Allowed lists) :
    Family (call.run m).links (call.run m).head (call.effect lists) ∧
      call.result m = call.output lists ∧
      ∀ a, ¬ call.Involved lists a → Same m.links (call.run m).links a :=
  ⟨family.run allowed, family.result, fun _ outside => family.run_same allowed outside⟩

/-- Two lists of one entry each. -/
def pairMemory : Memory ℕ Bool := ⟨⟨id, id⟩, fun list => some list.toNat⟩

theorem family_pairMemory : Family pairMemory.links pairMemory.head fun list => [list.toNat] where
  list list := ⟨rfl, Links.ring_cons_iff.mpr ⟨List.nodup_singleton _,
    List.isChain_pair.mpr ⟨rfl, rfl⟩⟩⟩
  apart p q entry inP inQ := by
    obtain rfl := List.mem_singleton.mp inP
    have same := List.mem_singleton.mp inQ
    revert same
    cases p <;> cases q <;> decide

/-- One is moved behind the other. -/
theorem refines_sequences_pair :
    Family ((Call.moveWholeList 0 true).run pairMemory).links
        ((Call.moveWholeList 0 true).run pairMemory).head
        ((Call.moveWholeList 0 true).effect fun list => [list.toNat]) ∧
      (Call.moveWholeList 0 true).result pairMemory =
        (Call.moveWholeList 0 true).output (fun list => [list.toNat]) ∧
      ∀ a, ¬ (Call.moveWholeList 0 true).Involved (fun list => [list.toNat]) a →
        Same pairMemory.links ((Call.moveWholeList 0 true).run pairMemory).links a :=
  refines_sequences family_pairMemory (.inr ⟨false, by decide, by decide⟩)

example : (Call.moveWholeList 0 true).effect (fun list => [list.toNat]) false = [0, 1] := by decide

/-! ## Runs -/

/-- Calls one after the other, each with what it returns. -/
def calls (m : Memory Entry Place) : List (Call Entry Place) →
    Memory Entry Place × List (Option Entry)
  | [] => (m, [])
  | call :: rest => ((calls (call.run m) rest).1, call.result m :: (calls (call.run m) rest).2)

/-- The same calls on sequences. -/
def effects (lists : Place → List Entry) : List (Call Entry Place) →
    (Place → List Entry) × List (Option Entry)
  | [] => (lists, [])
  | call :: rest =>
      ((effects (call.effect lists) rest).1,
        call.output lists :: (effects (call.effect lists) rest).2)

/-- Each call is allowed where it comes. -/
def AllAllowed (lists : Place → List Entry) : List (Call Entry Place) → Prop
  | [] => True
  | call :: rest => call.Allowed lists ∧ AllAllowed (call.effect lists) rest

/-- Runs of calls on memory are runs on sequences. -/
theorem family_of_calls {run : List (Call Entry Place)} (family : Family m.links m.head lists)
    (allowed : AllAllowed lists run) :
    Family (calls m run).1.links (calls m run).1.head (effects lists run).1 ∧
      (calls m run).2 = (effects lists run).2 := by
  induction run generalizing m lists with
  | nil => exact ⟨family, rfl⟩
  | cons call rest ih =>
    obtain ⟨first, later⟩ := allowed
    obtain ⟨after, same⟩ := ih (family.run first) later
    exact ⟨after, congrArg₂ _ family.result same⟩

end EntryList

end Tthread
