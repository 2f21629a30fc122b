import LibA3.Count.Slots
import LibA3.Rc.Basic
import LibA3.Trans

/-!
# Counts and references

`Counted` says of the objects, given all the references there are: an object counts its own, and has been deleted, once,
when it has none. `ref` and `unref` take it from one multiset of references to the next; where the references are, with
which handle or still with the creator, is no concern of theirs.
-/

namespace A3Rc

open Slots

variable {w o : Nat} {s s' : St} {refs : Multiset Nat} {p : Option Nat}

structure Counted (s : St) (refs : Multiset Nat) : Prop where
  object : ∀ o < s.objects.length, s.objects[o]? = some ⟨refs.count o, decide (refs.count o = 0)⟩
  alloc : ∀ o ∈ refs, o < s.objects.length
  deleted : ∀ o, s.deleted.count o = if o < s.objects.length ∧ refs.count o = 0 then 1 else 0

/-- Nothing but counts has changed, and what has been deleted. -/
structure Frame (s s' : St) : Prop where
  handles : s'.handles = s.handles
  length : s'.objects.length = s.objects.length

/-- Handles come and go without the objects. -/
theorem Counted.congr (h : Counted s refs) (hobjects : s'.objects = s.objects) (hdeleted : s'.deleted = s.deleted) :
    Counted s' refs where
  object := hobjects ▸ h.object
  alloc := hobjects ▸ h.alloc
  deleted := by
    rw [hobjects, hdeleted]
    exact h.deleted

/-- What changes one object's references changes its count only. -/
theorem Counted.update {refs' : Multiset Nat} (h : Counted s refs) (halloc : o < s.objects.length)
    (hother : ∀ o' ≠ o, refs'.count o' = refs.count o')
    (hobjects : s'.objects = s.objects.set o ⟨refs'.count o, decide (refs'.count o = 0)⟩)
    (hdeleted : ∀ o', s'.deleted.count o' = if o' = o then if refs'.count o = 0 then 1 else 0 else s.deleted.count o') :
    Counted s' refs' := by
  have hlength : s'.objects.length = s.objects.length := by rw [hobjects, List.length_set]
  constructor
  · intro o' ho'
    rw [hobjects]
    by_cases heq : o' = o
    · subst heq
      exact List.getElem?_set_self halloc
    · rw [List.getElem?_set_ne (Ne.symm heq), hother o' heq]
      exact h.object o' (hlength ▸ ho')
  · intro o' ho'
    rw [hlength]
    by_cases heq : o' = o
    · exact heq ▸ halloc
    · refine h.alloc o' (Multiset.count_pos.1 ?_)
      rw [← hother o' heq]
      exact Multiset.count_pos.2 ho'
  · intro o'
    rw [hdeleted o', hlength]
    by_cases heq : o' = o
    · subst heq
      simp [halloc]
    · rw [if_neg heq, hother o' heq]
      exact h.deleted o'

theorem Counted.refCount_eq (h : Counted s refs) (ho : o ∈ refs) : refCount s o = .ok (refs.count o) := by
  have hpos : refs.count o ≠ 0 := Multiset.count_ne_zero.2 ho
  simp [refCount, h.object o (h.alloc o ho), hpos]

theorem Counted.not_deleted (h : Counted s refs) (ho : o ∈ refs) : s.deleted.count o = 0 := by
  rw [h.deleted o, if_neg (fun hn => Multiset.count_ne_zero.2 ho hn.2)]

theorem refCount_setCount {n : Nat} (ho : o < s.objects.length) : refCount (s.setCount o n) o = .ok n := by
  simp [refCount, St.setCount, ho]

/-- A reference more. -/
theorem ref_spec (h : Counted s refs) (ho : o ∈ refs) (hw : refs.count o + 1 < 2 ^ w) :
    ∃ s', ref w s o = .ok s' ∧ Counted s' (o ::ₘ refs) ∧ Frame s s' := by
  refine ⟨s.setCount o (refs.count o + 1), ?_, ?_, rfl, List.length_set⟩
  · simp only [ref, h.refCount_eq ho, bind, Except.bind, pure, Except.pure, Nat.mod_eq_of_lt hw]
  · refine h.update (h.alloc o ho) (fun o' hne => Multiset.count_cons_of_ne hne refs) ?_ ?_
    · rw [Multiset.count_cons_self, decide_eq_false (Nat.succ_ne_zero _)]
      rfl
    · intro o'
      by_cases heq : o' = o
      · subst heq
        simp [St.setCount, h.not_deleted ho]
      · rw [if_neg heq]
        rfl

/-- A reference less; the object is deleted with the last one. -/
theorem unref_spec (h : Counted s (o ::ₘ refs)) :
    ∃ s', unref s o = .ok s' ∧ Counted s' refs ∧ Frame s s' := by
  have ho : o ∈ o ::ₘ refs := Multiset.mem_cons_self o refs
  have halloc := h.alloc o ho
  have hcount := h.refCount_eq ho
  rw [Multiset.count_cons_self] at hcount
  have hother : ∀ o' ≠ o, refs.count o' = (o ::ₘ refs).count o' := fun o' hne =>
    (Multiset.count_cons_of_ne hne refs).symm
  by_cases hlast : refs.count o = 0
  · refine ⟨⟨s.objects.set o ⟨0, true⟩, s.handles, o :: s.deleted⟩, ?_, h.update halloc hother ?_ ?_, rfl, List.length_set⟩
    · simp only [unref, hcount, hlast, bind, Except.bind, pure, Except.pure, destroy, refCount_setCount halloc]
      simp [St.setCount, List.set_set]
    · rw [hlast]
      rfl
    · intro o'
      by_cases heq : o' = o
      · subst heq
        simp [hlast, h.not_deleted ho]
      · rw [if_neg heq, List.count_cons_of_ne (Ne.symm heq)]
  · refine ⟨s.setCount o (refs.count o), ?_, h.update halloc hother ?_ ?_, rfl, List.length_set⟩
    · simp [unref, hcount, hlast, bind, Except.bind, pure, Except.pure]
    · rw [decide_eq_false hlast]
      rfl
    · intro o'
      by_cases heq : o' = o
      · subst heq
        simp [St.setCount, hlast, h.not_deleted ho]
      · rw [if_neg heq]
        rfl

theorem refPtr_spec (h : Counted s refs) (hmem : ∀ o, p = some o → o ∈ refs)
    (hw : ∀ o, p = some o → refs.count o + 1 < 2 ^ w) :
    ∃ s', refPtr w s p = .ok s' ∧ Counted s' (one p + refs) ∧ Frame s s' := by
  cases p with
  | none => exact ⟨s, rfl, by rwa [one_none, Multiset.zero_add], rfl, rfl⟩
  | some o =>
    rw [one_some, Multiset.singleton_add]
    exact ref_spec h (hmem o rfl) (hw o rfl)

theorem unrefPtr_spec (h : Counted s (one p + refs)) :
    ∃ s', unrefPtr s p = .ok s' ∧ Counted s' refs ∧ Frame s s' := by
  cases p with
  | none =>
    rw [one_none, Multiset.zero_add] at h
    exact ⟨s, rfl, h, rfl, rfl⟩
  | some o =>
    rw [one_some, Multiset.singleton_add] at h
    exact unref_spec h

/-- The creator's reference. -/
theorem newObject_spec (h : Counted s refs) (hw : 1 < 2 ^ w) : Counted (newObject w s) (s.objects.length ::ₘ refs) := by
  have hnew : s.objects.length ∉ refs := fun ho => Nat.lt_irrefl _ (h.alloc _ ho)
  have hcount : refs.count s.objects.length = 0 := Multiset.count_eq_zero.2 hnew
  constructor
  · intro o ho
    simp only [newObject, List.length_append, List.length_singleton] at ho ⊢
    by_cases heq : o = s.objects.length
    · subst heq
      rw [List.getElem?_concat_length, Multiset.count_cons_self, hcount, Nat.mod_eq_of_lt hw]
      rfl
    · have hlt : o < s.objects.length := by omega
      rw [List.getElem?_append_left hlt, Multiset.count_cons_of_ne heq]
      exact h.object o hlt
  · intro o ho
    simp only [newObject, List.length_append, List.length_singleton]
    rcases Multiset.mem_cons.1 ho with rfl | ho
    · exact Nat.lt_succ_self _
    · exact Nat.lt_succ_of_lt (h.alloc o ho)
  · intro o
    simp only [newObject, List.length_append, List.length_singleton]
    rw [h.deleted o]
    by_cases heq : o = s.objects.length
    · subst heq
      simp
    · have hlt : o < s.objects.length + 1 ↔ o < s.objects.length := by omega
      simp only [Multiset.count_cons_of_ne heq, hlt]

end A3Rc
