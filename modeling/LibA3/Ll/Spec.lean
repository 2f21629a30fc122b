import LibA3.Ll.Invariant

/-!
# Each call returns, and links one node in or out
-/

namespace A3Ll

open Links

variable {L N : Type} {m m' : Mem L N} {A : Lists L N} {l : L}
  {xs as bs : List N} {n elem x : N} {w : Cell L N} {t v : Ptr L N}

/-! ## Accesses -/

@[simp] theorem getNext_node : m.getNext (.node n) = .ok (m.next (.node n)) := rfl

@[simp] theorem getNext_sentinel : m.getNext (.sentinel l) = .ok (m.next (.sentinel l)) := rfl

@[simp] theorem getPrev_node : m.getPrev (.node n) = .ok (m.prev (.node n)) := rfl

@[simp] theorem getPrev_sentinel : m.getPrev (.sentinel l) = .ok (m.prev (.sentinel l)) := rfl

theorem isElem_first (l : L) (bs : List N) : (first Ptr.node bs (.sentinel l)).isElem := by cases bs <;> rfl

theorem Ptr.isElem.ne_null (ht : t.isElem) : t ≠ .null := by
  rintro rfl
  cases ht

theorem tail_ne_null (l : L) (xs : List N) : (shape.tail l xs : Cell L N) ≠ .null := by
  have hmem : (shape.tail l xs : Cell L N) ∈ shape.cellsOf l xs := tail_mem
  rcases mem_cellsOf.1 hmem with heq | ⟨x, _, heq⟩
  · rw [heq]
    intro h
    cases h
  · rw [heq]
    intro h
    cases h

variable [DecidableEq L]

@[simp] theorem setHead_next : (m.setHead l v).next = m.next := rfl

@[simp] theorem setHead_prev : (m.setHead l v).prev = m.prev := rfl

@[simp] theorem marked_setHead {l' : L} : Marked (m.setHead l v) l' ↔ Marked m l' := Iff.rfl

variable [DecidableEq N]

@[simp] theorem setNext_node : m.setNext (.node n) v = .ok (m.putNext (.node n) v) := rfl

theorem setPrev_elem (ht : t.isElem) : m.setPrev t w = .ok (m.putPrev t w) := if_pos ht

@[simp] theorem setPrev_node : m.setPrev (.node n) w = .ok (m.putPrev (.node n) w) := rfl

@[simp] theorem setPrev_sentinel : m.setPrev (.sentinel l) w = .ok (m.putPrev (.sentinel l) w) := rfl

@[simp] theorem putNext_next : (m.putNext t v).next = Function.update m.next t v := rfl

@[simp] theorem putNext_prev : (m.putNext t v).prev = m.prev := rfl

@[simp] theorem putPrev_next : (m.putPrev t w).next = m.next := rfl

@[simp] theorem putPrev_prev : (m.putPrev t w).prev = Function.update m.prev t w := rfl

/-! ## Links after an access -/

@[simp] theorem links_putNext : (m.putNext (.node n) v).links = Function.update m.links (.next n) v := by
  funext c
  cases c with
  | null => rfl
  | head l => rfl
  | next x => simp [Mem.links, Mem.putNext, Function.update_apply]

@[simp] theorem links_putNext_sentinel : (m.putNext (.sentinel l) v).links = m.links := by
  funext c
  cases c with
  | null => rfl
  | head l => rfl
  | next x => simp [Mem.links, Mem.putNext]

@[simp] theorem links_putPrev : (m.putPrev t w).links = m.links := by
  funext c
  cases c <;> rfl

theorem links_setHead (hv : v ≠ .null) : (m.setHead l v).links = Function.update m.links (.head l) v := by
  funext c
  cases c with
  | null => rfl
  | next n => rfl
  | head l' =>
    by_cases heq : l' = l
    · subst heq
      simp [Mem.links, Mem.setHead, hv]
    · simp [Mem.links, Mem.setHead, heq]

/-- The head of a list that becomes empty. -/
theorem links_setHead_null : (m.setHead l .null).links = Function.update m.links (.head l) (.sentinel l) := by
  funext c
  cases c with
  | null => rfl
  | next n => rfl
  | head l' =>
    by_cases heq : l' = l
    · subst heq
      simp [Mem.links, Mem.setHead]
    · simp [Mem.links, Mem.setHead, heq]

@[simp] theorem marked_putNext {l' : L} : Marked (m.putNext (.node n) v) l' ↔ Marked m l' := by simp [Marked, Mem.putNext]

@[simp] theorem marked_putPrev {l' : L} : Marked (m.putPrev t w) l' ↔ Marked m l' := Iff.rfl

/-- A write through a link's address. -/
theorem write_spec (hw : w ≠ .null) (hv : v ≠ .null) :
    ∃ m', m.write w v = .ok m' ∧ m'.links = Function.update m.links w v ∧ m'.prev = m.prev ∧
      ∀ l, Marked m' l ↔ Marked m l := by
  cases w with
  | null => exact absurd rfl hw
  | head l => exact ⟨_, rfl, links_setHead hv, rfl, fun _ => Iff.rfl⟩
  | next n => exact ⟨_, rfl, links_putNext, rfl, fun _ => marked_putNext⟩

/-! ## Inserting -/

/-- The new node's own fields written. -/
def place (m : Mem L N) (n : N) (w : Cell L N) (t : Ptr L N) : Mem L N := (m.putNext (.node n) t).putPrev (.node n) w

/-- The new node's address into the cell before it, and then its own cell into `t`. -/
theorem insert_writes (hw : w ≠ .null) (ht : t.isElem) :
    ∃ m1 m', (place m n w t).write w (.node n) = .ok m1 ∧ m1.setPrev t (.next n) = .ok m' ∧ Inserted m n w t m' := by
  obtain ⟨m1, hwrite, hlinks, hprev, hmarked⟩ := write_spec (m := place m n w t) hw (v := .node n) (by simp)
  refine ⟨m1, _, hwrite, setPrev_elem ht, ?_, ?_, fun l => ?_⟩
  · simp [hlinks, place]
  · simp [hprev, place]
  · simp [hmarked, place]

theorem insertAfter_spec (h : Inv m A) (hA : A l = some (as ++ elem :: bs)) (hfree : Free A n) :
    ∃ m', insertAfter m elem n = .ok m' ∧ Inserted m n (.next elem) (first .node bs (.sentinel l)) m' := by
  have hne : elem ≠ n := by
    rintro rfl
    exact hfree l _ hA (by simp)
  have hnext := h.next_node hA
  refine ⟨((place m n (.next elem) (first .node bs (.sentinel l))).putPrev (first .node bs (.sentinel l))
    (.next n)).putNext (.node elem) (.node n), ?_, ?_, ?_, fun l => ?_⟩
  · simp [insertAfter, place, bind, Except.bind, hnext, hne, setPrev_elem (isElem_first l bs)]
  · simp [place]
  · simp [place]
  · simp [place]

theorem insertBefore_spec (h : Inv m A) (hA : A l = some (as ++ elem :: bs)) (hfree : Free A n) :
    ∃ m', insertBefore m elem n = .ok m' ∧ Inserted m n (shape.tail l as) (.node elem) m' := by
  have hne : elem ≠ n := by
    rintro rfl
    exact hfree l _ hA (by simp)
  have hprev := h.prev_node hA
  obtain ⟨m1, m', hwrite, hset, hins⟩ := insert_writes (m := m) (n := n) (tail_ne_null l as)
    (t := .node elem) rfl
  refine ⟨m', ?_, hins⟩
  unfold place at hwrite
  simp only [insertBefore, setNext_node, getPrev_node, setPrev_node, bind, Except.bind, putNext_prev, putPrev_prev, hprev]
  rw [Function.update_of_ne (by simp [hne]), hprev, hwrite]
  exact hset

theorem enqueue_spec (h : Inv m A) (hA : A l = some xs) :
    ∃ m', enqueue m l n = .ok m' ∧ Inserted m n (shape.tail l xs) (.sentinel l) m' := by
  have hprev := h.prev_sentinel hA
  obtain ⟨m1, m', hwrite, hset, hins⟩ := insert_writes (m := m) (n := n) (tail_ne_null l xs)
    (t := .sentinel l) rfl
  refine ⟨m', ?_, hins⟩
  unfold place at hwrite
  simp only [enqueue, setNext_node, getPrev_sentinel, setPrev_node, bind, Except.bind, putNext_prev, putPrev_prev, hprev]
  rw [Function.update_of_ne (by simp), hprev, hwrite]
  exact hset

theorem isEmpty_eq (h : Inv m A) (hA : A l = some xs) : isEmpty m l = decide (xs = []) := by
  cases xs with
  | nil =>
    have hhead := h.head_nil hA
    simp [isEmpty, hhead]
  | cons x xs =>
    have hhead := h.head_cons hA
    simp [isEmpty, hhead]

theorem headElem_eq (h : Inv m A) (hA : A l = some xs) : headElem m l = first .node xs .null := by
  rw [headElem, isEmpty_eq h hA]
  cases xs with
  | nil => rfl
  | cons x xs => simp [first, h.head_cons hA]

theorem push_spec (h : Inv m A) (hA : A l = some xs) (hfree : Free A n) :
    ∃ m', push m l n = .ok m' ∧ Inserted m n (.head l) (first .node xs (.sentinel l)) m' := by
  have hne : first .node xs (.sentinel l) ≠ Ptr.node n :=
    ne_of_mem_of_not_mem first_mem (hfree.not_mem_targets (S := shape) hA)
  refine ⟨(((m.putPrev (first .node xs (.sentinel l)) (.next n)).putNext (.node n) (first .node xs (.sentinel l))).putPrev
    (.node n) (.head l)).setHead l (.node n), ?_, ?_, ?_, fun l => ?_⟩
  · rw [push, isEmpty_eq h hA]
    cases xs with
    | nil => rfl
    | cons x xs =>
      have hhead := headElem_eq h hA
      have hhead' : headElem (m.putPrev (.node x) (.next n)) l = .node x := hhead
      simp only [first] at hhead
      simp [bind, Except.bind, pure, Except.pure, hhead, hhead', first]
  · rw [links_setHead (by simp)]
    simp
  · simp [Function.update_comm hne]
  · simp

/-! ## Removing -/

theorem remove_spec (h : Inv m A) (hA : A l = some (as ++ elem :: bs)) :
    ∃ m', remove m elem = .ok m' ∧ Removed m (shape.tail l as) (first .node bs (.sentinel l)) m' := by
  have hnext := h.next_node hA
  have hprev := h.prev_node hA
  have hne : (.node elem : Ptr L N) ≠ first .node bs (.sentinel l) := by
    have hnd := Runs.targets_nodup (h.linked.runs l _ hA)
    rw [targets, List.map_append, List.map_cons, List.append_assoc] at hnd
    intro heq
    have hmem : first .node bs (.sentinel l) ∈ targets Ptr.node bs (.sentinel l) := first_mem
    rw [← heq] at hmem
    exact (List.nodup_cons.1 hnd.of_append_right).1 hmem
  obtain ⟨m', hwrite, hlinks, hprev', hmarked⟩ := write_spec
    (m := m.putPrev (first .node bs (.sentinel l)) (shape.tail l as)) (tail_ne_null l as)
    (Ptr.isElem.ne_null (isElem_first l bs))
  refine ⟨m', ?_, ?_, ?_, fun l => ?_⟩
  · simp only [remove, getNext_node, getPrev_node, bind, Except.bind, hnext, hprev, setPrev_elem (isElem_first l bs),
      putPrev_prev, putPrev_next]
    rw [Function.update_of_ne hne, hprev, hwrite]
  · simp [hlinks]
  · simp [hprev']
  · simp [hmarked]

theorem isLast_spec (h : Inv m A) (hA : A l = some (as ++ x :: bs)) :
    isLast m (.node x) = .ok (decide (bs = [])) := by
  have hnext := h.next_node hA
  cases bs with
  | nil =>
    have hend : m.next (.sentinel l) = .null := (h.marked l _ hA).1
    simp [isLast, hnext, hend, bind, Except.bind, pure, Except.pure]
  | cons b bs =>
    have hA' : A l = some ((as ++ [x]) ++ b :: bs) := by simpa using hA
    have hnext' := h.next_node hA'
    have hne : first .node bs (.sentinel l) ≠ Ptr.null := Ptr.isElem.ne_null (isElem_first l bs)
    simp [isLast, hnext, hnext', hne, bind, Except.bind, pure, Except.pure]

theorem nextElem_spec (h : Inv m A) (hA : A l = some (as ++ x :: bs)) :
    nextElem m (.node x) = .ok (first .node bs .null) := by
  have hnext := h.next_node hA
  rw [nextElem, getNext_node, hnext, isLast_spec h hA]
  cases bs with
  | nil => simp [bind, Except.bind, pure, Except.pure]
  | cons b bs => simp [bind, Except.bind]

theorem pop_spec (h : Inv m A) (hA : A l = some (x :: xs)) :
    ∃ m', pop m l = .ok m' ∧ Removed m (.head l) (first .node xs (.sentinel l)) m' := by
  have hA' : A l = some ([] ++ x :: xs) := hA
  have hhead := headElem_eq h hA
  have hnext := nextElem_spec h hA'
  refine ⟨(m.setHead l (first .node xs .null)).putPrev (first .node xs (.sentinel l)) (.head l), ?_, ?_, ?_, fun l => ?_⟩
  · rw [pop, hhead]
    simp only [first_cons, hnext, bind, Except.bind]
    cases xs with
    | nil => simp [isEmpty, Mem.setHead]
    | cons y xs => simp [isEmpty, Mem.setHead, headElem]
  · cases xs with
    | nil => simp [links_setHead_null]
    | cons y xs => simp [links_setHead]
  · simp
  · simp

/-! ## Initialising -/

theorem init_spec (h : Inv m A) (l : L) : ∃ m', init m l = .ok m' ∧ Inv m' (Function.update A l (some [])) := by
  refine ⟨((({ m.setHead l .null with dummy := Function.update m.dummy l .null } : Mem L N).putNext (.sentinel l)
    .null).putPrev (.sentinel l) (.head l)), rfl, ?_, ?_, ?_⟩
  · rw [links_putPrev, links_putNext_sentinel]
    have hlinks : ({ m.setHead l .null with dummy := Function.update m.dummy l .null } : Mem L N).links =
        Function.update m.links (.head l) (.sentinel l) := links_setHead_null
    rw [hlinks]
    exact h.linked.initAt l
  · exact h.back.initAt last_injective l
  · refine h.marked.update ?_ fun l' _ _ hne hmarked => ?_
    · simp [Marked, Mem.putNext, Mem.putPrev]
    · simpa [Marked, Mem.putNext, Mem.putPrev, hne] using hmarked

end A3Ll
