import LibA3.Sll.Run

/-!
# Is `end` inside its list?

`A3_SLL_INSERT_AFTER` leaves `end` where it is, so `end` can address the link of a node that is no longer the last.
`A3_SLL_POP` and `A3_SLL_REMOVE` move `end` only when the list, or the tail of it, has become empty. Taking such a
node out leaves `end` in a node of no list, and it follows the node wherever it is put next: this is the only way in
which `end` gets out of its list.
-/

namespace A3Sll

open Trans Links

variable {L N : Type} {m m' m0 : Mem L N} {A A' : Lists L N} {l : L}
  {xs as bs : List N} {elem : N} {op : Op L N} {s s' : Mem L N × Lists L N} {calls : List (Op L N)}

/-- The lists are what they should be, and `end` and what `A3_SLL_FIXUP` makes of it stay inside them. -/
structure Good (m : Mem L N) (A : Lists L N) : Prop where
  traverses : ∀ l xs, A l = some xs → Traverses m l xs
  ends : Ends m.end_ A
  fixup_inside : ∀ l xs, A l = some xs → ∀ fuel, ∀ c ∈ fixupReads m fuel (m.end_ l), c ∈ shape.cellsOf l xs

theorem fixupReads_inside : ∀ {xs : List N} {c : Cell L N} (fuel : Nat), Seg Cell.next some m.read c xs none →
    ∀ d ∈ fixupReads m fuel c, d ∈ cells Cell.next c xs := by
  intro xs
  induction xs with
  | nil =>
    intro c fuel h d hd
    have hc : m.read c = none := h
    cases fuel with
    | zero => simp [fixupReads] at hd
    | succ fuel =>
      rw [fixupReads, hc] at hd
      exact hd
  | cons x xs ih =>
    intro c fuel h d hd
    cases fuel with
    | zero => simp [fixupReads] at hd
    | succ fuel =>
      rw [fixupReads, h.1] at hd
      rcases List.mem_cons.1 hd with rfl | hd
      · exact List.mem_cons_self
      · exact List.mem_cons_of_mem _ (ih fuel h.2 d hd)

theorem good_iff (h : Linked shape m.read A) : Good m A ↔ Ends m.end_ A := by
  refine ⟨Good.ends, fun hend => ⟨fun l xs hA => traverses h hA, hend, fun l xs hA fuel c hc => ?_⟩⟩
  obtain ⟨as, bs, rfl, hsplit⟩ := mem_cellsOf_split (hend l xs hA)
  have hseg := (h.runs l _ hA).suffix
  rw [hsplit] at hseg
  have hc' := fixupReads_inside fuel hseg c hc
  rcases List.mem_cons.1 hc' with rfl | hc'
  · exact hend l _ hA
  · rw [Shape.cellsOf, cells, List.map_append]
    exact List.mem_cons_of_mem _ (List.mem_append_right _ hc')

/-- `end` after a node with a list behind it is taken out. -/
theorem end_mem_remove (h : Runs shape m.read l (as ++ elem :: bs)) (hend : m.end_ l ∈ shape.cellsOf l (as ++ elem :: bs)) :
    (if bs = [] then shape.tail l as else m.end_ l) ∈ shape.cellsOf l (as ++ bs) ↔
      (m.end_ l = .next elem → m.next elem = none) := by
  have hnd := Runs.nodup h
  have hnext : m.next elem = first some bs none := (seg_append.1 h).2.read_first
  rw [hnext]
  cases bs with
  | nil => simp [first, lastCell_mem]
  | cons b bs =>
    have hne : first some (b :: bs) none ≠ none := by simp [first]
    have hout : elem ∉ as ++ b :: bs := by
      intro hmem
      rw [List.nodup_append] at hnd
      simp only [List.nodup_cons, List.mem_append] at hnd hmem
      rcases hmem with hmem | hmem
      · exact hnd.2.2 elem hmem elem List.mem_cons_self rfl
      · exact hnd.2.1.1 hmem
    simp only [if_neg (List.cons_ne_nil b bs), imp_iff_not hne]
    rw [mem_cellsOf] at hend ⊢
    constructor
    · rintro (heq | ⟨x, hx, heq⟩) heq'
      · rw [heq] at heq'
        cases heq'
      · rw [heq] at heq'
        cases heq'
        exact hout hx
    · intro hne'
      rcases hend with heq | ⟨x, hx, heq⟩
      · exact Or.inl heq
      · refine Or.inr ⟨x, ?_, heq⟩
        rcases List.mem_append.1 hx with hx | hx
        · exact List.mem_append_left _ hx
        · rcases List.mem_cons.1 hx with rfl | hx
          · exact absurd heq hne'
          · exact List.mem_append_right _ hx

variable [DecidableEq L] [DecidableEq N]

/-- The call takes out no node that has one behind it while `end` addresses its link. -/
def Careful (m : Mem L N) : Op L N → Prop
  | .pop l => ∀ x ∈ m.head l, m.end_ l = .next x → m.next x = none
  | .remove l elem => m.end_ l = .next elem → m.next elem = none
  | _ => True

def CarefulStep (s : Mem L N × Lists L N) (op : Op L N) (s' : Mem L N × Lists L N) : Prop :=
  Step s op s' ∧ Careful s.1 op

/-- What one call may do: it returns, with the lists it should leave, and keeps `end` inside them exactly when it is
careful. -/
theorem step_total (h : Linked shape m.read A) (hend : Ends m.end_ A) (hstep : ListStep A op A') :
    ∃ m', Returns m op m' ∧ Linked shape m'.read A' ∧ (Ends m'.end_ A' ↔ Careful m op) := by
  cases hstep with
  | init l =>
    obtain ⟨hl, he⟩ := init_spec h l
    refine ⟨_, returns_of 0 fun _ => rfl, hl, ?_⟩
    rw [he, ends_update hend]
    simp [Careful, mem_cellsOf]
  | push l elem xs hA hfree =>
    obtain ⟨hl, he⟩ := push_spec h hA hfree
    refine ⟨_, returns_of 0 fun _ => rfl, hl, ?_⟩
    rw [he, ends_update hend]
    simp only [Careful, iff_true]
    cases xs with
    | nil => simp [mem_cellsOf]
    | cons x xs => exact cellsOf_mono (List.subset_cons_self elem _) (hend l _ hA)
  | pop l x xs hA =>
    obtain ⟨m', hpop, hl, he⟩ := pop_spec h hA
    refine ⟨m', returns_of 0 fun _ => hpop, hl, ?_⟩
    have hr : Runs shape m.read l ([] ++ x :: xs) := h.runs l _ hA
    have hhead : m.head l = some x := hr.1
    rw [he, ends_update hend]
    simpa [Careful, hhead] using end_mem_remove hr (hend l _ hA)
  | remove l elem as bs hA =>
    obtain ⟨m', hret, hl, he⟩ := remove_spec h hA
    refine ⟨m', hret, hl, ?_⟩
    rw [he, ends_update hend]
    exact end_mem_remove (h.runs l _ hA) (hend l _ hA)
  | insertAfter l elem nextElem as bs hA hfree =>
    obtain ⟨hl, he⟩ := insertAfter_spec h hA hfree
    refine ⟨_, returns_of 0 fun _ => rfl, hl, ?_⟩
    rw [he]
    have hself : m.end_ = Function.update m.end_ l (m.end_ l) := by simp
    rw [hself, ends_update hend]
    simp only [Careful, iff_true]
    refine cellsOf_mono (fun y hy => ?_) (hend l _ hA)
    simp only [List.mem_append, List.mem_cons] at hy ⊢
    tauto
  | enqueue l elem xs hA hfree =>
    obtain ⟨m', hret, hl, he⟩ := enqueue_spec h hend hA hfree
    refine ⟨m', hret, hl, ?_⟩
    rw [he, ends_update hend]
    simp [Careful, mem_cellsOf]

/-- A careful run keeps the links and every `end` where they should be. -/
theorem careful_linked (h : Run CarefulStep (start m0) calls s) : Linked shape s.1.read s.2 ∧ Ends s.1.end_ s.2 := by
  refine h.invariant (P := fun s => Linked shape s.1.read s.2 ∧ Ends s.1.end_ s.2) (fun s op s' hinv hs => ?_)
    ⟨linked_start m0, ends_start m0⟩
  obtain ⟨⟨hlist, hret⟩, hcareful⟩ := hs
  obtain ⟨m', hret', hlinked, hiff⟩ := step_total hinv.1 hinv.2 hlist
  rw [hret.unique hret']
  exact ⟨hlinked, hiff.2 hcareful⟩

/-- **In a careful run `end` stays inside its list.** Every list is its sequence, `end` addresses the list's head or
the link of one of its nodes, and the fix-up touches nothing else. The next call returns whatever it is, and it is
good if and only if it is careful. -/
theorem end_inside_iff (h : Run CarefulStep (start m0) calls s) :
    Good s.1 s.2 ∧ ∀ op A', ListStep s.2 op A' →
      ∃ m', Returns s.1 op m' ∧ (Good m' A' ↔ Careful s.1 op) := by
  obtain ⟨hlinked, hend⟩ := careful_linked h
  refine ⟨(good_iff hlinked).2 hend, fun op A' hlist => ?_⟩
  obtain ⟨m', hret, hlinked', hiff⟩ := step_total hlinked hend hlist
  exact ⟨m', hret, (good_iff hlinked').trans hiff⟩

/-! A list with a stale `end`, and what comes of it when the node it is in is taken out. -/

/-- The list `1, 2` with `end` behind `1`. -/
theorem end_inside_iff_stale : ∃ s : Mem Bool Nat × Lists Bool Nat, s.1.end_ false = .next 1 ∧ s.1.next 1 = some 2 ∧
    Good s.1 s.2 ∧ ∀ op A', ListStep s.2 op A' → ∃ m', Returns s.1 op m' ∧ (Good m' A' ↔ Careful s.1 op) := by
  have h : Run CarefulStep (start blank) _ _ :=
    .cons ⟨step_mk (.init false) (returns_of 0 fun _ => rfl), trivial⟩ <|
    .cons ⟨step_mk (.push false 1 [] rfl (by decide)) (returns_of 0 fun _ => rfl), trivial⟩ <|
    .cons ⟨step_mk (.insertAfter false 1 2 [] [] rfl (by decide)) (returns_of 0 fun _ => rfl), trivial⟩ <| .nil _
  exact ⟨_, rfl, rfl, end_inside_iff h⟩

/-- `1` is taken out of the first list while that list's `end` is in it, and put into the second: what is then
enqueued on the first list is found in the second. -/
theorem enqueue_lost : ∃ s, Run Step (start blank) [.init false, .init true, .push false 1, .insertAfter 1 2, .pop false,
      .push true 1, .enqueue false 3] s ∧
    s.2 false = some [2, 3] ∧ Traverses s.1 false [2] ∧ s.2 true = some [1] ∧ Traverses s.1 true [1, 3] := by
  have h : Run Step (start blank) _ _ :=
    .cons (step_mk (.init false) (returns_of 0 fun _ => rfl)) <|
    .cons (step_mk (.init true) (returns_of 0 fun _ => rfl)) <|
    .cons (step_mk (.push false 1 [] rfl (by decide)) (returns_of 0 fun _ => rfl)) <|
    .cons (step_mk (.insertAfter false 1 2 [] [] rfl (by decide)) (returns_of 0 fun _ => rfl)) <|
    .cons (step_mk (.pop false 1 [2] rfl) (returns_of 0 fun _ => rfl)) <|
    .cons (step_mk (.push true 1 [] rfl (by decide)) (returns_of 0 fun _ => rfl)) <|
    .cons (step_mk (.enqueue false 3 [2] rfl (by decide)) (returns_of 1 fun _ => rfl)) <| .nil _
  refine ⟨_, h, rfl, ⟨3, fun fuel hfuel => ?_⟩, rfl, ⟨3, fun fuel hfuel => ?_⟩⟩
  · obtain ⟨fuel, rfl⟩ := Nat.exists_eq_add_of_le' hfuel
    rfl
  · obtain ⟨fuel, rfl⟩ := Nat.exists_eq_add_of_le' hfuel
    rfl

end A3Sll
