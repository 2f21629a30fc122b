import LibA3.Sll.Run

/-!
# Lists used without `A3_SLL_INSERT_AFTER`

`end` is where the next node goes: each of the other calls moves it if and only if the last node changes.
-/

namespace A3Sll

open Trans Links

variable {L N : Type} {m m' m0 : Mem L N} {A A' : Lists L N} {l : L}
  {xs ys as bs : List N} {elem : N} {op : Op L N} {s s' : Mem L N × Lists L N} {calls : List (Op L N)}

/-- Every list's `end` addresses the cell behind its last node. -/
abbrev AtTail (end_ : L → Cell L N) (A : Lists L N) : Prop := EndIs (fun l xs c => c = shape.tail l xs) end_ A

theorem AtTail.ends {end_ : L → Cell L N} (h : AtTail end_ A) : Ends end_ A := by
  intro l xs hA
  simp only [h l xs hA]
  exact tail_mem

/-- `A3_SLL_END` in a list whose `end` is at the tail -/
theorem endElem_eq (h : Linked shape m.read A) (htail : AtTail m.end_ A) (hA : A l = some xs) :
    endElem m l = xs.getLast?.elim .null .node := by
  have hfirst : m.head l = first some xs none := (h.runs l xs hA).read_first
  rw [endElem, isEmpty, hfirst, htail l xs hA]
  rcases List.eq_nil_or_concat xs with rfl | ⟨as, x, rfl⟩
  · rfl
  · rw [List.concat_eq_append, tail_concat, List.getLast?_concat]
    cases as <;> simp [first, containerOf]

variable [DecidableEq L]

theorem fixup_eq (h : Linked shape m.read A) (htail : AtTail m.end_ A) (hA : A l = some xs) (fuel : Nat) :
    m.read (m.end_ l) = none ∧ fixup l (fuel + 1) m = .ok m := by
  have hnone : m.read (m.end_ l) = none := by
    rw [htail l xs hA]
    exact (h.runs l xs hA).read_last
  refine ⟨hnone, ?_⟩
  rw [fixup, hnone]

variable [DecidableEq N]

/-- A call that is not `A3_SLL_INSERT_AFTER`. -/
def QueueStep (s : Mem L N × Lists L N) (op : Op L N) (s' : Mem L N × Lists L N) : Prop :=
  Step s op s' ∧ ∀ elem nextElem, op ≠ .insertAfter elem nextElem

theorem queueStep_total (h : Linked shape m.read A) (htail : AtTail m.end_ A) (hstep : ListStep A op A')
    (hop : ∀ elem nextElem, op ≠ .insertAfter elem nextElem) :
    ∃ m', Returns m op m' ∧ Linked shape m'.read A' ∧ AtTail m'.end_ A' := by
  cases hstep with
  | init l =>
    obtain ⟨hl, he⟩ := init_spec h l
    refine ⟨_, returns_of 0 fun _ => rfl, hl, ?_⟩
    rw [he]
    exact (endIs_update htail _).2 rfl
  | push l elem xs hA hfree =>
    obtain ⟨hl, he⟩ := push_spec h hA hfree
    refine ⟨_, returns_of 0 fun _ => rfl, hl, ?_⟩
    rw [he]
    refine (endIs_update htail _).2 ?_
    cases xs with
    | nil => simp [lastCell]
    | cons x xs => simp [htail l _ hA, lastCell]
  | pop l x xs hA =>
    obtain ⟨m', hpop, hl, he⟩ := pop_spec h hA
    refine ⟨m', returns_of 0 fun _ => hpop, hl, ?_⟩
    rw [he]
    refine (endIs_update htail _).2 ?_
    cases xs with
    | nil => simp
    | cons y xs => simp [htail l _ hA, lastCell]
  | remove l elem as bs hA =>
    obtain ⟨m', hret, hl, he⟩ := remove_spec h hA
    refine ⟨m', hret, hl, ?_⟩
    rw [he]
    refine (endIs_update htail _).2 ?_
    cases bs with
    | nil => simp
    | cons b bs => simp [htail l _ hA, lastCell]
  | insertAfter l elem nextElem as bs hA hfree => exact absurd rfl (hop elem nextElem)
  | enqueue l elem xs hA hfree =>
    obtain ⟨m', hret, hl, he⟩ := enqueue_spec h (AtTail.ends htail) hA hfree
    refine ⟨m', hret, hl, ?_⟩
    rw [he]
    exact (endIs_update htail _).2 (tail_concat (S := shape)).symm

theorem queue_linked (h : Run QueueStep (start m0) calls s) : Linked shape s.1.read s.2 ∧ AtTail s.1.end_ s.2 := by
  refine h.invariant (P := fun s => Linked shape s.1.read s.2 ∧ AtTail s.1.end_ s.2) (fun s op s' hinv hs => ?_)
    ⟨linked_start m0, fun _ _ h => nomatch h⟩
  obtain ⟨⟨hlist, hret⟩, hop⟩ := hs
  obtain ⟨m', hret', hlinked, htail⟩ := queueStep_total hinv.1 hinv.2 hlist hop
  rw [hret.unique hret']
  exact ⟨hlinked, htail⟩

/-- **Without `A3_SLL_INSERT_AFTER` the tail pointer is exact.** Every list is its sequence, `end` is behind the last
node, `A3_SLL_END` is that node, the loop of `A3_SLL_FIXUP` does not iterate, and every call returns. -/
theorem tail_exact (h : Run QueueStep (start m0) calls s) :
    (∀ l xs, s.2 l = some xs →
      Traverses s.1 l xs ∧ s.1.end_ l = shape.tail l xs ∧
      endElem s.1 l = xs.getLast?.elim .null .node ∧
      s.1.read (s.1.end_ l) = none ∧ ∀ fuel, fixup l (fuel + 1) s.1 = .ok s.1) ∧
    ∀ op A', ListStep s.2 op A' → (∀ elem nextElem, op ≠ .insertAfter elem nextElem) →
      ∃ m', QueueStep s op (m', A') := by
  obtain ⟨hlinked, htail⟩ := queue_linked h
  constructor
  · intro l xs hA
    exact ⟨traverses hlinked hA, htail l xs hA, endElem_eq hlinked htail hA, (fixup_eq hlinked htail hA 0).1,
      fun fuel => (fixup_eq hlinked htail hA fuel).2⟩
  · intro op A' hlist hop
    obtain ⟨m', hret, _, _⟩ := queueStep_total hlinked htail hlist hop
    exact ⟨m', ⟨hlist, hret⟩, hop⟩

theorem queueStep_mk (hlist : ListStep A op A') (hret : Returns m op m')
    (hop : ∀ elem nextElem, op ≠ .insertAfter elem nextElem) : QueueStep (m, A) op (m', A') := ⟨⟨hlist, hret⟩, hop⟩

/-- The last of two nodes removed. -/
theorem tail_exact_one : ∃ s : Mem Bool Nat × Lists Bool Nat, s.2 false = some [1] ∧
    (∀ l xs, s.2 l = some xs →
      Traverses s.1 l xs ∧ s.1.end_ l = shape.tail l xs ∧
      endElem s.1 l = xs.getLast?.elim .null .node ∧
      s.1.read (s.1.end_ l) = none ∧ ∀ fuel, fixup l (fuel + 1) s.1 = .ok s.1) ∧
    ∀ op A', ListStep s.2 op A' → (∀ elem nextElem, op ≠ .insertAfter elem nextElem) →
      ∃ m', QueueStep s op (m', A') := by
  have h : Run QueueStep (start blank) _ _ :=
    .cons (queueStep_mk (.init false) (returns_of 0 fun _ => rfl) (by simp)) <|
    .cons (queueStep_mk (.push false 1 [] rfl (by decide)) (returns_of 0 fun _ => rfl) (by simp)) <|
    .cons (queueStep_mk (.enqueue false 2 [1] rfl (by decide)) (returns_of 1 fun _ => rfl) (by simp)) <|
    .cons (queueStep_mk (.remove false 2 [1] [] rfl) (returns_of 1 fun _ => rfl) (by simp)) <| .nil _
  exact ⟨_, rfl, tail_exact h⟩

end A3Sll
