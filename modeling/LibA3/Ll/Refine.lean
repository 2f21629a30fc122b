import LibA3.Fuel
import LibA3.Ll.Spec

/-!
# Lists are sequences

Everything that can be seen of a list is its sequence: forwards, backwards, which element is first and which is last.
-/

namespace A3Ll

open Trans Links

variable {L N : Type} [DecidableEq L] [DecidableEq N] {m m' m0 : Mem L N} {A A' : Lists L N} {l : L}
  {xs as bs : List N} {x : N} {op : Op L N} {s : Mem L N × Lists L N} {calls : List (Op L N)}
  {follow : Ptr L N → Except Fault (Ptr L N)}

/-! ## Traversals -/

/-- The loops visit what `follow` leads to, one after the other. -/
theorem iterate_spec : ∀ {xs : List N} (fuel : Nat), xs.length < fuel →
    (∀ as x bs, xs = as ++ x :: bs → follow (.node x) = .ok (first .node bs .null)) →
    iterate follow fuel (first .node xs .null) (first .node xs.tail .null) = .ok (xs.map .node) := by
  intro xs
  induction xs with
  | nil =>
    intro fuel hfuel _
    obtain ⟨fuel, rfl⟩ := Fuel.succ_of_lt hfuel
    rfl
  | cons x xs ih =>
    intro fuel hfuel hfollow
    obtain ⟨fuel, rfl⟩ := Fuel.succ_of_lt hfuel
    have hrest := ih fuel (Nat.lt_of_succ_lt_succ hfuel) fun as y bs heq => hfollow (x :: as) y bs (by rw [heq]; rfl)
    cases xs with
    | nil =>
      simp only [List.tail_nil, first_nil] at hrest
      simp [iterate, hrest, bind, Except.bind, pure, Except.pure]
    | cons y ys =>
      simp only [List.tail_cons, first_cons] at hrest
      simp [iterate, hfollow [x] y ys rfl, hrest, bind, Except.bind, pure, Except.pure]

theorem forEachFrom_spec (hfollow : ∀ as x bs, xs = as ++ x :: bs → follow (.node x) = .ok (first .node bs .null)) :
    ∃ k, ∀ fuel, k ≤ fuel → forEachFrom follow fuel (first .node xs .null) = .ok (xs.map .node) := by
  refine ⟨xs.length + 1, fun fuel hfuel => ?_⟩
  have hloop := iterate_spec fuel hfuel hfollow
  unfold forEachFrom
  cases xs with
  | nil => exact hloop
  | cons x xs =>
    simp only [first_cons, List.tail_cons] at hloop
    simp [hfollow [] x xs rfl, hloop, bind, Except.bind]

theorem endElem_eq (h : Inv m A) (hA : A l = some xs) : endElem m l = first .node xs.reverse .null := by
  rw [endElem, isEmpty_eq h hA, h.prev_sentinel hA]
  rcases List.eq_nil_or_concat xs with rfl | ⟨as, x, rfl⟩
  · rfl
  · rw [List.concat_eq_append, tail_concat]
    simp [containerOf]

/-- The cell in front of an element is the list's head, or the link of the element before it. -/
theorem isFirst_spec (h : Inv m A) (hA : A l = some (as ++ x :: bs)) :
    isFirst m (.node x) = .ok (decide (as = [])) := by
  have hprev := h.prev_node hA
  rcases List.eq_nil_or_concat as with rfl | ⟨as, p, rfl⟩
  · have hdummy : m.dummy l = .null := (h.marked l _ hA).2
    simp [isFirst, hprev, erasedPrev, hdummy, bind, Except.bind, pure, Except.pure]
  · rw [List.concat_eq_append] at hA hprev
    have hA' : A l = some (as ++ p :: (x :: bs)) := by simpa using hA
    have hprev' := h.prev_node hA'
    rw [tail_concat] at hprev
    have hne : (shape.tail l as : Cell L N) ≠ .null := tail_ne_null l as
    simp [isFirst, hprev, erasedPrev, hprev', bind, Except.bind, pure, Except.pure]
    exact hne

theorem prevElem_spec (h : Inv m A) (hA : A l = some (as ++ x :: bs)) :
    prevElem m (.node x) = .ok (first .node as.reverse .null) := by
  have hprev := h.prev_node hA
  rw [prevElem, isFirst_spec h hA]
  rcases List.eq_nil_or_concat as with rfl | ⟨as, p, rfl⟩
  · rfl
  · rw [List.concat_eq_append, tail_concat] at hprev
    simp [hprev, containerOf, bind, Except.bind, pure, Except.pure]

/-! ## What can be seen -/

/-- The list is the sequence `xs`, to everything that looks at it. -/
structure Shows (m : Mem L N) (l : L) (xs : List N) : Prop where
  forward : ∃ k, ∀ fuel, k ≤ fuel → forEach fuel m l = .ok (xs.map .node)
  backward : ∃ k, ∀ fuel, k ≤ fuel → forEachRev fuel m l = .ok (xs.reverse.map .node)
  isEmpty : isEmpty m l = decide (xs = [])
  isFirst : ∀ x ∈ xs, isFirst m (.node x) = .ok (decide (xs.head? = some x))
  isLast : ∀ x ∈ xs, isLast m (.node x) = .ok (decide (xs.getLast? = some x))

theorem shows_of_inv (h : Inv m A) (hA : A l = some xs) : Shows m l xs := by
  have hnd := Runs.nodup (h.linked.runs l xs hA)
  refine ⟨?_, ?_, isEmpty_eq h hA, fun x hx => ?_, fun x hx => ?_⟩
  · simp only [forEach, headElem_eq h hA]
    refine forEachFrom_spec fun as x bs heq => ?_
    subst heq
    exact nextElem_spec h hA
  · simp only [forEachRev, endElem_eq h hA]
    refine forEachFrom_spec fun as x bs heq => ?_
    have heq' : xs = bs.reverse ++ x :: as.reverse := by
      rw [← List.reverse_reverse xs, heq]
      simp
    subst heq'
    have hprev := prevElem_spec h hA
    rwa [List.reverse_reverse] at hprev
  · obtain ⟨as, bs, rfl⟩ := List.append_of_mem hx
    rw [isFirst_spec h hA]
    cases as with
    | nil => simp
    | cons a as =>
      have hne : a ≠ x := by
        rintro rfl
        simp at hnd
      simp [hne]
  · obtain ⟨as, bs, rfl⟩ := List.append_of_mem hx
    rw [isLast_spec h hA]
    rcases List.eq_nil_or_concat bs with rfl | ⟨bs, b, rfl⟩
    · simp
    · have hne : b ≠ x := by
        rintro rfl
        simp [List.nodup_append] at hnd
      have heq : as ++ x :: bs.concat b = (as ++ x :: bs) ++ [b] := by simp
      rw [heq, List.getLast?_concat]
      simp [hne]

/-! ## Runs -/

/-- A call that may be made, and what it is to do to the sequences. -/
def Step (s : Mem L N × Lists L N) (op : Op L N) (s' : Mem L N × Lists L N) : Prop :=
  ListStep s.2 op s'.2 ∧ exec s.1 op = .ok s'.1

/-- No list is initialised. -/
def start (m : Mem L N) : Mem L N × Lists L N := (m, fun _ => none)

theorem inv_start (m : Mem L N) : Inv (start m).1 (start m).2 :=
  { linked := linked_none
    back := fun _ _ h => nomatch h
    marked := fun _ _ h => nomatch h }

theorem step_total (h : Inv m A) (hstep : ListStep A op A') : ∃ m', exec m op = .ok m' ∧ Inv m' A' := by
  cases hstep with
  | init l => exact init_spec h l
  | push l elem xs hA hfree =>
    obtain ⟨m', hret, hins⟩ := push_spec h hA hfree
    have hA' : A l = some ([] ++ xs) := hA
    exact ⟨m', hret, h.insert hA' hfree hins⟩
  | pop l x xs hA =>
    obtain ⟨m', hret, hrem⟩ := pop_spec h hA
    have hA' : A l = some ([] ++ x :: xs) := hA
    exact ⟨m', hret, h.remove hA' hrem⟩
  | enqueue l elem xs hA hfree =>
    obtain ⟨m', hret, hins⟩ := enqueue_spec (n := elem) h hA
    have hA' : A l = some (xs ++ []) := by rw [List.append_nil]; exact hA
    exact ⟨m', hret, h.insert hA' hfree hins⟩
  | insertAfter l elem nextElem as bs hA hfree =>
    obtain ⟨m', hret, hins⟩ := insertAfter_spec h hA hfree
    have hA' : A l = some ((as ++ [elem]) ++ bs) := by simpa using hA
    have hw : (shape.tail l (as ++ [elem]) : Cell L N) = .next elem := tail_concat
    rw [← hw] at hins
    refine ⟨m', hret, ?_⟩
    simpa using h.insert hA' hfree hins
  | insertBefore l elem prevElem as bs hA hfree =>
    obtain ⟨m', hret, hins⟩ := insertBefore_spec h hA hfree
    exact ⟨m', hret, h.insert hA hfree hins⟩
  | remove l elem as bs hA =>
    obtain ⟨m', hret, hrem⟩ := remove_spec h hA
    exact ⟨m', hret, h.remove hA hrem⟩

theorem run_inv (h : Run Step (start m0) calls s) : Inv s.1 s.2 := by
  refine h.invariant (P := fun s => Inv s.1 s.2) (fun s op s' hinv hs => ?_) (inv_start m0)
  obtain ⟨m', hret, hinv'⟩ := step_total hinv hs.1
  have heq : s'.1 = m' := Except.ok.inj (hs.2.symm.trans hret)
  rw [heq]
  exact hinv'

/-- **Every list is its sequence.** In every run each list that is initialised shows the sequence that the calls should
have made of it, and a call that may be made returns. -/
theorem lists_refined (h : Run Step (start m0) calls s) :
    (∀ l xs, s.2 l = some xs → Shows s.1 l xs) ∧
    ∀ op A', ListStep s.2 op A' → ∃ m', Step s op (m', A') := by
  have hinv := run_inv h
  refine ⟨fun l xs hA => shows_of_inv hinv hA, fun op A' hlist => ?_⟩
  obtain ⟨m', hret, _⟩ := step_total hinv hlist
  exact ⟨m', hlist, hret⟩

theorem step_mk (hlist : ListStep A op A') (hret : exec m op = .ok m') : Step (m, A) op (m', A') := ⟨hlist, hret⟩

/-- Two lists, one of them emptied by `A3_LL_REMOVE` and the other by `A3_LL_POP`, and a node that goes from one to the
other. -/
theorem lists_refined_two : ∃ s : Mem Bool Nat × Lists Bool Nat, s.2 false = some [1] ∧ s.2 true = some [] ∧
    (∀ l xs, s.2 l = some xs → Shows s.1 l xs) ∧
    ∀ op A', ListStep s.2 op A' → ∃ m', Step s op (m', A') := by
  have h : Run Step (start ⟨fun _ => .null, fun _ => .null, fun _ => .null, fun _ => .null⟩) _ _ :=
    .cons (step_mk (.init false) rfl) <| .cons (step_mk (.init true) rfl) <|
    .cons (step_mk (.push true 1 [] rfl (by decide)) rfl) <| .cons (step_mk (.pop true 1 [] rfl) rfl) <|
    .cons (step_mk (.enqueue false 2 [] rfl (by decide)) rfl) <|
    .cons (step_mk (.insertBefore false 2 1 [] [] rfl (by decide)) rfl) <|
    .cons (step_mk (.remove false 2 [1] [] rfl) rfl) <| .nil _
  exact ⟨_, rfl, rfl, lists_refined h⟩

end A3Ll
