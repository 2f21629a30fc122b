import LibA3.Sll.Invariant

/-!
# What each call does

To the links: what `ListStep` says it does to the sequences. To `end`: the call moves it where it believes that the
last node changed, and leaves it alone otherwise. `Ends` is what `end` has to satisfy for the loop of `A3_SLL_FIXUP` to
start inside the list.
-/

namespace A3Sll

open Links

variable {L N : Type} {m m' : Mem L N} {A A' : Lists L N} {l : L}
  {xs ys as bs : List N} {elem nextElem x : N} {op : Op L N}

/-- Every list's `end` is a cell that `P` allows for its sequence. -/
def EndIs (P : L → List N → Cell L N → Prop) (end_ : L → Cell L N) (A : Lists L N) : Prop :=
  Each (fun l xs => P l xs (end_ l)) A

/-- Every list's `end` addresses its own head or the link of one of its nodes. -/
abbrev Ends (end_ : L → Cell L N) (A : Lists L N) : Prop := EndIs (fun l xs c => c ∈ shape.cellsOf l xs) end_ A

/-- No list is initialised. -/
def start (m : Mem L N) : Mem L N × Lists L N := (m, fun _ => none)

theorem linked_start (m : Mem L N) : Linked shape m.read (start m).2 :=
  { runs := fun _ _ h => nomatch h
    disjoint := fun _ _ _ _ h => nomatch h }

theorem ends_start (m : Mem L N) : Ends m.end_ (start m).2 := fun _ _ h => by cases h

variable [DecidableEq L]

/-- One list and its `end` changed. -/
theorem endIs_update {P : L → List N → Cell L N → Prop} {end_ : L → Cell L N} (h : EndIs P end_ A) (c : Cell L N) :
    EndIs P (Function.update end_ l c) (Function.update A l (some ys)) ↔ P l ys c := by
  constructor
  · intro h'
    have hl := h'.of_update
    rwa [Function.update_self] at hl
  · intro hc
    refine h.update (by rwa [Function.update_self]) fun l' xs' _ hne hend => ?_
    rwa [Function.update_of_ne hne]

theorem ends_update {end_ : L → Cell L N} (h : Ends end_ A) (c : Cell L N) :
    Ends (Function.update end_ l c) (Function.update A l (some ys)) ↔ c ∈ shape.cellsOf l ys := endIs_update h c

variable [DecidableEq N]

/-! ## Inserting -/

theorem init_spec (h : Linked shape m.read A) (l : L) :
    Linked shape (init m l).read (Function.update A l (some [])) ∧
      (init m l).end_ = Function.update m.end_ l (.head l) := by
  unfold init
  refine ⟨?_, by simp⟩
  rw [read_setEnd, read_write]
  exact h.initAt l

theorem push_spec (h : Linked shape m.read A) (hA : A l = some xs) (hfree : Free A elem) :
    Linked shape (push m l elem).read (Function.update A l (some (elem :: xs))) ∧
      (push m l elem).end_ = Function.update m.end_ l (if xs = [] then .next elem else m.end_ l) := by
  have hfirst : m.head l = first some xs none := (h.runs l xs hA).read_first
  have hread : (push m l elem).read =
      Function.update (Function.update m.read (.next elem) (m.read (.head l))) (.head l) (some elem) := by
    rw [push]
    split <;> simp [head_eq]
  have hnext : (m.write (.next elem) (m.head l)).next elem = first some xs none := by
    rw [next_eq, read_write, Function.update_self, hfirst]
  constructor
  · rw [hread]
    have hA' : A l = some ([] ++ xs) := hA
    exact h.insertAt hA' hfree rfl
  · rw [push]
    simp only [hnext]
    cases xs with
    | nil => simp [first]
    | cons x xs => simp [first]

theorem insertAfter_spec (h : Linked shape m.read A) (hA : A l = some (as ++ elem :: bs)) (hfree : Free A nextElem) :
    Linked shape (insertAfter m elem nextElem).read (Function.update A l (some (as ++ elem :: nextElem :: bs))) ∧
      (insertAfter m elem nextElem).end_ = m.end_ := by
  have hA' : A l = some ((as ++ [elem]) ++ bs) := by simpa using hA
  have hins := h.insertAt hA' hfree lastCell_concat
  refine ⟨?_, by simp [insertAfter]⟩
  rw [insertAfter, read_write, read_write, next_eq]
  simpa using hins

/-- `A3_SLL_ENQUEUE`, wherever in the list `end` is when it starts. -/
theorem enqueue_spec (h : Linked shape m.read A) (hend : Ends m.end_ A) (hA : A l = some xs) (hfree : Free A elem) :
    ∃ m', Returns m (.enqueue l elem) m' ∧ Linked shape m'.read (Function.update A l (some (xs ++ [elem]))) ∧
      m'.end_ = Function.update m.end_ l (.next elem) := by
  obtain ⟨as, bs, rfl, hsplit⟩ := mem_cellsOf_split (hend l xs hA)
  have hseg := (h.runs l _ hA).suffix
  rw [hsplit] at hseg
  -- after the loop `end` is behind the last node
  have hlast : lastCell Cell.next (m.end_ l) bs = shape.tail l (as ++ bs) := by
    rw [tail_append, hsplit]
  have hnone : m.read (shape.tail l (as ++ bs)) = none := (h.runs l _ hA).read_last
  have hA' : A l = some ((as ++ bs) ++ []) := by rw [List.append_nil]; exact hA
  have hins := h.insertAt hA' hfree rfl
  rw [hnone] at hins
  refine ⟨(((m.setEnd l (shape.tail l (as ++ bs))).write (.next elem) none).write
    (shape.tail l (as ++ bs)) (some elem)).setEnd l (.next elem),
    ⟨bs.length + 1, fun fuel hfuel => ?_⟩, ?_, ?_⟩
  · rw [exec, enqueue, fixup_spec fuel hfuel hseg, hlast]
    simp [bind, Except.bind, pure, Except.pure]
  · simp only [read_setEnd, read_write]
    exact hins
  · simp

/-! ## Removing -/

theorem pop_spec (h : Linked shape m.read A) (hA : A l = some (x :: bs)) :
    ∃ m', pop m l = .ok m' ∧ Linked shape m'.read (Function.update A l (some bs)) ∧
      m'.end_ = Function.update m.end_ l (if bs = [] then .head l else m.end_ l) := by
  have hr : Runs shape m.read l (x :: bs) := h.runs l _ hA
  have hnext : m.next x = first some bs none := hr.2.read_first
  have hA' : A l = some ([] ++ x :: bs) := hA
  have hrem := h.removeAt hA' rfl
  have hhead : m.head l = some x := hr.1
  rw [pop, hhead]
  refine ⟨_, rfl, ?_, ?_⟩
  · rw [apply_ite Mem.read, read_setEnd, read_write, ite_self]
    exact hrem
  · cases bs with
    | nil => simp [hnext, first, head_eq]
    | cons b bs => simp [hnext, first, head_eq]

theorem remove_spec (h : Linked shape m.read A) (hA : A l = some (as ++ elem :: bs)) :
    ∃ m', Returns m (.remove l elem) m' ∧ Linked shape m'.read (Function.update A l (some (as ++ bs))) ∧
      m'.end_ = Function.update m.end_ l (if bs = [] then shape.tail l as else m.end_ l) := by
  have hr : Runs shape m.read l (as ++ elem :: bs) := h.runs l _ hA
  have hnd := Runs.nodup hr
  rcases List.eq_nil_or_concat as with rfl | ⟨as, p, rfl⟩
  · -- the head: `A3_SLL_POP`
    have hhead : m.head l = some elem := hr.1
    obtain ⟨m', hpop, hlinked, hend⟩ := pop_spec h hA
    refine ⟨m', ⟨0, fun fuel _ => ?_⟩, hlinked, hend⟩
    rw [exec, remove, if_pos hhead, hpop]
  · rw [List.concat_eq_append, List.append_assoc] at hA hr hnd
    have hhead : m.head l ≠ some elem := by
      rw [head_eq, hr.read_first]
      cases as with
      | nil =>
        intro heq
        have heq' := Option.some.inj heq
        simp [heq'] at hnd
      | cons a as =>
        intro heq
        have heq' := Option.some.inj heq
        simp [heq'] at hnd
    have hp := (seg_append.1 hr).2
    have hnext : m.next p = some elem := hp.1
    have hnext' : m.next elem = first some bs none := hp.2.read_first
    have hloop : ∀ fuel, as.length < fuel → findLoop m elem fuel (m.read (.head l)) = .ok (some p) :=
      fun fuel hfuel => findLoop_spec fuel hfuel hr hnd
    have hA' : A l = some ((as ++ [p]) ++ elem :: bs) := by rw [List.append_assoc]; exact hA
    have hrem := h.removeAt hA' lastCell_concat
    refine ⟨if first some bs none = none then (m.write (.next p) (first some bs none)).setEnd l (.next p)
      else m.write (.next p) (first some bs none), ⟨as.length + 1, fun fuel hfuel => ?_⟩, ?_, ?_⟩
    · have hafter : (m.write (.next p) (first some bs none)).next p = first some bs none := by
        rw [next_eq, read_write, Function.update_self]
      rw [exec, remove, if_neg hhead, head_eq, hloop fuel hfuel]
      simp [bind, Except.bind, pure, Except.pure, hnext, hnext', hafter]
    · rw [apply_ite Mem.read, read_setEnd, read_write, ite_self, ← hnext', List.concat_eq_append]
      exact hrem
    · rw [List.concat_eq_append, tail_concat]
      cases bs with
      | nil => simp [first]
      | cons b bs => simp [first]

/-! ## Runs -/

/-- A call that may be made, returning, and what it is to do to the sequences. -/
def Step (s : Mem L N × Lists L N) (op : Op L N) (s' : Mem L N × Lists L N) : Prop :=
  ListStep s.2 op s'.2 ∧ Returns s.1 op s'.1

theorem step_mk (hlist : ListStep A op A') (hret : Returns m op m') : Step (m, A) op (m', A') := ⟨hlist, hret⟩

theorem returns_of (k : Nat) (h : ∀ fuel, exec (fuel + k) m op = .ok m') : Returns m op m' := by
  refine ⟨k, fun fuel hk => ?_⟩
  obtain ⟨fuel, rfl⟩ := Nat.exists_eq_add_of_le' hk
  exact h fuel

theorem Returns.unique {m'' : Mem L N} (h : Returns m op m') (h' : Returns m op m'') : m' = m'' :=
  Except.ok.inj (Fuel.unique h h')

/-- Two lists, and nothing initialised. -/
def blank : Mem Bool Nat := ⟨fun _ => none, .head, fun _ => none⟩

end A3Sll
