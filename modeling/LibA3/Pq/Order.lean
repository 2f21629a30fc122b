import LibA3.Pq.Contents

/-!
# Is the queue a heap?

Every `A3_PQ_ENQUEUE` keeps the heap. `A3_PQ_DEQUEUE` puts the last element in place of the first and lets it sink; it
keeps the heap if and only if the element does not come to the last position that has a child, or may stay there.
-/

namespace A3Pq

open Trans BinHeap

variable {T : Type} {C : T → T → Int} {q q' : Pq T} {a : Nat → T} {item ret zero : T} {i m cap maxCap : Nat}

/-- The comparator is a total preorder. -/
structure TotalPreorder (C : T → T → Int) : Prop where
  total : ∀ x y, C x y ≤ 0 ∨ C y x ≤ 0
  trans : ∀ x y z, C x y ≤ 0 → C y z ≤ 0 → C x z ≤ 0

def AtOrBefore (C : T → T → Int) (x y : T) : Prop := C x y ≤ 0

instance (C : T → T → Int) (x y : T) : Decidable (AtOrBefore C x y) := inferInstanceAs (Decidable (C x y ≤ 0))

namespace TotalPreorder

theorem refl (hC : TotalPreorder C) (x : T) : AtOrBefore C x x := (hC.total x x).elim id id

theorem of_pos (hC : TotalPreorder C) {x y : T} (h : 0 < C x y) : AtOrBefore C y x :=
  (hC.total x y).resolve_left (Int.not_le.2 h)

end TotalPreorder

/-! ## The way down -/

theorem minPos_min (hC : TotalPreorder C) {c : Nat} (hpar : c / 2 = i) :
    AtOrBefore C (at' a (minPos C a i)) (at' a c) := by
  have hc : c = leftChild i ∨ c = leftChild i + 1 := by
    unfold leftChild
    omega
  unfold minPos
  split
  · rename_i hcmp
    rcases hc with rfl | rfl
    · exact hC.of_pos hcmp
    · exact hC.refl _
  · rename_i hcmp
    rcases hc with rfl | rfl
    · exact hC.refl _
    · exact Int.not_lt.1 hcmp

/-- The last position with a child is not on the way down from the root, or the item is at or before its children. -/
def Fits (C : T → T → Int) (a : Nat → T) (m : Nat) (item : T) : Prop :=
  OnPath (minPos C a) (m / 2) → ∀ c, c ≤ m → c / 2 = m / 2 → AtOrBefore C item (at' a c)

/-- An item that is at or before an element of the way down fits: it is at or before what is below. -/
theorem fits_of_before (hC : TotalPreorder C) (hord : Ordered (AtOrBefore C) a m) (hpath : OnPath (minPos C a) i)
    (hm : i < m / 2) (h1 : 1 ≤ i) (hle : AtOrBefore C item (at' a (minPos C a i))) : Fits C a m item := by
  intro hlast c hcm hpar
  obtain ⟨k, hk⟩ := hpath.below (fun _ => minPos_lt) hlast hm
  have hpos : 1 ≤ minPos C a i := Nat.lt_of_le_of_lt (Nat.zero_le i) (minPos_lt h1)
  have hway := hord.le_iterate (f := minPos C a) hC.refl hC.trans (fun _ => minPos_lt) (fun _ => minPos_parent) hpos k
  rw [hk] at hway
  have hway' := hway (by omega)
  have hpair := hord c (by omega) hcm
  rw [hpar] at hpair
  exact hC.trans _ _ _ hle (hC.trans _ _ _ hway' hpair)

/-- How far the loop of `A3_PQ_HEAPIFY` has come in the store `b`, `a` being the heap before its first element was
taken. -/
structure Sinking (C : T → T → Int) (a b : Nat → T) (m i : Nat) (item : T) : Prop where
  hole : DownHole (AtOrBefore C) b m i item
  same : ∀ j, i < j → at' b j = at' a j
  path : OnPath (minPos C a) i
  past : ∀ j, OnPath (minPos C a) j → j < i → j < m / 2

namespace Sinking

variable {b : Nat → T}

theorem pos (h : Sinking C a b m i item) : 1 ≤ i := by
  obtain ⟨k, rfl⟩ := h.path
  exact le_iterate (fun _ => minPos_lt) (Nat.le_refl 1) k

/-- The item is at or before the children. -/
theorem fits_of_stop (hC : TotalPreorder C) (hord : Ordered (AtOrBefore C) a m) (h : Sinking C a b m i item)
    (hm : i < m / 2) (hle : AtOrBefore C item (at' b (minPos C b i))) :
    Ordered (AtOrBefore C) (put b i item) m ↔ Fits C a m item := by
  have hall : Ordered (AtOrBefore C) (put b i item) m :=
    (h.hole.finish_iff h.pos).2 fun c _ hpar => hC.trans _ _ _ hle (minPos_min hC hpar)
  rw [minPos_congr h.same h.pos, h.same _ (minPos_lt h.pos)] at hle
  exact iff_of_true hall (fits_of_before hC hord h.path hm h.pos hle)

/-- The loop has come to `len / 2`, or past it. -/
theorem fits_of_end (h : Sinking C a b m i item) (hm : m / 2 ≤ i) :
    Ordered (AtOrBefore C) (put b i item) m ↔ Fits C a m item := by
  have hpos := h.pos
  rw [h.hole.finish_iff hpos]
  rcases Nat.lt_or_eq_of_le hm with hlt | heq
  · -- no child is left
    refine iff_of_true (fun c hcm hpar => absurd hpar (by omega)) fun hlast => ?_
    exact absurd (h.past _ hlast hlt) (Nat.lt_irrefl _)
  · constructor
    · intro hstop _ c hcm hpar
      have hc := hstop c hcm (hpar.trans heq)
      rwa [h.same c (by omega)] at hc
    · intro hfits c hcm hpar
      have hc := hfits (heq ▸ h.path) c hcm (hpar.trans heq.symm)
      rwa [h.same c (by omega)]

theorem move (hC : TotalPreorder C) (h : Sinking C a b m i item) (hm : i < m / 2)
    (hlt : 0 < C item (at' b (minPos C b i))) :
    Sinking C a (put b i (at' b (minPos C b i))) m (minPos C b i) item := by
  have hsame : minPos C b i = minPos C a i := minPos_congr h.same h.pos
  refine ⟨h.hole.move h.pos (minPos_le hm) minPos_parent (hC.of_pos hlt) fun c _ hpar => minPos_min hC hpar, ?_, ?_, ?_⟩
  · intro j hj
    have hij : i < j := Nat.lt_trans (minPos_lt h.pos) hj
    rw [at_put_ne h.pos (by omega) (by omega)]
    exact h.same j hij
  · rw [hsame]
    exact h.path.child
  · intro j hj hji
    rcases Nat.lt_trichotomy j i with hlt' | rfl | hgt
    · exact h.past j hj hlt'
    · exact hm
    · obtain ⟨k, hk⟩ := h.path.below (fun _ => minPos_lt) hj hgt
      have hpos : 1 ≤ minPos C a i := Nat.lt_of_le_of_lt (Nat.zero_le i) (minPos_lt h.pos)
      have hfar := le_iterate (f := minPos C a) (fun _ => minPos_lt) hpos k
      rw [hk, ← hsame] at hfar
      exact absurd hji (Nat.not_lt.2 hfar)

end Sinking

/-! ## One call -/

def IsHeap (C : T → T → Int) (q : Pq T) : Prop := Ordered (AtOrBefore C) q.data q.len

/-- If the last position that has a child (after the call) is on the way down from the root, the last element is at
or before its children. -/
def Keeps (C : T → T → Int) (q : Pq T) : Prop := Fits C q.data (q.len - 1) (at' q.data q.len)

/-- **`A3_PQ_ENQUEUE` keeps the heap.** With `assert` compiled in or not, it returns within `len + 1` turns of its loop, no
assertion failing, and leaves a heap of one element more: what was stored and the item. -/
theorem enqueue_heap (asserts : Bool) (hC : TotalPreorder C) (hheap : IsHeap C q) (hroom : q.len + 1 < q.cap) (item : T) :
    ∃ q', (∀ fuel, q.len + 1 ≤ fuel → enqueue asserts C fuel q item = .ok q') ∧ q'.len = q.len + 1 ∧ IsHeap C q' ∧
      stored q' = item ::ₘ stored q := by
  have hrises : Rises C (q.len + 1) item fun a i => UpHole (AtOrBefore C) a (q.len + 1) i item :=
    fun _ _ h2 hlen hcmp hhole => hhole.move hC.trans h2 hlen (hC.of_pos hcmp)
  obtain ⟨a', i', hret, h1, hhole, hstop, hitems⟩ := enqueue_spec asserts hroom hrises (Ordered.upHole hheap)
  refine ⟨_, fun fuel hfuel => hret fuel ?_, rfl, hhole.finish h1 hstop, hitems⟩
  exact Nat.lt_of_lt_of_le (Nat.log_lt_self 2 (Nat.succ_ne_zero q.len)) hfuel

/-- `A3_PQ_DEQUEUE` returns the first element, and keeps the heap if and only if `Keeps` says so. -/
theorem dequeue_keeps (hC : TotalPreorder C) (hheap : IsHeap C q) (hcap : q.len ≤ q.cap) (hpos : 0 < q.len) :
    ∃ q', (∃ k, ∀ fuel, k ≤ fuel → dequeue false C fuel q = .ok (q.data 0, q')) ∧ stored q = q.data 0 ::ₘ stored q' ∧
      (IsHeap C q' ↔ Keeps C q) := by
  have hord : Ordered (AtOrBefore C) q.data (q.len - 1) := hheap.mono (Nat.sub_le _ _)
  have hstart : Sinking C q.data (put q.data 1 (at' q.data q.len)) (q.len - 1) 1 (at' q.data q.len) :=
    { hole := hord.downHole
      same := fun j hj => at_put_ne (Nat.le_refl 1) (Nat.le_of_lt hj) (Nat.ne_of_gt hj)
      path := onPath_root
      past := fun j ⟨k, hk⟩ hj => by
        have := le_iterate (f := minPos C q.data) (fun _ => minPos_lt) (Nat.le_refl 1) k
        omega }
  have hsinks : Sinks C (q.len - 1) (at' q.data q.len) fun b i =>
      Sinking C q.data b (q.len - 1) i (at' q.data q.len) := fun _ _ hm hlt hsink => hsink.move hC hm hlt
  obtain ⟨a', i', hret, hsink, hstop, hitems⟩ := dequeue_spec hcap hpos hsinks hstart
  refine ⟨_, ⟨_, fun fuel hfuel => hret fuel (Nat.lt_of_succ_le hfuel)⟩, hitems, ?_⟩
  by_cases hm : i' < (q.len - 1) / 2
  · exact hsink.fits_of_stop hC hord hm (hstop hm)
  · exact hsink.fits_of_end (Nat.not_lt.1 hm)

/-! ## Runs -/

/-- A call that keeps the heap. -/
def KeepStep (C : T → T → Int) (q : Pq T) (op : Op T) (q' : Pq T) : Prop :=
  Step C q op q' ∧ ∀ ret, op = .dequeue ret → Keeps C q

theorem step_heap {op : Op T} (hC : TotalPreorder C) (hheap : IsHeap C q) (hcap : q.len ≤ q.cap) (h : KeepStep C q op q') :
    IsHeap C q' := by
  obtain ⟨hstep, hkeep⟩ := h
  cases hstep with
  | enqueue item _ k hroom hret =>
    obtain ⟨q1, hret1, _, hheap', _⟩ := enqueue_heap false hC hheap hroom item
    rw [Except.ok.inj (Fuel.unique ⟨k, hret⟩ ⟨_, hret1⟩)]
    exact hheap'
  | dequeue ret _ k hpos hret =>
    obtain ⟨q1, hret1, _, hiff⟩ := dequeue_keeps hC hheap hcap hpos
    obtain ⟨_, rfl⟩ := Prod.mk.inj (Except.ok.inj (Fuel.unique ⟨k, hret⟩ hret1))
    exact hiff.2 (hkeep ret rfl)

theorem heap_run (hC : TotalPreorder C) {calls : List (Op T)} (h : Run (KeepStep C) (init zero cap maxCap) calls q) :
    q.len ≤ q.cap ∧ IsHeap C q := by
  have hinit : (init zero cap maxCap).len ≤ (init zero cap maxCap).cap ∧ IsHeap C (init zero cap maxCap) :=
    ⟨Nat.zero_le _, fun i h2 hi => absurd hi (by simp only [init]; omega)⟩
  refine h.invariant (P := fun q => q.len ≤ q.cap ∧ IsHeap C q) ?_ hinit
  rintro q op q' ⟨hcap, hheap⟩ hstep
  exact ⟨(step_ledger hcap hstep.1).2.1, step_heap hC hheap hcap hstep⟩

/-- **The queue is a heap as long as every `A3_PQ_DEQUEUE` keeps it.** In such a run what is stored is what was
enqueued and not dequeued, `A3_PQ_PEEK` and `A3_PQ_DEQUEUE` yield a minimal element, every further call returns, and a
further `A3_PQ_DEQUEUE` keeps the heap if and only if `Keeps` says so. -/
theorem heap_kept_iff (hC : TotalPreorder C) {calls : List (Op T)} (h : Run (KeepStep C) (init zero cap maxCap) calls q) :
    IsHeap C q ∧ enqueued calls = dequeued calls + stored q ∧
    (q.len + 1 < q.cap → ∀ item, ∃ q', Step C q (.enqueue item) q' ∧ IsHeap C q') ∧
    (0 < q.len → ∃ ret q', peek q = some ret ∧ ret ∈ stored q ∧ (∀ y ∈ stored q, C ret y ≤ 0) ∧
      Step C q (.dequeue ret) q' ∧ stored q = ret ::ₘ stored q' ∧ (IsHeap C q' ↔ Keeps C q)) := by
  obtain ⟨hcap, hheap⟩ := heap_run hC h
  obtain ⟨_, _, hledger⟩ := ledger_run (h.mono fun _ _ _ hstep => hstep.1)
  refine ⟨hheap, hledger, fun hroom item => ?_, fun hpos => ?_⟩
  · obtain ⟨q', hret, _, hheap', _⟩ := enqueue_heap false hC hheap hroom item
    exact ⟨q', .enqueue item q' _ hroom hret, hheap'⟩
  · obtain ⟨q', ⟨k, hret⟩, hstored, hiff⟩ := dequeue_keeps hC hheap hcap hpos
    refine ⟨q.data 0, q', if_neg (Nat.ne_of_gt hpos), ?_, ?_, .dequeue _ q' k hpos hret, hstored, hiff⟩
    · rw [hstored]
      exact Multiset.mem_cons_self _ _
    · exact fun y hy => hheap.first_le_items hC.refl hC.trans hy

/-! The order of the integers. -/

def cmp (x y : Int) : Int := x - y

theorem cmp_totalPreorder : TotalPreorder cmp :=
  { total := fun x y => by simp only [cmp]; omega
    trans := fun x y z h h' => by simp only [cmp] at h h' ⊢; omega }

theorem heap_kept_iff_two : ∃ q : Pq Int, stored q = {2, 2} ∧
    IsHeap cmp q ∧ enqueued [.enqueue 1, .enqueue 2, .enqueue 2, .dequeue 1] =
      dequeued [.enqueue 1, .enqueue 2, .enqueue 2, .dequeue 1] + stored q ∧
    (q.len + 1 < q.cap → ∀ item, ∃ q', Step cmp q (.enqueue item) q' ∧ IsHeap cmp q') ∧
    (0 < q.len → ∃ ret q', peek q = some ret ∧ ret ∈ stored q ∧ (∀ y ∈ stored q, cmp ret y ≤ 0) ∧
      Step cmp q (.dequeue ret) q' ∧ stored q = ret ::ₘ stored q' ∧ (IsHeap cmp q' ↔ Keeps cmp q)) := by
  have h : Run (KeepStep cmp) (init 0 8 8) [.enqueue 1, .enqueue 2, .enqueue 2, .dequeue 1] _ :=
    .cons ⟨.enqueue _ _ 1 (by decide) (Fuel.from_add 1 fun _ => rfl), fun _ h => nomatch h⟩ <|
    .cons ⟨.enqueue _ _ 1 (by decide) (Fuel.from_add 1 fun _ => rfl), fun _ h => nomatch h⟩ <|
    .cons ⟨.enqueue _ _ 1 (by decide) (Fuel.from_add 1 fun _ => rfl), fun _ h => nomatch h⟩ <|
    .cons ⟨.dequeue _ _ 1 (by decide) (Fuel.from_add 1 fun _ => rfl), fun _ _ => by
      intro _ c hc hpar
      have hc2 : c ≤ 2 := hc
      have hpar1 : c / 2 = 1 := hpar
      obtain rfl : c = 2 := by omega
      decide⟩ <| .nil _
  exact ⟨_, rfl, heap_kept_iff cmp_totalPreorder h⟩

/-- An item that comes to the root of a heap of five. -/
theorem enqueue_heap_five :
    ∃ q', (∀ fuel, 6 ≤ fuel → enqueue true cmp fuel ⟨fun k => [3, 5, 4, 9, 5, 0, 0].getD k 0, 5, 7, 7⟩ 1 = .ok q') ∧
      q'.len = 6 ∧ IsHeap cmp q' ∧ stored q' = 1 ::ₘ {3, 5, 4, 9, 5} := by
  have hheap : IsHeap cmp ⟨fun k => [3, 5, 4, 9, 5, 0, 0].getD k 0, 5, 7, 7⟩ := by
    intro i h2 him
    have him5 : i ≤ 5 := him
    obtain rfl | rfl | rfl | rfl : i = 2 ∨ i = 3 ∨ i = 4 ∨ i = 5 := by omega
    all_goals decide
  exact enqueue_heap true cmp_totalPreorder hheap (by decide) 1

theorem dequeue_disorders : ∃ q, Run (Step cmp) (init 0 5 5) [.enqueue 1, .enqueue 2, .enqueue 3, .dequeue 1] q ∧
    peek q = some 3 ∧ stored q = {2, 3} ∧ ¬IsHeap cmp q := by
  have h : Run (Step cmp) (init 0 5 5) [.enqueue 1, .enqueue 2, .enqueue 3, .dequeue 1] _ :=
    .cons (.enqueue _ _ 1 (by decide) (Fuel.from_add 1 fun _ => rfl)) <|
    .cons (.enqueue _ _ 1 (by decide) (Fuel.from_add 1 fun _ => rfl)) <|
    .cons (.enqueue _ _ 1 (by decide) (Fuel.from_add 1 fun _ => rfl)) <|
    .cons (.dequeue _ _ 1 (by decide) (Fuel.from_add 1 fun _ => rfl)) <| .nil _
  refine ⟨_, h, rfl, by decide, fun hheap => absurd (hheap 2 (by decide) (by decide)) (by decide)⟩

end A3Pq
