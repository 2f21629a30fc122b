import LibA3.Spmc.Index
import LibA3.Spmc.Invariant
import LibA3.Queue.Bounded
import LibA3.Trans
import Mathlib.Algebra.Order.Ring.Nat
import Mathlib.Tactic.Ring

/-!
# One thread and counters of `w` bits

A single thread calls `a3_spmc_try_enqueue` and `a3_spmc_try_dequeue`: each runs to its end before the next one
starts. `head` and `end` are counted modulo `2 ^ w`, and a ticket's slot, being taken by a mask, does not notice.
The capacity check does: `head + cap` wraps as soon as `2 ^ w - cap` elements have been taken out, and `end` is then
at least the sum, whatever is queued. From there on nothing is ever enqueued, so `end` itself never wraps.

* `fifo_alone_iff` — `a3_spmc_try_enqueue` is that of a FIFO exactly as long as `head + cap` does not wrap
-/

namespace A3Spmc

open Trans

variable {E : Type} {w : Nat} {q q' : Queue E} {b b' : BoundedQueue E}

/-! ## Calls without interruption -/

/-- The producer's accesses one after another, up to its return. -/
def produceAlone (wrap : Nat → Nat) : Nat → Queue E → Producer E → Queue E × Bool
  | 0, q, _ => (q, false)
  | fuel + 1, q, p =>
    match producerStep wrap q p with
    | (q', _, .enqueued _) => (q', true)
    | (q', .idle, _) => (q', false)
    | (q', p', _) => produceAlone wrap fuel q' p'

/-- A consumer's accesses one after another, up to its return. -/
def consumeAlone (wrap : Nat → Nat) : Nat → Queue E → Consumer → Queue E × Option E
  | 0, q, _ => (q, none)
  | fuel + 1, q, c =>
    match consumerStep wrap false q 0 c with
    | (q', _, .returned _ _ v) => (q', v)
    | (q', .idle, _) => (q', none)
    | (q', c', _) => consumeAlone wrap fuel q' c'

/-- `a3_spmc_try_enqueue` (`spmc.c:89`), five accesses -/
def tryEnqueue (wrap : Nat → Nat) (q : Queue E) (elem : E) : Queue E × Bool :=
  produceAlone wrap 5 q (.loadEnd false elem)

/-- `a3_spmc_try_dequeue` (`spmc.c:57`), four accesses: nobody else moves `head`, so the first exchange succeeds -/
def tryDequeue (wrap : Nat → Nat) (q : Queue E) : Queue E × Option E := consumeAlone wrap 4 q .loadEnd

theorem tryEnqueue_eq (wrap : Nat → Nat) (q : Queue E) (elem : E) : tryEnqueue wrap q elem =
    if q.end_ ≥ wrap (q.head + q.cap) then (q, false)
    else if (slot q q.end_).isSome then (q, false)
    else ({ setSlot q q.end_ (some elem) with end_ := wrap (q.end_ + 1) }, true) := by
  simp only [tryEnqueue, produceAlone, producerStep]
  by_cases hfull : q.end_ ≥ wrap (q.head + q.cap)
  · simp [hfull]
  · by_cases hslot : (slot q q.end_).isSome = true
    · simp [hfull, hslot]
    · simp [hfull, hslot, setSlot]

theorem tryDequeue_eq (wrap : Nat → Nat) (q : Queue E) : tryDequeue wrap q =
    if q.head ≥ q.end_ then (q, none)
    else (setSlot { q with head := wrap (q.head + 1) } q.head none, slot q q.head) := by
  simp only [tryDequeue, consumeAlone, consumerStep, retry]
  by_cases hempty : q.head ≥ q.end_
  · simp [hempty]
  · simp [hempty, slot, index]

/-- A call, with what it returned. -/
inductive Call (E : Type) where
  | tryEnqueue (elem : E) (ok : Bool)
  | tryDequeue (v : Option E)

/-- One call by the only thread there is. -/
def Alone (wrap : Nat → Nat) (q : Queue E) (a : Call E) (q' : Queue E) : Prop :=
  match a with
  | .tryEnqueue elem ok => A3Spmc.tryEnqueue wrap q elem = (q', ok)
  | .tryDequeue v => A3Spmc.tryDequeue wrap q = (q', v)

/-- The same call on a FIFO. -/
def FifoStep (b : BoundedQueue E) (a : Call E) (b' : BoundedQueue E) : Prop :=
  match a with
  | .tryEnqueue elem ok => (ok, b') = b.write [elem]
  | .tryDequeue v => v = b.items.head? ∧ b' = b.read 1

/-- An enqueue is made before `head + cap` wraps. -/
def Call.Early (w : Nat) (q : Queue E) : Call E → Prop
  | .tryEnqueue _ _ => q.head + q.cap < 2 ^ w
  | .tryDequeue _ => True

/-! ## What the array holds -/

/-- The queue is the FIFO `b`, and `end` has not wrapped. -/
structure Holds (w : Nat) (q : Queue E) (b : BoundedQueue E) : Prop where
  pow : ∃ k, k < w ∧ q.cap = 2 ^ k
  mask : q.mask = q.cap - 1
  length : q.data.length = q.cap
  bound : b.cap = q.cap
  count : q.end_ = q.head + b.items.length
  end_lt : q.end_ < 2 ^ w
  slots : ∀ j, j < q.cap → slot q (q.head + j) = b.items[j]?

namespace Holds

theorem cap_pos (h : Holds w q b) : 0 < q.cap := by
  obtain ⟨k, _, hk⟩ := h.pow
  rw [hk]
  exact Nat.two_pow_pos k

theorem index_eq (h : Holds w q b) (t : Nat) : index q t = t % q.cap := by
  obtain ⟨k, _, hk⟩ := h.pow
  have hmask : q.mask = 2 ^ k - 1 := by rw [h.mask, hk]
  rw [index_mod hmask, hk]

theorem index_lt (h : Holds w q b) (t : Nat) : index q t < q.data.length := by
  rw [h.index_eq, h.length]
  exact Nat.mod_lt _ h.cap_pos

/-- Tickets less than `cap` apart have different slots. -/
theorem index_inj (h : Holds w q b) (t : Nat) {i j : Nat} (hi : i < q.cap) (hj : j < q.cap)
    (heq : index q (t + i) = index q (t + j)) : i = j := by
  rw [h.index_eq, h.index_eq] at heq
  exact mod_add_inj hi hj heq

theorem items_le (h : Holds w q b) : b.items.length ≤ q.cap := h.bound ▸ b.le

/-- An element stored at `end`. -/
theorem enqueue (h : Holds w q b) (hroom : b.items.length < q.cap) (hlt : q.end_ + 1 < 2 ^ w) (elem : E) :
    Holds w { setSlot q q.end_ (some elem) with end_ := q.end_ + 1 } (b.write [elem]).2 := by
  have hfit : b.items.length + [elem].length ≤ b.cap := by rw [h.bound]; exact hroom
  obtain ⟨_, hcap, hitems⟩ := BoundedQueue.write_fits hfit
  refine ⟨h.pow, h.mask, by rw [length_setSlot]; exact h.length, hcap.trans h.bound, ?_, hlt, fun j hj => ?_⟩
  · rw [hitems, List.length_append, List.length_singleton]
    have := h.count
    simp only [setSlot]
    omega
  · have hslot : slot { setSlot q q.end_ (some elem) with end_ := q.end_ + 1 } (q.head + j) =
        slot (setSlot q q.end_ (some elem)) (q.head + j) := rfl
    have hsame : index q (q.head + j) = index q q.end_ ↔ j = b.items.length := by
      rw [h.count]
      exact ⟨h.index_inj q.head hj hroom, fun heq => by rw [heq]⟩
    simp only [setSlot] at hslot hj ⊢
    rw [hslot, ← setSlot, slot_setSlot (h.index_lt _), hitems]
    by_cases hj' : j = b.items.length
    · rw [if_pos (hsame.2 hj'), hj', List.getElem?_concat_length]
    · rw [if_neg (fun heq => hj' (hsame.1 heq)), h.slots j hj]
      by_cases hlt' : j < b.items.length
      · rw [List.getElem?_append_left hlt']
      · rw [List.getElem?_eq_none (Nat.le_of_not_lt hlt'), List.getElem?_eq_none]
        rw [List.length_append, List.length_singleton]
        omega

/-- The element at `head` taken out. -/
theorem dequeue (h : Holds w q b) (hlt : q.head < q.end_) :
    slot q q.head = b.items.head? ∧ Holds w (setSlot { q with head := q.head + 1 } q.head none) (b.read 1) := by
  have hpos := h.cap_pos
  have hcount := h.count
  have hfirst := h.slots 0 hpos
  rw [Nat.add_zero, ← List.head?_eq_getElem?] at hfirst
  refine ⟨hfirst, h.pow, h.mask, ?_, h.bound, ?_, h.end_lt, fun j hj => ?_⟩
  · rw [length_setSlot]
    exact h.length
  · simp only [setSlot, BoundedQueue.read, List.length_drop]
    omega
  · have hslot : slot (setSlot { q with head := q.head + 1 } q.head none) (q.head + 1 + j) =
        if index q (q.head + 1 + j) = index q q.head then none else slot q (q.head + 1 + j) :=
      slot_setSlot (q := { q with head := q.head + 1 }) (h.index_lt _) none _
    have hhead : (setSlot { q with head := q.head + 1 } q.head none).head = q.head + 1 := rfl
    have hj' : j < q.cap := hj
    rw [hhead, hslot, BoundedQueue.read, List.getElem?_drop, Nat.add_assoc]
    by_cases hlast : 1 + j < q.cap
    · -- another slot than that of `head`
      have hne : index q (q.head + (1 + j)) ≠ index q (q.head + 0) := by
        intro heq
        have := h.index_inj q.head hlast hpos heq
        omega
      rw [Nat.add_zero] at hne
      rw [if_neg hne, h.slots _ hlast]
    · have hwrap : 1 + j = q.cap := by omega
      have hsame : index q (q.head + (1 + j)) = index q q.head := by
        rw [h.index_eq, h.index_eq, hwrap, Nat.add_mod_right]
      have hle := h.items_le
      rw [if_pos hsame, List.getElem?_eq_none (by omega)]

end Holds

/-! ## One call -/

theorem mod_wrap {n : Nat} (hlt : n < 2 ^ w) : n % 2 ^ w = n := Nat.mod_eq_of_lt hlt

/-- `a3_spmc_try_dequeue` is right in every state. -/
theorem Holds.tryDequeue_spec (h : Holds w q b) : ∃ q', tryDequeue (· % 2 ^ w) q = (q', b.items.head?) ∧
    Holds w q' (b.read 1) ∧ q'.head = q.head + min 1 b.items.length := by
  have hcount := h.count
  have hend := h.end_lt
  rw [tryDequeue_eq]
  by_cases hempty : q.head ≥ q.end_
  · have hnil : b.items = [] := List.length_eq_zero_iff.1 (by omega)
    have hread : b.read 1 = b := by
      obtain ⟨cap, items, le⟩ := b
      simp only at hnil
      subst hnil
      rfl
    rw [if_pos hempty, hnil, hread]
    exact ⟨q, rfl, h, rfl⟩
  · obtain ⟨hfirst, h'⟩ := h.dequeue (Nat.lt_of_not_ge hempty)
    have hmin : min 1 b.items.length = 1 := by omega
    rw [if_neg hempty, mod_wrap (by omega), hfirst, hmin]
    exact ⟨_, rfl, h', rfl⟩

/-- `a3_spmc_try_enqueue` before `head + cap` wraps. -/
theorem Holds.tryEnqueue_spec (h : Holds w q b) (hearly : q.head + q.cap < 2 ^ w) (elem : E) :
    ∃ q', tryEnqueue (· % 2 ^ w) q elem = (q', (b.write [elem]).1) ∧ Holds w q' (b.write [elem]).2 ∧
      q'.head = q.head := by
  have hcount := h.count
  have hle := h.items_le
  rw [tryEnqueue_eq, mod_wrap hearly]
  by_cases hfull : q.end_ ≥ q.head + q.cap
  · have hmany : b.cap < b.items.length + [elem].length := by
      rw [h.bound, List.length_singleton]
      omega
    rw [if_pos hfull, BoundedQueue.write_full hmany]
    exact ⟨q, rfl, h, rfl⟩
  · have hroom : b.items.length < q.cap := by omega
    have hfit : b.items.length + [elem].length ≤ b.cap := by rw [h.bound]; exact hroom
    have hslot : slot q q.end_ = none := by
      rw [hcount, h.slots _ hroom, List.getElem?_eq_none (Nat.le_refl _)]
    have hend : q.end_ + 1 < 2 ^ w := by omega
    rw [if_neg hfull, hslot, mod_wrap hend, (BoundedQueue.write_fits hfit).1]
    exact ⟨_, rfl, h.enqueue hroom hend elem, rfl⟩

/-- Once `head + cap` wraps, everything is refused, and the queue is never full. -/
theorem Holds.tryEnqueue_late (h : Holds w q b) (hlate : 2 ^ w ≤ q.head + q.cap) (elem : E) :
    tryEnqueue (· % 2 ^ w) q elem = (q, false) ∧ (b.write [elem]).1 = true := by
  obtain ⟨k, hk, hcap⟩ := h.pow
  have hcount := h.count
  have hend := h.end_lt
  have hlt : q.cap < 2 ^ w := by
    rw [hcap]
    exact Nat.pow_lt_pow_right (by decide) hk
  have hfit : b.items.length + [elem].length ≤ b.cap := by
    rw [h.bound, List.length_singleton]
    omega
  have hsum : (q.head + q.cap) % 2 ^ w ≤ q.end_ := by
    rw [Nat.mod_eq_sub_mod hlate, Nat.mod_eq_of_lt (by omega)]
    omega
  rw [tryEnqueue_eq, if_pos hsum]
  exact ⟨rfl, (BoundedQueue.write_fits hfit).1⟩

/-- **Step lemma.** -/
theorem Holds.step (h : Holds w q b) {a : Call E} (hearly : a.Early w q) (hs : Alone (· % 2 ^ w) q a q') :
    ∃ b', FifoStep b a b' ∧ Holds w q' b' := by
  cases a with
  | tryEnqueue elem ok =>
    obtain ⟨q1, hq1, h', _⟩ := h.tryEnqueue_spec hearly elem
    have heq := hq1.symm.trans hs
    simp only [Prod.mk.injEq] at heq
    obtain ⟨rfl, rfl⟩ := heq
    exact ⟨_, rfl, h'⟩
  | tryDequeue v =>
    obtain ⟨q1, hq1, h', _⟩ := h.tryDequeue_spec
    have heq := hq1.symm.trans hs
    simp only [Prod.mk.injEq] at heq
    obtain ⟨rfl, rfl⟩ := heq
    exact ⟨_, ⟨rfl, rfl⟩, h'⟩

/-! ## `a3_spmc_init` -/

/-- Where the shift loses the bit, the loop goes on with 0 for ever. -/
theorem initLoop_zero {cap : Nat} (hpos : 0 < cap) : ∀ fuel, initLoop (· % 2 ^ w) fuel 0 cap = none := by
  intro fuel
  induction fuel with
  | zero => rfl
  | succ fuel ih =>
    rw [initLoop, if_pos hpos, Nat.zero_shiftLeft, Nat.zero_mod]
    exact ih

theorem initLoop_pow {cap qcap : Nat} : ∀ (fuel j : Nat), j < w → initLoop (· % 2 ^ w) fuel (2 ^ j) cap = some qcap →
    ∃ k, k < w ∧ qcap = 2 ^ k := by
  intro fuel
  induction fuel with
  | zero =>
    intro j _ h
    cases h
  | succ fuel ih =>
    intro j hj h
    rw [initLoop] at h
    split at h
    · next hlt =>
      have hdouble : 2 ^ j <<< 1 = 2 ^ (j + 1) := by rw [Nat.shiftLeft_eq, pow_one, pow_succ]
      rw [hdouble] at h
      rcases Nat.lt_or_ge (j + 1) w with hlt' | hge
      · rw [mod_wrap (Nat.pow_lt_pow_right (by decide) hlt')] at h
        exact ih (j + 1) hlt' h
      · have hw : j + 1 = w := by omega
        rw [hw, Nat.mod_self, initLoop_zero (Nat.zero_lt_of_lt hlt)] at h
        cases h
    · cases h
      exact ⟨j, hj, rfl⟩

theorem init_holds (hw : 0 < w) {cap : Nat} (hinit : init (· % 2 ^ w) cap = some q) :
    Holds w q (BoundedQueue.empty E q.cap) := by
  obtain ⟨qcap, hloop, rfl⟩ := Option.map_eq_some_iff.1 hinit
  obtain ⟨k, hk, hcap⟩ : ∃ k, k < w ∧ qcap = 2 ^ k := initLoop_pow (cap + 1) 0 hw hloop
  refine ⟨⟨k, hk, hcap⟩, rfl, List.length_replicate, rfl, rfl, Nat.two_pow_pos w, fun j _ => ?_⟩
  rw [slot, List.getD_eq_getElem?_getD, List.getElem?_replicate]
  split <;> rfl

/-! ## Runs -/

/-- Calls all of whose enqueues are early. -/
def EarlyStep (w : Nat) (q : Queue E) (a : Call E) (q' : Queue E) : Prop := a.Early w q ∧ Alone (· % 2 ^ w) q a q'

/-- **One thread's queue is a FIFO until `head + cap` wraps** (`spmc.c:57-105`). In every run from `a3_spmc_init`
whose enqueues are made before that, the queue is the FIFO of its capacity, call by call; in every state reached
the next dequeue is right, and the next enqueue is right if and only if `head + cap < 2 ^ w`. -/
theorem fifo_alone_iff (hw : 0 < w) {cap : Nat} {q0 : Queue E} (hinit : init (· % 2 ^ w) cap = some q0)
    {l : List (Call E)} {q : Queue E} (hrun : Run (EarlyStep w) q0 l q) :
    ∃ b, Run FifoStep (BoundedQueue.empty E q0.cap) l b ∧
      (tryDequeue (· % 2 ^ w) q).2 = b.items.head? ∧
      ∀ elem, (tryEnqueue (· % 2 ^ w) q elem).2 = (b.write [elem]).1 ↔ q.head + q.cap < 2 ^ w := by
  have hsim : ∀ (q : Queue E) (b : BoundedQueue E) (a : Call E) (q' : Queue E), Holds w q b → EarlyStep w q a q' →
      ∃ b', FifoStep b a b' ∧ Holds w q' b' := fun _ _ _ _ h hs => h.step hs.1 hs.2
  obtain ⟨b, hb, h⟩ := hrun.simulate hsim (init_holds hw hinit)
  refine ⟨b, hb, ?_, fun elem => ⟨fun heq => ?_, fun hearly => ?_⟩⟩
  · obtain ⟨q', hq', _⟩ := h.tryDequeue_spec
    rw [hq']
  · by_contra hlate
    obtain ⟨hno, hyes⟩ := h.tryEnqueue_late (Nat.le_of_not_lt hlate) elem
    rw [hno, hyes] at heq
    cases heq
  · obtain ⟨q', hq', _⟩ := h.tryEnqueue_spec hearly elem
    rw [hq']

/-- A queue of two slots with counters of 32 bits: 5 and 6 are put in, 7 is refused, 5 is taken out, and there is room
for 7. -/
theorem fifo_alone_iff_32 : ∃ (q0 q : Queue Nat) (b : BoundedQueue Nat), init (· % 2 ^ 32) 2 = some q0 ∧
    Run (EarlyStep 32) q0
      [.tryEnqueue 5 true, .tryEnqueue 6 true, .tryEnqueue 7 false, .tryDequeue (some 5), .tryEnqueue 7 true] q ∧
    Run FifoStep (BoundedQueue.empty Nat 2)
      [.tryEnqueue 5 true, .tryEnqueue 6 true, .tryEnqueue 7 false, .tryDequeue (some 5), .tryEnqueue 7 true] b ∧
    (tryDequeue (· % 2 ^ 32) q).2 = b.items.head? ∧ (tryDequeue (· % 2 ^ 32) q).2 = some 6 ∧
    ∀ elem, (tryEnqueue (· % 2 ^ 32) q elem).2 = (b.write [elem]).1 := by
  have hinit : init (E := Nat) (· % 2 ^ 32) 2 = some ⟨[none, none], 2, 1, 0, 0⟩ := rfl
  have h1 : EarlyStep 32 (⟨[none, none], 2, 1, 0, 0⟩ : Queue Nat) (.tryEnqueue 5 true) ⟨[some 5, none], 2, 1, 0, 1⟩ :=
    ⟨show 0 + 2 < 2 ^ 32 by decide, rfl⟩
  have h2 : EarlyStep 32 (⟨[some 5, none], 2, 1, 0, 1⟩ : Queue Nat) (.tryEnqueue 6 true)
      ⟨[some 5, some 6], 2, 1, 0, 2⟩ := ⟨show 0 + 2 < 2 ^ 32 by decide, rfl⟩
  have h3 : EarlyStep 32 (⟨[some 5, some 6], 2, 1, 0, 2⟩ : Queue Nat) (.tryEnqueue 7 false)
      ⟨[some 5, some 6], 2, 1, 0, 2⟩ := ⟨show 0 + 2 < 2 ^ 32 by decide, rfl⟩
  have h4 : EarlyStep 32 (⟨[some 5, some 6], 2, 1, 0, 2⟩ : Queue Nat) (.tryDequeue (some 5))
      ⟨[none, some 6], 2, 1, 1, 2⟩ := ⟨trivial, rfl⟩
  have h5 : EarlyStep 32 (⟨[none, some 6], 2, 1, 1, 2⟩ : Queue Nat) (.tryEnqueue 7 true)
      ⟨[some 7, some 6], 2, 1, 1, 3⟩ := ⟨show 1 + 2 < 2 ^ 32 by decide, rfl⟩
  have hrun := Run.cons h1 (.cons h2 (.cons h3 (.cons h4 (.single h5))))
  obtain ⟨b, hb, hdequeue, henqueue⟩ := fifo_alone_iff (by decide) hinit hrun
  exact ⟨_, _, b, hinit, hrun, hb, hdequeue, rfl, fun elem => (henqueue elem).2 (show 1 + 2 < 2 ^ 32 by decide)⟩

/-! ## The check that wraps -/

/-- One element put in and taken out again, over and over. -/
theorem drained_run (elem : E) {q : Queue E} (h : Holds w q (BoundedQueue.empty E q.cap)) : ∀ n : Nat,
    q.head + n + q.cap ≤ 2 ^ w → ∃ l q', Run (EarlyStep w) q l q' ∧ Holds w q' (BoundedQueue.empty E q.cap) ∧
      q'.head = q.head + n := by
  intro n
  induction n generalizing q with
  | zero =>
    intro _
    exact ⟨[], q, .nil q, h, rfl⟩
  | succ n ih =>
    intro hn
    have hearly : q.head + q.cap < 2 ^ w := by omega
    have hfit : (BoundedQueue.empty E q.cap).items.length + [elem].length ≤ (BoundedQueue.empty E q.cap).cap :=
      h.cap_pos
    obtain ⟨hok, hcap1, hitems1⟩ := BoundedQueue.write_fits hfit
    obtain ⟨q1, hq1, h1, hhead1⟩ := h.tryEnqueue_spec hearly elem
    obtain ⟨q2, hq2, h2, hhead2⟩ := h1.tryDequeue_spec
    rw [hitems1] at hhead2
    have hcap2 : q2.cap = q.cap := h2.bound.symm.trans hcap1
    have hempty : (((BoundedQueue.empty E q.cap).write [elem]).2.read 1) = BoundedQueue.empty E q2.cap := by
      rw [hcap2, BoundedQueue.write, dif_pos hfit]
      rfl
    have hsum : q2.head = q.head + 1 := hhead2.trans (by rw [hhead1]; rfl)
    rw [hempty] at h2
    obtain ⟨l, q', hrun, h', hhead'⟩ := ih h2 (by rw [hsum, hcap2]; omega)
    rw [hcap2] at h'
    have hs1 : EarlyStep w q (.tryEnqueue elem _) q1 := ⟨hearly, hq1⟩
    have hs2 : EarlyStep w q1 (.tryDequeue _) q2 := ⟨trivial, hq2⟩
    exact ⟨_, q', .cons hs1 (.cons hs2 hrun), h', by omega⟩

/-- A queue of two slots with counters of 32 bits: empty, and refusing an element. -/
theorem empty_and_full : ∃ (q0 q : Queue Nat) (l : List (Call Nat)), init (· % 2 ^ 32) 2 = some q0 ∧
    Run (EarlyStep 32) q0 l q ∧ q0.cap = 2 ∧ (tryDequeue (· % 2 ^ 32) q).2 = none ∧
    (tryEnqueue (· % 2 ^ 32) q 7).2 = false := by
  have hinit : init (E := Nat) (· % 2 ^ 32) 2 = some ⟨[none, none], 2, 1, 0, 0⟩ := rfl
  obtain ⟨l, q, hrun, h, hhead⟩ := drained_run 7 (init_holds (by decide) hinit) (2 ^ 32 - 2) (by decide)
  refine ⟨_, q, l, hinit, hrun, rfl, ?_, ?_⟩
  · obtain ⟨q', hq', _⟩ := h.tryDequeue_spec
    rw [hq']
    rfl
  · have hcap : q.cap = 2 := h.bound.symm
    have hlate : 2 ^ 32 ≤ q.head + q.cap := by
      rw [hhead, hcap]
      decide
    rw [(h.tryEnqueue_late hlate 7).1]

end A3Spmc
