import LibA3.Spmc.Invariant
import Mathlib.Algebra.Order.Ring.Nat
import Mathlib.Tactic.Ring

/-!
# Tickets are served in order

`a3_spmc_init` establishes the queue invariant and every access of every thread keeps it; each event a run
shows is correct for the elements enqueued so far. The counters are unbounded here (`wrap := id`).

* `fifo` — the queue over every interleaving
-/

namespace A3Spmc

variable {E : Type} {s s' : State E} {elems : List E} {done : List Nat}

/-! ## `a3_spmc_init` -/

theorem initLoop_spec (cap : Nat) : ∀ (fuel qcap : Nat), 0 < qcap → 0 < fuel → cap < qcap + fuel →
    ∃ k, initLoop id fuel qcap cap = some (qcap * 2 ^ k) ∧ cap ≤ qcap * 2 ^ k := by
  intro fuel
  induction fuel with
  | zero => intro qcap _ h; exact absurd h (Nat.lt_irrefl 0)
  | succ fuel ih =>
    intro qcap hpos _ hcap
    rw [initLoop]
    split
    · next hlt =>
      have hdouble : id (qcap <<< 1) = qcap * 2 := by simp [Nat.shiftLeft_eq]
      obtain ⟨k, hk, hle⟩ := ih (qcap * 2) (by omega) (by omega) (by omega)
      refine ⟨k + 1, ?_, ?_⟩
      · rw [hdouble, hk, pow_succ, Nat.mul_assoc, Nat.mul_comm 2]
      · rw [pow_succ, Nat.mul_comm (2 ^ k), ← Nat.mul_assoc]; exact hle
    · next hge =>
      refine ⟨0, by simp, ?_⟩
      simpa using Nat.le_of_not_lt hge

/-- `a3_spmc_init` (`spmc.c:19`): the capacity is a power of two, at least the one asked for, and the queue is empty. -/
theorem init_spec (cap : Nat) : ∃ k, cap ≤ 2 ^ k ∧ init id cap =
    some (⟨List.replicate (2 ^ k) (none : Option E), 2 ^ k, 2 ^ k - 1, 0, 0⟩ : Queue E) := by
  obtain ⟨k, hk, hle⟩ := initLoop_spec cap (cap + 1) 1 Nat.one_pos (Nat.succ_pos _) (by omega)
  rw [Nat.one_mul] at hk hle
  refine ⟨k, hle, ?_⟩
  rw [init, hk]
  rfl

theorem Inv.start (k : Nat) :
    Inv (start (⟨List.replicate (2 ^ k) none, 2 ^ k, 2 ^ k - 1, 0, 0⟩ : Queue E)) [] [] where
  index_lt t := by
    have hle : t &&& (2 ^ k - 1) ≤ 2 ^ k - 1 := Nat.and_le_right
    have hpos : 0 < 2 ^ k := Nat.two_pow_pos k
    rw [A3Spmc.start, List.length_replicate]
    exact Nat.lt_of_le_of_lt hle (Nat.sub_lt hpos Nat.one_pos)
  count := rfl
  room := Nat.zero_le _
  tickets := by
    refine ⟨fun t => ?_, ?_, ?_, List.nodup_nil, ?_⟩
    · constructor
      · intro h; exact absurd h (Nat.not_lt_zero t)
      · rintro (h | ⟨c, h⟩) <;> cases h
    · intro c c' t h; cases h
    · intro c t h; cases h
    · intro t h; cases h
  slots := by
    refine ⟨fun t e h => ?_, fun i e h => ?_, fun t t' e e' h => ?_⟩
    · rcases h with ⟨_, h⟩ | ⟨_, h⟩ <;> cases h
    · rw [A3Spmc.start, List.getElem?_replicate] at h
      split at h <;> cases h
    · rcases h with ⟨_, h⟩ | ⟨_, h⟩ <;> cases h
  producer := trivial
  consumer _ := trivial

/-! ## One step -/

/-- What an event promises, given the elements enqueued so far. -/
def Event.Correct (elems : List E) : Event E → Prop
  | .stored old _ => old = none
  | .returned _ ticket v => ∃ e, v = some e ∧ elems[ticket]? = some e
  | _ => True

theorem Event.Correct.mono {a : Event E} (h : a.Correct elems) (more : List E) : a.Correct (elems ++ more) := by
  cases a with
  | returned c ticket v =>
    obtain ⟨e, hv, he⟩ := h
    refine ⟨e, hv, ?_⟩
    rw [List.getElem?_append_left (List.getElem?_eq_some_iff.1 he).1]
    exact he
  | stored old elem => exact h
  | enqueued elem => trivial
  | internal => trivial

/-- `a` is a correct event after which the invariant holds in `s'`. -/
def Keeps (elems : List E) (done : List Nat) (a : Event E) (s' : State E) : Prop :=
  a.Correct elems ∧ Inv s' (elems ++ a.element.toList) (done ++ a.ticket.toList)

theorem Inv.internal (i : Inv s elems done) : Keeps elems done .internal s := by
  refine ⟨trivial, ?_⟩
  have h1 : elems ++ (Event.internal : Event E).element.toList = elems := List.append_nil elems
  have h2 : done ++ (Event.internal : Event E).ticket.toList = done := List.append_nil done
  rw [h1, h2]
  exact i

theorem Inv.producerStep (i : Inv s elems done) :
    Keeps elems done (producerStep id s.q s.producer).2.2
      { s with q := (producerStep id s.q s.producer).1, producer := (producerStep id s.q s.producer).2.1 } := by
  have hview := i.producer
  cases hp : s.producer with
  | idle => exact (i.moveProducer .idle (by rw [hp]) trivial).internal
  | loadEnd blocking elem =>
    exact (i.moveProducer (.loadHead blocking elem s.q.end_) (by rw [hp]; rfl) rfl).internal
  | loadHead blocking elem end_ =>
    rw [hp] at hview
    rw [A3Spmc.producerStep]
    split
    · cases blocking with
      | true => exact (i.moveProducer (.loadHead true elem end_) (by rw [hp]) hview).internal
      | false => exact (i.moveProducer .idle (by rw [hp]; rfl) trivial).internal
    · next hge =>
      have hlt : end_ < s.q.head + s.q.cap := Nat.lt_of_not_ge hge
      exact (i.moveProducer (.loadSlot blocking elem end_) (by rw [hp]; rfl) ⟨hview, hlt⟩).internal
  | loadSlot blocking elem end_ =>
    rw [hp] at hview
    rw [A3Spmc.producerStep]
    split
    · cases blocking with
      | true => exact (i.moveProducer (.loadSlot true elem end_) (by rw [hp]) hview).internal
      | false => exact (i.moveProducer .idle (by rw [hp]; rfl) trivial).internal
    · next hsome =>
      have hempty : slot s.q end_ = none := Option.not_isSome_iff_eq_none.1 hsome
      exact (i.moveProducer (.store elem end_) (by rw [hp]; rfl) ⟨hview.1, hview.2, hempty⟩).internal
  | store elem end_ =>
    obtain ⟨hempty, hinv⟩ := i.store hp
    refine ⟨hempty, ?_⟩
    simpa [A3Spmc.producerStep, Event.element, Event.ticket] using hinv
  | fetchAdd elem end_ =>
    refine ⟨trivial, ?_⟩
    simpa [A3Spmc.producerStep, Event.element, Event.ticket] using i.publish hp

/-- The next try of `a3_spmc_try_dequeue` is against an `end` that was read, and below it. -/
theorem retry_view {q : Queue E} {end_ : Nat} (h : end_ ≤ q.end_) (head i : Nat) :
    (retry end_ head i).ticket = none ∧ (retry end_ head i).View q := by
  rw [retry]
  split
  · split
    · exact ⟨rfl, trivial⟩
    · next hge => exact ⟨rfl, h, Nat.lt_of_not_ge hge⟩
  · exact ⟨rfl, trivial⟩

theorem Inv.consumerStep (i : Inv s elems done) (split : Bool) (c : Nat) :
    Keeps elems done (consumerStep id split s.q c (s.consumer c)).2.2
      { s with
        q := (consumerStep id split s.q c (s.consumer c)).1
        consumer := Function.update s.consumer c (consumerStep id split s.q c (s.consumer c)).2.1 } := by
  have hview := i.consumer c
  cases hc : s.consumer c with
  | idle => exact (i.moveConsumer c .idle (by rw [hc]) trivial).internal
  | loadEnd =>
    exact (i.moveConsumer c (.loadHead s.q.end_) (by rw [hc]; rfl) (Nat.le_refl _)).internal
  | loadHead end_ =>
    rw [hc] at hview
    obtain ⟨ht, hv⟩ := retry_view hview s.q.head 0
    exact (i.moveConsumer c _ (by rw [ht, hc]; rfl) hv).internal
  | compareExchange end_ head n =>
    rw [hc] at hview
    rw [A3Spmc.consumerStep]
    split
    · next hhead =>
      subst hhead
      have hlt : s.q.head < s.q.end_ := Nat.lt_of_lt_of_le hview.2 hview.1
      exact (i.issue c (.exchange s.q.head) (by rw [hc]; rfl) rfl hlt).internal
    · cases split with
      | true => exact (i.moveConsumer c (.reload end_ n) (by rw [hc]; rfl) hview.1).internal
      | false =>
        obtain ⟨ht, hv⟩ := retry_view hview.1 s.q.head (n + 1)
        exact (i.moveConsumer c _ (by rw [ht, hc]; rfl) hv).internal
  | reload end_ n =>
    rw [hc] at hview
    obtain ⟨ht, hv⟩ := retry_view hview s.q.head (n + 1)
    exact (i.moveConsumer c _ (by rw [ht, hc]; rfl) hv).internal
  | fetchAdd => exact (i.issue c (.await s.q.head) (by rw [hc]; rfl) rfl trivial).internal
  | await head =>
    rw [A3Spmc.consumerStep]
    simp only
    split
    · exact (i.moveConsumer c (.await head) (by rw [hc]) trivial).internal
    · next hge =>
      exact (i.moveConsumer c (.exchange head) (by rw [hc]; rfl) (Nat.lt_of_not_ge hge)).internal
  | exchange head =>
    obtain ⟨⟨e, hslot, he⟩, hinv⟩ := i.exchange hc
    refine ⟨⟨e, hslot, he⟩, ?_⟩
    simpa [A3Spmc.consumerStep, Event.element, Event.ticket] using hinv

/-- **Step lemma.** -/
theorem Inv.step {a : Event E} (i : Inv s elems done) (h : Step id s a s') : Keeps elems done a s' := by
  cases h with
  | enqueue blocking elem hidle =>
    exact (i.moveProducer (.loadEnd blocking elem) (by rw [hidle]; rfl) trivial).internal
  | producer => exact i.producerStep
  | dequeue c blocking hidle =>
    cases blocking with
    | true => exact (i.moveConsumer c .fetchAdd (by rw [hidle]; rfl) trivial).internal
    | false => exact (i.moveConsumer c .loadEnd (by rw [hidle]; rfl) trivial).internal
  | consumer c split => exact i.consumerStep split c

/-! ## Runs -/

theorem enqueued_append (l : List (Event E)) (a : Event E) :
    enqueued (l ++ [a]) = enqueued l ++ a.element.toList := by
  rw [enqueued, List.filterMap_append]
  cases h : a.element <;> simp [enqueued, h]

theorem returned_append (l : List (Event E)) (a : Event E) :
    returned (l ++ [a]) = returned l ++ a.ticket.toList := by
  rw [returned, List.filterMap_append]
  cases h : a.ticket <;> simp [returned, h]

/-- **Run lemma.** -/
theorem run_inv {q : Queue E} {l : List (Event E)} (h : Trans.Run (Step id) (start q) l s) (hq : Inv (start q) [] []) :
    Inv s (enqueued l) (returned l) ∧ ∀ a ∈ l, a.Correct (enqueued l) := by
  have hstep : ∀ (s : State E) (l : List (Event E)) (a : Event E) (s' : State E),
      (Inv s (enqueued l) (returned l) ∧ ∀ b ∈ l, b.Correct (enqueued l)) → Step id s a s' →
      Inv s' (enqueued (l ++ [a])) (returned (l ++ [a])) ∧ ∀ b ∈ l ++ [a], b.Correct (enqueued (l ++ [a])) := by
    rintro s l a s' ⟨i, hall⟩ hs
    obtain ⟨ha, hinv⟩ := i.step hs
    rw [enqueued_append, returned_append]
    refine ⟨hinv, fun b hb => ?_⟩
    rcases List.mem_append.1 hb with hold | hnew
    · exact (hall b hold).mono _
    · rw [List.mem_singleton.1 hnew]
      exact ha.mono _
  have h0 : Inv (start q) (enqueued ([] : List (Event E))) (returned ([] : List (Event E))) ∧
      ∀ a ∈ ([] : List (Event E)), a.Correct (enqueued ([] : List (Event E))) :=
    ⟨hq, fun a ha => by cases ha⟩
  have := h.invariant_trace (P := fun s l => Inv s (enqueued l) (returned l) ∧ ∀ a ∈ l, a.Correct (enqueued l))
    hstep h0
  rwa [List.nil_append] at this

/-! ## The queue over every interleaving -/

/-- The array of a queue in which no call is in progress: the elements of the tickets `head .. end - 1`, each in
its own slot, and nothing else. -/
structure Settled (q : Queue E) (elems : List E) : Prop where
  head_le : q.head ≤ q.end_
  count : q.end_ = elems.length
  room : q.end_ ≤ q.head + q.cap
  slots : ∀ i e, q.data[i]? = some (some e) ↔
    ∃ t, q.head ≤ t ∧ t < q.end_ ∧ index q t = i ∧ elems[t]? = some e
  inj : ∀ t t', q.head ≤ t → t < q.end_ → q.head ≤ t' → t' < q.end_ → index q t = index q t' → t = t'

theorem Inv.settled (i : Inv s elems done) (h : Quiescent s) : Settled s.q elems := by
  obtain ⟨hprod, hcons⟩ := h
  have hnone : ∀ c, holds s c = none := fun c => by rw [holds, hcons c]; rfl
  obtain ⟨hle, hdone⟩ := i.tickets.head_le hnone
  have hpend : ∀ t e, Pending s elems done t e ↔ s.q.head ≤ t ∧ t < s.q.end_ ∧ elems[t]? = some e := by
    intro t e
    have hidle : s.producer.unpublished = none := by rw [hprod]; rfl
    have hlen : elems[t]? = some e → t < s.q.end_ := fun he => by
      rw [i.count]; exact (List.getElem?_eq_some_iff.1 he).1
    rw [Pending, hidle, ← hdone, Nat.not_lt]
    constructor
    · rintro (⟨hge, he⟩ | ⟨_, hu⟩)
      · exact ⟨hge, hlen he, he⟩
      · cases hu
    · rintro ⟨hge, _, he⟩
      exact Or.inl ⟨hge, he⟩
  refine ⟨hle, i.count, i.room, fun k e => ⟨fun hk => ?_, ?_⟩, fun t t' ht htl ht' htl' heq => ?_⟩
  · obtain ⟨t, ht, hidx⟩ := i.slots.of_slot k e hk
    obtain ⟨hge, hlt, he⟩ := (hpend t e).1 ht
    exact ⟨t, hge, hlt, hidx, he⟩
  · rintro ⟨t, hge, hlt, rfl, he⟩
    have hslot := i.slots.slot_of t e ((hpend t e).2 ⟨hge, hlt, he⟩)
    rw [slot, List.getD_eq_getElem?_getD, List.getElem?_eq_getElem (i.index_lt t), Option.getD_some] at hslot
    rw [List.getElem?_eq_getElem (i.index_lt t), hslot]
  · have hget : ∀ t, t < s.q.end_ → ∃ e, elems[t]? = some e := fun t ht =>
      ⟨_, List.getElem?_eq_getElem (by rw [← i.count]; exact ht)⟩
    obtain ⟨e, he⟩ := hget t htl
    obtain ⟨e', he'⟩ := hget t' htl'
    exact i.slots.inj t t' e e' ((hpend t e).2 ⟨ht, htl, he⟩) ((hpend t' e').2 ⟨ht', htl', he'⟩) heq

/-- **The SPMC queue** (`spmc.c:57-120`). From `a3_spmc_init` with any requested capacity, in every interleaving
of the producer with any number of consumers: a consumer that obtained ticket `t` returns the `t`-th element
enqueued and not `NULL`, no ticket is returned with twice, the producer stores into empty slots only, and
whenever no call is in progress the array holds the elements of the tickets `head .. end - 1`. -/
theorem fifo (cap : Nat) : ∃ q : Queue E, init id cap = some q ∧ cap ≤ q.cap ∧
    ∀ (l : List (Event E)) (s : State E), Trans.Run (Step id) (start q) l s →
      (∀ c t v, Event.returned c t v ∈ l → ∃ e, v = some e ∧ (enqueued l)[t]? = some e) ∧
      (returned l).Nodup ∧
      (∀ old e, Event.stored old e ∈ l → old = none) ∧
      (Quiescent s → Settled s.q (enqueued l)) := by
  obtain ⟨k, hle, hinit⟩ := init_spec (E := E) cap
  refine ⟨_, hinit, hle, fun l s hrun => ?_⟩
  obtain ⟨hinv, hall⟩ := run_inv hrun (Inv.start k)
  refine ⟨fun c t v h => hall _ h, hinv.tickets.nodup, fun old e h => hall _ h, hinv.settled⟩

end A3Spmc
