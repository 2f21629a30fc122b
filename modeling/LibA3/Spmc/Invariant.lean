import LibA3.Spmc.Basic
import Mathlib.Data.List.Nodup

/-!
# The queue invariant

Two bookkeepings that do not know about each other, and what the threads' local variables say.

`Tickets`: the numbers below `head` have been given out, each to one consumer, which still holds it or has
returned with it. `Slots`: the array holds exactly the elements of the pending tickets, each in the slot of
its ticket, no two in one slot; it says nothing about how tickets are mapped to slots. A ticket is pending
(`Pending`) from the store of its element until a consumer has exchanged it for `NULL`, which may be long
after `head` has passed it.

`Consumer.View`, `Producer.View`: an `end` once read is a lower bound of `end`, and for the producer `end`
itself; a check of the producer against `head` stays true, because `head` only grows, and one for `NULL`
stays true, because only the producer stores anything else.
-/

namespace A3Spmc

variable {E : Type}

/-! ## Tickets -/

/-- Tickets given out up to `head`, held by consumers (`holds`) or done with. -/
structure Tickets (head end_ : Nat) (holds : Nat → Option Nat) (done : List Nat) : Prop where
  issued : ∀ t, t < head ↔ t ∈ done ∨ ∃ c, holds c = some t
  holder : ∀ c c' t, holds c = some t → holds c' = some t → c = c'
  not_done : ∀ c t, holds c = some t → t ∉ done
  nodup : done.Nodup
  published : ∀ t ∈ done, t < end_

namespace Tickets

variable {head end_ : Nat} {holds : Nat → Option Nat} {done : List Nat}

/-- The next ticket goes to a consumer that holds none. -/
theorem issue (h : Tickets head end_ holds done) {c : Nat} (hc : holds c = none) :
    Tickets (head + 1) end_ (Function.update holds c (some head)) done := by
  have hfresh : ∀ c', holds c' ≠ some head := fun c' hc' =>
    Nat.lt_irrefl head ((h.issued head).2 (Or.inr ⟨c', hc'⟩))
  have hupd : ∀ c' t, Function.update holds c (some head) c' = some t →
      (c' = c ∧ t = head) ∨ (c' ≠ c ∧ holds c' = some t) := by
    intro c' t ht
    by_cases hcc : c' = c
    · subst hcc
      rw [Function.update_self] at ht
      exact Or.inl ⟨rfl, (Option.some.inj ht).symm⟩
    · rw [Function.update_of_ne hcc] at ht
      exact Or.inr ⟨hcc, ht⟩
  refine ⟨fun t => ?_, fun c1 c2 t h1 h2 => ?_, fun c1 t h1 => ?_, h.nodup, h.published⟩
  · constructor
    · intro ht
      rcases Nat.lt_succ_iff_lt_or_eq.1 ht with hlt | heq
      · rcases (h.issued t).1 hlt with hd | ⟨c', hc'⟩
        · exact Or.inl hd
        · have hcc : c' ≠ c := fun e => by rw [e, hc] at hc'; cases hc'
          exact Or.inr ⟨c', by rw [Function.update_of_ne hcc]; exact hc'⟩
      · exact Or.inr ⟨c, by rw [Function.update_self, heq]⟩
    · rintro (hd | ⟨c', hc'⟩)
      · exact Nat.lt_succ_of_lt ((h.issued t).2 (Or.inl hd))
      · rcases hupd c' t hc' with ⟨_, rfl⟩ | ⟨_, hold⟩
        · exact Nat.lt_succ_self _
        · exact Nat.lt_succ_of_lt ((h.issued t).2 (Or.inr ⟨c', hold⟩))
  · rcases hupd c1 t h1 with ⟨e1, ht1⟩ | ⟨_, hold1⟩ <;> rcases hupd c2 t h2 with ⟨e2, ht2⟩ | ⟨_, hold2⟩
    · rw [e1, e2]
    · exact absurd (ht1 ▸ hold2) (hfresh c2)
    · exact absurd (ht2 ▸ hold1) (hfresh c1)
    · exact h.holder c1 c2 t hold1 hold2
  · rcases hupd c1 t h1 with ⟨_, rfl⟩ | ⟨_, hold⟩
    · exact fun hd => Nat.lt_irrefl _ ((h.issued _).2 (Or.inl hd))
    · exact h.not_done c1 t hold

/-- A consumer returns with its ticket. -/
theorem finish (h : Tickets head end_ holds done) {c t : Nat} (hc : holds c = some t) (ht : t < end_) :
    Tickets head end_ (Function.update holds c none) (done ++ [t]) := by
  have hupd : ∀ c' t', Function.update holds c none c' = some t' → c' ≠ c ∧ holds c' = some t' := by
    intro c' t' h'
    by_cases hcc : c' = c
    · subst hcc
      rw [Function.update_self] at h'
      cases h'
    · rw [Function.update_of_ne hcc] at h'
      exact ⟨hcc, h'⟩
  refine ⟨fun t' => ?_, fun c1 c2 t' h1 h2 => ?_, fun c1 t' h1 => ?_, ?_, fun t' ht' => ?_⟩
  · rw [h.issued, List.mem_append, List.mem_singleton]
    constructor
    · rintro (hd | ⟨c', hc'⟩)
      · exact Or.inl (Or.inl hd)
      · by_cases hcc : c' = c
        · rw [hcc, hc] at hc'
          exact Or.inl (Or.inr (Option.some.inj hc').symm)
        · exact Or.inr ⟨c', by rw [Function.update_of_ne hcc]; exact hc'⟩
    · rintro ((hd | rfl) | ⟨c', hc'⟩)
      · exact Or.inl hd
      · exact Or.inr ⟨c, hc⟩
      · exact Or.inr ⟨c', (hupd c' t' hc').2⟩
  · exact h.holder c1 c2 t' (hupd c1 t' h1).2 (hupd c2 t' h2).2
  · obtain ⟨hne, hold⟩ := hupd c1 t' h1
    rw [List.mem_append, List.mem_singleton]
    rintro (hd | rfl)
    · exact h.not_done c1 t' hold hd
    · exact hne (h.holder c1 c t' hold hc)
  · rw [List.nodup_append]
    refine ⟨h.nodup, List.nodup_singleton t, fun a ha b hb hab => ?_⟩
    rw [List.mem_singleton] at hb
    exact h.not_done c t hc (by rw [← hb, ← hab]; exact ha)
  · rcases List.mem_append.1 ht' with hd | hs
    · exact h.published t' hd
    · rw [List.mem_singleton.1 hs]; exact ht

/-- `end` moves on. -/
theorem publish (h : Tickets head end_ holds done) : Tickets head (end_ + 1) holds done :=
  ⟨h.issued, h.holder, h.not_done, h.nodup, fun t ht => Nat.lt_succ_of_lt (h.published t ht)⟩

/-- With no ticket held, the ones given out are the ones done with, and they are published. -/
theorem head_le (h : Tickets head end_ holds done) (hnone : ∀ c, holds c = none) :
    head ≤ end_ ∧ ∀ t, t < head ↔ t ∈ done := by
  have hiff : ∀ t, t < head ↔ t ∈ done := by
    intro t
    rw [h.issued]
    constructor
    · rintro (hd | ⟨c, hc⟩)
      · exact hd
      · rw [hnone] at hc; cases hc
    · exact Or.inl
  refine ⟨Nat.le_of_not_lt fun hlt => ?_, hiff⟩
  exact Nat.lt_irrefl _ (h.published end_ ((hiff end_).1 hlt))

end Tickets

/-! ## Slots -/

@[simp] theorem index_setSlot (q : Queue E) (t t' : Nat) (v : Option E) : index (setSlot q t v) t' = index q t' := rfl

theorem data_setSlot (q : Queue E) (t : Nat) (v : Option E) :
    (setSlot q t v).data = q.data.set (index q t) v := rfl

@[simp] theorem length_setSlot (q : Queue E) (t : Nat) (v : Option E) :
    (setSlot q t v).data.length = q.data.length := by
  rw [data_setSlot, List.length_set]

theorem slot_setSlot {q : Queue E} {t : Nat} (hlt : index q t < q.data.length) (v : Option E) (t' : Nat) :
    slot (setSlot q t v) t' = if index q t' = index q t then v else slot q t' := by
  rw [slot, slot, index_setSlot, data_setSlot, List.getD_eq_getElem?_getD, List.getD_eq_getElem?_getD,
    List.getElem?_set]
  by_cases h : index q t' = index q t
  · simp [h, hlt]
  · simp [h, Ne.symm h]

theorem getElem?_setSlot {q : Queue E} {t : Nat} {v : Option E} {i : Nat} {e : E}
    (h : (setSlot q t v).data[i]? = some (some e)) :
    (i = index q t ∧ v = some e) ∨ (i ≠ index q t ∧ q.data[i]? = some (some e)) := by
  simp only [setSlot, List.getElem?_set] at h
  by_cases hi : index q t = i
  · rw [if_pos hi] at h
    split at h
    · exact Or.inl ⟨hi.symm, Option.some.inj h⟩
    · cases h
  · rw [if_neg hi] at h
    exact Or.inr ⟨Ne.symm hi, h⟩

/-- The array holds the elements of the pending tickets and nothing else. -/
structure Slots (q : Queue E) (pending : Nat → E → Prop) : Prop where
  slot_of : ∀ t e, pending t e → slot q t = some e
  of_slot : ∀ i e, q.data[i]? = some (some e) → ∃ t, pending t e ∧ index q t = i
  inj : ∀ t t' e e', pending t e → pending t' e' → index q t = index q t' → t = t'

namespace Slots

variable {q : Queue E} {pending pending' : Nat → E → Prop}

theorem congr (h : Slots q pending) {q' : Queue E} (hdata : q'.data = q.data) (hmask : q'.mask = q.mask)
    (hp : ∀ t e, pending' t e ↔ pending t e) : Slots q' pending' := by
  have hidx : ∀ t, index q' t = index q t := fun t => by rw [index, index, hmask]
  have hslot : ∀ t, slot q' t = slot q t := fun t => by rw [slot, slot, hidx, hdata]
  refine ⟨fun t e ht => ?_, fun i e hi => ?_, fun t t' e e' ht ht' heq => ?_⟩
  · rw [hslot]; exact h.slot_of t e ((hp t e).1 ht)
  · rw [hdata] at hi
    obtain ⟨t, ht, hti⟩ := h.of_slot i e hi
    exact ⟨t, (hp t e).2 ht, by rw [hidx]; exact hti⟩
  · rw [hidx, hidx] at heq
    exact h.inj t t' e e' ((hp t e).1 ht) ((hp t' e').1 ht') heq

/-- Storing an element into an empty slot makes its ticket pending. -/
theorem store (h : Slots q pending) {t : Nat} {e : E} (hlt : index q t < q.data.length) (hempty : slot q t = none)
    (hp : ∀ t' e', pending' t' e' ↔ pending t' e' ∨ (t' = t ∧ e' = e)) :
    Slots (setSlot q t (some e)) pending' := by
  -- nothing pending is in that slot
  have hne : ∀ t' e', pending t' e' → index q t' ≠ index q t := by
    intro t' e' hp' heq
    have hs := h.slot_of t' e' hp'
    rw [slot, heq] at hs
    rw [slot, hs] at hempty
    cases hempty
  refine ⟨fun t' e' ht' => ?_, fun i e' hi => ?_, fun t1 t2 e1 e2 h1 h2 heq => ?_⟩
  · rw [slot_setSlot hlt]
    rcases (hp t' e').1 ht' with hold | ⟨rfl, rfl⟩
    · rw [if_neg (hne t' e' hold)]; exact h.slot_of t' e' hold
    · rw [if_pos rfl]
  · rcases getElem?_setSlot hi with ⟨rfl, hv⟩ | ⟨_, hold⟩
    · exact ⟨t, (hp t e').2 (Or.inr ⟨rfl, (Option.some.inj hv).symm⟩), rfl⟩
    · obtain ⟨t', ht', hti⟩ := h.of_slot i e' hold
      exact ⟨t', (hp t' e').2 (Or.inl ht'), hti⟩
  · simp only [index_setSlot] at heq
    rcases (hp t1 e1).1 h1 with hold1 | ⟨rfl, _⟩ <;> rcases (hp t2 e2).1 h2 with hold2 | ⟨rfl, _⟩
    · exact h.inj t1 t2 e1 e2 hold1 hold2 heq
    · exact absurd heq (hne t1 e1 hold1)
    · exact absurd heq.symm (hne t2 e2 hold2)
    · rfl

/-- Exchanging an element for `NULL` ends its ticket. -/
theorem take (h : Slots q pending) {t : Nat} {e : E} (hlt : index q t < q.data.length) (ht : pending t e)
    (hp : ∀ t' e', pending' t' e' ↔ pending t' e' ∧ t' ≠ t) : Slots (setSlot q t none) pending' := by
  refine ⟨fun t' e' ht' => ?_, fun i e' hi => ?_, fun t1 t2 e1 e2 h1 h2 heq => ?_⟩
  · obtain ⟨hold, hne⟩ := (hp t' e').1 ht'
    rw [slot_setSlot hlt, if_neg fun heq => hne (h.inj t' t e' e hold ht heq)]
    exact h.slot_of t' e' hold
  · rcases getElem?_setSlot hi with ⟨_, hv⟩ | ⟨hne, hold⟩
    · cases hv
    · obtain ⟨t', ht', hti⟩ := h.of_slot i e' hold
      refine ⟨t', (hp t' e').2 ⟨ht', fun heq => ?_⟩, hti⟩
      rw [heq] at hti
      exact hne hti.symm
  · exact h.inj t1 t2 e1 e2 ((hp t1 e1).1 h1).1 ((hp t2 e2).1 h2).1 heq

end Slots

/-! ## The invariant -/

/-- The ticket a consumer holds. -/
def Consumer.ticket : Consumer → Option Nat
  | .await head | .exchange head => some head
  | _ => none

def Consumer.View (q : Queue E) : Consumer → Prop
  | .loadHead end_ | .reload end_ _ => end_ ≤ q.end_
  | .compareExchange end_ head _ => end_ ≤ q.end_ ∧ head < end_
  | .exchange head => head < q.end_
  | _ => True

def Producer.View (q : Queue E) : Producer E → Prop
  | .loadHead _ _ end_ => end_ = q.end_
  | .loadSlot _ _ end_ => end_ = q.end_ ∧ end_ < q.head + q.cap
  | .store _ end_ => end_ = q.end_ ∧ end_ < q.head + q.cap ∧ slot q end_ = none
  | .fetchAdd _ end_ => end_ = q.end_ ∧ end_ < q.head + q.cap
  | _ => True

/-- The element stored and not yet published. -/
def Producer.unpublished : Producer E → Option E
  | .fetchAdd elem _ => some elem
  | _ => none

/-- The element of ticket `t` is in the array: enqueued and not taken out, or stored and not published. -/
def Pending (s : State E) (elems : List E) (done : List Nat) (t : Nat) (e : E) : Prop :=
  (t ∉ done ∧ elems[t]? = some e) ∨ (t = s.q.end_ ∧ s.producer.unpublished = some e)

def holds (s : State E) (c : Nat) : Option Nat := (s.consumer c).ticket

/-- The invariant of the queue after `elems` have been enqueued and the tickets `done` returned with. -/
structure Inv (s : State E) (elems : List E) (done : List Nat) : Prop where
  index_lt : ∀ t, index s.q t < s.q.data.length
  count : s.q.end_ = elems.length
  room : s.q.end_ ≤ s.q.head + s.q.cap
  tickets : Tickets s.q.head s.q.end_ (holds s) done
  slots : Slots s.q (Pending s elems done)
  producer : s.producer.View s.q
  consumer : ∀ c, (s.consumer c).View s.q

variable {s : State E} {elems : List E} {done : List Nat}

theorem holds_update (s : State E) (q : Queue E) (c : Nat) (pc : Consumer) :
    holds { s with q := q, consumer := Function.update s.consumer c pc } = Function.update (holds s) c pc.ticket := by
  funext c'
  by_cases h : c' = c
  · subst h; simp [holds]
  · simp [holds, h]

/-- Consumers look at `end` only. -/
theorem Consumer.View.mono {q q' : Queue E} (hend : q.end_ ≤ q'.end_) {pc : Consumer} (h : pc.View q) : pc.View q' := by
  cases pc with
  | loadHead end_ => exact Nat.le_trans h hend
  | reload end_ i => exact Nat.le_trans h hend
  | compareExchange end_ head i => exact ⟨Nat.le_trans h.1 hend, h.2⟩
  | exchange head => exact Nat.lt_of_lt_of_le h hend
  | idle => trivial
  | loadEnd => trivial
  | fetchAdd => trivial
  | await head => trivial

/-- What the producer has checked stays true when consumers move `head` on and empty slots. -/
theorem Producer.View.mono {q q' : Queue E} (hend : q'.end_ = q.end_) (hhead : q.head ≤ q'.head)
    (hcap : q'.cap = q.cap) (hslot : ∀ t, slot q t = none → slot q' t = none) {pc : Producer E} (h : pc.View q) :
    pc.View q' := by
  cases pc with
  | loadHead b e end_ => exact h.trans hend.symm
  | loadSlot b e end_ => exact ⟨h.1.trans hend.symm, by have := h.2; omega⟩
  | store e end_ => exact ⟨h.1.trans hend.symm, by have := h.2.1; omega, hslot _ h.2.2⟩
  | fetchAdd e end_ => exact ⟨h.1.trans hend.symm, by have := h.2; omega⟩
  | idle => trivial
  | loadEnd b e => trivial

theorem view_update {q : Queue E} {f : Nat → Consumer} (h : ∀ c, (f c).View q) (c : Nat) (pc : Consumer)
    (hpc : pc.View q) : ∀ c', (Function.update f c pc c').View q := by
  intro c'
  by_cases hc : c' = c
  · subst hc; rw [Function.update_self]; exact hpc
  · rw [Function.update_of_ne hc]; exact h c'

/-! ## Steps that only move a thread on -/

theorem Inv.moveProducer (i : Inv s elems done) (pc : Producer E) (hu : pc.unpublished = s.producer.unpublished)
    (hv : pc.View s.q) : Inv { s with producer := pc } elems done where
  index_lt := i.index_lt
  count := i.count
  room := i.room
  tickets := i.tickets
  slots := i.slots.congr rfl rfl fun t e => by simp only [Pending, hu]
  producer := hv
  consumer := i.consumer

theorem Inv.moveConsumer (i : Inv s elems done) (c : Nat) (pc : Consumer) (ht : pc.ticket = (s.consumer c).ticket)
    (hv : pc.View s.q) : Inv { s with consumer := Function.update s.consumer c pc } elems done where
  index_lt := i.index_lt
  count := i.count
  room := i.room
  tickets := by
    have hsame : Function.update (holds s) c pc.ticket = holds s := by
      rw [ht]; exact Function.update_eq_self c (holds s)
    have := holds_update s s.q c pc
    rw [hsame] at this
    simp only
    rw [this]
    exact i.tickets
  slots := i.slots.congr rfl rfl fun _ _ => Iff.rfl
  producer := i.producer
  consumer := view_update i.consumer c pc hv

/-! ## Steps that change the queue -/

/-- The producer stores its element. -/
theorem Inv.store (i : Inv s elems done) {elem : E} {end_ : Nat} (hp : s.producer = .store elem end_) :
    slot s.q end_ = none ∧
      Inv { s with q := setSlot s.q end_ (some elem), producer := .fetchAdd elem end_ } elems done := by
  have hview : end_ = s.q.end_ ∧ end_ < s.q.head + s.q.cap ∧ slot s.q end_ = none := by
    have := i.producer; rwa [hp] at this
  obtain ⟨hend, hroom, hempty⟩ := hview
  refine ⟨hempty, ?_⟩
  exact {
    index_lt := fun t => by rw [index_setSlot, length_setSlot]; exact i.index_lt t
    count := i.count
    room := i.room
    tickets := i.tickets
    slots := i.slots.store (i.index_lt end_) hempty fun t e => by
      have hnone : s.producer.unpublished = none := by rw [hp]; rfl
      constructor
      · rintro (h | ⟨ht, he⟩)
        · exact Or.inl (Or.inl h)
        · exact Or.inr ⟨ht.trans hend.symm, (Option.some.inj he).symm⟩
      · rintro ((h | ⟨_, he⟩) | ⟨ht, he⟩)
        · exact Or.inl h
        · rw [hnone] at he; cases he
        · exact Or.inr ⟨ht.trans hend, congrArg some he.symm⟩
    producer := ⟨hend, hroom⟩
    consumer := fun c => (i.consumer c).mono (Nat.le_refl _) }

/-- The producer publishes its element. -/
theorem Inv.publish (i : Inv s elems done) {elem : E} {end_ : Nat} (hp : s.producer = .fetchAdd elem end_) :
    Inv { s with q := { s.q with end_ := s.q.end_ + 1 }, producer := .idle } (elems ++ [elem]) done := by
  have hview : end_ = s.q.end_ ∧ end_ < s.q.head + s.q.cap := by have := i.producer; rwa [hp] at this
  obtain ⟨hend, hroom⟩ := hview
  exact {
    index_lt := i.index_lt
    count := by simp [i.count]
    room := by simp only; omega
    tickets := i.tickets.publish
    slots := i.slots.congr rfl rfl fun t e => by
      have hsome : s.producer.unpublished = some elem := by rw [hp]; rfl
      have hnone : (Producer.idle : Producer E).unpublished = none := rfl
      have hfresh : s.q.end_ ∉ done := fun h => Nat.lt_irrefl _ (i.tickets.published _ h)
      simp only [Pending, hsome, hnone, reduceCtorEq, and_false, or_false, Option.some.injEq]
      rcases Nat.lt_trichotomy t elems.length with hlt | heq | hgt
      · have hne : t ≠ s.q.end_ := by rw [i.count]; omega
        simp [List.getElem?_append_left hlt, hne]
      · have he : t = s.q.end_ := by rw [i.count]; exact heq
        subst heq
        rw [← he] at hfresh
        simp [hfresh, ← he]
      · have hne : t ≠ s.q.end_ := by rw [i.count]; omega
        have h1 : (elems ++ [elem])[t]? = none := by simp; omega
        have h2 : elems[t]? = none := by simp; omega
        simp [h1, h2, hne]
    producer := trivial
    consumer := fun c => (i.consumer c).mono (Nat.le_succ _) }

/-- A consumer moves `head` on and has the ticket. -/
theorem Inv.issue (i : Inv s elems done) (c : Nat) (pc : Consumer) (hc : (s.consumer c).ticket = none)
    (hpc : pc.ticket = some s.q.head) (hv : pc.View s.q) :
    Inv { s with q := { s.q with head := s.q.head + 1 }, consumer := Function.update s.consumer c pc } elems done where
  index_lt := i.index_lt
  count := i.count
  room := by have := i.room; simp only; omega
  tickets := by
    rw [holds_update, hpc]
    exact i.tickets.issue hc
  slots := i.slots.congr rfl rfl fun _ _ => Iff.rfl
  producer := by
    refine Producer.View.mono ?_ ?_ ?_ (fun t ht => ?_) i.producer
    · rfl
    · exact Nat.le_succ _
    · rfl
    · exact ht
  consumer := fun c' => (view_update i.consumer c pc hv c').mono (Nat.le_refl _)

/-- A consumer exchanges the element of its ticket for `NULL`. -/
theorem Inv.exchange (i : Inv s elems done) {c head : Nat} (hc : s.consumer c = .exchange head) :
    (∃ e, slot s.q head = some e ∧ elems[head]? = some e) ∧
      Inv { s with q := setSlot s.q head none, consumer := Function.update s.consumer c .idle } elems
        (done ++ [head]) := by
  have hlt : head < s.q.end_ := by have := i.consumer c; rwa [hc] at this
  have hholds : holds s c = some head := by rw [holds, hc]; rfl
  have hnot : head ∉ done := i.tickets.not_done c head hholds
  obtain ⟨e, he⟩ : ∃ e, elems[head]? = some e :=
    ⟨_, List.getElem?_eq_getElem (by rw [← i.count]; exact hlt)⟩
  have hpend : Pending s elems done head e := Or.inl ⟨hnot, he⟩
  refine ⟨⟨e, i.slots.slot_of head e hpend, he⟩, ?_⟩
  exact {
    index_lt := fun t => by rw [index_setSlot, length_setSlot]; exact i.index_lt t
    count := i.count
    room := i.room
    tickets := by
      rw [holds_update]
      exact i.tickets.finish hholds hlt
    slots := i.slots.take (i.index_lt head) hpend fun t e' => by
      have hq : (setSlot s.q head none).end_ = s.q.end_ := rfl
      simp only [Pending, hq, List.mem_append, List.mem_singleton, not_or]
      constructor
      · rintro (⟨⟨hd, hne⟩, ht⟩ | ⟨rfl, hu⟩)
        · exact ⟨Or.inl ⟨hd, ht⟩, hne⟩
        · exact ⟨Or.inr ⟨rfl, hu⟩, by omega⟩
      · rintro ⟨⟨hd, ht⟩ | h, hne⟩
        · exact Or.inl ⟨⟨hd, hne⟩, ht⟩
        · exact Or.inr h
    producer := by
      refine Producer.View.mono ?_ ?_ ?_ (fun t ht => ?_) i.producer
      · rfl
      · exact Nat.le_refl _
      · rfl
      · rw [slot_setSlot (i.index_lt head)]
        split
        · rfl
        · exact ht
    consumer := fun c' => (view_update i.consumer c .idle trivial c').mono (Nat.le_refl _) }

end A3Spmc
