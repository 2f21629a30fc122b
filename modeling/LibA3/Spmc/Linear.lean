import LibA3.Atomic
import LibA3.Spmc.Fifo

/-!
# The queue is linearizable

The same accesses as in `Step`, but labelled with the thread that makes them and with what its client sees: `Turn` is `Step`
without the accesses of threads that are in no call (`Turn.step`, `turn_of_step`). The sequential queue (`QueueApply`)
appends at one end and takes at the other; the calls that need not wait may also fail, whatever it holds ("may fail
spuriously", `spmc.h:47`).

`a3_spmc_try_dequeue` takes effect when its compare-exchange succeeds, the enqueues when `end` is moved on. `a3_spmc_dequeue`
takes effect when it draws its ticket, if an element with that number has been enqueued; otherwise the producer
does it for the consumer, right after the enqueue.

* `linearizable` — the queue over every interleaving, seen from outside
-/

namespace A3Spmc

open Atomic Trans

variable {E : Type} {s s' : State E} {elems : List E} {done : List Nat} {cap : Nat}

/-! ## Turns -/

inductive Thread where
  | producer
  | consumer (c : Nat)
deriving DecidableEq, Repr

inductive Op (E : Type) where
  | enqueue (blocking : Bool) (elem : E)
  | dequeue (blocking : Bool)

inductive Ret (E : Type) where
  | enqueued (ok : Bool)
  | dequeued (v : Option E)

abbrev Seen (E : Type) := Shown Thread (Op E) (Ret E)

/-- What the producer's client sees of an access. -/
def producerSeen (r : Queue E × Producer E × Event E) : Option (Seen E) :=
  match r.2.1, r.2.2 with
  | .idle, .enqueued _ => some (.ret .producer (.enqueued true))
  | .idle, _ => some (.ret .producer (.enqueued false))
  | _, _ => none

/-- What the client of consumer `c` sees of an access. -/
def consumerSeen (c : Nat) (r : Queue E × Consumer × Event E) : Option (Seen E) :=
  match r.2.1, r.2.2 with
  | .idle, .returned _ _ v => some (.ret (.consumer c) (.dequeued v))
  | .idle, _ => some (.ret (.consumer c) (.dequeued none))
  | _, _ => none

/-- The state after an access of the producer. -/
def producerTurn (wrap : Nat → Nat) (s : State E) : State E :=
  { s with q := (producerStep wrap s.q s.producer).1, producer := (producerStep wrap s.q s.producer).2.1 }

/-- The state after an access of consumer `c`. -/
def consumerTurn (wrap : Nat → Nat) (split : Bool) (c : Nat) (s : State E) : State E :=
  { s with
    q := (consumerStep wrap split s.q c (s.consumer c)).1
    consumer := Function.update s.consumer c (consumerStep wrap split s.q c (s.consumer c)).2.1 }

/-- A thread that is in no call calls, or one that is in a call makes its next access. -/
inductive Turn (wrap : Nat → Nat) : State E → Thread × Option (Seen E) → State E → Prop
  | enqueue (s : State E) (blocking : Bool) (elem : E) : s.producer = .idle →
      Turn wrap s (.producer, some (.call .producer (.enqueue blocking elem))) { s with producer := .loadEnd blocking elem }
  | producer (s : State E) : s.producer ≠ .idle →
      Turn wrap s (.producer, producerSeen (producerStep wrap s.q s.producer)) (producerTurn wrap s)
  | dequeue (s : State E) (c : Nat) (blocking : Bool) : s.consumer c = .idle →
      Turn wrap s (.consumer c, some (.call (.consumer c) (.dequeue blocking)))
        { s with consumer := Function.update s.consumer c (if blocking then .fetchAdd else .loadEnd) }
  | consumer (s : State E) (c : Nat) (split : Bool) : s.consumer c ≠ .idle →
      Turn wrap s (.consumer c, consumerSeen c (consumerStep wrap split s.q c (s.consumer c))) (consumerTurn wrap split c s)

/-- The calls and returns of a run. -/
def history (l : List (Thread × Option (Seen E))) : List (Seen E) := l.filterMap Prod.snd

theorem Turn.step {wrap : Nat → Nat} {a : Thread × Option (Seen E)} (h : Turn wrap s a s') : ∃ ev, Step wrap s ev s' := by
  cases h with
  | enqueue blocking elem hidle => exact ⟨_, .enqueue s blocking elem hidle⟩
  | producer _ => exact ⟨_, .producer s⟩
  | dequeue c blocking hidle => exact ⟨_, .dequeue s c blocking hidle⟩
  | consumer c split _ => exact ⟨_, .consumer s c split⟩

/-- Every step is a turn, or that of a thread with nothing to do. -/
theorem turn_of_step {wrap : Nat → Nat} {ev : Event E} (h : Step wrap s ev s') : s' = s ∨ ∃ a, Turn wrap s a s' := by
  cases h with
  | enqueue blocking elem hidle => exact Or.inr ⟨_, .enqueue s blocking elem hidle⟩
  | producer =>
    by_cases hidle : s.producer = .idle
    · left
      rw [hidle]
      obtain ⟨q, p, c⟩ := s
      obtain rfl : p = .idle := hidle
      rfl
    · exact Or.inr ⟨_, .producer s hidle⟩
  | dequeue c blocking hidle => exact Or.inr ⟨_, .dequeue s c blocking hidle⟩
  | consumer c split =>
    by_cases hidle : s.consumer c = .idle
    · left
      rw [hidle]
      have hsame : Function.update s.consumer c (consumerStep wrap split s.q c .idle).2.1 = s.consumer := by
        rw [consumerStep, ← hidle, Function.update_eq_self]
      rw [hsame]
      rfl
    · exact Or.inr ⟨_, .consumer s c split hidle⟩

/-! ## The sequential queue -/

inductive QueueApply (cap : Nat) : List E → Op E → Ret E → List E → Prop
  | append (xs : List E) (blocking : Bool) (elem : E) : xs.length < cap →
      QueueApply cap xs (.enqueue blocking elem) (.enqueued true) (xs ++ [elem])
  | refuse (xs : List E) (elem : E) : QueueApply cap xs (.enqueue false elem) (.enqueued false) xs
  | take (elem : E) (xs : List E) (blocking : Bool) : QueueApply cap (elem :: xs) (.dequeue blocking) (.dequeued (some elem)) xs
  | miss (xs : List E) : QueueApply cap xs (.dequeue false) (.dequeued none) xs

abbrev Atom (E : Type) := Atomic.State (List E) Thread (Op E) (Ret E)

/-! ## The simulation -/

/-- Where the producer's call is. -/
def ProducerPhase : Producer E → Phase (Op E) (Ret E) → Prop
  | .idle, p => p = .idle
  | .loadEnd blocking elem, p | .loadHead blocking elem _, p | .loadSlot blocking elem _, p =>
    p = .called (.enqueue blocking elem)
  | .store elem _, p | .fetchAdd elem _, p => ∃ blocking, p = .called (.enqueue blocking elem)

/-- Where a consumer's call is: with a ticket it is done as soon as there is an element with that number. -/
def consumerPhase (elems : List E) : Consumer → Phase (Op E) (Ret E)
  | .idle => .idle
  | .loadEnd | .loadHead _ | .compareExchange _ _ _ | .reload _ _ => .called (.dequeue false)
  | .fetchAdd => .called (.dequeue true)
  | .await head =>
    match elems[head]? with
    | some e => .done (.dequeued (some e))
    | none => .called (.dequeue true)
  | .exchange head => .done (.dequeued elems[head]?)

/-- The atomic object holds the elements whose tickets have not been given out. -/
structure Follows (cap : Nat) (s : State E) (elems : List E) (done : List Nat) (A : Atom E) : Prop where
  inv : Inv s elems done
  cap_eq : s.q.cap = cap
  cap_pos : 0 < cap
  val : A.val = elems.drop s.q.head
  producer : ProducerPhase s.producer (A.phase .producer)
  consumer : ∀ c, A.phase (.consumer c) = consumerPhase elems (s.consumer c)

/-- The atomic object can follow a step that shows `shown` and ends in `s'`. -/
def Simulated (cap : Nat) (A : Atom E) (shown : Option (Seen E)) (s' : State E) : Prop :=
  ∃ l A', Run (Atomic.Step (QueueApply cap)) A l A' ∧ l.filterMap Act.shown = shown.toList ∧
    ∃ elems' done', Follows cap s' elems' done' A'

variable {A : Atom E}

/-- The invariant after an access that enqueues and returns nothing. -/
theorem Keeps.internal (h : Keeps elems done .internal s) : Inv s elems done := by
  have hinv := h.2
  simp only [Event.element, Event.ticket, Option.toList_none, List.append_nil] at hinv
  exact hinv

/-! ### The producer -/

theorem producer_keeps (h : Follows cap s elems done A) {q : Queue E} {p : Producer E} {ev : Event E}
    (hr : producerStep id s.q s.producer = (q, p, ev)) : Keeps elems done ev { s with q := q, producer := p } := by
  have hstep := h.inv.producerStep
  rw [hr] at hstep
  exact hstep

/-- An access of the producer that changes nothing but where it is. -/
theorem Follows.producerMoves (h : Follows cap s elems done A) {p : Producer E}
    (hr : producerStep id s.q s.producer = (s.q, p, .internal)) (hp : p ≠ .idle)
    (hphase : ProducerPhase p (A.phase .producer)) :
    Simulated cap A (producerSeen (producerStep id s.q s.producer)) (producerTurn id s) := by
  have hseen : producerSeen (s.q, p, (Event.internal : Event E)) = none := by
    cases p with
    | idle => exact absurd rfl hp
    | _ => rfl
  rw [producerTurn, hr, hseen]
  exact ⟨[], A, .nil A, rfl, elems, done, (producer_keeps h hr).internal, h.cap_eq, h.cap_pos, h.val, hphase, h.consumer⟩

/-- `a3_spmc_try_enqueue` returns `false`. -/
theorem Follows.producerFails (h : Follows cap s elems done A) {elem : E}
    (hr : producerStep id s.q s.producer = (s.q, .idle, .internal))
    (hphase : A.phase .producer = .called (.enqueue false elem)) :
    Simulated cap A (producerSeen (producerStep id s.q s.producer)) (producerTurn id s) := by
  have hpoint : Atomic.Step (QueueApply cap) _ _ _ := Atomic.Step.point A .producer _ _ _ hphase (QueueApply.refuse A.val elem)
  have hret : Atomic.Step (QueueApply cap) _ _ _ :=
    Atomic.Step.ret ((A.at .producer (.done (.enqueued false))).put A.val) .producer (.enqueued false) (A.at_self _ _)
  rw [producerTurn, hr]
  refine ⟨_, _, .cons hpoint (.single hret), rfl, elems, done, (producer_keeps h hr).internal, h.cap_eq, h.cap_pos, h.val, ?_,
    fun c => ?_⟩
  · exact State.at_self _ _ _
  · rw [State.at_ne (by simp), State.put_phase, State.at_ne (by simp)]
    exact h.consumer c

theorem getElem?_concat_ne {t : Nat} (elem : E) (h : t ≠ elems.length) : (elems ++ [elem])[t]? = elems[t]? := by
  rcases Nat.lt_or_gt_of_ne h with hlt | hgt
  · rw [List.getElem?_append_left hlt]
  · rw [List.getElem?_eq_none (by simp; omega), List.getElem?_eq_none (by omega)]

/-- An enqueue is seen by the consumer with its ticket only. -/
theorem consumerPhase_concat {pc : Consumer} (elem : E) (h : pc.ticket ≠ some elems.length) :
    consumerPhase (elems ++ [elem]) pc = consumerPhase elems pc := by
  cases pc with
  | await head =>
    have hne : head ≠ elems.length := fun heq => h (congrArg some heq)
    rw [consumerPhase, consumerPhase, getElem?_concat_ne elem hne]
  | exchange head =>
    have hne : head ≠ elems.length := fun heq => h (congrArg some heq)
    rw [consumerPhase, consumerPhase, getElem?_concat_ne elem hne]
  | _ => rfl

/-- The producer publishes its element. If its ticket has been given out, the consumer that holds it has waited for it. -/
theorem Follows.producerPublishes (h : Follows cap s elems done A) {elem : E} {end_ : Nat}
    (hp : s.producer = .fetchAdd elem end_) :
    Simulated cap A (producerSeen (producerStep id s.q s.producer)) (producerTurn id s) := by
  have hview : end_ = s.q.end_ ∧ end_ < s.q.head + s.q.cap := by have := h.inv.producer; rwa [hp] at this
  obtain ⟨blocking, hphase⟩ : ∃ blocking, A.phase .producer = .called (.enqueue blocking elem) := by
    have := h.producer; rwa [hp] at this
  have hinv := h.inv.publish hp
  have hcount := h.inv.count
  have hlen : A.val.length < cap := by
    rw [h.val, List.length_drop, ← h.cap_eq]
    have := h.cap_pos
    rw [← h.cap_eq] at this
    omega
  have hpoint : Atomic.Step (QueueApply cap) _ _ _ :=
    Atomic.Step.point A .producer _ _ _ hphase (QueueApply.append A.val blocking elem hlen)
  rw [producerTurn, hp]
  by_cases hle : s.q.head ≤ s.q.end_
  · have hret : Atomic.Step (QueueApply cap) _ _ _ :=
      Atomic.Step.ret ((A.at .producer (.done (.enqueued true))).put (A.val ++ [elem])) .producer (.enqueued true)
        (State.at_self A .producer _)
    refine ⟨_, _, .cons hpoint (.single hret), rfl, _, _, hinv, h.cap_eq, h.cap_pos, ?_, ?_, fun c => ?_⟩
    · simp only [State.at_val, State.put_val, h.val]
      exact (List.drop_append_of_le_length (by omega)).symm
    · exact State.at_self _ _ _
    · -- the tickets given out are those of earlier elements
      have hne : (s.consumer c).ticket ≠ some elems.length := by
        intro ht
        have hlt := (h.inv.tickets.issued _).2 (Or.inr ⟨c, ht⟩)
        omega
      rw [State.at_ne (by simp), State.put_phase, State.at_ne (by simp), h.consumer c]
      exact (consumerPhase_concat elem hne).symm
  · obtain ⟨c, hc⟩ : ∃ c, holds s c = some s.q.end_ := by
      rcases (h.inv.tickets.issued s.q.end_).1 (by omega) with hd | hc
      · exact absurd (h.inv.tickets.published _ hd) (Nat.lt_irrefl _)
      · exact hc
    have hawait : s.consumer c = .await s.q.end_ := by
      have hv := h.inv.consumer c
      rw [holds] at hc
      cases hpc : s.consumer c with
      | await head => rw [hpc] at hc; cases hc; rfl
      | exchange head =>
        rw [hpc] at hc hv
        cases hc
        exact absurd hv (Nat.lt_irrefl _)
      | _ => rw [hpc] at hc; cases hc
    have hempty : A.val = [] := by rw [h.val]; exact List.drop_eq_nil_of_le (by omega)
    have hcalled : A.phase (.consumer c) = .called (.dequeue true) := by
      rw [h.consumer c, hawait, consumerPhase, hcount, List.getElem?_eq_none (Nat.le_refl _)]
    have htake : Atomic.Step (QueueApply cap) _ _ _ :=
      Atomic.Step.point ((A.at .producer (.done (.enqueued true))).put (A.val ++ [elem])) (.consumer c) _ _ _
        (by rw [State.put_phase, State.at_ne (by simp)]; exact hcalled)
        (by rw [State.put_val, hempty]; exact QueueApply.take elem [] true)
    refine ⟨_, _, .cons hpoint (.cons htake (.single (.ret _ .producer (.enqueued true) ?_))), rfl, _, _, hinv, h.cap_eq,
      h.cap_pos, ?_, ?_, fun c' => ?_⟩
    · rw [State.put_phase, State.at_ne (by simp), State.put_phase, State.at_self]
    · have hlast : (elems ++ [elem]).length ≤ s.q.head := by rw [List.length_append, List.length_singleton]; omega
      exact (List.drop_eq_nil_of_le hlast).symm
    · exact State.at_self _ _ _
    · rw [State.at_ne (by simp), State.put_phase]
      by_cases hcc : c' = c
      · subst hcc
        simp only [hawait, consumerPhase, hcount, State.at_self, List.getElem?_append_right (Nat.le_refl _), Nat.sub_self,
          List.getElem?_cons_zero]
      · have hne : (s.consumer c').ticket ≠ some elems.length := fun ht =>
          hcc (h.inv.tickets.holder c' c s.q.end_ (by rw [hcount]; exact ht) hc)
        rw [State.at_ne (by simpa using hcc), State.put_phase, State.at_ne (by simp), h.consumer c']
        exact (consumerPhase_concat elem hne).symm

theorem Follows.producerSimulated (h : Follows cap s elems done A) (hne : s.producer ≠ .idle) :
    Simulated cap A (producerSeen (producerStep id s.q s.producer)) (producerTurn id s) := by
  have hphase := h.producer
  cases hp : s.producer with
  | idle => exact absurd hp hne
  | loadEnd blocking elem =>
    rw [hp] at hphase
    rw [← hp]
    exact h.producerMoves (p := .loadHead blocking elem s.q.end_) (by rw [hp]; rfl) (by simp) hphase
  | loadHead blocking elem end_ =>
    rw [hp] at hphase
    rw [← hp]
    by_cases hfull : end_ ≥ id (s.q.head + s.q.cap)
    · cases blocking with
      | true =>
        exact h.producerMoves (p := .loadHead true elem end_) (by rw [hp, producerStep, if_pos hfull]; rfl) (by simp) hphase
      | false => exact h.producerFails (by rw [hp, producerStep, if_pos hfull]; rfl) hphase
    · exact h.producerMoves (p := .loadSlot blocking elem end_) (by rw [hp, producerStep, if_neg hfull]) (by simp) hphase
  | loadSlot blocking elem end_ =>
    rw [hp] at hphase
    rw [← hp]
    by_cases hfull : (slot s.q end_).isSome
    · cases blocking with
      | true =>
        exact h.producerMoves (p := .loadSlot true elem end_) (by rw [hp, producerStep, if_pos hfull]; rfl) (by simp) hphase
      | false => exact h.producerFails (by rw [hp, producerStep, if_pos hfull]; rfl) hphase
    · exact h.producerMoves (p := .store elem end_) (by rw [hp, producerStep, if_neg hfull]) (by simp) ⟨blocking, hphase⟩
  | store elem end_ =>
    rw [hp] at hphase
    have hinv := (h.inv.store hp).2
    rw [producerTurn, hp]
    exact ⟨[], A, .nil A, rfl, elems, done, hinv, h.cap_eq, h.cap_pos, h.val, hphase, h.consumer⟩
  | fetchAdd elem end_ =>
    rw [← hp]
    exact h.producerPublishes hp

/-! ### Consumers -/

theorem consumer_keeps (h : Follows cap s elems done A) {split : Bool} {c : Nat} {q : Queue E} {pc : Consumer} {ev : Event E}
    (hr : consumerStep id split s.q c (s.consumer c) = (q, pc, ev)) :
    Keeps elems done ev { s with q := q, consumer := Function.update s.consumer c pc } := by
  have hstep := h.inv.consumerStep split c
  rw [hr] at hstep
  exact hstep

/-- The phases after an access of consumer `c`. -/
theorem Follows.phases (h : Follows cap s elems done A) {c : Nat} {pc : Consumer} {B : Atom E}
    (hc : B.phase (.consumer c) = consumerPhase elems pc)
    (hother : ∀ c', c' ≠ c → B.phase (.consumer c') = A.phase (.consumer c')) :
    ∀ c', B.phase (.consumer c') = consumerPhase elems (Function.update s.consumer c pc c') := by
  intro c'
  by_cases hcc : c' = c
  · subst hcc
    rw [Function.update_self, hc]
  · rw [Function.update_of_ne hcc, hother c' hcc, h.consumer c']

/-- An access of a consumer that changes nothing but where it is. -/
theorem Follows.consumerMoves (h : Follows cap s elems done A) {split : Bool} {c : Nat} (pc : Consumer)
    (hr : consumerStep id split s.q c (s.consumer c) = (s.q, pc, .internal)) (hpc : pc ≠ .idle)
    (hphase : consumerPhase elems pc = consumerPhase elems (s.consumer c)) :
    Simulated cap A (consumerSeen c (consumerStep id split s.q c (s.consumer c))) (consumerTurn id split c s) := by
  have hseen : consumerSeen c (s.q, pc, (Event.internal : Event E)) = none := by
    cases pc with
    | idle => exact absurd rfl hpc
    | _ => rfl
  rw [consumerTurn, hr, hseen]
  exact ⟨[], A, .nil A, rfl, elems, done, (consumer_keeps h hr).internal, h.cap_eq, h.cap_pos, h.val, h.producer,
    h.phases ((h.consumer c).trans hphase.symm) fun _ _ => rfl⟩

theorem retry_cases (end_ head i : Nat) :
    retry end_ head i = .idle ∨ retry end_ head i = .compareExchange end_ head i ∧ i < 5 := by
  rw [retry]
  split
  · next hlt =>
    split
    · exact Or.inl rfl
    · exact Or.inr ⟨rfl, hlt⟩
  · exact Or.inl rfl

/-- The next try of `a3_spmc_try_dequeue`, or its return with `NULL`. -/
theorem Follows.consumerRetries (h : Follows cap s elems done A) {split : Bool} {c end_ head i : Nat}
    (hr : consumerStep id split s.q c (s.consumer c) = (s.q, retry end_ head i, .internal))
    (hphase : consumerPhase elems (s.consumer c) = .called (.dequeue false)) :
    Simulated cap A (consumerSeen c (consumerStep id split s.q c (s.consumer c))) (consumerTurn id split c s) := by
  rcases retry_cases end_ head i with heq | ⟨heq, _⟩ <;> rw [heq] at hr
  · have hpoint : Atomic.Step (QueueApply cap) _ _ _ :=
      Atomic.Step.point A (.consumer c) _ _ _ ((h.consumer c).trans hphase) (QueueApply.miss A.val)
    have hret : Atomic.Step (QueueApply cap) _ _ _ :=
      Atomic.Step.ret ((A.at (.consumer c) (.done (.dequeued none))).put A.val) (.consumer c) (.dequeued none)
        (State.at_self A (.consumer c) _)
    rw [consumerTurn, hr]
    refine ⟨_, _, .cons hpoint (.single hret), rfl, elems, done, (consumer_keeps h hr).internal, h.cap_eq, h.cap_pos, h.val, ?_,
      h.phases (State.at_self _ _ _) fun c' hne => ?_⟩
    · rw [State.at_ne (by simp), State.put_phase, State.at_ne (by simp)]
      exact h.producer
    · rw [State.at_ne (by simpa using hne), State.put_phase, State.at_ne (by simpa using hne)]
  · exact h.consumerMoves _ hr (by simp) hphase.symm

/-- A consumer draws the ticket of an element that is there. -/
theorem Follows.consumerTakes (h : Follows cap s elems done A) {split : Bool} (blocking : Bool) {c : Nat} {pc : Consumer}
    (hr : consumerStep id split s.q c (s.consumer c) = ({ s.q with head := s.q.head + 1 }, pc, .internal))
    (hpc : pc = .await s.q.head ∨ pc = .exchange s.q.head) (hlt : s.q.head < s.q.end_)
    (hphase : consumerPhase elems (s.consumer c) = .called (.dequeue blocking)) :
    Simulated cap A (consumerSeen c (consumerStep id split s.q c (s.consumer c))) (consumerTurn id split c s) := by
  have hlen : s.q.head < elems.length := by rw [← h.inv.count]; exact hlt
  have hval : A.val = elems[s.q.head] :: elems.drop (s.q.head + 1) := by rw [h.val, List.drop_eq_getElem_cons hlen]
  have hdone : consumerPhase elems pc = .done (.dequeued (some elems[s.q.head])) := by
    rcases hpc with rfl | rfl <;> simp [consumerPhase, List.getElem?_eq_getElem hlen]
  have hseen : consumerSeen c (({ s.q with head := s.q.head + 1 } : Queue E), pc, (Event.internal : Event E)) = none := by
    rcases hpc with rfl | rfl <;> rfl
  have htake : Atomic.Step (QueueApply cap) _ _ _ := Atomic.Step.point A (.consumer c) _ _ _ ((h.consumer c).trans hphase)
    (by rw [hval]; exact QueueApply.take elems[s.q.head] (elems.drop (s.q.head + 1)) blocking)
  rw [consumerTurn, hr, hseen]
  refine ⟨_, _, .single htake, rfl, elems, done, (consumer_keeps h hr).internal, h.cap_eq, h.cap_pos, rfl, ?_,
    h.phases ?_ fun c' hne => ?_⟩
  · rw [State.put_phase, State.at_ne (by simp)]
    exact h.producer
  · rw [State.put_phase, State.at_self, hdone]
  · rw [State.put_phase, State.at_ne (by simpa using hne)]

/-- A consumer draws the ticket of an element that has not been enqueued yet. -/
theorem Follows.consumerDraws (h : Follows cap s elems done A) {split : Bool} {c : Nat}
    (hr : consumerStep id split s.q c (s.consumer c) = ({ s.q with head := s.q.head + 1 }, .await s.q.head, .internal))
    (hge : s.q.end_ ≤ s.q.head) (hphase : consumerPhase elems (s.consumer c) = .called (.dequeue true)) :
    Simulated cap A (consumerSeen c (consumerStep id split s.q c (s.consumer c))) (consumerTurn id split c s) := by
  have hcount := h.inv.count
  have hnone : elems[s.q.head]? = none := List.getElem?_eq_none (by omega)
  have hval : A.val = elems.drop (s.q.head + 1) := by
    rw [h.val, List.drop_eq_nil_of_le (by omega), List.drop_eq_nil_of_le (by omega)]
  rw [consumerTurn, hr]
  refine ⟨[], A, .nil A, rfl, elems, done, (consumer_keeps h hr).internal, h.cap_eq, h.cap_pos, hval, h.producer,
    h.phases ?_ fun _ _ => rfl⟩
  rw [h.consumer c, hphase, consumerPhase, hnone]

/-- A consumer returns with the element of its ticket. -/
theorem Follows.consumerReturns (h : Follows cap s elems done A) {split : Bool} {c head : Nat}
    (hc : s.consumer c = .exchange head) :
    Simulated cap A (consumerSeen c (consumerStep id split s.q c (s.consumer c))) (consumerTurn id split c s) := by
  obtain ⟨⟨e, hslot, he⟩, hinv⟩ := h.inv.exchange hc
  have hdone : A.phase (.consumer c) = .done (.dequeued (slot s.q head)) := by
    rw [h.consumer c, hc, consumerPhase, he, hslot]
  have hret : Atomic.Step (QueueApply cap) _ _ _ := Atomic.Step.ret A (.consumer c) _ hdone
  rw [consumerTurn, hc]
  refine ⟨_, _, .single hret, rfl, elems, _, hinv, h.cap_eq, h.cap_pos, h.val, ?_,
    h.phases (State.at_self _ _ _) fun c' hne => ?_⟩
  · rw [State.at_ne (by simp)]
    exact h.producer
  · rw [State.at_ne (by simpa using hne)]

theorem Follows.consumerSimulated (h : Follows cap s elems done A) (split : Bool) {c : Nat} (hne : s.consumer c ≠ .idle) :
    Simulated cap A (consumerSeen c (consumerStep id split s.q c (s.consumer c))) (consumerTurn id split c s) := by
  have hview := h.inv.consumer c
  cases hc : s.consumer c with
  | idle => exact absurd hc hne
  | loadEnd =>
    rw [← hc]
    exact h.consumerMoves (.loadHead s.q.end_) (by rw [hc]; rfl) (by simp) (by rw [hc]; rfl)
  | loadHead end_ =>
    rw [← hc]
    exact h.consumerRetries (by rw [hc]; rfl) (by rw [hc]; rfl)
  | compareExchange end_ head i =>
    rw [hc] at hview
    rw [← hc]
    by_cases hhead : s.q.head = head
    · subst hhead
      exact h.consumerTakes false (by rw [hc, consumerStep, if_pos rfl]; rfl) (Or.inr rfl)
        (Nat.lt_of_lt_of_le hview.2 hview.1) (by rw [hc]; rfl)
    · cases split with
      | true =>
        exact h.consumerMoves (.reload end_ i) (by rw [hc, consumerStep, if_neg hhead]; rfl) (by simp) (by rw [hc]; rfl)
      | false => exact h.consumerRetries (by rw [hc, consumerStep, if_neg hhead]; rfl) (by rw [hc]; rfl)
  | reload end_ i =>
    rw [← hc]
    exact h.consumerRetries (by rw [hc]; rfl) (by rw [hc]; rfl)
  | fetchAdd =>
    rw [← hc]
    by_cases hlt : s.q.head < s.q.end_
    · exact h.consumerTakes true (by rw [hc]; rfl) (Or.inl rfl) hlt (by rw [hc]; rfl)
    · exact h.consumerDraws (by rw [hc]; rfl) (Nat.not_lt.1 hlt) (by rw [hc]; rfl)
  | await head =>
    rw [← hc]
    by_cases hge : head ≥ s.q.end_
    · exact h.consumerMoves (.await head) (by rw [hc, consumerStep, if_pos hge]) (by simp) (by rw [hc])
    · have hlen : head < elems.length := by rw [← h.inv.count]; exact Nat.lt_of_not_ge hge
      exact h.consumerMoves (.exchange head) (by rw [hc, consumerStep, if_neg hge]) (by simp)
        (by rw [hc]; simp [consumerPhase, List.getElem?_eq_getElem hlen])
  | exchange head =>
    rw [← hc]
    exact h.consumerReturns hc

/-! ## The queue, seen from outside -/

/-- **Step lemma.** The atomic object follows every turn. -/
theorem Follows.turn (h : Follows cap s elems done A) {a : Thread × Option (Seen E)} (ht : Turn id s a s') :
    Simulated cap A a.2 s' := by
  cases ht with
  | enqueue blocking elem hidle =>
    have hphase : A.phase .producer = .idle := by have := h.producer; rwa [hidle] at this
    refine ⟨_, _, .single (.call A .producer (.enqueue blocking elem) hphase), rfl, elems, done,
      h.inv.moveProducer (.loadEnd blocking elem) (by rw [hidle]; rfl) trivial, h.cap_eq, h.cap_pos, h.val, ?_, fun c => ?_⟩
    · exact State.at_self _ _ _
    · rw [State.at_ne (by simp)]
      exact h.consumer c
  | producer hne => exact h.producerSimulated hne
  | dequeue c blocking hidle =>
    have hphase : A.phase (.consumer c) = .idle := by rw [h.consumer c, hidle]; rfl
    refine ⟨_, _, .single (.call A (.consumer c) (.dequeue blocking) hphase), rfl, elems, done,
      h.inv.moveConsumer c _ ?_ ?_, h.cap_eq, h.cap_pos, h.val, ?_, h.phases ?_ fun c' hne => ?_⟩
    · rw [hidle]; cases blocking <;> rfl
    · cases blocking <;> trivial
    · rw [State.at_ne (by simp)]
      exact h.producer
    · rw [State.at_self]
      cases blocking <;> rfl
    · rw [State.at_ne (by simpa using hne)]
  | consumer c split hne => exact h.consumerSimulated split hne

/-- **The SPMC queue is a linearizable bounded FIFO** (`spmc.c:57-120`). From `a3_spmc_init` with any requested capacity, in every
interleaving of the producer with any number of consumers, blocking or not: there is a point between each call and its return
at which a queue of `q.cap` places would have done at once what the call did. -/
theorem linearizable (cap : Nat) : ∃ q : Queue E, init id cap = some q ∧ cap ≤ q.cap ∧
    ∀ (l : List (Thread × Option (Seen E))) (s : State E), Run (Turn id) (start q) l s →
      Linearizable (QueueApply q.cap) [] (history l) := by
  obtain ⟨k, hle, hinit⟩ := init_spec (E := E) cap
  refine ⟨_, hinit, hle, fun l s hrun => ?_⟩
  refine linearizable_of_simulation (R := fun s A => ∃ elems done, Follows (2 ^ k) s elems done A)
    (fun s A a s' ⟨elems, done, h⟩ ht => h.turn ht) hrun ⟨[], [], ?_⟩
  exact ⟨Inv.start k, rfl, Nat.two_pow_pos k, rfl, rfl, fun _ => rfl⟩

end A3Spmc
