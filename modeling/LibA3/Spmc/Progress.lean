import LibA3.Spmc.Index
import LibA3.Spmc.Linear

/-!
# Calls of the queue go on

A thread waits if no access it can make next changes anything. The blocking calls wait in their loops
(`spmc.c:83`, `spmc.c:111`, `spmc.c:115`), and then for other threads; they never all wait for one another while there is
something to take or room to put something (`never_deadlocked`).

The other two calls do not wait at all: whatever the other threads do, `a3_spmc_try_enqueue` returns with its fifth
access and `a3_spmc_try_dequeue` with its twelfth (`try_wait_free`). What is left of a call is counted by `Producer.left`
and `Consumer.left`.
-/

namespace A3Spmc

open Atomic Trans

variable {E : Type} {s s' : State E} {elems : List E} {done : List Nat}

/-! ## Waiting -/

def InCall (s : State E) : Thread → Prop
  | .producer => s.producer ≠ .idle
  | .consumer c => s.consumer c ≠ .idle

/-- Whatever access the thread makes, nothing changes. -/
def Waits (s : State E) : Thread → Prop
  | .producer => producerTurn id s = s
  | .consumer c => ∀ split, consumerTurn id split c s = s

theorem producer_waits (h : Waits s .producer) (hcall : s.producer ≠ .idle) :
    (∃ elem end_, s.producer = .loadHead true elem end_ ∧ s.q.head + s.q.cap ≤ end_) ∨
      ∃ elem end_, s.producer = .loadSlot true elem end_ ∧ (slot s.q end_).isSome := by
  have hsame : (producerStep id s.q s.producer).2.1 = s.producer := congrArg State.producer h
  cases hp : s.producer with
  | idle => exact absurd hp hcall
  | loadEnd blocking elem => rw [hp] at hsame; cases hsame
  | loadHead blocking elem end_ =>
    rw [hp, producerStep] at hsame
    split at hsame
    · next hfull =>
      cases blocking with
      | true => exact Or.inl ⟨elem, end_, rfl, hfull⟩
      | false => cases hsame
    · cases hsame
  | loadSlot blocking elem end_ =>
    rw [hp, producerStep] at hsame
    split at hsame
    · next hfull =>
      cases blocking with
      | true => exact Or.inr ⟨elem, end_, rfl, hfull⟩
      | false => cases hsame
    · cases hsame
  | store elem end_ => rw [hp] at hsame; cases hsame
  | fetchAdd elem end_ => rw [hp] at hsame; cases hsame

theorem consumer_waits {c : Nat} (h : Waits s (.consumer c)) (hcall : s.consumer c ≠ .idle) :
    ∃ head, s.consumer c = .await head ∧ s.q.end_ ≤ head := by
  have hsame : ∀ split, (consumerStep id split s.q c (s.consumer c)).2.1 = s.consumer c := by
    intro split
    have hc : Function.update s.consumer c (consumerStep id split s.q c (s.consumer c)).2.1 c = s.consumer c :=
      congrFun (congrArg State.consumer (h split)) c
    rwa [Function.update_self] at hc
  cases hc : s.consumer c with
  | idle => exact absurd hc hcall
  | loadEnd => have := hsame true; rw [hc] at this; cases this
  | loadHead end_ =>
    have := hsame true
    rw [hc, consumerStep] at this
    rcases retry_cases end_ s.q.head 0 with heq | ⟨heq, _⟩ <;> rw [heq] at this <;> cases this
  | compareExchange end_ head i =>
    have := hsame true
    rw [hc, consumerStep] at this
    split at this <;> cases this
  | reload end_ i =>
    have := hsame true
    rw [hc, consumerStep] at this
    rcases retry_cases end_ s.q.head (i + 1) with heq | ⟨heq, _⟩ <;> rw [heq] at this <;> cases this
  | fetchAdd => have := hsame true; rw [hc] at this; cases this
  | await head =>
    refine ⟨head, rfl, ?_⟩
    have := hsame true
    rw [hc, consumerStep] at this
    simp only at this
    split at this
    · assumption
    · cases this
  | exchange head => have := hsame true; rw [hc] at this; cases this

/-! ## No deadlock -/

/-- All elements enqueued have been taken, and the calls in progress wait for the next ones. -/
structure Drained (s : State E) : Prop where
  producer : s.producer = .idle
  consumer : ∀ c, s.consumer c = .idle ∨ ∃ head, s.consumer c = .await head ∧ s.q.end_ ≤ head
  empty : ∀ (i : Nat) (e : E), s.q.data[i]? ≠ some (some e)

/-- All slots are taken, and `a3_spmc_enqueue` waits for one. -/
structure Full (s : State E) : Prop where
  producer : ∃ elem, s.producer = .loadHead true elem s.q.end_
  consumer : ∀ c, s.consumer c = .idle
  count : s.q.end_ = s.q.head + s.q.cap
  full : ∀ i < s.q.cap, ∃ e, s.q.data[i]? = some (some e)

/-- What the accesses leave as `a3_spmc_init` made it. -/
structure Shape (k : Nat) (q : Queue E) : Prop where
  cap : q.cap = 2 ^ k
  mask : q.mask = 2 ^ k - 1
  length : q.data.length = 2 ^ k

theorem Shape.producerStep {wrap : Nat → Nat} {k : Nat} {q : Queue E} (h : Shape k q) (p : Producer E) :
    Shape k (producerStep wrap q p).1 := by
  cases p with
  | loadHead blocking elem end_ => rw [A3Spmc.producerStep]; split <;> exact h
  | loadSlot blocking elem end_ => rw [A3Spmc.producerStep]; split <;> exact h
  | store elem end_ => exact ⟨h.cap, h.mask, (length_setSlot q end_ _).trans h.length⟩
  | fetchAdd elem end_ => exact ⟨h.cap, h.mask, h.length⟩
  | _ => exact h

theorem Shape.consumerStep {wrap : Nat → Nat} {k : Nat} {q : Queue E} (h : Shape k q) (split : Bool) (c : Nat) (pc : Consumer) :
    Shape k (consumerStep wrap split q c pc).1 := by
  cases pc with
  | compareExchange end_ head i =>
    rw [A3Spmc.consumerStep]
    split
    · exact ⟨h.cap, h.mask, h.length⟩
    · exact h
  | fetchAdd => exact ⟨h.cap, h.mask, h.length⟩
  | exchange head => exact ⟨h.cap, h.mask, (length_setSlot q head _).trans h.length⟩
  | _ => exact h

theorem Shape.turn {wrap : Nat → Nat} {k : Nat} {a : Thread × Option (Seen E)} (h : Shape k s.q) (ht : Turn wrap s a s') :
    Shape k s'.q := by
  cases ht with
  | enqueue blocking elem _ => exact h
  | producer _ => exact h.producerStep _
  | dequeue c blocking _ => exact h
  | consumer c split _ => exact h.consumerStep split c _

/-- The slots that are taken are those of the tickets from `head` on, or of tickets that consumers hold. -/
theorem slot_taken (h : Inv s elems done) (hu : s.producer.unpublished = none) {i : Nat} {e : E}
    (hi : s.q.data[i]? = some (some e)) :
    ∃ t, index s.q t = i ∧ t < s.q.end_ ∧ (s.q.head ≤ t ∨ ∃ c, holds s c = some t) := by
  obtain ⟨t, hpend, hidx⟩ := h.slots.of_slot i e hi
  rcases hpend with ⟨hnot, he⟩ | ⟨_, he⟩
  · refine ⟨t, hidx, by rw [h.count]; exact (List.getElem?_eq_some_iff.1 he).1, ?_⟩
    by_cases hle : s.q.head ≤ t
    · exact Or.inl hle
    · exact Or.inr (((h.tickets.issued t).1 (Nat.not_le.1 hle)).resolve_left hnot)
  · rw [hu] at he
    cases he

/-- With consumers that wait or do nothing, the tickets of the slots that are taken have not been drawn. -/
theorem head_le_of_taken
    (hcons : ∀ c, s.consumer c = .idle ∨ ∃ head, s.consumer c = .await head ∧ s.q.end_ ≤ head) {t : Nat} (ht : t < s.q.end_)
    (htaken : s.q.head ≤ t ∨ ∃ c, holds s c = some t) : s.q.head ≤ t := by
  refine htaken.resolve_right ?_
  rintro ⟨c, hc⟩
  rcases hcons c with hidle | ⟨head, hawait, hle⟩
  · rw [holds, hidle] at hc
    cases hc
  · rw [holds, hawait] at hc
    obtain rfl : head = t := Option.some.inj hc
    omega

/-- A waiting consumer has drawn a ticket beyond `end`. -/
theorem end_lt_head (h : Inv s elems done) {c head : Nat} (hc : s.consumer c = .await head) (hle : s.q.end_ ≤ head) :
    s.q.end_ < s.q.head := by
  have hlt := (h.tickets.issued head).2 (Or.inr ⟨c, by rw [holds, hc]; rfl⟩)
  omega

theorem drained_or_full (h : Inv s elems done) {k : Nat} (hshape : Shape k s.q) (hcall : ∃ t, InCall s t)
    (hwait : ∀ t, InCall s t → Waits s t) : Drained s ∨ Full s := by
  have hcons : ∀ c, s.consumer c = .idle ∨ ∃ head, s.consumer c = .await head ∧ s.q.end_ ≤ head := by
    intro c
    by_cases hc : s.consumer c = .idle
    · exact Or.inl hc
    · exact Or.inr (consumer_waits (hwait (.consumer c) hc) hc)
  by_cases hp : s.producer = .idle
  · refine Or.inl ⟨hp, hcons, fun i e hi => ?_⟩
    obtain ⟨t, _, hlt, htaken⟩ := slot_taken h (by rw [hp]; rfl) hi
    have hge := head_le_of_taken hcons hlt htaken
    -- some consumer is in a call, as the producer is not
    obtain ⟨c, hc⟩ : ∃ c, s.consumer c ≠ .idle := by
      obtain ⟨t, ht⟩ := hcall
      cases t with
      | producer => exact absurd hp ht
      | consumer c => exact ⟨c, ht⟩
    obtain ⟨head, hawait, hle⟩ := (hcons c).resolve_left hc
    have := end_lt_head h hawait hle
    omega
  · have hview := h.producer
    rcases producer_waits (hwait .producer hp) hp with ⟨elem, end_, hpc, hfull⟩ | ⟨elem, end_, hpc, hslot⟩
    · rw [hpc] at hview
      obtain rfl : end_ = s.q.end_ := hview
      have hroom := h.room
      have hidle : ∀ c, s.consumer c = .idle := by
        intro c
        rcases hcons c with hidle | ⟨head, hawait, hle⟩
        · exact hidle
        · have := end_lt_head h hawait hle
          omega
      refine Or.inr ⟨⟨elem, hpc⟩, hidle, by omega, fun i hi => ?_⟩
      -- the tickets from `head` on have all slots
      have hmem : i ∈ (List.range (2 ^ k)).map fun j => (s.q.head + j) % 2 ^ k := by
        rw [(perm_window (Nat.two_pow_pos k) s.q.head).mem_iff, List.mem_range, ← hshape.cap]
        exact hi
      obtain ⟨j, hj, hidx⟩ := List.mem_map.1 hmem
      rw [List.mem_range, ← hshape.cap] at hj
      have hlt : s.q.head + j < elems.length := by rw [← h.count]; omega
      have hnot : s.q.head + j ∉ done := by
        intro hd
        have := (h.tickets.issued _).2 (Or.inl hd)
        omega
      have hs := h.slots.slot_of _ _ (Or.inl ⟨hnot, List.getElem?_eq_getElem hlt⟩)
      have hin : i < s.q.data.length := by rw [hshape.length, ← hshape.cap]; exact hi
      rw [slot, index_mod hshape.mask, hidx, List.getD_eq_getElem?_getD, List.getElem?_eq_getElem hin, Option.getD_some] at hs
      exact ⟨_, by rw [List.getElem?_eq_getElem hin, hs]⟩
    · -- the slot at `end` is only ever taken by the ticket `end - cap`, which a consumer would hold
      rw [hpc] at hview
      obtain ⟨rfl, hlt⟩ : end_ = s.q.end_ ∧ end_ < s.q.head + s.q.cap := hview
      obtain ⟨e, he⟩ := Option.isSome_iff_exists.1 hslot
      have hin := h.index_lt s.q.end_
      rw [slot, List.getD_eq_getElem?_getD, List.getElem?_eq_getElem hin, Option.getD_some] at he
      obtain ⟨t, hidx, ht, htaken⟩ := slot_taken h (by rw [hpc]; rfl)
        (show s.q.data[index s.q s.q.end_]? = some (some e) by rw [List.getElem?_eq_getElem hin, he])
      have hge := head_le_of_taken hcons ht htaken
      rw [index_mod hshape.mask, index_mod hshape.mask] at hidx
      have hcap := hshape.cap
      have hinj := mod_add_inj (t := t) (i := 0) (j := s.q.end_ - t) (n := 2 ^ k) (by omega) (by omega)
        (by rw [Nat.add_zero, Nat.add_sub_of_le (Nat.le_of_lt ht)]; exact hidx)
      omega

/-- **The calls never wait for one another in a circle** (`spmc.c:77`, `spmc.c:107`). If in a state that is reached every call in
progress waits, either all elements have been taken and the calls are dequeues, or all slots are taken and the call is the
enqueue. -/
theorem never_deadlocked (cap : Nat) : ∃ q : Queue E, init id cap = some q ∧ cap ≤ q.cap ∧
    ∀ (l : List (Thread × Option (Seen E))) (s : State E), Run (Turn id) (start q) l s →
      (∃ t, InCall s t) → (∀ t, InCall s t → Waits s t) → Drained s ∨ Full s := by
  obtain ⟨k, hle, hinit⟩ := init_spec (E := E) cap
  refine ⟨_, hinit, hle, fun l s hrun hcall hwait => ?_⟩
  obtain ⟨⟨elems, done, hinv⟩, hshape⟩ :=
    hrun.invariant (P := fun s => (∃ elems done, Inv s elems done) ∧ Shape k s.q)
      (fun s a s' hP ht => by
        obtain ⟨⟨elems, done, hinv⟩, hshape⟩ := hP
        obtain ⟨ev, hstep⟩ := ht.step
        exact ⟨⟨_, _, (hinv.step hstep).2⟩, hshape.turn ht⟩)
      ⟨⟨[], [], Inv.start k⟩, ⟨rfl, rfl, List.length_replicate⟩⟩
  exact drained_or_full hinv hshape hcall hwait

/-! ## No waiting -/

/-- The accesses an `a3_spmc_try_enqueue` has left. -/
def Producer.left : Producer E → Nat
  | .idle => 0
  | .loadEnd _ _ => 5
  | .loadHead _ _ _ => 4
  | .loadSlot _ _ _ => 3
  | .store _ _ => 2
  | .fetchAdd _ _ => 1

/-- The accesses an `a3_spmc_try_dequeue` has left at most, two for each try to come. -/
def Consumer.left : Consumer → Nat
  | .idle => 0
  | .loadEnd => 12
  | .loadHead _ => 11
  | .compareExchange _ _ i => 2 * (5 - i)
  | .reload _ i => 2 * (5 - i) - 1
  | .exchange _ => 1
  | .fetchAdd | .await _ => 0

/-- The producer is in `a3_spmc_try_enqueue`. -/
def Producer.Trying : Producer E → Prop
  | .loadEnd blocking _ | .loadHead blocking _ _ | .loadSlot blocking _ _ => blocking = false
  | .store _ _ | .fetchAdd _ _ => True
  | .idle => False

/-- The consumer is in `a3_spmc_try_dequeue`. -/
def Consumer.Trying : Consumer → Prop
  | .loadEnd | .loadHead _ | .exchange _ => True
  | .compareExchange _ _ i | .reload _ i => i < 5
  | _ => False

/-- An access returns, or brings the call closer to its return. -/
theorem Producer.Trying.step {p : Producer E} (h : p.Trying) (wrap : Nat → Nat) (q : Queue E) :
    (∃ r, producerSeen (producerStep wrap q p) = some (.ret .producer r)) ∨
      (producerStep wrap q p).2.1.Trying ∧ (producerStep wrap q p).2.1.left < p.left := by
  cases p with
  | idle => exact h.elim
  | loadEnd blocking elem => exact Or.inr ⟨h, Nat.lt_succ_self 4⟩
  | loadHead blocking elem end_ =>
    obtain rfl : blocking = false := h
    rw [producerStep]
    split
    · exact Or.inl ⟨_, rfl⟩
    · exact Or.inr ⟨rfl, Nat.lt_succ_self 3⟩
  | loadSlot blocking elem end_ =>
    obtain rfl : blocking = false := h
    rw [producerStep]
    split
    · exact Or.inl ⟨_, rfl⟩
    · exact Or.inr ⟨trivial, Nat.lt_succ_self 2⟩
  | store elem end_ => exact Or.inr ⟨trivial, Nat.lt_succ_self 1⟩
  | fetchAdd elem end_ => exact Or.inl ⟨_, rfl⟩

theorem retry_left {q : Queue E} {c end_ head i n : Nat} (hn : 2 * (5 - i) < n) :
    (∃ r, consumerSeen c (q, retry end_ head i, (Event.internal : Event E)) = some (.ret (.consumer c) r)) ∨
      (retry end_ head i).Trying ∧ (retry end_ head i).left < n := by
  rcases retry_cases end_ head i with heq | ⟨heq, hi⟩ <;> rw [heq]
  · exact Or.inl ⟨_, rfl⟩
  · exact Or.inr ⟨hi, hn⟩

theorem Consumer.Trying.step {pc : Consumer} (h : pc.Trying) (wrap : Nat → Nat) (q : Queue E) (split : Bool) (c : Nat) :
    (∃ r, consumerSeen c (consumerStep wrap split q c pc) = some (.ret (.consumer c) r)) ∨
      (consumerStep wrap split q c pc).2.1.Trying ∧ (consumerStep wrap split q c pc).2.1.left < pc.left := by
  cases pc with
  | loadEnd => exact Or.inr ⟨trivial, Nat.lt_succ_self 11⟩
  | loadHead end_ => exact retry_left (Nat.lt_succ_self 10)
  | compareExchange end_ head i =>
    have hi : i < 5 := h
    rw [consumerStep]
    split
    · exact Or.inr ⟨trivial, by simp only [Consumer.left]; omega⟩
    · cases split with
      | true => exact Or.inr ⟨hi, by simp only [Consumer.left, if_true]; omega⟩
      | false => exact retry_left (by simp only [Consumer.left]; omega)
  | reload end_ i =>
    have hi : i < 5 := h
    exact retry_left (by simp only [Consumer.left]; omega)
  | exchange head => exact Or.inl ⟨_, rfl⟩
  | idle => exact h.elim
  | fetchAdd => exact h.elim
  | await head => exact h.elim

/-- How often thread `t` has had its turn. -/
def turns (t : Thread) (l : List (Thread × Option (Seen E))) : Nat := l.countP fun a => a.1 = t

variable {l : List (Thread × Option (Seen E))} {wrap : Nat → Nat}

theorem history_cons_ret {a : Thread × Option (Seen E)} {t : Thread} (h : ∀ r, Shown.ret t r ∉ history (a :: l)) :
    (∀ r, a.2 ≠ some (.ret t r)) ∧ ∀ r, Shown.ret t r ∉ history l := by
  refine ⟨fun r heq => h r ?_, fun r hr => h r ?_⟩
  · rw [history, List.filterMap_cons_some heq]
    exact List.mem_cons_self
  · rw [history] at hr ⊢
    cases hx : a.2 with
    | none => rwa [List.filterMap_cons_none hx]
    | some x => rw [List.filterMap_cons_some hx]; exact List.mem_cons_of_mem _ hr

theorem producer_turns (hrun : Run (Turn wrap) s l s') (htry : s.producer.Trying)
    (hret : ∀ r, Shown.ret Thread.producer r ∉ history l) : turns .producer l < s.producer.left := by
  induction hrun with
  | nil s =>
    cases hp : s.producer with
    | idle => rw [hp] at htry; exact htry.elim
    | _ => exact Nat.succ_pos _
  | @cons s s1 s2 a l hturn _ ih =>
    obtain ⟨hnow, hlater⟩ := history_cons_ret hret
    cases hturn with
    | enqueue blocking elem hidle => rw [hidle] at htry; exact htry.elim
    | producer _ =>
      rcases htry.step wrap s.q with ⟨r, hr⟩ | ⟨htry', hleft⟩
      · exact absurd hr (hnow r)
      · have hcount : turns .producer l < (producerStep wrap s.q s.producer).2.1.left := ih htry' hlater
        rw [turns, List.countP_cons_of_pos (by simp)]
        rw [turns] at hcount
        omega
    | dequeue c blocking _ =>
      rw [turns, List.countP_cons_of_neg (by simp)]
      exact ih htry hlater
    | consumer c split _ =>
      rw [turns, List.countP_cons_of_neg (by simp)]
      exact ih htry hlater

theorem consumer_turns {c : Nat} (hrun : Run (Turn wrap) s l s') (htry : (s.consumer c).Trying)
    (hret : ∀ r, Shown.ret (Thread.consumer c) r ∉ history l) : turns (.consumer c) l < (s.consumer c).left := by
  induction hrun with
  | nil s =>
    cases hp : s.consumer c with
    | loadEnd => exact Nat.succ_pos _
    | loadHead _ => exact Nat.succ_pos _
    | exchange _ => exact Nat.succ_pos _
    | compareExchange _ _ i =>
      rw [hp] at htry
      have hi : i < 5 := htry
      simp only [turns, List.countP_nil, Consumer.left]
      omega
    | reload _ i =>
      rw [hp] at htry
      have hi : i < 5 := htry
      simp only [turns, List.countP_nil, Consumer.left]
      omega
    | _ => rw [hp] at htry; exact htry.elim
  | @cons s s1 s2 a l hturn _ ih =>
    obtain ⟨hnow, hlater⟩ := history_cons_ret hret
    -- another consumer's turn
    have hother : ∀ {c' : Nat} {pc : Consumer}, c' ≠ c → Function.update s.consumer c' pc c = s.consumer c :=
      fun hne => Function.update_of_ne (Ne.symm hne) _ _
    cases hturn with
    | enqueue blocking elem _ =>
      rw [turns, List.countP_cons_of_neg (by simp)]
      exact ih htry hlater
    | producer _ =>
      rw [turns, List.countP_cons_of_neg (by simp)]
      exact ih htry hlater
    | dequeue c' blocking hidle =>
      have hne : c' ≠ c := by
        rintro rfl
        rw [hidle] at htry
        exact htry.elim
      rw [turns, List.countP_cons_of_neg (by simpa using hne)]
      have hcount := ih (by simp only; rw [hother hne]; exact htry) hlater
      simp only [hother hne] at hcount
      exact hcount
    | consumer c' split _ =>
      by_cases hne : c' = c
      · subst hne
        rcases htry.step wrap s.q split c' with ⟨r, hr⟩ | ⟨htry', hleft⟩
        · exact absurd hr (hnow r)
        · have hself : (consumerTurn wrap split c' s).consumer c' = (consumerStep wrap split s.q c' (s.consumer c')).2.1 :=
            Function.update_self ..
          have hcount := ih (by rw [hself]; exact htry') hlater
          rw [hself] at hcount
          rw [turns, List.countP_cons_of_pos (by simp)]
          rw [turns] at hcount
          omega
      · have hsame : (consumerTurn wrap split c' s).consumer c = s.consumer c := hother hne
        rw [turns, List.countP_cons_of_neg (by simpa using hne)]
        have hcount := ih (by rw [hsame]; exact htry) hlater
        rw [hsame] at hcount
        exact hcount

/-- **`a3_spmc_try_enqueue` and `a3_spmc_try_dequeue` return, whatever the other threads do** (`spmc.c:57`, `spmc.c:89`): from any
state at all, and also with counters that wrap, with the fifth and the twelfth access of their own at the latest. -/
theorem try_wait_free (elem : E) (c : Nat) (hrun : Run (Turn wrap) s l s') :
    (s.producer = .loadEnd false elem → (∀ r, Shown.ret Thread.producer r ∉ history l) → turns .producer l < 5) ∧
    (s.consumer c = .loadEnd → (∀ r, Shown.ret (Thread.consumer c) r ∉ history l) → turns (.consumer c) l < 12) := by
  constructor
  · intro hcall hret
    have h := producer_turns hrun (by rw [hcall]; exact rfl) hret
    rwa [hcall] at h
  · intro hcall hret
    have h := consumer_turns hrun (by rw [hcall]; exact trivial) hret
    rwa [hcall] at h

/-- A call of each that has made its first access. -/
theorem try_wait_free_two : ∃ l s', Run (Turn id)
    ⟨⟨[none, none], 2, 1, 0, 0⟩, .loadEnd false 7, Function.update (fun _ => .idle) 3 .loadEnd⟩ l s' ∧
      l.map Prod.fst = [.producer, .consumer 3] ∧ turns (E := Nat) .producer l < 5 ∧ turns (.consumer 3) l < 12 := by
  have hrun : Run (Turn id) ⟨⟨[none, none], 2, 1, 0, 0⟩, .loadEnd false 7, Function.update (fun _ => .idle) 3 .loadEnd⟩
      [(.producer, none), (.consumer 3, none)] _ :=
    .cons (.producer _ (by simp)) (.single (.consumer _ 3 false (by simp [producerTurn])))
  have hfree := try_wait_free 7 3 hrun
  exact ⟨_, _, hrun, rfl, hfree.1 rfl (by simp [history]), hfree.2 rfl (by simp [history])⟩

end A3Spmc
