import LibA3.Spmc.Fifo
import LibA3.Spmc.Index
import LibA3.Spmc.Orders

/-!
# The queue is a channel

That reads may be of old values does the queue no harm. Every write of a counter is a read-modify-write, so that a ticket is given
once; what an old `end` promises is still there; and an old value of a slot that the producer finds empty is the last one, as
it knows of its own last write there. The orders make the queue a channel with room for `cap` elements: what a producer knows
goes with its element, and what a consumer knows comes back with the free slot.

| here | there |
| --- | --- |
| `enq`, `taken` | the elements enqueued and the tickets returned so far, with what was known then |
| `H`            | how many tickets have been given |

* `channel_laws` — what the callers may rely on
-/

namespace A3Spmc.Orders

open Trans Weak

variable {E K : Type} {q : Queue E} {s s' : State E K} {mem mem' : Memory (Loc K) (Cell E)} {w w' : View (Loc K)}
  {enq : List (E × View (Loc K))} {taken : List (Nat × Option E × View (Loc K))} {H t : Nat}

/-! ## What is known -/

/-- The view has what the producer knew when the calls that enqueued the first `n` elements returned. -/
def Knows (enq : List (E × View (Loc K))) (w : View (Loc K)) (n : Nat) : Prop :=
  ∀ t < n, ∀ p, enq[t]? = some p → p.2 ≤ w

def Taken (taken : List (Nat × Option E × View (Loc K))) (t : Nat) : Prop := t ∈ taken.map Prod.fst

theorem Knows.mono {n n' : Nat} (h : Knows enq w n) (hle : w ≤ w') (hn : n' ≤ n) : Knows enq w' n' :=
  fun t ht p hp => (h t (Nat.lt_of_lt_of_le ht hn) p hp).trans hle

theorem lt_of_getElem? {α : Type} {l : List α} {a : α} (h : l[t]? = some a) : t < l.length := (List.getElem?_eq_some_iff.1 h).1

theorem getElem?_concat {α : Type} {l : List α} {a b : α} (h : (l ++ [a])[t]? = some b) :
    l[t]? = some b ∨ t = l.length ∧ b = a := by
  rcases Nat.lt_or_ge t l.length with hlt | hge
  · rw [List.getElem?_append_left hlt] at h
    exact Or.inl h
  · have hlen := lt_of_getElem? h
    rw [List.length_append, List.length_singleton] at hlen
    obtain rfl : t = l.length := by omega
    rw [List.getElem?_concat_length] at h
    exact Or.inr ⟨rfl, (Option.some.inj h).symm⟩

theorem Knows.concat {n : Nat} (h : Knows enq w n) (hn : n ≤ enq.length) (p : E × View (Loc K)) : Knows (enq ++ [p]) w n := by
  intro t ht p' hp'
  rw [List.getElem?_append_left (Nat.lt_of_lt_of_le ht hn)] at hp'
  exact h t ht p' hp'

/-- One element more. -/
theorem Knows.succ {p : E × View (Loc K)} (h : Knows enq w enq.length) (hp : p.2 ≤ w) :
    Knows (enq ++ [p]) w (enq.length + 1) := by
  intro t _ p' hp'
  rcases getElem?_concat hp' with hold | ⟨_, rfl⟩
  · exact h t (lt_of_getElem? hold) p' hold
  · exact hp

/-! ## `end` -/

/-- `end` counts the elements, each of its values goes with what the producer knew, and the producer reads the last one. -/
structure Ends (mem : Memory (Loc K) (Cell E)) (w : View (Loc K)) (enq : List (E × View (Loc K))) : Prop where
  counter : Counter (mem .end_) enq.length
  knows : ∀ m ∈ mem .end_, Knows enq m.view m.value
  own : ∀ m ∈ mem .end_, w .end_ ≤ m.time → m.value = enq.length

theorem Ends.mono (h : Ends mem w enq) (hle : w ≤ w') : Ends mem w' enq :=
  ⟨h.counter, h.knows, fun m hm hw => h.own m hm ((hle _).trans hw)⟩

theorem Ends.congr (h : Ends mem w enq) (hmem : mem' .end_ = mem .end_) : Ends mem' w enq := by
  obtain ⟨hcounter, hknows, hown⟩ := h
  rw [← hmem] at hcounter hknows hown
  exact ⟨hcounter, hknows, hown⟩

/-- The producer increments `end`. -/
theorem Ends.publish [DecidableEq K] {m : Message (Loc K) Nat} {elem : E} (h : Ends mem w enq) (hm : m ∈ mem .end_)
    (hfree : ∀ m' ∈ mem .end_, m'.time ≠ m.time + 1) (hw : m.time + 1 ≤ w' .end_) :
    Ends (Function.update mem .end_ (⟨m.time + 1, m.value + 1, w' ⊔ m.view⟩ :: mem .end_)) w' (enq ++ [(elem, w')]) := by
  obtain ⟨hlast, hvalue, hcounter⟩ := h.counter.rmw ⟨m.time + 1, m.value + 1, w' ⊔ m.view⟩ hm hfree rfl rfl
  constructor
  · rw [Function.update_self, List.length_append, List.length_singleton]
    exact hcounter
  · rw [Function.update_self]
    intro m' hm'
    rcases List.mem_cons.1 hm' with rfl | hm'
    · have hknows : Knows enq (w' ⊔ m.view) enq.length := (h.knows m hm).mono le_sup_right (Nat.le_of_eq hvalue.symm)
      have hsucc := hknows.succ (p := (elem, w')) le_sup_left
      rwa [← hvalue] at hsucc
    · exact (h.knows m' hm').concat (h.counter.le m' hm') _
  · rw [Function.update_self]
    intro m' hm' hle
    rw [List.length_append, List.length_singleton]
    rcases List.mem_cons.1 hm' with rfl | hm'
    · exact congrArg (· + 1) hvalue
    · have := hlast.time_le hm'
      omega

/-! ## `head` -/

/-- The ticket of a consumer that has got one. -/
def Holds : Consumer → Nat → Prop
  | .await head, t | .exchange head, t => head = t
  | _, _ => False

/-- `head` counts the tickets, each of which one consumer has got; it still has it or has returned with it. -/
structure Tickets (mem : Memory (Loc K) (Cell E)) (consumer : Nat → Thread K Consumer)
    (taken : List (Nat × Option E × View (Loc K))) (H : Nat) : Prop where
  counter : Counter (mem .head) H
  held : ∀ c t, Holds (consumer c).pc t → t < H ∧ ¬Taken taken t
  one : ∀ c c' t, Holds (consumer c).pc t → Holds (consumer c').pc t → c = c'
  lt : ∀ t, Taken taken t → t < H
  nodup : (taken.map Prod.fst).Nodup

variable {consumer : Nat → Thread K Consumer} {c : Nat} {thread : Thread K Consumer}

theorem Tickets.congr (h : Tickets mem consumer taken H) (hmem : mem' .head = mem .head) : Tickets mem' consumer taken H := by
  obtain ⟨hcounter, hheld, hone, hlt, hnodup⟩ := h
  rw [← hmem] at hcounter
  exact ⟨hcounter, hheld, hone, hlt, hnodup⟩

/-- A consumer that gets no ticket. -/
theorem Tickets.move (h : Tickets mem consumer taken H) (hpc : ∀ t, Holds thread.pc t → Holds (consumer c).pc t) :
    Tickets mem (Function.update consumer c thread) taken H := by
  have hold : ∀ c' t, Holds (Function.update consumer c thread c').pc t → Holds (consumer c').pc t := by
    intro c' t hheld
    by_cases hc : c' = c
    · subst hc
      rw [Function.update_self] at hheld
      exact hpc t hheld
    · rwa [Function.update_of_ne hc] at hheld
  exact {
    counter := h.counter
    held := fun c' t hheld => h.held c' t (hold c' t hheld)
    one := fun c1 c2 t h1 h2 => h.one c1 c2 t (hold c1 t h1) (hold c2 t h2)
    lt := h.lt
    nodup := h.nodup }

/-- A consumer gets the next ticket. -/
theorem Tickets.take (h : Tickets mem consumer taken H) (hcounter : Counter (mem' .head) (H + 1))
    (hpc : ∀ t, Holds thread.pc t → t = H) : Tickets mem' (Function.update consumer c thread) taken (H + 1) := by
  have hcases : ∀ c' t, Holds (Function.update consumer c thread c').pc t → c' = c ∧ t = H ∨ Holds (consumer c').pc t := by
    intro c' t hheld
    by_cases hc : c' = c
    · subst hc
      rw [Function.update_self] at hheld
      exact Or.inl ⟨rfl, hpc t hheld⟩
    · rw [Function.update_of_ne hc] at hheld
      exact Or.inr hheld
  have hfresh : ∀ c', ¬Holds (consumer c').pc H := fun c' hheld => Nat.lt_irrefl H (h.held c' H hheld).1
  exact {
    counter := hcounter
    held := fun c' t hheld => by
      rcases hcases c' t hheld with ⟨_, rfl⟩ | hold
      · exact ⟨Nat.lt_succ_self t, fun ht => Nat.lt_irrefl t (h.lt t ht)⟩
      · exact ⟨Nat.lt_succ_of_lt (h.held c' t hold).1, (h.held c' t hold).2⟩
    one := fun c1 c2 t h1 h2 => by
      rcases hcases c1 t h1 with ⟨hc1, ht1⟩ | hold1 <;> rcases hcases c2 t h2 with ⟨hc2, ht2⟩ | hold2
      · rw [hc1, hc2]
      · exact absurd (ht1 ▸ hold2) (hfresh c2)
      · exact absurd (ht2 ▸ hold1) (hfresh c1)
      · exact h.one c1 c2 t hold1 hold2
    lt := fun t ht => Nat.lt_succ_of_lt (h.lt t ht)
    nodup := h.nodup }

/-- A consumer returns with its ticket. -/
theorem Tickets.give {v : Option E} (h : Tickets mem consumer taken H) (hheld : Holds (consumer c).pc t)
    (hpc : ∀ t, ¬Holds thread.pc t) :
    Tickets mem (Function.update consumer c thread) (taken ++ [(t, v, w)]) H := by
  have hmap : (taken ++ [(t, v, w)]).map Prod.fst = taken.map Prod.fst ++ [t] := by rw [List.map_append, List.map_singleton]
  have hold : ∀ c' t', Holds (Function.update consumer c thread c').pc t' → c' ≠ c ∧ Holds (consumer c').pc t' := by
    intro c' t' hheld'
    by_cases hc : c' = c
    · subst hc
      rw [Function.update_self] at hheld'
      exact absurd hheld' (hpc t')
    · rw [Function.update_of_ne hc] at hheld'
      exact ⟨hc, hheld'⟩
  exact {
    counter := h.counter
    held := fun c' t' hheld' => by
      obtain ⟨hne, hheld'⟩ := hold c' t' hheld'
      refine ⟨(h.held c' t' hheld').1, fun ht => ?_⟩
      rw [Taken, hmap, List.mem_append, List.mem_singleton] at ht
      rcases ht with ht | rfl
      · exact (h.held c' t' hheld').2 ht
      · exact hne (h.one c' c t' hheld' hheld)
    one := fun c1 c2 t' h1 h2 => h.one c1 c2 t' (hold c1 t' h1).2 (hold c2 t' h2).2
    lt := fun t' ht => by
      rw [Taken, hmap, List.mem_append, List.mem_singleton] at ht
      rcases ht with ht | rfl
      · exact h.lt t' ht
      · exact (h.held c t' hheld).1
    nodup := by
      rw [hmap, ← List.concat_eq_append]
      exact h.nodup.concat (h.held c t hheld).2 }

/-! ## The slots -/

/-- An empty slot that the producer reads is really empty, and the element of each ticket that is still out is in a slot of its
own. A slot carries what the consumers knew that have emptied it. -/
structure Slots (q : Queue E) (mem : Memory (Loc K) (Cell E)) (w : View (Loc K)) (enq : List (E × View (Loc K)))
    (taken : List (Nat × Option E × View (Loc K))) : Prop where
  free : ∀ i m, m ∈ mem (.data i) → w (.data i) ≤ m.time → m.value = none → Last (mem (.data i)) m
  full : ∀ t p, enq[t]? = some p → ¬Taken taken t →
    ∃ m, Last (mem (.data (index q t))) m ∧ m.value = some p.1 ∧ m.time ≤ p.2 (.data (index q t))
  apart : ∀ t t', t < enq.length → t' < enq.length → ¬Taken taken t → ¬Taken taken t' → index q t = index q t' → t = t'
  handed : ∀ i m, Last (mem (.data i)) m → ∀ p ∈ taken, index q p.1 = i → p.2.2 ≤ m.view

theorem index_cap {k : Nat} (hcap : q.cap = 2 ^ k) (hmask : q.mask = 2 ^ k - 1) (t : Nat) : index q (t + q.cap) = index q t := by
  rw [index_mod hmask, index_mod hmask, hcap, Nat.add_mod_right]

theorem Slots.mono (h : Slots q mem w enq taken) (hle : w ≤ w') : Slots q mem w' enq taken :=
  { h with free := fun i m hm hw => h.free i m hm ((hle _).trans hw) }

theorem Slots.congr (h : Slots q mem w enq taken) (hmem : ∀ i, mem' (.data i) = mem (.data i)) : Slots q mem' w enq taken := by
  obtain ⟨hfree, hfull, hapart, hhanded⟩ := h
  simp only [← hmem] at hfree hfull hhanded
  exact ⟨hfree, hfull, hapart, hhanded⟩

/-- No ticket that is still out has an empty slot. -/
theorem Slots.taken_of_empty {i : Nat} {m : Message (Loc K) (Option E)} (h : Slots q mem w enq taken)
    (hlast : Last (mem (.data i)) m) (hempty : m.value = none) (ht : t < enq.length) (hi : index q t = i) : Taken taken t := by
  by_contra hout
  subst hi
  obtain ⟨m', hlast', hvalue, _⟩ := h.full t _ (List.getElem?_eq_getElem ht) hout
  rw [hlast'.unique hlast, hempty] at hvalue
  cases hvalue

/-- The producer stores an element into an empty slot. -/
theorem Slots.store [DecidableEq K] {i t : Nat} {m : Message (Loc K) (Option E)} {elem : E} (h : Slots q mem w enq taken)
    (hlast : Last (mem (.data i)) m) (hempty : m.value = none) (hlt : m.time < t) (hw : t ≤ w' (.data i)) (hle : w ≤ w')
    (hview : m.view ≤ w') :
    Slots q (Function.update mem (.data i) (⟨t, some elem, w'⟩ :: mem (.data i))) w' enq taken := by
  have hlast' : Last ((⟨t, some elem, w'⟩ : Message (Loc K) (Option E)) :: mem (.data i)) ⟨t, some elem, w'⟩ := hlast.cons hlt
  constructor
  · intro j m' hm' hle' hnone
    by_cases hj : j = i
    · subst hj
      rw [Function.update_self] at hm'
      rcases List.mem_cons.1 hm' with rfl | hm'
      · cases hnone
      · have := hlast.time_le hm'
        omega
    · have hne : (Loc.data j : Loc K) ≠ .data i := fun heq => hj (Loc.data.inj heq)
      rw [Function.update_of_ne hne] at hm' ⊢
      exact h.free j m' hm' ((hle _).trans hle') hnone
  · intro t' p hp hout
    have hj : index q t' ≠ i := fun heq => hout (h.taken_of_empty hlast hempty (lt_of_getElem? hp) heq)
    have hne : (Loc.data (index q t') : Loc K) ≠ .data i := fun heq => hj (Loc.data.inj heq)
    rw [Function.update_of_ne hne]
    exact h.full t' p hp hout
  · exact h.apart
  · intro j m' hm' p hp hindex
    by_cases hj : j = i
    · subst hj
      rw [Function.update_self] at hm'
      rw [hm'.unique hlast']
      exact (h.handed _ m hlast p hp hindex).trans hview
    · have hne : (Loc.data j : Loc K) ≠ .data i := fun heq => hj (Loc.data.inj heq)
      rw [Function.update_of_ne hne] at hm'
      exact h.handed j m' hm' p hp hindex

/-- The element in the slot is counted. -/
theorem Slots.publish {m : Message (Loc K) (Option E)} {elem : E} (h : Slots q mem w enq taken)
    (hlast : Last (mem (.data (index q enq.length))) m) (hvalue : m.value = some elem)
    (hw : m.time ≤ w' (.data (index q enq.length)))
    (halone : ∀ t < enq.length, index q t = index q enq.length → Taken taken t) :
    Slots q mem w (enq ++ [(elem, w')]) taken := by
  constructor
  · exact h.free
  · intro t p hp hout
    rcases getElem?_concat hp with hold | ⟨rfl, rfl⟩
    · exact h.full t p hold hout
    · exact ⟨m, hlast, hvalue, hw⟩
  · intro t t' ht ht' hout hout' hindex
    rw [List.length_append, List.length_singleton] at ht ht'
    rcases Nat.lt_or_ge t enq.length with hlt | hge <;> rcases Nat.lt_or_ge t' enq.length with hlt' | hge'
    · exact h.apart t t' hlt hlt' hout hout' hindex
    · obtain rfl : t' = enq.length := by omega
      exact absurd (halone t hlt hindex) hout
    · obtain rfl : t = enq.length := by omega
      exact absurd (halone t' hlt' hindex.symm) hout'
    · omega
  · exact h.handed

/-- A consumer empties the slot of its ticket. -/
theorem Slots.empty [DecidableEq K] {m : Message (Loc K) (Option E)} {v : Option E} {w' : View (Loc K)} {p : E × View (Loc K)}
    (h : Slots q mem w enq taken) (hp : enq[t]? = some p) (hout : ¬Taken taken t) (hlast : Last (mem (.data (index q t))) m) :
    Slots q (Function.update mem (.data (index q t)) (⟨m.time + 1, none, w' ⊔ m.view⟩ :: mem (.data (index q t)))) w enq
      (taken ++ [(t, v, w')]) := by
  have hlast' : Last ((⟨m.time + 1, none, w' ⊔ m.view⟩ : Message (Loc K) (Option E)) :: mem (.data (index q t)))
      ⟨m.time + 1, none, w' ⊔ m.view⟩ := hlast.cons (Nat.lt_succ_self _)
  have hvalue : m.value = some p.1 := by
    obtain ⟨m', hm', hvalue, _⟩ := h.full t p hp hout
    rwa [hm'.unique hlast] at hvalue
  have hkeep : ∀ t', ¬Taken (taken ++ [(t, v, w')]) t' → ¬Taken taken t' ∧ t' ≠ t := by
    intro t' hout'
    rw [Taken, List.map_append, List.map_singleton, List.mem_append, List.mem_singleton] at hout'
    exact ⟨fun ht => hout' (Or.inl ht), fun ht => hout' (Or.inr ht)⟩
  constructor
  · intro j m' hm' hle hnone
    by_cases hj : j = index q t
    · subst hj
      rw [Function.update_self] at hm' ⊢
      rcases List.mem_cons.1 hm' with rfl | hm'
      · exact hlast'
      · -- the last one before was not empty
        have hold := (h.free _ m' hm' hle hnone).unique hlast
        rw [hold, hvalue] at hnone
        cases hnone
    · have hne : (Loc.data j : Loc K) ≠ .data (index q t) := fun heq => hj (Loc.data.inj heq)
      rw [Function.update_of_ne hne] at hm' ⊢
      exact h.free j m' hm' hle hnone
  · intro t' p' hp' hout'
    obtain ⟨hout1, hne'⟩ := hkeep t' hout'
    have hj : index q t' ≠ index q t := fun heq => hne' (h.apart t' t (lt_of_getElem? hp') (lt_of_getElem? hp) hout1 hout heq)
    have hne : (Loc.data (index q t') : Loc K) ≠ .data (index q t) := fun heq => hj (Loc.data.inj heq)
    rw [Function.update_of_ne hne]
    exact h.full t' p' hp' hout1
  · exact fun t1 t2 h1 h2 hout1 hout2 => h.apart t1 t2 h1 h2 (hkeep t1 hout1).1 (hkeep t2 hout2).1
  · intro j m' hm' p' hp' hindex
    by_cases hj : j = index q t
    · subst hj
      rw [Function.update_self] at hm'
      rw [hm'.unique hlast']
      rcases List.mem_append.1 hp' with hp' | hp'
      · exact (h.handed _ m hlast p' hp' hindex).trans le_sup_right
      · rw [List.mem_singleton.1 hp']
        exact le_sup_left
    · have hne : (Loc.data j : Loc K) ≠ .data (index q t) := fun heq => hj (Loc.data.inj heq)
      rw [Function.update_of_ne hne] at hm'
      rcases List.mem_append.1 hp' with hp' | hp'
      · exact h.handed j m' hm' p' hp' hindex
      · rw [List.mem_singleton.1 hp'] at hindex
        exact absurd hindex.symm hj

theorem data_ne_head (i : Nat) : (Loc.data i : Loc K) ≠ .head := by
  intro h
  cases h

theorem data_ne_end (i : Nat) : (Loc.data i : Loc K) ≠ .end_ := by
  intro h
  cases h

theorem head_ne_end : (Loc.head : Loc K) ≠ .end_ := by
  intro h
  cases h

/-! ## The laws -/

/-- A ticket gets its element and what the producer knew, and the element `cap` later knows what the ticket's consumer knew. -/
structure Laws (q : Queue E) (enq : List (E × View (Loc K))) (taken : List (Nat × Option E × View (Loc K))) : Prop where
  gets : ∀ p ∈ taken, ∃ x w, enq[p.1]? = some (x, w) ∧ p.2.1 = some x ∧ w ≤ p.2.2
  room : ∀ t p, enq[t + q.cap]? = some p → ∃ p' ∈ taken, p'.1 = t ∧ p'.2.2 ≤ p.2

theorem Laws.publish {p : E × View (Loc K)} (h : Laws q enq taken)
    (hroom : ∀ t, t + q.cap = enq.length → ∃ p' ∈ taken, p'.1 = t ∧ p'.2.2 ≤ p.2) : Laws q (enq ++ [p]) taken := by
  constructor
  · intro p' hp'
    obtain ⟨x, w, hget, hrest⟩ := h.gets p' hp'
    exact ⟨x, w, by rw [List.getElem?_append_left (lt_of_getElem? hget), hget], hrest⟩
  · intro t p' hp'
    rcases getElem?_concat hp' with hold | ⟨hlen, rfl⟩
    · exact h.room t p' hold
    · exact hroom t hlen

theorem Laws.give {p : E × View (Loc K)} (h : Laws q enq taken) (hp : enq[t]? = some p) (hle : p.2 ≤ w) :
    Laws q enq (taken ++ [(t, some p.1, w)]) := by
  constructor
  · intro p' hp'
    rcases List.mem_append.1 hp' with hp' | hp'
    · exact h.gets p' hp'
    · rw [List.mem_singleton.1 hp']
      exact ⟨p.1, p.2, hp, rfl, hle⟩
  · intro t' p' hp'
    obtain ⟨p1, hmem, hrest⟩ := h.room t' p' hp'
    exact ⟨p1, List.mem_append_left _ hmem, hrest⟩

/-! ## The invariant -/

/-- What the producer has found out. -/
def ProducerOk (q : Queue E) (mem : Memory (Loc K) (Cell E)) (enq : List (E × View (Loc K)))
    (taken : List (Nat × Option E × View (Loc K))) (w : View (Loc K)) : Producer E → Prop
  | .idle | .loadEnd _ _ => True
  | .loadHead _ _ end_ | .loadSlot _ _ end_ => end_ = enq.length
  | .store _ end_ => end_ = enq.length ∧ ∃ m, Last (mem (.data (index q end_))) m ∧ m.value = none ∧
      m.time ≤ w (.data (index q end_)) ∧ m.view ≤ w
  | .fetchAdd elem end_ => end_ = enq.length ∧
      (∃ m, Last (mem (.data (index q end_))) m ∧ m.value = some elem ∧ m.time ≤ w (.data (index q end_))) ∧
      (∀ t < end_, index q t = index q end_ → Taken taken t) ∧
      (∀ t, t + q.cap = end_ → ∃ p ∈ taken, p.1 = t ∧ p.2.2 ≤ w)

/-- What a consumer has found out. -/
def ConsumerOk (enq : List (E × View (Loc K))) (w : View (Loc K)) : Consumer → Prop
  | .idle | .loadEnd | .fetchAdd | .await _ => True
  | .loadHead end_ => end_ ≤ enq.length ∧ Knows enq w end_
  | .compareExchange end_ head _ => head < end_ ∧ end_ ≤ enq.length ∧ Knows enq w end_
  | .reload _ _ => False
  | .exchange head => head < enq.length ∧ Knows enq w (head + 1)

structure Inv (q : Queue E) (s : State E K) (enq : List (E × View (Loc K)))
    (taken : List (Nat × Option E × View (Loc K))) (H : Nat) : Prop where
  ends : Ends s.mem s.producer.view enq
  tickets : Tickets s.mem s.consumer taken H
  slots : Slots q s.mem s.producer.view enq taken
  laws : Laws q enq taken
  producer : ProducerOk q s.mem enq taken s.producer.view s.producer.pc
  consumer : ∀ c, ConsumerOk enq (s.consumer c).view (s.consumer c).pc

theorem ConsumerOk.concat {pc : Consumer} (h : ConsumerOk enq w pc) (p : E × View (Loc K)) : ConsumerOk (enq ++ [p]) w pc := by
  have hlen : enq.length ≤ (enq ++ [p]).length := by rw [List.length_append]; omega
  cases pc with
  | idle | loadEnd | fetchAdd | await => trivial
  | loadHead end_ => exact ⟨h.1.trans hlen, h.2.concat h.1 p⟩
  | compareExchange end_ head i => exact ⟨h.1, h.2.1.trans hlen, h.2.2.concat h.2.1 p⟩
  | reload => exact h
  | exchange head => exact ⟨Nat.lt_of_lt_of_le h.1 hlen, h.2.concat h.1 p⟩

/-- Whether the head of the loop of `a3_spmc_try_dequeue` goes on or not. -/
theorem ConsumerOk.retry {end_ head i : Nat} (hle : end_ ≤ enq.length) (hknows : Knows enq w end_) :
    ConsumerOk enq w (retry end_ head i) := by
  unfold A3Spmc.retry
  split
  · split
    · trivial
    · exact ⟨by omega, hle, hknows⟩
  · trivial

theorem not_holds_retry {end_ head i t : Nat} : ¬Holds (retry end_ head i) t := by
  unfold A3Spmc.retry
  split
  · split <;> exact id
  · exact id

/-- The producer does not see the slot of a ticket that is still out, nor the other locations. -/
theorem ProducerOk.frame {pc : Producer E} {taken' : List (Nat × Option E × View (Loc K))} (h : ProducerOk q mem enq taken w pc)
    (htaken : ∀ p ∈ taken, p ∈ taken')
    (hmem : ∀ i, ((∀ m, Last (mem (.data i)) m → m.value = none) ∨ ∀ t < enq.length, index q t = i → Taken taken t) →
      mem' (.data i) = mem (.data i)) : ProducerOk q mem' enq taken' w pc := by
  cases pc with
  | idle | loadEnd => trivial
  | loadHead | loadSlot => exact h
  | store elem end_ =>
    obtain ⟨hend, m, hlast, hnone, hrest⟩ := h
    refine ⟨hend, m, ?_, hnone, hrest⟩
    rwa [hmem _ (Or.inl fun m' hm' => by rw [hm'.unique hlast, hnone])]
  | fetchAdd elem end_ =>
    obtain ⟨hend, ⟨m, hlast, hrest⟩, halone, hroom⟩ := h
    refine ⟨hend, ⟨m, ?_, hrest⟩, fun t ht hindex => ?_, fun t ht => ?_⟩
    · rwa [hmem _ (Or.inr fun t ht => halone t (hend ▸ ht))]
    · obtain ⟨p, hp, hpt⟩ := List.mem_map.1 (halone t ht hindex)
      exact List.mem_map.2 ⟨p, htaken p hp, hpt⟩
    · obtain ⟨p, hp, hpt⟩ := hroom t ht
      exact ⟨p, htaken p hp, hpt⟩

theorem inv_start (q : Queue E) : Inv q (start E K) [] [] 0 := by
  have hlast : ∀ {α : Type} {v : α} (m : Message (Loc K) α), m ∈ [(⟨0, v, fun _ => 0⟩ : Message (Loc K) α)] →
      m = ⟨0, v, fun _ => 0⟩ := fun m hm => List.mem_singleton.1 hm
  have honly : ∀ {α : Type} (m : Message (Loc K) α), Last [m] m := fun m =>
    ⟨List.mem_singleton.2 rfl, fun m' hm' hne => absurd (List.mem_singleton.1 hm') hne⟩
  have hcounter : Counter [(⟨0, 0, fun _ => 0⟩ : Message (Loc K) Nat)] 0 := by
    refine ⟨fun m hm => Or.inl ?_, fun m hm => ?_, fun m hm => ?_⟩
    · rw [hlast m hm]
      exact honly _
    · rw [hlast m hm]
    · rw [hlast m hm.1]
  exact {
    ends :=
      { counter := hcounter
        knows := fun m hm t ht => by rw [hlast m hm] at ht; exact absurd ht (Nat.not_lt_zero t)
        own := fun m hm _ => by rw [hlast m hm]; rfl }
    tickets := ⟨hcounter, fun c t ht => ht.elim, fun c c' t ht => ht.elim, fun t ht => absurd ht List.not_mem_nil, List.nodup_nil⟩
    slots :=
      { free := fun i m hm _ _ => by rw [hlast m hm]; exact honly _
        full := fun t p hp => nomatch hp
        apart := fun t t' ht => absurd ht (Nat.not_lt_zero t)
        handed := fun i m _ p hp => absurd hp List.not_mem_nil }
    laws := ⟨fun p hp => absurd hp List.not_mem_nil, fun t p hp => nomatch hp⟩
    producer := trivial
    consumer := fun c => trivial }

/-! ## Steps of the producer -/

/-- The producer comes to know more, or finds something out. -/
theorem Inv.look {pc : Producer E} (h : Inv q s enq taken H) (hle : s.producer.view ≤ w)
    (hok : ProducerOk q s.mem enq taken w pc) :
    Inv q { s with producer := ⟨pc, w⟩ } enq taken H :=
  { ends := h.ends.mono hle
    tickets := h.tickets
    slots := h.slots.mono hle
    laws := h.laws
    producer := hok
    consumer := h.consumer }

/-- **An access of the producer** -/
theorem Inv.producerAccess [DecidableEq K] {r : Request E K (Producer E)} {v : Cell E r.loc} (h : Inv q s enq taken H)
    (hcap : ∀ t, index q (t + q.cap) = index q t) (hpos : 0 < q.cap) (hr : producerRequest q s.producer.pc = some r)
    (haccess : Access s.mem s.producer.view r.loc r.act v mem w) :
    Inv q { s with mem := mem, producer := ⟨r.resume v, w⟩ } (enq ++ (r.shown v w).element.toList)
      (taken ++ (r.shown v w).taking.toList) H := by
  have hle := haccess.view_le
  have hother : ∀ l, l ≠ r.loc → mem l = s.mem l := fun _ => haccess.other
  have hok := h.producer
  cases hpc : s.producer.pc with
  | idle =>
    rw [hpc] at hr
    cases hr
  | loadEnd blocking elem =>
    rw [hpc] at hr
    cases hr
    obtain ⟨m, hm, hread, rfl, rfl, rfl⟩ := haccess.of_load
    simp only [Event.element, Event.taking, Option.toList_none, List.append_nil]
    exact h.look hle (h.ends.own m hm hread)
  | loadHead blocking elem end_ =>
    rw [hpc] at hr hok
    cases hr
    obtain ⟨m, hm, hread, rfl, rfl, rfl⟩ := haccess.of_load
    simp only [Event.element, Event.taking, Option.toList_none, List.append_nil]
    refine h.look hle ?_
    split
    · split
      · exact hok
      · trivial
    · exact hok
  | loadSlot blocking elem end_ =>
    rw [hpc] at hr hok
    cases hr
    obtain ⟨m, hm, hread, rfl, rfl, rfl⟩ := haccess.of_load
    simp only [Event.element, Event.taking, Option.toList_none, List.append_nil]
    refine h.look hle ?_
    cases hvalue : m.value with
    | some x =>
      cases blocking with
      | true => exact hok
      | false => trivial
    | none => exact ⟨hok, m, h.slots.free _ m hm hread hvalue, hvalue, time_le_afterRead _ _ _ _, view_le_afterRead _ _ rfl _⟩
  | store elem end_ =>
    rw [hpc] at hr hok
    cases hr
    obtain ⟨rfl, m, hlast, hempty, hknown, hview⟩ := hok
    obtain ⟨t, hlt, rfl, rfl⟩ := haccess.of_store
    simp only [Event.element, Event.taking, Option.toList_none, List.append_nil]
    rw [carried_of_releases rfl]
    exact {
      ends := (h.ends.mono hle).congr (hother .end_ (data_ne_end _).symm)
      tickets := h.tickets.congr (hother .head (data_ne_head _).symm)
      slots := h.slots.store hlast hempty (Nat.lt_of_le_of_lt hknown hlt) (time_le_know _ _ _) hle (hview.trans hle)
      laws := h.laws
      producer := by
        refine ⟨rfl, ⟨_, hlast.update (Nat.lt_of_le_of_lt hknown hlt), rfl, time_le_know _ _ _⟩,
          fun t' ht hindex => ?_, fun t' ht => ?_⟩
        · exact h.slots.taken_of_empty hlast hempty ht hindex
        · have hindex : index q t' = index q enq.length := by rw [← ht, hcap]
          obtain ⟨p, hp, hpt⟩ := List.mem_map.1 (h.slots.taken_of_empty hlast hempty (by omega) hindex)
          exact ⟨p, hp, hpt, ((h.slots.handed _ m hlast p hp (by rw [hpt, hindex])).trans hview).trans hle⟩
      consumer := h.consumer }
  | fetchAdd elem end_ =>
    rw [hpc] at hr hok
    cases hr
    obtain ⟨rfl, ⟨ms, hlast, hvalue, hknown⟩, halone, hroom⟩ := hok
    obtain ⟨m, hm, hread, rfl, ⟨u, hu, hfree, hw, rfl⟩ | ⟨hu, _⟩⟩ := haccess.of_rmw
    · cases hu
      simp only [Event.element, Event.taking, Option.toList_none, Option.toList_some, List.append_nil]
      rw [carried_of_releases rfl]
      have htime : m.time + 1 ≤ w .end_ := by rw [hw]; exact time_le_know _ _ _
      exact {
        ends := h.ends.publish hm hfree htime
        tickets := h.tickets.congr (hother .head head_ne_end)
        slots := ((h.slots.publish hlast hvalue (hknown.trans (hle _)) halone).mono hle).congr fun i =>
          hother (.data i) (data_ne_end i)
        laws := h.laws.publish fun t ht => by
          obtain ⟨p, hp, hpt, hpw⟩ := hroom t ht
          exact ⟨p, hp, hpt, hpw.trans hle⟩
        producer := trivial
        consumer := fun c => (h.consumer c).concat _ }
    · cases hu

/-! ## Steps of the consumers -/

theorem consumerOk_update {thread : Thread K Consumer} {c : Nat} (h : ∀ c, ConsumerOk enq (s.consumer c).view (s.consumer c).pc)
    (hok : ConsumerOk enq thread.view thread.pc) (c' : Nat) :
    ConsumerOk enq (Function.update s.consumer c thread c').view (Function.update s.consumer c thread c').pc := by
  by_cases hc : c' = c
  · subst hc
    rwa [Function.update_self]
  · rw [Function.update_of_ne hc]
    exact h c'

/-- A consumer finds something out. -/
theorem Inv.observe {c : Nat} {pc : Consumer} (h : Inv q s enq taken H) (hok : ConsumerOk enq w pc)
    (hpc : ∀ t, Holds pc t → Holds (s.consumer c).pc t) : Inv q (s.setConsumer c ⟨pc, w⟩) enq taken H :=
  { ends := h.ends
    tickets := h.tickets.move hpc
    slots := h.slots
    laws := h.laws
    producer := h.producer
    consumer := consumerOk_update h.consumer hok }

/-- A consumer gets the next ticket. -/
theorem Inv.ticket {c : Nat} {pc : Consumer} (h : Inv q s enq taken H) (hother : ∀ l, l ≠ .head → mem l = s.mem l)
    (hcounter : Counter (mem .head) (H + 1)) (hok : ConsumerOk enq w pc) (hpc : ∀ t, Holds pc t → t = H) :
    Inv q { s.setConsumer c ⟨pc, w⟩ with mem := mem } enq taken (H + 1) :=
  { ends := h.ends.congr (hother .end_ head_ne_end.symm)
    tickets := h.tickets.take hcounter hpc
    slots := h.slots.congr fun i => hother (.data i) (data_ne_head i)
    laws := h.laws
    producer := h.producer.frame (fun _ hp => hp) fun i _ => hother (.data i) (data_ne_head i)
    consumer := consumerOk_update h.consumer hok }

variable [DecidableEq K]

/-- **An access of a consumer** -/
theorem Inv.consumerAccess {c : Nat} {r : Request E K Consumer} {v : Cell E r.loc} (h : Inv q s enq taken H)
    (hr : consumerRequest q (s.consumer c).pc = some r) (haccess : Access s.mem (s.consumer c).view r.loc r.act v mem w) :
    ∃ H', Inv q { s.setConsumer c ⟨r.resume v, w⟩ with mem := mem } (enq ++ (r.shown v w).element.toList)
      (taken ++ (r.shown v w).taking.toList) H' := by
  have hle := haccess.view_le
  have hother : ∀ l, l ≠ r.loc → mem l = s.mem l := fun _ => haccess.other
  have hok := h.consumer c
  have hheld := h.tickets.held c
  cases hpc : (s.consumer c).pc with
  | idle | reload =>
    rw [hpc] at hr
    cases hr
  | loadEnd =>
    rw [hpc] at hr
    cases hr
    obtain ⟨m, hm, hread, rfl, rfl, rfl⟩ := haccess.of_load
    simp only [Event.element, Event.taking, Option.toList_none, List.append_nil]
    refine ⟨H, h.observe ⟨h.ends.counter.le m hm, ?_⟩ fun _ => False.elim⟩
    exact (h.ends.knows m hm).mono (view_le_afterRead _ _ rfl m) (Nat.le_refl _)
  | loadHead end_ =>
    rw [hpc] at hr hok
    cases hr
    obtain ⟨m, hm, hread, rfl, rfl, rfl⟩ := haccess.of_load
    simp only [Event.element, Event.taking, Option.toList_none, List.append_nil]
    exact ⟨H, h.observe (.retry hok.1 (hok.2.mono hle (Nat.le_refl _))) fun _ hheld => absurd hheld not_holds_retry⟩
  | compareExchange end_ head i =>
    rw [hpc] at hr hok
    cases hr
    obtain ⟨hlt, hend, hknows⟩ := hok
    obtain ⟨m, hm, hread, rfl, ⟨u, hu, hfree, hw, rfl⟩ | ⟨hu, rfl, hw⟩⟩ := haccess.of_rmw
    · by_cases hhead : m.value = head
      · rw [if_pos hhead] at hu
        cases hu
        obtain ⟨_, hvalue, hcounter⟩ := h.tickets.counter.rmw ⟨m.time + 1, head + 1, carried w .acqRel ⊔ m.view⟩ hm hfree rfl
          (congrArg (· + 1) hhead.symm)
        simp only [Event.element, Event.taking, Option.toList_none, List.append_nil, if_pos hhead]
        refine ⟨H + 1, h.ticket hother ?_ ⟨Nat.lt_of_lt_of_le hlt hend, hknows.mono hle hlt⟩ fun t ht =>
          ht.symm.trans (hhead.symm.trans hvalue)⟩
        rwa [Function.update_self]
      · rw [if_neg hhead] at hu
        cases hu
    · have hhead : m.value ≠ head := fun heq => by
        rw [if_pos heq] at hu
        cases hu
      simp only [Event.element, Event.taking, Option.toList_none, List.append_nil, if_neg hhead]
      exact ⟨H, h.observe (.retry hend (hknows.mono hle (Nat.le_refl _))) fun _ hheld => absurd hheld not_holds_retry⟩
  | fetchAdd =>
    rw [hpc] at hr
    cases hr
    obtain ⟨m, hm, hread, rfl, ⟨u, hu, hfree, hw, rfl⟩ | ⟨hu, _⟩⟩ := haccess.of_rmw
    · cases hu
      obtain ⟨_, hvalue, hcounter⟩ := h.tickets.counter.rmw ⟨m.time + 1, m.value + 1, carried w .acqRel ⊔ m.view⟩ hm hfree rfl rfl
      simp only [Event.element, Event.taking, Option.toList_none, List.append_nil]
      refine ⟨H + 1, h.ticket hother ?_ trivial fun t ht => ht.symm.trans hvalue⟩
      rwa [Function.update_self]
    · cases hu
  | await head =>
    rw [hpc] at hr
    cases hr
    obtain ⟨m, hm, hread, rfl, rfl, rfl⟩ := haccess.of_load
    simp only [Event.element, Event.taking, Option.toList_none, List.append_nil]
    refine ⟨H, ?_⟩
    by_cases hwait : head ≥ m.value
    · simp only [if_pos hwait]
      exact h.observe trivial fun t ht => by rwa [hpc]
    · simp only [if_neg hwait]
      refine h.observe ⟨?_, ?_⟩ fun t ht => by rwa [hpc]
      · have := h.ends.counter.le m hm
        omega
      · exact (h.ends.knows m hm).mono (view_le_afterRead _ _ rfl m) (Nat.lt_of_not_ge hwait)
  | exchange head =>
    rw [hpc] at hr hok hheld
    cases hr
    obtain ⟨hlt, hknows⟩ := hok
    obtain ⟨_, hout⟩ := hheld head rfl
    have hget := List.getElem?_eq_getElem hlt
    obtain ⟨ms, hlast, hvalue, htime⟩ := h.slots.full head _ hget hout
    obtain ⟨m, hm, hread, rfl, ⟨u, hu, hfree, hw, rfl⟩ | ⟨hu, _⟩⟩ := haccess.of_rmw
    · cases hu
      -- the element has not been overwritten, and nothing older can be read
      have hseen : ms.time ≤ m.time := htime.trans ((hknows head (Nat.lt_succ_self head) _ hget _).trans hread)
      obtain rfl : m = ms := hlast.eq_of_le hm hseen
      simp only [Event.element, Event.taking, Option.toList_none, Option.toList_some, List.append_nil]
      rw [carried_of_releases rfl, hvalue]
      refine ⟨H, ?_⟩
      exact {
        ends := h.ends.congr (hother .end_ (data_ne_end _).symm)
        tickets := (h.tickets.give (c := c) (by rw [hpc]; rfl) fun t => id).congr (hother .head (data_ne_head _).symm)
        slots := h.slots.empty hget hout hlast
        laws := h.laws.give hget ((hknows head (Nat.lt_succ_self head) _ hget).trans hle)
        producer := h.producer.frame (fun _ hp => List.mem_append_left _ hp) fun i hi => by
          by_cases heq : i = index q head
          · subst heq
            rcases hi with hempty | htaken
            · rw [hempty m hlast] at hvalue
              cases hvalue
            · exact absurd (htaken head hlt rfl) hout
          · exact hother (.data i) fun hdata => heq (Loc.data.inj hdata)
        consumer := consumerOk_update h.consumer trivial }
    · cases hu

/-! ## Runs -/

theorem Inv.step {ev : Event E K} (h : Inv q s enq taken H) (hcap : ∀ t, index q (t + q.cap) = index q t) (hpos : 0 < q.cap)
    (hstep : Step q s ev s') : ∃ H', Inv q s' (enq ++ ev.element.toList) (taken ++ ev.taking.toList) H' := by
  cases hstep with
  | enqueue blocking elem _ =>
    simp only [Event.element, Event.taking, Option.toList_none, List.append_nil]
    exact ⟨H, h.look (le_refl _) trivial⟩
  | producer r v mem view hr haccess => exact ⟨H, h.producerAccess hcap hpos hr haccess⟩
  | learn view _ hle =>
    simp only [Event.element, Event.taking, Option.toList_none, List.append_nil]
    exact ⟨H, h.look hle trivial⟩
  | dequeue c blocking _ =>
    simp only [Event.element, Event.taking, Option.toList_none, List.append_nil]
    refine ⟨H, h.observe ?_ fun t ht => ?_⟩
    · cases blocking <;> trivial
    · cases blocking <;> exact ht.elim
  | consumer c r v mem view hr haccess => exact h.consumerAccess hr haccess
  | consumerLearn c view _ hle =>
    simp only [Event.element, Event.taking, Option.toList_none, List.append_nil]
    exact ⟨H, h.observe trivial fun t ht => ht.elim⟩

theorem inv_run {l : List (Event E K)} (hcap : ∀ t, index q (t + q.cap) = index q t) (hpos : 0 < q.cap)
    (hrun : Run (Step q) (start E K) l s) : ∃ H, Inv q s (enqueued l) (returned l) H := by
  have hstart : ∃ H, Inv q (start E K) (enqueued []) (returned []) H := ⟨0, inv_start q⟩
  refine hrun.invariant_trace (P := fun s l => ∃ H, Inv q s (enqueued l) (returned l) H) ?_ hstart
  rintro s l ev s' ⟨H, hinv⟩ hstep
  obtain ⟨H', hinv'⟩ := hinv.step hcap hpos hstep
  refine ⟨H', ?_⟩
  rwa [enqueued, List.filterMap_append, returned, List.filterMap_append]

/-- **The queue is a channel with room for `cap` elements**, with the memory orders that its accesses are made in. A consumer that
returns with ticket `t` returns the element enqueued as number `t`, and knows all that the producer knew when it had
enqueued it; no ticket is returned twice; and when the producer has enqueued element `t + cap` it knows all that the
consumer with ticket `t` knew when it returned. -/
theorem channel_laws (E K : Type) [DecidableEq K] (cap : Nat) : ∃ q : Queue E, init id cap = some q ∧ cap ≤ q.cap ∧
    ∀ (l : List (Event E K)) (s : State E K), Run (Step q) (start E K) l s →
      (∀ t v w, (t, v, w) ∈ returned l → ∃ x w0, (enqueued l)[t]? = some (x, w0) ∧ v = some x ∧ w0 ≤ w) ∧
      ((returned l).map Prod.fst).Nodup ∧
      ∀ t x w, (enqueued l)[t + q.cap]? = some (x, w) → ∃ v w', (t, v, w') ∈ returned l ∧ w' ≤ w := by
  obtain ⟨k, hle, hinit⟩ := init_spec (E := E) cap
  refine ⟨_, hinit, hle, fun l s hrun => ?_⟩
  have hpos : 0 < 2 ^ k := Nat.two_pow_pos k
  obtain ⟨H, h⟩ := inv_run (index_cap rfl rfl) hpos hrun
  refine ⟨fun t v w hmem => h.laws.gets _ hmem, h.tickets.nodup, fun t x w hget => ?_⟩
  obtain ⟨⟨t', v, w'⟩, hmem, rfl, hview⟩ := h.laws.room t _ hget
  exact ⟨v, w', hmem, hview⟩

end A3Spmc.Orders
