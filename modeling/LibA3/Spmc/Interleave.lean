import LibA3.Spmc.Channel

/-!
# Interleavings are runs with memory orders

The steps of `Basic` are the accesses of `Orders`, where each reads what was written last and writes behind it.

* `interleavings_included` — every run of the queue in which the threads only take turns is a run on the memory with old values
-/

namespace A3Spmc.Orders

open Trans Weak

variable {E K P : Type} {q q1 : Queue E} {s s' : A3Spmc.State E} {u : State E K}

/-- What is in the queue, location by location. -/
def value (q : Queue E) : (l : Loc K) → Cell E l
  | .head => q.head
  | .end_ => q.end_
  | .data i => q.data.getD i none
  | .other _ => ()

/-- The element or the ticket, and what was returned with it. -/
def Event.seen : Event E K → Option (E ⊕ Nat × Option E)
  | .internal => none
  | .enqueued elem _ => some (.inl elem)
  | .returned ticket v _ => some (.inr (ticket, v))

def seen : A3Spmc.Event E → Option (E ⊕ Nat × Option E)
  | .enqueued elem => some (.inl elem)
  | .returned _ ticket v => some (.inr (ticket, v))
  | _ => none

/-! ## One access -/

variable [DecidableEq K]

/-- A step of a thread is what the request says, without old values. -/
structure Matches (r : Request E K P) (q q1 : Queue E) (pc : P) (ev : A3Spmc.Event E) : Prop where
  pc : pc = r.resume (r.act.now (value q r.loc)).2
  value : value q1 = Function.update (value q) r.loc (r.act.now (value q r.loc)).1
  cap : q1.cap = q.cap
  mask : q1.mask = q.mask
  length : q1.data.length = q.data.length
  seen : ∀ view, (r.shown (r.act.now (Orders.value q r.loc)).2 view).seen = seen ev

theorem value_head (n : Nat) : value (K := K) { q with head := n } = Function.update (value q) .head n := by
  funext l
  cases l <;> rfl

theorem value_end (n : Nat) : value (K := K) { q with end_ := n } = Function.update (value q) .end_ n := by
  funext l
  cases l <;> rfl

theorem value_setSlot {t : Nat} (hin : index q t < q.data.length) (v : Option E) :
    value (K := K) (setSlot q t v) = Function.update (value q) (.data (index q t)) v := by
  funext l
  cases l with
  | head | end_ | other => rfl
  | data i =>
    by_cases hi : i = index q t
    · subst hi
      rw [Function.update_self]
      simp [value, setSlot, hin]
    · have hne : (Loc.data i : Loc K) ≠ .data (index q t) := fun h => hi (Loc.data.inj h)
      rw [Function.update_of_ne hne]
      simp [value, setSlot, List.getElem?_set_ne (Ne.symm hi)]

theorem producer_matches {q0 : Queue E} {pc : Producer E} {r : Request E K (Producer E)} (hcap : q.cap = q0.cap)
    (hmask : q.mask = q0.mask) (hin : ∀ t, index q t < q.data.length) (hr : producerRequest q0 pc = some r) :
    Matches r q (producerStep id q pc).1 (producerStep id q pc).2.1 (producerStep id q pc).2.2 := by
  have hindex : ∀ t, index q0 t = index q t := fun t => by rw [index, index, hmask]
  have hsame : ∀ l, value (K := K) q = Function.update (value q) l (value q l) := fun l => (Function.update_eq_self l _).symm
  cases pc with
  | idle => cases hr
  | loadEnd blocking elem =>
    cases hr
    exact ⟨rfl, hsame _, rfl, rfl, rfl, fun _ => rfl⟩
  | loadHead blocking elem end_ =>
    cases hr
    simp only [producerStep, hcap, id]
    by_cases hfull : end_ ≥ q.head + q0.cap
    · simp only [if_pos hfull]
      refine ⟨?_, hsame _, rfl, rfl, rfl, fun _ => rfl⟩
      exact (if_pos hfull).symm
    · simp only [if_neg hfull]
      refine ⟨?_, hsame _, rfl, rfl, rfl, fun _ => rfl⟩
      exact (if_neg hfull).symm
  | loadSlot blocking elem end_ =>
    cases hr
    rw [hindex]
    simp only [producerStep]
    by_cases hfull : (slot q end_).isSome
    · simp only [if_pos hfull]
      refine ⟨?_, hsame _, rfl, rfl, rfl, fun _ => rfl⟩
      exact (if_pos hfull).symm
    · simp only [if_neg hfull]
      refine ⟨?_, hsame _, rfl, rfl, rfl, fun _ => rfl⟩
      exact (if_neg hfull).symm
  | store elem end_ =>
    cases hr
    rw [hindex]
    exact ⟨rfl, value_setSlot (hin _) _, rfl, rfl, List.length_set, fun _ => rfl⟩
  | fetchAdd elem end_ =>
    cases hr
    exact ⟨rfl, value_end _, rfl, rfl, rfl, fun _ => rfl⟩

theorem consumer_matches {q0 : Queue E} {pc : Consumer} {split : Bool} {c : Nat} {r : Request E K Consumer}
    (hmask : q.mask = q0.mask) (hin : ∀ t, index q t < q.data.length) (hr : consumerRequest q0 pc = some r)
    (hwhole : ∀ end_ i, (consumerStep id split q c pc).2.1 ≠ .reload end_ i) :
    Matches r q (consumerStep id split q c pc).1 (consumerStep id split q c pc).2.1 (consumerStep id split q c pc).2.2 := by
  have hindex : ∀ t, index q0 t = index q t := fun t => by rw [index, index, hmask]
  have hsame : ∀ l, value (K := K) q = Function.update (value q) l (value q l) := fun l => (Function.update_eq_self l _).symm
  cases pc with
  | idle | reload => cases hr
  | loadEnd | loadHead =>
    cases hr
    exact ⟨rfl, hsame _, rfl, rfl, rfl, fun _ => rfl⟩
  | compareExchange end_ head i =>
    cases hr
    by_cases hhead : q.head = head
    · have hnow : (Act.rmw (fun n => if n = head then some (head + 1) else none) .acqRel .acquire).now q.head =
          (head + 1, q.head) := by
        rw [Act.now, if_pos hhead, Option.getD_some]
      simp only [consumerStep, if_pos hhead, id]
      refine ⟨(if_pos hhead).symm, ?_, rfl, rfl, rfl, fun _ => rfl⟩
      exact (value_head _).trans (congrArg (Function.update (value q) Loc.head) (congrArg Prod.fst hnow).symm)
    · have hnow : (Act.rmw (fun n => if n = head then some (head + 1) else none) .acqRel .acquire).now q.head =
          (q.head, q.head) := by
        rw [Act.now, if_neg hhead, Option.getD_none]
      cases split with
      | true => exact absurd (by simp only [consumerStep, if_neg hhead, if_true]) (hwhole end_ i)
      | false =>
        simp only [consumerStep, if_neg hhead, Bool.false_eq_true, if_false]
        refine ⟨(if_neg hhead).symm, ?_, rfl, rfl, rfl, fun _ => rfl⟩
        exact (hsame _).trans (congrArg (Function.update (value q) Loc.head) (congrArg Prod.fst hnow).symm)
  | fetchAdd =>
    cases hr
    exact ⟨rfl, value_head _, rfl, rfl, rfl, fun _ => rfl⟩
  | await head =>
    cases hr
    exact ⟨rfl, hsame _, rfl, rfl, rfl, fun _ => rfl⟩
  | exchange head =>
    cases hr
    rw [hindex]
    exact ⟨rfl, value_setSlot (hin _) _, rfl, rfl, List.length_set, fun _ => rfl⟩

/-! ## Runs -/

/-- No consumer is about to reload on its own, as in `msvc.c`. -/
def Whole (s : A3Spmc.State E) : Prop := ∀ c end_ i, s.consumer c ≠ .reload end_ i

/-- The threads are where they are, the last values are those of the queue, and nobody knows of any others. -/
structure Sim (q : Queue E) (s : A3Spmc.State E) (u : State E K) : Prop where
  cap : s.q.cap = q.cap
  mask : s.q.mask = q.mask
  length : s.q.data.length = q.data.length
  producer : u.producer.pc = s.producer
  consumer : ∀ c, (u.consumer c).pc = s.consumer c
  latest : Latest u.mem (value s.q)
  producerBelow : Below u.mem u.producer.view
  consumerBelow : ∀ c, Below u.mem (u.consumer c).view

omit [DecidableEq K] in
theorem pc_update {thread : Nat → Thread K Consumer} {pcs : Nat → Consumer} {c : Nat} {now : Thread K Consumer} {pc : Consumer}
    (h : ∀ c, (thread c).pc = pcs c) (hnow : now.pc = pc) (c' : Nat) :
    (Function.update thread c now c').pc = Function.update pcs c pc c' := by
  by_cases hc : c' = c
  · subst hc
    rw [Function.update_self, Function.update_self, hnow]
  · rw [Function.update_of_ne hc, Function.update_of_ne hc, h]

omit [DecidableEq K] in
theorem below_update {mem : Memory (Loc K) (Cell E)} {thread : Nat → Thread K Consumer} {c : Nat} {now : Thread K Consumer}
    (h : ∀ c, Below mem (thread c).view) (hnow : Below mem now.view) (c' : Nat) :
    Below mem (Function.update thread c now c').view := by
  by_cases hc : c' = c
  · subst hc
    rwa [Function.update_self]
  · rw [Function.update_of_ne hc]
    exact h c'

omit [DecidableEq K] in
theorem Sim.index_lt (h : Sim q s u) (hin : ∀ t, index q t < q.data.length) (t : Nat) : index s.q t < s.q.data.length := by
  have hi := hin t
  rw [index] at hi ⊢
  rwa [h.mask, h.length]

/-- **The producer's step** -/
theorem Sim.producerStep (h : Sim q s u) (hin : ∀ t, index q t < q.data.length) :
    ∃ l u', Run (Step q) u l u' ∧ l.filterMap Event.seen = (seen (producerStep id s.q s.producer).2.2).toList ∧
      Sim q { s with
        q := (A3Spmc.producerStep id s.q s.producer).1
        producer := (A3Spmc.producerStep id s.q s.producer).2.1 } u' := by
  cases hr : producerRequest (K := K) q s.producer with
  | none =>
    have hidle : s.producer = .idle := by
      cases hpc : s.producer <;> rw [hpc] at hr <;> first | rfl | cases hr
    refine ⟨[], u, .nil u, ?_, ?_⟩
    · rw [hidle]
      rfl
    · rw [hidle]
      exact { h with producer := h.producer.trans hidle }
  | some r =>
    have hm := producer_matches h.cap h.mask (h.index_lt hin) hr
    obtain ⟨mem, view, haccess, hlatest, hview, hkeep⟩ := Access.latest h.latest h.producerBelow r.act
    refine ⟨[_], _, .single (.producer u r _ mem view (h.producer ▸ hr) haccess), ?_, ?_⟩
    · rw [List.filterMap_cons, hm.seen view, List.filterMap_nil]
      cases seen (A3Spmc.producerStep id s.q s.producer).2.2 <;> rfl
    · exact {
        cap := hm.cap.trans h.cap
        mask := hm.mask.trans h.mask
        length := hm.length.trans h.length
        producer := hm.pc.symm
        consumer := h.consumer
        latest := by rw [hm.value]; exact hlatest
        producerBelow := hview
        consumerBelow := fun c => hkeep _ (h.consumerBelow c) }

/-- **A consumer's step** -/
theorem Sim.consumerStep {c : Nat} {split : Bool} (h : Sim q s u) (hin : ∀ t, index q t < q.data.length) (hwhole : Whole s)
    (hwhole' : ∀ end_ i, (A3Spmc.consumerStep id split s.q c (s.consumer c)).2.1 ≠ .reload end_ i) :
    ∃ l u', Run (Step q) u l u' ∧ l.filterMap Event.seen = (seen (A3Spmc.consumerStep id split s.q c (s.consumer c)).2.2).toList ∧
      Sim q { s with
        q := (A3Spmc.consumerStep id split s.q c (s.consumer c)).1
        consumer := Function.update s.consumer c (A3Spmc.consumerStep id split s.q c (s.consumer c)).2.1 } u' := by
  cases hr : consumerRequest (K := K) q (s.consumer c) with
  | none =>
    have hidle : s.consumer c = .idle := by
      cases hpc : s.consumer c with
      | idle => rfl
      | reload end_ i => exact absurd hpc (hwhole c end_ i)
      | loadEnd | loadHead | compareExchange | fetchAdd | await | exchange =>
        rw [hpc] at hr
        cases hr
    have hsame : Function.update s.consumer c .idle = s.consumer := by rw [← hidle, Function.update_eq_self]
    refine ⟨[], u, .nil u, ?_, ?_⟩
    · rw [hidle]
      rfl
    · rw [hidle]
      exact { h with consumer := fun c' => (h.consumer c').trans (congrFun hsame c').symm }
  | some r =>
    have hm := consumer_matches h.mask (h.index_lt hin) hr hwhole'
    obtain ⟨mem, view, haccess, hlatest, hview, hkeep⟩ := Access.latest h.latest (h.consumerBelow c) r.act
    refine ⟨[_], _, .single (.consumer u c r _ mem view (by rw [h.consumer c, hr]) haccess), ?_, ?_⟩
    · rw [List.filterMap_cons, hm.seen view, List.filterMap_nil]
      cases seen (A3Spmc.consumerStep id split s.q c (s.consumer c)).2.2 <;> rfl
    · exact {
        cap := hm.cap.trans h.cap
        mask := hm.mask.trans h.mask
        length := hm.length.trans h.length
        producer := h.producer
        consumer := pc_update h.consumer hm.pc.symm
        latest := by rw [hm.value]; exact hlatest
        producerBelow := hkeep _ h.producerBelow
        consumerBelow := below_update (fun c' => hkeep _ (h.consumerBelow c')) hview }

theorem Sim.step {ev : A3Spmc.Event E} (h : Sim q s u) (hin : ∀ t, index q t < q.data.length) (hwhole : Whole s)
    (hstep : A3Spmc.Step id s ev s') (hwhole' : Whole s') :
    ∃ l u', Run (Step q) u l u' ∧ l.filterMap Event.seen = (seen ev).toList ∧ Sim q s' u' := by
  cases hstep with
  | enqueue blocking elem hidle =>
    refine ⟨[.internal], _, .single (.enqueue u blocking elem (h.producer.trans hidle)), rfl, ?_⟩
    exact { h with producer := rfl }
  | producer => exact h.producerStep hin
  | dequeue c blocking hidle =>
    exact ⟨[.internal], _, .single (.dequeue u c blocking ((h.consumer c).trans hidle)), rfl,
      { h with consumer := pc_update h.consumer rfl, consumerBelow := below_update h.consumerBelow (h.consumerBelow c) }⟩
  | consumer c split =>
    refine h.consumerStep hin hwhole fun end_ i hpc => hwhole' c end_ i ?_
    rw [← hpc]
    exact Function.update_self ..

theorem Sim.run {l : List (A3Spmc.Event E)} (h : Sim q s u) (hwhole : Whole s) (hin : ∀ t, index q t < q.data.length)
    (hrun : Run (fun s ev s' => A3Spmc.Step id s ev s' ∧ Whole s') s l s') :
    ∃ l' u', Run (Step q) u l' u' ∧ l'.filterMap Event.seen = l.filterMap seen ∧ Sim q s' u' := by
  have hsim : ∀ s (u : State E K) ev s', (Whole s ∧ Sim q s u) → (A3Spmc.Step id s ev s' ∧ Whole s') →
      ∃ l u', Run (Step q) u l u' ∧ l.filterMap Event.seen = (seen ev).toList ∧ (Whole s' ∧ Sim q s' u') := by
    rintro s u ev s' ⟨hwhole, h⟩ ⟨hstep, hwhole'⟩
    obtain ⟨l, u', hl, hs, h'⟩ := h.step hin hwhole hstep hwhole'
    exact ⟨l, u', hl, hs, hwhole', h'⟩
  obtain ⟨l', u', hrun', hseen, _, h'⟩ := hrun.simulate_weak hsim ⟨hwhole, h⟩
  exact ⟨l', u', hrun', hseen, h'⟩

omit [DecidableEq K] in
theorem latest_initial (n : Nat) : Latest (initial E (K := K)) (value (⟨List.replicate n none, n, n - 1, 0, 0⟩ : Queue E)) := by
  have hzero : ∀ l, ∀ m ∈ initial E (K := K) l, m.view = fun _ => 0 := by
    intro l m hm
    cases l <;> rw [List.mem_singleton.1 hm]
  have honly : ∀ {α : Type} (m : Message (Loc K) α), Last [m] m := fun m =>
    ⟨List.mem_singleton.2 rfl, fun m' hm' hne => absurd (List.mem_singleton.1 hm') hne⟩
  constructor
  · intro l
    cases l with
    | head | end_ | other => exact ⟨_, honly _, rfl⟩
    | data i =>
      refine ⟨_, honly _, ?_⟩
      simp [value]
  · intro l m hm
    rw [hzero l m hm]
    exact fun _ _ _ => Nat.zero_le _

/-- **Every interleaving is a run with memory orders**: a run of the threads on one queue, every access indivisible,
shows the same elements, tickets and results as one on the memory where each access reads what was written last. -/
theorem interleavings_included (E K : Type) [DecidableEq K] (cap : Nat) : ∃ q : Queue E, init id cap = some q ∧
    ∀ l s, Run (fun s ev s' => A3Spmc.Step id s ev s' ∧ Whole s') (A3Spmc.start q) l s →
      ∃ l' u, Run (Step q) (start E K) l' u ∧ l'.filterMap Event.seen = l.filterMap seen ∧ Sim q s u := by
  obtain ⟨k, _, hinit⟩ := init_spec (E := E) cap
  refine ⟨_, hinit, fun l s hrun => ?_⟩
  have hstart : Sim (K := K) _ (A3Spmc.start (⟨List.replicate (2 ^ k) none, 2 ^ k, 2 ^ k - 1, 0, 0⟩ : Queue E)) (start E K) :=
    { cap := rfl
      mask := rfl
      length := rfl
      producer := rfl
      consumer := fun _ => rfl
      latest := latest_initial _
      producerBelow := fun _ _ _ => Nat.zero_le _
      consumerBelow := fun _ _ _ _ => Nat.zero_le _ }
  exact hstart.run (fun _ _ _ => nofun) (Inv.start (E := E) k).index_lt hrun

end A3Spmc.Orders
