import LibA3.Ht.Remove

/-!
# Rehashing and growth: `A3_HT_RESIZE`, `A3_HT_GROW`, `A3_HT_INSERT`

`A3_HT_RESIZE` inserts the old entries into an empty table; neither `size` nor what is stored changes.
`A3_HT_INSERT` compares `size` with `cap` and the load factor before it looks for the key, so all its
outcomes are: refused (`refuses`), or `A3_HT_INSERT_AT` on a table that has an empty slot
(`insert_accepted`), provided `size` is at least the number of stored entries.
-/

namespace A3Ht

open HT

variable {K V : Type} [Inhabited K] [Inhabited V] {M : Methods K}

/-! ## Empty tables -/

theorem entry_replicate {t : HT K V} {n : Nat} (h : t.entries = List.replicate n default) (i : Nat) :
    (t.entry i).hash = 0 := by
  rw [entry, h, List.getD_eq_getElem?_getD, List.getElem?_replicate]
  split <;> rfl

theorem live_replicate {t : HT K V} {n : Nat} (h : t.entries = List.replicate n default) : t.live = [] := by
  have hd : (default : Entry K V).hash = 0 := rfl
  rw [live, h, List.filter_replicate]
  simp [hd]

/-- A table fresh from `calloc`. -/
theorem wf_replicate (M : Methods K) {t : HT K V} (hc : 0 < t.cap) (h : t.entries = List.replicate t.cap default) :
    WF M t := by
  have hrank : ∀ p, t.rank p = 0 := fun p => rank_eq_zero.2 (entry_replicate h _)
  have hlive := live_replicate h
  refine ⟨hc, by rw [h, List.length_replicate], ?_, ?_, ⟨rank_periodic t, fun i => ?_, fun i => ?_⟩, 0, ?_⟩
  · simp [hlive]
  · simp [hlive]
  · rw [hrank]; exact Nat.zero_le _
  · rw [hrank]; exact Nat.zero_le _
  · rw [hrank]; exact Nat.zero_le _

/-- **`A3_HT_INIT` (`ht.h:317`)** -/
theorem init_wf (M : Methods K) (key : Option (List UInt8)) (rand : Nat → UInt8) (canGrow : Bool) :
    WF M (init M key rand canGrow : HT K V) := wf_replicate M M.initialCap_pos rfl

@[simp] theorem init_live (M : Methods K) (key : Option (List UInt8)) (rand : Nat → UInt8) (canGrow : Bool) :
    (init M key rand canGrow : HT K V).live = [] := live_replicate rfl

/-- `size` is not part of the invariant. -/
theorem WF.setSize {t : HT K V} (w : WF M t) (n : Nat) : WF M { t with size := n } :=
  ⟨w.cap_pos, w.len, w.hashes, w.keys, w.layout, w.anchor⟩

/-- Neither is the duplicate callback. -/
theorem WF.setDuplicateCb {t : HT K V} (w : WF M t) (cb : Option (V → V → V × Bool)) : WF M (setDuplicateCb t cb) :=
  ⟨w.cap_pos, w.len, w.hashes, w.keys, w.layout, w.anchor⟩

theorem WF.live_le_cap {t : HT K V} (w : WF M t) : t.live.length ≤ t.cap := by
  rw [← w.len]; exact length_live_le t

/-! ## Rehashing -/

/-- **The loop of `A3_HT_RESIZE` (`ht.h:275`)** adds the occupied ones of the previous entries, if there is
    room and they are neither in the table nor twice among themselves. -/
theorem reinsert_spec : ∀ (prev : List (Entry K V)) {t : HT K V}, WF M t →
    (∀ e ∈ prev, e.hash ≠ 0 → e.hash = hash M t e.key) →
    ((prev.filter fun e => e.hash ≠ 0) ++ t.live).Pairwise (fun a b => M.C a.key b.key ≠ 0) →
    (prev.filter fun e => e.hash ≠ 0).length + t.live.length ≤ t.cap →
    ∃ t', reinsert M t prev = some t' ∧ SameBut t t' ∧ WF M t' ∧
      t'.live.Perm ((prev.filter fun e => e.hash ≠ 0) ++ t.live)
  | [], t, w, _, _, _ => ⟨t, rfl, SameBut.refl t, w, by simp⟩
  | e :: prev, t, w, hhash, hkeys, hroom => by
    have hrest : ∀ a ∈ prev, a.hash ≠ 0 → a.hash = hash M t a.key := fun a ha => hhash a (List.mem_cons_of_mem _ ha)
    by_cases h0 : e.hash = 0
    · have hf : ((e :: prev).filter fun e => e.hash ≠ 0) = prev.filter fun e => e.hash ≠ 0 := by simp [h0]
      rw [hf] at hkeys hroom ⊢
      rw [reinsert, if_pos h0]
      exact reinsert_spec prev w hrest hkeys hroom
    · have hf : ((e :: prev).filter fun e => e.hash ≠ 0) = e :: prev.filter fun e => e.hash ≠ 0 := by simp [h0]
      rw [hf] at hkeys hroom ⊢
      simp only [List.cons_append, List.length_cons] at hkeys hroom ⊢
      obtain ⟨hne, hkeys'⟩ := List.pairwise_cons.1 hkeys
      have heh := hhash e List.mem_cons_self h0
      obtain ⟨t1, hins, hs1, w1, hperm1⟩ := insertAt_absent w (by omega) e.value
        (fun a ha => hne a (List.mem_append_right _ ha))
      rw [← heh] at hins hperm1
      -- the entry has moved from the list into the table
      have hperm : ((prev.filter fun e => e.hash ≠ 0) ++ t1.live).Perm
          (e :: ((prev.filter fun e => e.hash ≠ 0) ++ t.live)) := (hperm1.append_left _).trans List.perm_middle
      have hlen := hperm1.length_eq
      simp only [List.length_cons] at hlen
      obtain ⟨t2, hre, hs2, w2, hperm2⟩ := reinsert_spec prev w1
        (fun a ha h => by rw [hash_same hs1]; exact hrest a ha h) (keys_perm hperm.symm hkeys)
        (by rw [SameBut.cap_eq hs1]; omega)
      refine ⟨t2, ?_, hs1.trans hs2, w2, hperm2.trans hperm⟩
      rw [reinsert, if_neg h0, hins]
      exact hre

/-- **`A3_HT_RESIZE` (`ht.h:266`)** keeps what is stored. -/
theorem resize_spec {t : HT K V} (w : WF M t) (newCap : Nat) (hcap : t.cap < newCap) :
    ∃ t', resize M t newCap = some t' ∧ SameBut { t with cap := newCap } t' ∧ WF M t' ∧ t'.live.Perm t.live := by
  have htake : t.entries.take t.cap = t.entries := List.take_of_length_le (Nat.le_of_eq w.len)
  have hzero : ({ t with cap := newCap, entries := List.replicate newCap default } : HT K V).live = [] :=
    live_replicate rfl
  obtain ⟨t', hre, hs, w', hperm⟩ := reinsert_spec t.entries
    (t := { t with cap := newCap, entries := List.replicate newCap default })
    (wf_replicate M (show 0 < newCap by omega) rfl)
    (fun e he h => w.hashes e (List.mem_filter.2 ⟨he, by simpa using h⟩))
    (by rw [hzero, List.append_nil]; exact w.keys)
    (by
      have := w.live_le_cap
      rw [hzero, List.length_nil, Nat.add_zero]
      exact Nat.le_of_lt (Nat.lt_of_le_of_lt this hcap))
  rw [hzero, List.append_nil] at hperm
  exact ⟨t', by rw [resize, htake, hre], hs, w', hperm⟩

/-! ## `A3_HT_INSERT` -/

/-- The check with which `A3_HT_INSERT` (`ht.h:361-363`) refuses. -/
def refuses (M : Methods K) (t : HT K V) : Bool :=
  decide (t.size * 100 ≥ t.cap * M.loadFactor) && !t.canGrow && decide (t.size ≥ t.cap)

/-- The check with which it grows. -/
def grows (M : Methods K) (t : HT K V) : Bool := decide (t.size * 100 ≥ t.cap * M.loadFactor) && t.canGrow

theorem insert_refused {t : HT K V} (h : refuses M t = true) (key : K) (value : V) :
    insert M t key value = some (t, false) := by
  simp only [refuses, Bool.and_eq_true, decide_eq_true_eq, Bool.not_eq_true'] at h
  obtain ⟨⟨hload, hgrow⟩, hfull⟩ := h
  simp [insert, grow, hload, hgrow, hfull]

/-- A table after `A3_HT_INSERT` grew it, or did not. -/
structure Grown (M : Methods K) (t t' : HT K V) : Prop where
  wf : WF M t'
  same : SameBut { t with cap := t'.cap } t'
  cap : t'.cap = if grows M t then t.cap * 2 else t.cap
  perm : t'.live.Perm t.live
  room : t'.live.length < t'.cap

/-- **`A3_HT_INSERT` (`ht.h:358`)** past its capacity check: the entry goes to a table with the same entries
    and an empty slot. -/
theorem insert_accepted {t : HT K V} (w : WF M t) (hsize : t.live.length ≤ t.size) (h : refuses M t = false) :
    ∃ t', Grown M t t' ∧ ∀ (key : K) (value : V), insert M t key value = insertCounted M t' key value := by
  have hpos := w.cap_pos
  by_cases hload : t.size * 100 ≥ t.cap * M.loadFactor
  · cases hgrow : t.canGrow with
    | false =>
      have hroom : ¬ t.size ≥ t.cap := by simpa [refuses, hload, hgrow] using h
      refine ⟨t, ⟨w, SameBut.refl t, by simp [grows, hgrow], .refl _, by omega⟩, fun key value => ?_⟩
      simp [insert, grow, hload, hgrow, hroom]
    | true =>
      obtain ⟨t', hre, hs, w', hperm⟩ := resize_spec w (t.cap * 2) (by omega)
      have hc : t'.cap = t.cap * 2 := SameBut.cap_eq hs
      refine ⟨t', ⟨w', ?_, by simp [grows, hgrow, hload, hc], hperm, ?_⟩, fun key value => ?_⟩
      · rw [hc]; exact hs
      · have := w.live_le_cap
        rw [hperm.length_eq, hc]; omega
      · simp [insert, grow, hload, hgrow, hre]
  · have hlf := Nat.mul_le_mul_left t.cap M.loadFactor_le
    refine ⟨t, ⟨w, SameBut.refl t, by simp [grows, hload], .refl _, by omega⟩, fun key value => ?_⟩
    rw [insert, if_neg hload]

theorem Grown.hash_eq {t t' : HT K V} (g : Grown M t t') (k : K) : hash M t' k = hash M t k := by
  rw [g.same]; rfl

/-- The table `A3_HT_INSERT_AT` is called on. -/
theorem Grown.counted {t t' : HT K V} (g : Grown M t t') :
    SameBut { t with size := t.size + 1, cap := if grows M t then t.cap * 2 else t.cap }
      { t' with size := t'.size + 1 } := by
  have := congrArg (fun u : HT K V => { u with size := u.size + 1 }) g.same
  rw [← g.cap]
  exact this

/-- An INSERT of an absent key that is not refused. -/
theorem insert_absent {t : HT K V} (w : WF M t) (hsize : t.live.length ≤ t.size) (h : refuses M t = false) {key : K}
    (value : V) (habs : ∀ e ∈ t.live, M.C key e.key ≠ 0) :
    ∃ t', insert M t key value = some (t', true) ∧ WF M t' ∧
      SameBut { t with size := t.size + 1, cap := if grows M t then t.cap * 2 else t.cap } t' ∧
      t'.live.Perm (⟨key, value, hash M t key⟩ :: t.live) := by
  obtain ⟨t1, g, hins⟩ := insert_accepted w hsize h
  obtain ⟨t', hat, hs, w', hperm⟩ := insertAt_absent (t := { t1 with size := t1.size + 1 }) (g.wf.setSize _) g.room value
    (fun e he => habs e (g.perm.mem_iff.1 he))
  have hh : hash M { t1 with size := t1.size + 1 } key = hash M t key := g.hash_eq key
  rw [hh] at hperm
  exact ⟨t', by rw [hins]; exact hat, w', g.counted.trans hs, hperm.trans (g.perm.cons _)⟩

/-- An INSERT of a stored key that is not refused. `size` goes up all the same. -/
theorem insert_present {t : HT K V} (w : WF M t) (hsize : t.live.length ≤ t.size) (h : refuses M t = false) {key : K}
    (value : V) {e : Entry K V} (he : e ∈ t.live) (hk : M.C key e.key = 0) :
    ∃ t' rest, insert M t key value = some (t', (onDuplicateValue t.duplicateCb e.value value).2) ∧ WF M t' ∧
      SameBut { t with size := t.size + 1, cap := if grows M t then t.cap * 2 else t.cap } t' ∧
      t.live.Perm (e :: rest) ∧
      t'.live.Perm ({ e with value := (onDuplicateValue t.duplicateCb e.value value).1 } :: rest) := by
  obtain ⟨t1, g, hins⟩ := insert_accepted w hsize h
  have hcb : t.duplicateCb = t1.duplicateCb := by rw [g.same]
  have w1 : WF M { t1 with size := t1.size + 1 } := g.wf.setSize _
  obtain ⟨i, hi, hent, hat⟩ := insertAt_present w1 (g.perm.mem_iff.2 he) value hk
  obtain ⟨t', rest, hdup, hs, w', hrest, hlive⟩ := w1.onDuplicate hi hent (hash_ne_of_mem_live he) value
  refine ⟨t', rest, ?_, w', g.counted.trans hs, g.perm.symm.trans hrest, by rw [hcb]; exact hlive⟩
  rw [hins, hcb, ← hdup]
  exact hat

/-! ## Tables that may not grow -/

omit [Inhabited K] [Inhabited V] in
theorem refuses_fixed {t : HT K V} (h : t.canGrow = false) : refuses M t = decide (t.cap ≤ t.size) := by
  have hlf := Nat.mul_le_mul_left t.cap M.loadFactor_le
  have hiff : (t.cap * M.loadFactor ≤ t.size * 100 ∧ t.cap ≤ t.size) ↔ t.cap ≤ t.size :=
    ⟨fun hb => hb.2, fun hfull => ⟨by omega, hfull⟩⟩
  simp [refuses, h, ← Bool.decide_and, hiff]

omit [Inhabited K] [Inhabited V] in
theorem grows_fixed {t : HT K V} (h : t.canGrow = false) : grows M t = false := by simp [grows, h]

/-- With room, there is nothing to check. -/
theorem insert_counted_fixed {t : HT K V} (hgrow : t.canGrow = false) (hroom : t.size < t.cap) (key : K) (value : V) :
    insert M t key value = insertCounted M t key value := by
  have hfull : ¬ t.cap ≤ t.size := by omega
  simp [insert, grow, hgrow, hfull]

/-- With no room to grow and no duplicate callback, an INSERT of a stored key leaves every slot as it is. -/
theorem insert_present_fixed {t : HT K V} (w : WF M t) (hgrow : t.canGrow = false) (hcb : t.duplicateCb = none)
    (hroom : t.size < t.cap) {key : K} (value : V) {e : Entry K V} (he : e ∈ t.live) (hk : M.C key e.key = 0) :
    insert M t key value = some ({ t with size := t.size + 1 }, false) := by
  obtain ⟨i, _, _, hat⟩ := insertAt_present (w.setSize (t.size + 1)) he value hk
  rw [insert_counted_fixed hgrow hroom, insertCounted]
  refine Eq.trans hat ?_
  simp [onDuplicate, hcb]

end A3Ht
