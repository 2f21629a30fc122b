import LibA3.Ht.Insert

/-!
# Removal: `A3_HT_DELETE_INDEX`

The emptied slot is a gap the loop moves forward: as long as the next occupant is away from its home it is
pulled back into the gap, and the gap is where it was. The table the loop reads still has the old occupant
of the gap in it, so the invariant `Gap` is stated on the table with that slot cleared. It ends at the
first slot that is empty or whose occupant is at home; there is one, the anchor of the table, which the
shifting cannot move out of its way before it is reached.
-/

namespace A3Ht

open HT

variable {K V : Type} [Inhabited K] [Inhabited V] {M : Methods K}

/-! ## Clearing a slot -/

theorem rank_clearHash {t : HT K V} (hc : 0 < t.cap) (hl : t.entries.length = t.cap) (p : Nat) :
    (t.clearHash (p % t.cap)).rank = RobinHood.put t.cap t.rank p 0 := by
  rw [clearHash, rank_setEntry hc hl, rankOf_empty]
  rfl

theorem live_clearHash_occupied {t : HT K V} {i : Nat} (hi : i < t.entries.length) (h : (t.entry i).hash ≠ 0) :
    t.live.Perm (t.entry i :: (t.clearHash i).live) := by
  have hperm := live_setEntry_perm t hi { t.entry i with hash := 0 }
  rwa [liveOne_of_ne h, liveOne_of_eq rfl] at hperm

omit [Inhabited K] [Inhabited V] in
/-- One slot back, the probe count is one less. -/
theorem probeCount_pred {t : HT K V} (hc : 0 < t.cap) {p h : Nat} (hd : t.probeCount ((p + 1) % t.cap) h ≠ 0) :
    t.probeCount (p % t.cap) h = t.probeCount ((p + 1) % t.cap) h - 1 := by
  have hlt := probeCount_lt hc ((p + 1) % t.cap) h
  have hhome := home_add_probeCount hc (p + 1) h
  apply probeCount_eq (by omega)
  obtain ⟨d, hd'⟩ := Nat.exists_eq_succ_of_ne_zero hd
  rw [hd'] at hhome ⊢
  exact Nat.ModEq.add_right_cancel' 1 hhome

/-! ## The gap -/

/-- A table in the Robin Hood ordering but for the gap at position `s`. -/
structure Gap (v : HT K V) (s : Nat) : Prop where
  cap_pos : 0 < v.cap
  len : v.entries.length = v.cap
  hole : RobinHood.Hole v.cap v.rank s

variable {v : HT K V} {s : Nat}

theorem Gap.slot_lt (g : Gap v s) (p : Nat) : p % v.cap < v.entries.length := by
  rw [g.len]; exact Nat.mod_lt _ g.cap_pos

/-- The table after the occupant behind the gap was pulled back into it. -/
def shift (v : HT K V) (s : Nat) : HT K V :=
  (v.setEntry (s % v.cap) (v.entry ((s + 1) % v.cap))).clearHash ((s + 1) % v.cap)

theorem Gap.rank_shift (g : Gap v s) (hocc : (v.entry ((s + 1) % v.cap)).hash ≠ 0)
    (hd : v.probeCount ((s + 1) % v.cap) (v.entry ((s + 1) % v.cap)).hash ≠ 0) :
    (shift v s).rank = RobinHood.put v.cap (RobinHood.put v.cap v.rank s (v.rank (s + 1) - 1)) (s + 1) 0 := by
  have hback : v.rankOf s (v.entry ((s + 1) % v.cap)) = v.rank (s + 1) - 1 := by
    simp only [rank, rankOf, if_neg hocc]
    have := probeCount_pred g.cap_pos hd
    omega
  have hclear := rank_clearHash (t := v.setEntry (s % v.cap) (v.entry ((s + 1) % v.cap))) g.cap_pos
    (by rw [length_setEntry]; exact g.len) (s + 1)
  rw [cap_setEntry, rank_setEntry g.cap_pos g.len, hback] at hclear
  exact hclear

/-- **One turn of the loop of `A3_HT_DELETE_INDEX` (`ht.h:388`)**: the gap moves on by a slot, and the
    table stores what it stored. -/
theorem Gap.shift (g : Gap v s) (hocc : (v.entry ((s + 1) % v.cap)).hash ≠ 0)
    (hd : v.probeCount ((s + 1) % v.cap) (v.entry ((s + 1) % v.cap)).hash ≠ 0) :
    Gap (shift v s) (s + 1) ∧ (A3Ht.shift v s).live.Perm v.live := by
  have hr : 2 ≤ v.rank (s + 1) := by
    simp only [rank, rankOf, if_neg hocc]; omega
  have hempty : (v.entry (s % v.cap)).hash = 0 := rank_eq_zero.1 g.hole.empty
  have hne : s % v.cap ≠ (s + 1) % v.cap := fun h => by rw [h] at hempty; exact hocc hempty
  refine ⟨⟨g.cap_pos, ?_, ?_⟩, ?_⟩
  · simp only [A3Ht.shift, clearHash, length_setEntry, cap_setEntry]; exact g.len
  · rw [g.rank_shift hocc hd]; exact g.hole.shift g.cap_pos hr
  · -- the entry is in two slots, then in one again
    have hset := live_setEntry_perm v (g.slot_lt s) (v.entry ((s + 1) % v.cap))
    rw [liveOne_of_ne hocc, liveOne_of_eq hempty] at hset
    have hent : (v.setEntry (s % v.cap) (v.entry ((s + 1) % v.cap))).entry ((s + 1) % v.cap) =
        v.entry ((s + 1) % v.cap) := by simp [hne]
    have hclear := live_clearHash_occupied (t := v.setEntry (s % v.cap) (v.entry ((s + 1) % v.cap)))
      (i := (s + 1) % v.cap) (by rw [length_setEntry]; exact g.slot_lt _) (by rw [hent]; exact hocc)
    rw [hent] at hclear
    exact ((List.perm_cons _).1 (hset.trans hclear)).symm

theorem shift_entry {q : Nat} (hs : q ≠ s % v.cap) (hs1 : q ≠ (s + 1) % v.cap) :
    (A3Ht.shift v s).entry q = v.entry q := by
  simp [A3Ht.shift, clearHash, Ne.symm hs, Ne.symm hs1]

/-- What the loop leaves when it ends at most `k` slots on from `s`: the ordering restored, one slot empty,
    and only slots it went over touched. -/
structure Closed (v t' : HT K V) (s k : Nat) : Prop where
  same : SameBut v t'
  len : t'.entries.length = t'.cap
  layout : RobinHood.Layout t'.cap t'.rank
  perm : t'.live.Perm v.live
  empty : ∃ z, t'.rank z = 0
  frame : ∀ q, (∀ j, j ≤ k → q ≠ (s + j) % v.cap) → t'.entry q = v.entry q
  /-- nothing to pull back -/
  still : v.rank (s + 1) ≤ 1 → t' = v
  /-- the occupant behind the gap stays where it is pulled to -/
  pulled : 2 ≤ v.rank (s + 1) → t'.entry (s % v.cap) = v.entry ((s + 1) % v.cap)

/-- The occupant behind the gap is at home, or there is none: the loop is over. -/
theorem Gap.closed (g : Gap v s) (hr : v.rank (s + 1) ≤ 1) (k : Nat) : Closed v v s k where
  same := SameBut.refl v
  len := g.len
  layout := g.hole.close hr
  perm := .refl _
  empty := ⟨s, g.hole.empty⟩
  frame _ _ := rfl
  still _ := rfl
  pulled h := by omega

/-- What the loop leaves of the shifted table is what it leaves of this one. -/
theorem Closed.of_shift {v t' : HT K V} {s k : Nat} (g : Gap v s) (hr : 2 ≤ v.rank (s + 1)) (hkc : k + 1 < v.cap)
    (c : Closed (shift v s) t' (s + 1) k) (hperm : (shift v s).live.Perm v.live) : Closed v t' s (k + 1) := by
  have h2 : 2 ≤ v.cap := by omega
  refine ⟨c.same, c.len, c.layout, c.perm.trans hperm, c.empty, fun q hq => ?_, fun h => by omega, fun _ => ?_⟩
  · have hq1 : ∀ j, j ≤ k → q ≠ (s + 1 + j) % v.cap := by
      intro j hj
      have := hq (j + 1) (by omega)
      rwa [← Nat.add_assoc, Nat.add_right_comm] at this
    exact (c.frame q hq1).trans (shift_entry (hq 0 (Nat.zero_le _)) (hq 1 (by omega)))
  · -- the loop does not come round to the slot it filled first
    have hq1 : ∀ j, j ≤ k → s % v.cap ≠ (s + 1 + j) % v.cap := by
      intro j hj h
      have hj1 : (s + 0) % v.cap = (s + (1 + j)) % v.cap := by rw [← Nat.add_assoc]; exact h
      have := RobinHood.offset_inj g.cap_pos (by omega) hj1
      omega
    have hself : s % v.cap < v.entries.length := g.slot_lt s
    have hs1 : (s + 1) % v.cap ≠ s % v.cap := RobinHood.succ_mod_ne h2 s
    refine (c.frame _ hq1).trans ?_
    simp [shift, clearHash, hs1, hself]

/-- The loop reads the next slot as the table with the gap cleared has it. -/
theorem hash_clearHash_succ {t : HT K V} {s : Nat} (hsep : (t.entry (s % t.cap)).hash = 0 ∨ 2 ≤ t.cap) :
    (t.entry ((s + 1) % t.cap)).hash = ((t.clearHash (s % t.cap)).entry ((s + 1) % t.cap)).hash := by
  simp only [clearHash, entry_setEntry]
  split
  · rename_i h
    rcases hsep with h0 | h2
    · rw [← h.1]; exact h0
    · exact absurd h.1.symm (RobinHood.succ_mod_ne h2 s)
  · rfl

/-- **The loop of `A3_HT_DELETE_INDEX`**: it ends at the slot `s + k` at the latest, if that is empty or has
    its occupant at home. A lap round, that slot is the gap itself, and has been filled from behind. -/
theorem deleteIndexLoop_spec : ∀ (k fuel : Nat) {t : HT K V} {s : Nat}, Gap (t.clearHash (s % t.cap)) s →
    (t.entry (s % t.cap)).hash = 0 ∨ 2 ≤ t.cap → k < t.cap → k < fuel →
    (t.clearHash (s % t.cap)).rank (s + (k + 1)) ≤ 1 →
    ((s + (k + 1)) % t.cap = s % t.cap → (t.clearHash (s % t.cap)).rank (s + 1) ≤ 2) →
    ∃ t', deleteIndexLoop fuel t (s % t.cap) ((s + 1) % t.cap) = some t' ∧ Closed (t.clearHash (s % t.cap)) t' s k
  | _, 0, _, _, _, _, _, hf, _, _ => absurd hf (Nat.not_lt_zero _)
  | k, fuel + 1, t, s, g, hsep, hkc, hf, hanchor, hlap => by
    have hnext := hash_clearHash_succ hsep
    simp only [deleteIndexLoop]
    generalize hv : t.clearHash (s % t.cap) = v at *
    have hcap : v.cap = t.cap := by rw [← hv]; rfl
    have hpc : ∀ i h, t.probeCount i h = v.probeCount i h := by intro i h; simp only [probeCount, hcap]
    rw [hnext, hpc, ← hcap]
    rw [← hcap] at hkc hlap
    by_cases hocc : (v.entry ((s + 1) % v.cap)).hash = 0
    · -- the next slot is empty
      rw [if_neg (fun h => h.1 hocc)]
      exact ⟨v, rfl, g.closed (by rw [rank_eq_zero.2 hocc]; decide) k⟩
    by_cases hd : v.probeCount ((s + 1) % v.cap) (v.entry ((s + 1) % v.cap)).hash = 0
    · -- the next slot has its occupant at home
      rw [if_neg (fun h => h.2 hd)]
      refine ⟨v, rfl, g.closed ?_ k⟩
      rw [rank, rankOf, if_neg hocc, hd]
    rw [if_pos ⟨hocc, hd⟩]
    obtain ⟨g', hperm⟩ := g.shift hocc hd
    have hr : 2 ≤ v.rank (s + 1) := by simp only [rank, rankOf, if_neg hocc]; omega
    obtain ⟨k, rfl⟩ : ∃ k', k = k' + 1 := by
      cases k with
      | zero => rw [Nat.zero_add] at hanchor; omega
      | succ k => exact ⟨k, rfl⟩
    have h2 : 2 ≤ v.cap := by omega
    have hsk : s + 1 + (k + 1) = s + (k + 1 + 1) := by omega
    have hne : (s + (k + 1 + 1)) % v.cap ≠ (s + 1) % v.cap := by
      have hahead : s + (k + 1 + 1) = s + 1 + 1 + k := by omega
      rw [hahead]
      exact RobinHood.ahead_ne (by omega)
    -- the slot the loop is heading for is untouched, unless it is the old gap
    have hanchor' : (shift v s).rank (s + 1 + (k + 1)) ≤ 1 := by
      rw [g.rank_shift hocc hd, hsk, RobinHood.put_ne hne]
      by_cases hs : (s + (k + 1 + 1)) % v.cap = s % v.cap
      · rw [RobinHood.put_self hs]
        have := hlap hs
        omega
      · rw [RobinHood.put_ne hs]; exact hanchor
    obtain ⟨t', hloop, c⟩ := deleteIndexLoop_spec k fuel
      (t := v.setEntry (s % v.cap) (v.entry ((s + 1) % v.cap))) (s := s + 1) g' (Or.inr h2) (by simp; omega)
      (by omega) hanchor' (fun h => absurd (hsk ▸ h) hne)
    rw [cap_setEntry] at hloop
    rw [succ_pos_mod]
    exact ⟨t', hloop, c.of_shift g hr (by omega) hperm⟩

/-! ## `A3_HT_DELETE_INDEX`, `A3_HT_DELETE` -/

/-- The table `A3_HT_DELETE_INDEX` starts shifting in. -/
def vacated (t : HT K V) (i : Nat) : HT K V := { t.clearHash i with size := t.size - 1 }

theorem entry_vacated (t : HT K V) (i j : Nat) : (vacated t i).entry j = (t.clearHash i).entry j := rfl

theorem rank_vacated {t : HT K V} (hc : 0 < t.cap) (hl : t.entries.length = t.cap) {i : Nat} (hi : i < t.cap) :
    (vacated t i).rank = RobinHood.put t.cap t.rank i 0 := by
  have := rank_clearHash hc hl i
  rw [Nat.mod_eq_of_lt hi] at this
  exact this

/-- Clearing the slot again changes nothing. -/
theorem clearHash_vacated {t : HT K V} {i : Nat} (hi : i < t.entries.length) :
    (vacated t i).clearHash i = vacated t i := by
  simp [vacated, clearHash, entry, setEntry, hi]

theorem deleteIndex_closed {t : HT K V} (w : WF M t) {i : Nat} (hi : i < t.cap) :
    ∃ t' k, deleteIndex t i = some t' ∧ Closed (vacated t i) t' i k := by
  have hil : i < t.entries.length := by rw [w.len]; exact hi
  have himod : i % (vacated t i).cap = i := Nat.mod_eq_of_lt hi
  have hcap : (vacated t i).cap = t.cap := rfl
  have hcc : (vacated t i).clearHash (i % (vacated t i).cap) = vacated t i := by rw [himod, clearHash_vacated hil]
  have hrank := rank_vacated w.cap_pos w.len hi
  have g : Gap ((vacated t i).clearHash (i % (vacated t i).cap)) i := by
    rw [hcc]
    refine ⟨w.cap_pos, ?_, ?_⟩
    · simp only [vacated, clearHash, length_setEntry]; exact w.len
    · rw [hrank]; exact w.layout.hole w.cap_pos i
  obtain ⟨z, hz⟩ := w.anchor
  obtain ⟨k, hk, hkz⟩ := RobinHood.exists_offset w.cap_pos (i + 1) z
  rw [Nat.add_right_comm, Nat.add_assoc] at hkz
  have hz' : t.rank (i + (k + 1)) ≤ 1 := by rw [RobinHood.periodic_congr w.layout.periodic hkz]; exact hz
  have hsep : ((vacated t i).entry (i % (vacated t i).cap)).hash = 0 := by
    rw [himod, entry_vacated]; simp [clearHash, hil]
  have hanchor : ((vacated t i).clearHash (i % (vacated t i).cap)).rank (i + (k + 1)) ≤ 1 := by
    rw [hcc, hrank]
    by_cases h : (i + (k + 1)) % t.cap = i % t.cap
    · rw [RobinHood.put_self h]; exact Nat.zero_le _
    · rw [RobinHood.put_ne h]; exact hz'
  have hlap : (i + (k + 1)) % t.cap = i % t.cap →
      ((vacated t i).clearHash (i % (vacated t i).cap)).rank (i + 1) ≤ 2 := by
    rw [hcc, hrank]
    intro h
    by_cases h1 : (i + 1) % t.cap = i % t.cap
    · rw [RobinHood.put_self h1]; exact Nat.zero_le _
    · rw [RobinHood.put_ne h1]
      have hi1 : t.rank i ≤ 1 := by rw [← RobinHood.periodic_congr w.layout.periodic h]; exact hz'
      have := w.layout.step i
      omega
  obtain ⟨t', hloop, c⟩ := deleteIndexLoop_spec k (t.cap + 1) g (Or.inl hsep) hk (by omega) hanchor hlap
  rw [hcc] at c
  rw [himod] at hloop
  exact ⟨t', k, hloop, c⟩

/-- **`A3_HT_DELETE_INDEX` (`ht.h:377`)** on an occupied slot removes its entry and no other. -/
theorem deleteIndex_spec {t : HT K V} (w : WF M t) {i : Nat} (hi : i < t.cap) (hocc : (t.entry i).hash ≠ 0) :
    ∃ t', deleteIndex t i = some t' ∧ SameBut { t with size := t.size - 1 } t' ∧ WF M t' ∧
      t.live.Perm (t.entry i :: t'.live) := by
  obtain ⟨t', k, hdel, c⟩ := deleteIndex_closed w hi
  have hil : i < t.entries.length := by rw [w.len]; exact hi
  have hsame : SameBut { t with size := t.size - 1 } t' := SameBut.trans (SameBut.setEntry _ _ _) c.same
  have hperm : t.live.Perm (t.entry i :: t'.live) :=
    (live_clearHash_occupied hil hocc).trans (c.perm.symm.cons _)
  have hkeys := keys_perm hperm w.keys
  obtain ⟨e, he⟩ := c.empty
  refine ⟨t', hdel, hsame, ⟨?_, c.len, fun a ha => ?_, (List.pairwise_cons.1 hkeys).2, c.layout, e, by omega⟩, hperm⟩
  · rw [SameBut.cap_eq hsame]; exact w.cap_pos
  · rw [hash_same hsame]
    exact w.hashes a (hperm.mem_iff.2 (List.mem_cons_of_mem _ ha))

/-- Which slots it changes. If the next occupant is at home, or there is none, just the one; if not, that
    occupant takes the place of the deleted one. -/
theorem deleteIndex_slots {t t' : HT K V} (w : WF M t) {i : Nat} (hi : i < t.cap) (h : deleteIndex t i = some t') :
    (t.rank (i + 1) ≤ 1 → (t'.entry i).hash = 0 ∧ ∀ q, q ≠ i → t'.entry q = t.entry q) ∧
    (2 ≤ t.rank (i + 1) → (t'.entry i).hash ≠ 0) := by
  obtain ⟨t1, k, hdel, c⟩ := deleteIndex_closed w hi
  obtain rfl := Option.some.inj (hdel.symm.trans h)
  have hil : i < t.entries.length := by rw [w.len]; exact hi
  have himod : i % t.cap = i := Nat.mod_eq_of_lt hi
  have hrank := rank_vacated w.cap_pos w.len hi
  constructor
  · intro hr
    have hstill : t1 = vacated t i := by
      refine c.still ?_
      rw [hrank]
      by_cases h1 : (i + 1) % t.cap = i % t.cap
      · rw [RobinHood.put_self h1]; exact Nat.zero_le _
      · rw [RobinHood.put_ne h1]; exact hr
    rw [hstill]
    refine ⟨?_, fun q hq => ?_⟩
    · rw [entry_vacated]; simp [clearHash, hil]
    · rw [entry_vacated]; simp [clearHash, Ne.symm hq]
  · intro hr
    -- a ring of one slot has no rank of 2
    have hcap := w.layout.le_cap (i + 1)
    have h1 : (i + 1) % t.cap ≠ i % t.cap := RobinHood.succ_mod_ne (by omega) i
    have hpulled : t1.entry (i % t.cap) = (vacated t i).entry ((i + 1) % t.cap) := by
      refine c.pulled ?_
      rw [hrank, RobinHood.put_ne h1]; exact hr
    rw [himod] at hpulled h1
    rw [hpulled, entry_vacated]
    rw [clearHash, entry_setEntry, if_neg (fun hc => h1 hc.1.symm)]
    intro h0
    rw [rank_eq_zero.2 h0] at hr
    omega

/-- **`A3_HT_DELETE` (`ht.h:400`)** on a stored key. -/
theorem delete_present {t : HT K V} (w : WF M t) {e : Entry K V} (he : e ∈ t.live) {key : K} (hk : M.C key e.key = 0) :
    ∃ t', delete M t key = some (t', true) ∧ SameBut { t with size := t.size - 1 } t' ∧ WF M t' ∧
      t.live.Perm (e :: t'.live) := by
  obtain ⟨i, hfind, hi, rfl⟩ := findIndex_present w he hk
  obtain ⟨t', hdel, h⟩ := deleteIndex_spec w hi (hash_ne_of_mem_live he)
  exact ⟨t', by rw [delete, hfind]; simp [hdel], h⟩

/-- **`A3_HT_DELETE`** on any other key: `false`, and nothing happens. -/
theorem delete_absent {t : HT K V} (w : WF M t) {key : K} (habs : ∀ e ∈ t.live, M.C key e.key ≠ 0) :
    delete M t key = some (t, false) := by
  rw [delete, findIndex_absent w habs]

end A3Ht
