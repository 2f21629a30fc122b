import LibA3.Ht.Resize
import LibA3.RobinHood.Displace

/-!
# Which entries an insertion moves

`A3_HT_INSERT_AT` writes to some of the slots it passes: each it takes from an occupant closer to its home
than the entry in hand would be there, and the empty slot it ends at. These are the `trail`, and can be told
from the table before the call. The new entry goes into the first of them, the occupant of each into the
next, and no other slot changes (`insertAt_displaces`).
-/

namespace A3Ht

open HT RobinHood

variable {K V : Type} [Inhabited K] [Inhabited V] {M : Methods K}

/-- The slots the loop of `A3_HT_INSERT_AT` writes to from slot `i` on, where the entry in hand is `m` slots
    after its home. -/
def trailLoop (t : HT K V) : Nat → Nat → Nat → List Nat
  | 0, _, _ => []
  | fuel + 1, i, m =>
    if (t.entry i).hash = 0 then [i]
    else if t.probeCount i (t.entry i).hash < m then
      i :: trailLoop t fuel ((i + 1) % t.cap) (t.probeCount i (t.entry i).hash + 1)
    else trailLoop t fuel ((i + 1) % t.cap) (m + 1)

/-- The slots an INSERT of `key`, not stored, writes to. -/
def trail (M : Methods K) (t : HT K V) (key : K) : List Nat := trailLoop t (t.cap + 1) (hash M t key % t.cap) 0

theorem entry_setEntry_update {t : HT K V} {i : Nat} (hi : i < t.entries.length) (e : Entry K V) :
    (t.setEntry i e).entry = Function.update t.entry i e := by
  funext j
  rw [entry_setEntry]
  by_cases h : i = j
  · subst h
    rw [if_pos ⟨rfl, hi⟩, Function.update_self]
  · rw [if_neg fun hc => h hc.1, Function.update_of_ne (Ne.symm h)]

/-! ## The slots of a trail -/

/-- With an empty slot `k` slots on, the trail is a path within these `k` slots. -/
theorem trailLoop_path (t : HT K V) : ∀ (k fuel p m : Nat), k < fuel → k < t.cap →
    (t.entry ((p + k) % t.cap)).hash = 0 → trailLoop t fuel (p % t.cap) m ≠ [] ∧
      (∀ i ∈ trailLoop t fuel (p % t.cap) m, ∃ j, j ≤ k ∧ i = (p + j) % t.cap) ∧
      (trailLoop t fuel (p % t.cap) m).Nodup
  | k, 0, p, m, hf, _, _ => by omega
  | k, fuel + 1, p, m, hf, hk, hemp => by
    simp only [trailLoop]
    by_cases h0 : (t.entry (p % t.cap)).hash = 0
    · rw [if_pos h0]
      exact ⟨List.cons_ne_nil _ _, fun i hi => ⟨0, Nat.zero_le _, List.mem_singleton.1 hi⟩, List.nodup_singleton _⟩
    · obtain ⟨k, rfl, hempty⟩ := empty_ahead hemp h0
      have hlater : ∀ i, (∃ j, j ≤ k ∧ i = (p + 1 + j) % t.cap) → ∃ j, j ≤ k + 1 ∧ i = (p + j) % t.cap := by
        rintro i ⟨j, hj, rfl⟩
        exact ⟨j + 1, by omega, by rw [Nat.add_right_comm, Nat.add_assoc]⟩
      rw [if_neg h0, succ_pos_mod]
      by_cases hlt : t.probeCount (p % t.cap) (t.entry (p % t.cap)).hash < m
      · obtain ⟨-, hslots, hnd⟩ := trailLoop_path t k fuel (p + 1)
          (t.probeCount (p % t.cap) (t.entry (p % t.cap)).hash + 1) (by omega) (by omega) hempty
        rw [if_pos hlt]
        refine ⟨List.cons_ne_nil _ _, fun i hi => ?_, List.nodup_cons.2 ⟨fun hmem => ?_, hnd⟩⟩
        · rcases List.mem_cons.1 hi with rfl | hmem
          · exact ⟨0, Nat.zero_le _, rfl⟩
          · exact hlater i (hslots i hmem)
        · obtain ⟨j, hj, heq⟩ := hslots _ hmem
          exact ahead_ne (show j + 1 < t.cap by omega) heq.symm
      · obtain ⟨hne, hslots, hnd⟩ := trailLoop_path t k fuel (p + 1) (m + 1) (by omega) (by omega) hempty
        rw [if_neg hlt]
        exact ⟨hne, fun i hi => hlater i (hslots i hi), hnd⟩

/-- A trail depends on the slots up to the empty one only. -/
theorem trailLoop_congr {t t' : HT K V} (hcap : t'.cap = t.cap) : ∀ (k fuel p m : Nat),
    (∀ j, j ≤ k → t'.entry ((p + j) % t.cap) = t.entry ((p + j) % t.cap)) →
    (t.entry ((p + k) % t.cap)).hash = 0 → trailLoop t' fuel (p % t.cap) m = trailLoop t fuel (p % t.cap) m
  | k, 0, p, m, _, _ => rfl
  | k, fuel + 1, p, m, hsame, hemp => by
    have hhead : t'.entry (p % t.cap) = t.entry (p % t.cap) := hsame 0 (Nat.zero_le _)
    have hprobe : ∀ i h, t'.probeCount i h = t.probeCount i h := fun i h => by rw [probeCount, hcap, probeCount]
    simp only [trailLoop, hhead, hcap, hprobe]
    by_cases h0 : (t.entry (p % t.cap)).hash = 0
    · rw [if_pos h0, if_pos h0]
    · obtain ⟨k, rfl, hempty⟩ := empty_ahead hemp h0
      have hlater : ∀ j, j ≤ k → t'.entry ((p + 1 + j) % t.cap) = t.entry ((p + 1 + j) % t.cap) := fun j hj => by
        rw [Nat.add_right_comm, Nat.add_assoc]
        exact hsame (j + 1) (by omega)
      rw [succ_pos_mod, trailLoop_congr hcap k fuel (p + 1) _ hlater hempty,
        trailLoop_congr hcap k fuel (p + 1) _ hlater hempty]

/-- Every slot of a trail but the last is occupied. -/
theorem trailLoop_occupied (t : HT K V) {a b : Nat} : ∀ (fuel i m : Nat),
    (a, b) ∈ (trailLoop t fuel i m).zip (trailLoop t fuel i m).tail → (t.entry a).hash ≠ 0
  | 0, i, m, h => by simp [trailLoop] at h
  | fuel + 1, i, m, h => by
    simp only [trailLoop] at h
    split at h
    · simp at h
    · next h0 =>
      split at h
      · cases hrest : trailLoop t fuel ((i + 1) % t.cap) (t.probeCount i (t.entry i).hash + 1) with
        | nil => simp [hrest] at h
        | cons j is =>
          have ih := trailLoop_occupied t (a := a) (b := b) fuel ((i + 1) % t.cap) (t.probeCount i (t.entry i).hash + 1)
          rw [hrest] at h ih
          rcases List.mem_cons.1 h with heq | hmem
          · obtain ⟨rfl, -⟩ := Prod.mk.inj heq
            exact h0
          · exact ih hmem
      · exact trailLoop_occupied t fuel ((i + 1) % t.cap) (m + 1) h

/-! ## The loop moves entries along its trail -/

/-- **The loop of `A3_HT_INSERT_AT` (`ht.h:227`)** with a key that is not in the table. -/
theorem insertAtLoop_displaces : ∀ (k fuel : Nat) {t : HT K V} {p m : Nat} {e : Entry K V}, Carry M t p m e →
    k < fuel → k < t.cap → (t.entry ((p + k) % t.cap)).hash = 0 → ∃ t',
      insertAtLoop M fuel t (p % t.cap) m e = some (t', true) ∧
        t'.entry = displace t.entry e (trailLoop t fuel (p % t.cap) m)
  | k, 0, _, _, _, _, _, hf, _, _ => by omega
  | k, fuel + 1, t, p, m, e, c, hf, hk, hemp => by
    simp only [insertAtLoop, trailLoop]
    by_cases h0 : (t.entry (p % t.cap)).hash = 0
    · rw [if_pos h0, if_pos h0]
      exact ⟨_, rfl, entry_setEntry_update c.slot_lt e⟩
    · obtain ⟨k, rfl, hempty⟩ := empty_ahead hemp h0
      have hstop := stop_iff t p m
      simp only [h0, false_or] at hstop
      rw [if_neg h0, if_neg (fun h => c.ne_current h0 h.2), if_neg h0, succ_pos_mod]
      by_cases hlt : t.probeCount (p % t.cap) (t.entry (p % t.cap)).hash < m
      · -- the slots further on are not the one just written
        have hrest : ∀ j, j ≤ k → (t.setEntry (p % t.cap) e).entry ((p + 1 + j) % t.cap) =
            t.entry ((p + 1 + j) % t.cap) := fun j hj => by
          rw [entry_setEntry_update c.slot_lt, Function.update_of_ne (ahead_ne (by omega))]
        have c' := c.swap (c.lt_cap hemp) h0 (hstop.1 hlt)
        obtain ⟨t', hloop, hent⟩ := insertAtLoop_displaces k fuel c' (by omega) (by rw [cap_setEntry]; omega)
          (by rw [cap_setEntry, hrest k (Nat.le_refl _)]; exact hempty)
        rw [cap_setEntry, trailLoop_congr (cap_setEntry t _ e) k fuel (p + 1) _ hrest hempty,
          entry_setEntry_update c.slot_lt] at hent
        rw [if_pos hlt, if_pos hlt]
        exact ⟨t', hloop, hent⟩
      · have hr : m < t.rank p := Nat.lt_of_not_le fun h => hlt (hstop.2 h)
        rw [if_neg hlt, if_neg hlt]
        exact insertAtLoop_displaces k fuel (c.next hr) (by omega) (by omega) hempty

/-- A trail does not depend on `size`. -/
theorem trailLoop_setSize (t : HT K V) (n : Nat) : ∀ (fuel i m : Nat),
    trailLoop { t with size := n } fuel i m = trailLoop t fuel i m
  | 0, i, m => rfl
  | fuel + 1, i, m => by
    have hentry : ({ t with size := n } : HT K V).entry = t.entry := rfl
    have hprobe : ({ t with size := n } : HT K V).probeCount = t.probeCount := rfl
    simp only [trailLoop, hentry, hprobe, trailLoop_setSize t n fuel]

/-- What an INSERT of a new key leaves, `s` being the first slot of the trail and `is` the others. -/
structure Displaced (M : Methods K) (t t' : HT K V) (key : K) (value : V) (s : Nat) (is : List Nat) : Prop where
  trail_eq : trail M t key = s :: is
  nodup : (s :: is).Nodup
  slot_lt : ∀ i ∈ s :: is, i < t.cap
  occupied : ∀ a b, (a, b) ∈ (s :: is).zip is → (t.entry a).hash ≠ 0
  entries : t'.entry = displace t.entry ⟨key, value, hash M t key⟩ (s :: is)

/-- **`A3_HT_INSERT_AT` (`ht.h:221`)** on a key that is not stored moves the entries along its trail. -/
theorem insertAt_displaces {t : HT K V} (w : WF M t) (hfree : t.live.length < t.cap) {key : K} {value : V}
    (habs : ∀ e ∈ t.live, M.C key e.key ≠ 0) {t' : HT K V}
    (h : insertAt M t (hash M t key) key value = some (t', true)) : ∃ s is, Displaced M t t' key value s is := by
  obtain ⟨i, hi, hemp⟩ := exists_empty (by rw [w.len]; exact hfree)
  rw [w.len] at hi
  obtain ⟨k, hk, hki⟩ := exists_offset w.cap_pos (hash M t key) i
  have hemp' : (t.entry ((hash M t key + k) % t.cap)).hash = 0 := by rw [hki, Nat.mod_eq_of_lt hi]; exact hemp
  obtain ⟨t1, hloop, hent⟩ := insertAtLoop_displaces k (t.cap + 1) (carry_home w habs value) (by omega) hk hemp'
  obtain ⟨hne, hslots, hnd⟩ := trailLoop_path t k (t.cap + 1) (hash M t key) 0 (by omega) hk hemp'
  have hocc := fun a b => trailLoop_occupied t (a := a) (b := b) (t.cap + 1) (hash M t key % t.cap) 0
  obtain ⟨rfl, -⟩ := Prod.mk.inj (Option.some.inj (hloop.symm.trans h))
  obtain ⟨s, is, htrail⟩ := List.exists_cons_of_ne_nil hne
  rw [htrail] at hnd hslots hocc hent
  refine ⟨s, is, htrail, hnd, fun i hi => ?_, hocc, hent⟩
  obtain ⟨j, -, rfl⟩ := hslots i hi
  exact Nat.mod_lt _ w.cap_pos

/-- **`A3_HT_INSERT` (`ht.h:358`)** of a new key into a table that may not grow. -/
theorem insert_displaces {t : HT K V} (w : WF M t) (hgrow : t.canGrow = false) (hsize : t.live.length ≤ t.size)
    (hroom : t.size < t.cap) {key : K} {value : V} (habs : ∀ e ∈ t.live, M.C key e.key ≠ 0) {t' : HT K V}
    (h : insert M t key value = some (t', true)) : ∃ s is, Displaced M t t' key value s is := by
  rw [insert_counted_fixed hgrow hroom] at h
  obtain ⟨s, is, d⟩ := insertAt_displaces (w.setSize (t.size + 1)) (Nat.lt_of_le_of_lt hsize hroom) habs h
  refine ⟨s, is, ?_, d.nodup, d.slot_lt, d.occupied, d.entries⟩
  rw [trail, ← trailLoop_setSize t (t.size + 1)]
  exact d.trail_eq

/-! ## Where the keys are found -/

/-- Where the key of an occupied slot is found. -/
theorem findIndex_slot {t : HT K V} (w : WF M t) {i : Nat} (hi : i < t.cap) (hocc : (t.entry i).hash ≠ 0) {k : K}
    (hk : M.C k (t.entry i).key = 0) : findIndex M t k = some (some i) := by
  obtain ⟨j, hfind, hj, hent⟩ := findIndex_present w (w.entry_mem_live hi hocc) hk
  have hji : j = i := w.slot_unique hj hi (hent ▸ hocc) hocc (by rw [hent]; exact M.C_equiv.refl _)
  rw [hfind, hji]

/-- The new key is in the first slot of the trail. -/
theorem Displaced.find_new {t t' : HT K V} {key : K} {value : V} {s : Nat} {is : List Nat}
    (d : Displaced M t t' key value s is) (w' : WF M t') (hcap : t'.cap = t.cap) :
    findIndex M t' key = some (some s) := by
  have hent : t'.entry s = ⟨key, value, hash M t key⟩ := by
    rw [d.entries]
    exact displace_head _ _ (List.nodup_cons.1 d.nodup).1
  have hs : s < t'.cap := by rw [hcap]; exact d.slot_lt s List.mem_cons_self
  refine findIndex_slot w' hs ?_ ?_
  · rw [hent]; exact hash_ne_zero M t key
  · rw [hent]; exact M.C_equiv.refl key

end A3Ht
