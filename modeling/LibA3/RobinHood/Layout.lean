import Mathlib.Data.Nat.ModEq

/-!
# Robin Hood layouts on a ring

An open-addressing table of `n` slots is seen here only through its *ranks*: `r i = 0` when slot
`i % n` is empty, and `r i = d + 1` when its occupant sits `d` slots after its home. Positions are
unrolled (`r` has period `n`), so that "the slot `m` places further on" is plain addition.

`Layout n r` is the ordering that Robin Hood displacement keeps up: going one slot forward the rank
grows by at most one. It gives the early stop of a lookup (`Layout.reach`: on the way from its home to
an entry, no slot is empty and no occupant is closer to its own home than the probe is) and is kept by
placing an entry (`Layout.put`) and by closing the gap a removal leaves (`Hole.shift`, `Hole.close`).
-/

namespace RobinHood

variable {n : Nat} {r : Nat → Nat}

/-! ## Positions on the ring -/

theorem periodic_mul (hp : ∀ i, r (i + n) = r i) (i k : Nat) : r (i + n * k) = r i := by
  induction k with
  | zero => rfl
  | succ k ih => rw [Nat.mul_succ, ← Nat.add_assoc, hp, ih]

theorem periodic_mod (hp : ∀ i, r (i + n) = r i) (i : Nat) : r (i % n) = r i := by
  have := periodic_mul hp (i % n) (i / n)
  rw [Nat.mod_add_div] at this
  exact this.symm

theorem periodic_congr (hp : ∀ i, r (i + n) = r i) {i j : Nat} (h : i % n = j % n) : r i = r j := by
  rw [← periodic_mod hp i, h, periodic_mod hp]

/-- Every slot is met within one lap of any other. -/
theorem exists_offset (hn : 0 < n) (i j : Nat) : ∃ m, m < n ∧ (i + m) % n = j % n := by
  refine ⟨(j + (n - i % n)) % n, Nat.mod_lt _ hn, ?_⟩
  have hi := Nat.mod_lt i hn
  have hd := Nat.mod_add_div i n
  have e : i + (j + (n - i % n)) = j + n * (i / n + 1) := by rw [Nat.mul_add]; omega
  rw [Nat.add_mod_mod, e, Nat.add_mul_mod_self_left]

/-- Two positions less than a lap apart are the same slot only if they are equal. -/
theorem offset_inj {i a b : Nat} (ha : a < n) (hb : b < n) (h : (i + a) % n = (i + b) % n) : a = b := by
  have hab : a % n = b % n := Nat.ModEq.add_left_cancel' i h
  rwa [Nat.mod_eq_of_lt ha, Nat.mod_eq_of_lt hb] at hab

/-- Within one lap, the slots ahead are others. -/
theorem ahead_ne {i j : Nat} (hj : j + 1 < n) : (i + 1 + j) % n ≠ i % n := fun h => by
  have hij : i + 1 + j = i + (j + 1) := by omega
  rw [hij] at h
  have := offset_inj hj (show 0 < n by omega) h
  omega

/-! ## The ordering -/

/-- The Robin Hood ordering of a ring of `n` slots with ranks `r`. -/
structure Layout (n : Nat) (r : Nat → Nat) : Prop where
  periodic : ∀ i, r (i + n) = r i
  le_cap : ∀ i, r i ≤ n
  step : ∀ i, r (i + 1) ≤ r i + 1

/-- Some slot is empty or holds an entry in its home. -/
def Anchored (r : Nat → Nat) : Prop := ∃ z, r z ≤ 1

theorem Layout.climb (h : Layout n r) (i m : Nat) : r (i + m) ≤ r i + m := by
  induction m with
  | zero => exact Nat.le_refl _
  | succ m ih => have := h.step (i + m); rw [Nat.add_assoc] at this; omega

/-- **The probe path to an entry is open.** Every slot between the home of an entry and the entry holds
    an occupant at least as far from its own home as the probe is. -/
theorem Layout.reach (h : Layout n r) {i d m : Nat} (hd : r (i + d) = d + 1) (hm : m ≤ d) : m < r (i + m) := by
  have := h.climb (i + m) (d - m)
  rw [show i + m + (d - m) = i + d by omega] at this
  omega

/-- With an empty slot on the ring, no entry is a full lap from its home. -/
theorem Layout.lt_of_empty (h : Layout n r) (hn : 0 < n) {e : Nat} (he : r e = 0) (i : Nat) : r i < n := by
  obtain ⟨m, hm, hi⟩ := exists_offset hn e i
  have := h.climb e m
  rw [periodic_congr h.periodic hi] at this
  omega

/-! ## Placing an entry -/

/-- The ranks after writing rank `c` at position `p`. -/
def put (n : Nat) (r : Nat → Nat) (p c : Nat) : Nat → Nat := fun q => if q % n = p % n then c else r q

theorem put_self {p q c : Nat} (h : q % n = p % n) : put n r p c q = c := by simp [put, h]

theorem put_ne {p q c : Nat} (h : q % n ≠ p % n) : put n r p c q = r q := by simp [put, h]

theorem put_periodic (hp : ∀ i, r (i + n) = r i) (p c i : Nat) : put n r p c (i + n) = put n r p c i := by
  simp [put, hp]

theorem pred_mod (hn : 0 < n) {i p : Nat} (h : (i + 1) % n = p % n) : i % n = (p + n - 1) % n := by
  have := Nat.add_mod_eq_add_mod_right (n - 1) h
  rwa [show i + 1 + (n - 1) = i + n by omega, Nat.add_mod_right, show p + (n - 1) = p + n - 1 by omega] at this

/-- A rank that fits between its neighbours can be written without disturbing the ordering. -/
theorem Layout.put (h : Layout n r) (hn : 0 < n) {p c : Nat} (hc : c ≤ n) (hback : c ≤ r (p + n - 1) + 1)
    (hfwd : r (p + 1) ≤ c + 1) : Layout n (put n r p c) := by
  refine ⟨put_periodic h.periodic p c, fun i => ?_, fun i => ?_⟩
  · unfold RobinHood.put; split
    · exact hc
    · exact h.le_cap i
  · by_cases h1 : (i + 1) % n = p % n <;> by_cases h0 : i % n = p % n
    · rw [put_self h1, put_self h0]; omega
    · rw [put_self h1, put_ne h0, periodic_congr h.periodic (pred_mod hn h1)]; exact hback
    · have e : (i + 1) % n = (p + 1) % n := by rw [Nat.add_mod, h0, ← Nat.add_mod]
      rw [put_ne h1, put_self h0, periodic_congr h.periodic e]; exact hfwd
    · rw [put_ne h1, put_ne h0]; exact h.step i

/-! ## Closing the gap a removal leaves -/

/-- A ring whose slot `s` has just been emptied: the ordering holds everywhere but across the gap,
    where the occupant behind it may be one rank too high to have come from there. -/
structure Hole (n : Nat) (r : Nat → Nat) (s : Nat) : Prop where
  periodic : ∀ i, r (i + n) = r i
  le_cap : ∀ i, r i ≤ n
  empty : r s = 0
  step : ∀ i, i % n ≠ s % n → r (i + 1) ≤ r i + 1
  bridge : r (s + 1) ≤ r (s + n - 1) + 2

theorem succ_mod_ne (hn : 2 ≤ n) (i : Nat) : (i + 1) % n ≠ i % n := by
  intro h
  have h10 : 1 = 0 := offset_inj (n := n) (i := i) (by omega) (by omega) h
  omega

theorem Layout.hole (h : Layout n r) (hn : 0 < n) (s : Nat) : Hole n (RobinHood.put n r s 0) s := by
  refine ⟨put_periodic h.periodic s 0, fun i => ?_, put_self rfl, fun i hi => ?_, ?_⟩
  · unfold RobinHood.put; split
    · exact Nat.zero_le _
    · exact h.le_cap i
  · rw [put_ne hi]
    by_cases h1 : (i + 1) % n = s % n
    · rw [put_self h1]; exact Nat.zero_le _
    · rw [put_ne h1]; exact h.step i
  · by_cases h1 : (s + 1) % n = s % n
    · rw [put_self h1]; exact Nat.zero_le _
    · -- a ring of at least two slots: the neighbours of the gap are not the gap
      have hn2 : 2 ≤ n := by
        rcases Nat.lt_or_ge n 2 with hlt | hge
        · have : n = 1 := by omega
          subst this; exact absurd (by omega) h1
        · exact hge
      have hp : (s + n - 1) % n ≠ s % n := by
        have := succ_mod_ne hn2 (s + n - 1)
        rwa [show s + n - 1 + 1 = s + n by omega, Nat.add_mod_right, ne_comm] at this
      rw [put_ne h1, put_ne hp]
      have h2 := h.step s
      have h3 := h.step (s + n - 1)
      rw [show s + n - 1 + 1 = s + n by omega, h.periodic] at h3
      omega

/-- The gap is closed once the occupant behind it is in its home, or there is none. -/
theorem Hole.close {s : Nat} (h : Hole n r s) (hr : r (s + 1) ≤ 1) : Layout n r := by
  refine ⟨h.periodic, h.le_cap, fun i => ?_⟩
  by_cases hi : i % n = s % n
  · have e : (i + 1) % n = (s + 1) % n := Nat.add_mod_eq_add_mod_right 1 hi
    rw [periodic_congr h.periodic e]; omega
  · exact h.step i hi

/-- Pulling the occupant behind the gap back by one slot moves the gap there. -/
theorem Hole.shift {s : Nat} (h : Hole n r s) (hn : 0 < n) (hr : 2 ≤ r (s + 1)) :
    Hole n (RobinHood.put n (RobinHood.put n r s (r (s + 1) - 1)) (s + 1) 0) (s + 1) := by
  have hs1 : (s + 1) % n ≠ s % n := fun e => by rw [periodic_congr h.periodic e, h.empty] at hr; omega
  have hcap := h.le_cap (s + 1)
  refine ⟨put_periodic (put_periodic h.periodic _ _) _ _, fun i => ?_, put_self rfl, fun i hi => ?_, ?_⟩
  · by_cases h1 : i % n = (s + 1) % n
    · rw [put_self h1]; exact Nat.zero_le _
    · rw [put_ne h1]
      by_cases h0 : i % n = s % n
      · rw [put_self h0]; omega
      · rw [put_ne h0]; exact h.le_cap i
  · rw [put_ne hi]
    by_cases h1 : (i + 1) % n = (s + 1) % n
    · rw [put_self h1]; exact Nat.zero_le _
    · have hi0 : i % n ≠ s % n := fun e => h1 (Nat.add_mod_eq_add_mod_right 1 e)
      rw [put_ne h1, put_ne hi0]
      by_cases h0 : (i + 1) % n = s % n
      · rw [put_self h0, periodic_congr h.periodic (pred_mod hn h0)]
        have := h.bridge; omega
      · rw [put_ne h0]; exact h.step i hi0
  · have e : (s + 1 + n - 1) % n = s % n := by rw [show s + 1 + n - 1 = s + n by omega, Nat.add_mod_right]
    have e' : (s + 1 + n - 1) % n ≠ (s + 1) % n := by rw [e]; exact hs1.symm
    rw [put_ne e', put_self e]
    by_cases h2 : (s + 1 + 1) % n = (s + 1) % n
    · rw [put_self h2]; exact Nat.zero_le _
    · rw [put_ne h2]
      by_cases h0 : (s + 1 + 1) % n = s % n
      · rw [put_self h0]; omega
      · rw [put_ne h0]
        have := h.step (s + 1) hs1; omega

end RobinHood
