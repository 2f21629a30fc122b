import LibA3.RobinHood.Layout
import Mathlib.Data.Finset.Card
import Mathlib.Data.Nat.Find
import Mathlib.Order.Interval.Finset.Nat

/-!
# Robin Hood layouts are optimal

Among all ways to place the same entries on a ring, a Robin Hood layout has the smallest greatest distance from home
(`Layout.optimal`). The entry in question and those before it, back to the last slot with an entry in its home, fill their
slots without a gap and have their homes there (`Layout.cluster`); placed anew at smaller distances, all of them would have
to share one slot less.
-/

namespace RobinHood

variable {n p q z : Nat} {r g : Nat → Nat}

/-- The home of the entry at position `p`. -/
def home (r : Nat → Nat) (p : Nat) : Nat := p + 1 - r p

theorem Layout.periodic_two (h : Layout n r) (q : Nat) : r (q + 2 * n) = r q := by
  rw [Nat.two_mul, ← Nat.add_assoc, h.periodic, h.periodic]

theorem exists_position (ha : Anchored r) (h : Layout n r) (hn : 0 < n) : ∃ i < n, r i ≤ 1 := by
  obtain ⟨i, hi⟩ := ha
  exact ⟨i % n, Nat.mod_lt i hn, by rwa [periodic_mod h.periodic]⟩

/-- The slots from the last anchor before an entry's home up to the entry: they are less than a lap, all are occupied, and
their entries have their homes between the anchor and that home. -/
theorem Layout.cluster (h : Layout n r) (hn : 0 < n) (ha : Anchored r) (hq : 0 < r q) (hlap : n + r q ≤ q + 1) :
    ∃ z, z + r q ≤ q + 1 ∧ q < z + n ∧ ∀ p, z ≤ p → p ≤ q → 0 < r p ∧ z ≤ home r p ∧ home r p + r q ≤ q + 1 := by
  have hpos : ∃ i ≤ q + 1 - r q, r i ≤ 1 := by
    obtain ⟨i, hi, hle⟩ := exists_position ha h hn
    exact ⟨i, by omega, hle⟩
  obtain ⟨i, hi, hanchor⟩ := hpos
  have hz1 : r (Nat.findGreatest (fun i => r i ≤ 1) (q + 1 - r q)) ≤ 1 :=
    Nat.findGreatest_spec (P := fun i => r i ≤ 1) hi hanchor
  have hzle := Nat.findGreatest_le (P := fun i => r i ≤ 1) (q + 1 - r q)
  have hlast : ∀ p, Nat.findGreatest (fun i => r i ≤ 1) (q + 1 - r q) < p → p ≤ q + 1 - r q → 1 < r p := fun p hp hle =>
    Nat.lt_of_not_le (Nat.findGreatest_is_greatest (P := fun i => r i ≤ 1) hp hle)
  generalize Nat.findGreatest (fun i => r i ≤ 1) (q + 1 - r q) = z at hz1 hzle hlast
  -- from the home on, the way to the entry is open
  have hopen : ∀ p, q + 1 - r q ≤ p → p ≤ q → p + r q < r p + q + 1 := by
    intro p hle hpq
    have hclimb := h.climb p (q - p)
    rw [Nat.add_sub_of_le hpq] at hclimb
    omega
  have hocc : ∀ p, z < p → p ≤ q → 1 < r p := by
    intro p hzp hpq
    rcases Nat.lt_or_ge (q + 1 - r q) p with hlt | hle
    · have := hopen p (by omega) hpq
      omega
    · exact hlast p hzp hle
  have hz0 : 0 < r z := by
    rcases Nat.lt_or_ge z (q + 1 - r q) with hlt | hge
    · have h2 := hlast (z + 1) (Nat.lt_succ_self z) hlt
      have hstep := h.step z
      omega
    · have := hopen z hge (by omega)
      omega
  refine ⟨z, by omega, ?_, fun p hzp hpq => ?_⟩
  · by_contra hfar
    have h2 := hocc (z + n) (by omega) (by omega)
    rw [h.periodic] at h2
    omega
  · have hpos : 0 < r p := by
      rcases Nat.eq_or_lt_of_le hzp with rfl | hlt
      · exact hz0
      · exact Nat.lt_of_lt_of_le Nat.zero_lt_one (Nat.le_of_lt (hocc p hlt hpq))
    have hclimb := h.climb z (p - z)
    rw [Nat.add_sub_of_le hzp] at hclimb
    unfold home
    refine ⟨hpos, by omega, ?_⟩
    rcases Nat.lt_or_ge p (q + 1 - r q) with hlt | hge
    · omega
    · have := hopen p hge hpq
      omega

/-- **Robin Hood layouts are optimal.** If the entries are placed in any other way, one to a slot and the one at `i` then
`g i` slots after its home, some entry is at least as far from its home as any is here. -/
theorem Layout.optimal (h : Layout n r) (hn : 0 < n) (ha : Anchored r) (hg : ∀ i, g (i + n) = g i)
    (hinj : ∀ i j, n ≤ i → n ≤ j → 0 < r i → 0 < r j → (home r i + g i) % n = (home r j + g j) % n → i % n = j % n)
    (hq : 0 < r q) :
    ∃ i < n, 0 < r i ∧ r q ≤ g i + 1 := by
  have hcap := h.le_cap q
  by_contra hnot
  simp only [not_exists, not_and, Nat.not_le] at hnot
  have hsmall : ∀ p, 0 < r p → g p + 1 < r q := by
    intro p hp
    have hlt := hnot (p % n) (Nat.mod_lt p hn) (by rwa [periodic_mod h.periodic])
    rwa [periodic_mod hg] at hlt
  -- two laps on, there is room before the entry
  have hrank : r (q + 2 * n) = r q := h.periodic_two q
  obtain ⟨z, hz, hlap, hcluster⟩ := h.cluster hn ha (q := q + 2 * n) (by rw [hrank]; exact hq) (by rw [hrank]; omega)
  rw [hrank] at hz hcluster
  have hmaps : Set.MapsTo (fun p => home r p + g p) (Finset.Icc z (q + 2 * n)) (Finset.Ico z (q + 2 * n)) := by
    intro p hp
    rw [Finset.mem_coe, Finset.mem_Icc] at hp
    obtain ⟨hpos, hle, hhome⟩ := hcluster p hp.1 hp.2
    have hlt := hsmall p hpos
    show home r p + g p ∈ Finset.Ico z (q + 2 * n)
    rw [Finset.mem_Ico]
    exact ⟨Nat.le_trans hle (Nat.le_add_right _ _), by omega⟩
  have hcard : (Finset.Ico z (q + 2 * n)).card < (Finset.Icc z (q + 2 * n)).card := by
    rw [Nat.card_Ico, Nat.card_Icc]
    omega
  obtain ⟨p, hp, p', hp', hne, heq⟩ := Finset.exists_ne_map_eq_of_card_lt_of_maps_to hcard hmaps
  rw [Finset.mem_Icc] at hp hp'
  have hslot := hinj p p' (by omega) (by omega) (hcluster p hp.1 hp.2).1 (hcluster p' hp'.1 hp'.2).1 (congrArg (· % n) heq)
  -- both are within one lap of the anchor
  have hoff : p - z = p' - z := by
    refine offset_inj (n := n) (i := z) (by omega) (by omega) ?_
    rw [Nat.add_sub_of_le hp.1, Nat.add_sub_of_le hp'.1, hslot]
  omega

end RobinHood
