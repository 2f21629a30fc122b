import LibA3.Fuel
import LibA3.Spmc.Basic
import Mathlib.Data.List.Nodup
import Mathlib.Data.List.Perm.Subperm
import Mathlib.Data.Nat.Bitwise
import Mathlib.Data.Nat.ModEq

/-!
# Tickets and slots

`a3_spmc_init` rounds the capacity up to a power of two, and `a3_spmc_index` masks the ticket. A ticket has `w` bits; that
it starts again at 0 after `2 ^ w - 1` is not seen in the slots, `cap` being a divisor of `2 ^ w`.
-/

namespace A3Spmc

variable {E : Type} {w cap t i j k : Nat} {q : Queue E}

/-- `n` tickets from `t` on, counted with `w` bits. -/
def tickets (w t n : Nat) : List Nat := (List.range n).map fun i => (t + i) % 2 ^ w

/-! ## The capacity -/

/-- The loop of `a3_spmc_init` stops at the first power of two that is large enough; no shift overflows before that. -/
theorem initLoop_least (hcap : cap ≤ 2 ^ (w - 1)) {fuel : Nat} (hfuel : cap < 2 ^ j + fuel) (hpos : 0 < fuel)
    (hj : j < w) (hsmall : ∀ i < j, 2 ^ i < cap) :
    ∃ k, k < w ∧ initLoop (· % 2 ^ w) fuel (2 ^ j) cap = some (2 ^ k) ∧ cap ≤ 2 ^ k ∧ ∀ i < k, 2 ^ i < cap := by
  induction fuel generalizing j with
  | zero => omega
  | succ fuel ih =>
    rw [initLoop]
    by_cases hlt : 2 ^ j < cap
    · rw [if_pos hlt]
      have hj1 : j + 1 < w := by
        have hlt' : 2 ^ j < 2 ^ (w - 1) := Nat.lt_of_lt_of_le hlt hcap
        have := (Nat.pow_lt_pow_iff_right (Nat.lt_succ_self 1)).1 hlt'
        omega
      have hdouble : 2 ^ j <<< 1 = 2 ^ (j + 1) := by rw [Nat.shiftLeft_eq, Nat.pow_one, Nat.pow_succ]
      have hmod : 2 ^ (j + 1) % 2 ^ w = 2 ^ (j + 1) :=
        Nat.mod_eq_of_lt (Nat.pow_lt_pow_right (Nat.lt_succ_self 1) hj1)
      rw [hdouble, hmod]
      have hgrow : 2 ^ j + 1 ≤ 2 ^ (j + 1) := Nat.pow_lt_pow_right (Nat.lt_succ_self 1) (Nat.lt_succ_self j)
      refine ih (by omega) (by omega) hj1 fun i hi => ?_
      rcases Nat.lt_succ_iff_lt_or_eq.1 hi with hi | rfl
      · exact hsmall i hi
      · exact hlt
    · rw [if_neg hlt]
      exact ⟨j, hj, rfl, Nat.not_lt.1 hlt, hsmall⟩

/-! ## The slots -/

theorem index_mod (hk : q.mask = 2 ^ k - 1) (t : Nat) : index q t = t % 2 ^ k := by
  rw [index, hk, Nat.and_two_pow_sub_one_eq_mod]

/-- The slot of a ticket that may have wrapped. -/
theorem index_wrap (hk : q.mask = 2 ^ k - 1) (hle : k ≤ w) (t : Nat) : index q (t % 2 ^ w) = t % 2 ^ k := by
  rw [index_mod hk, Nat.mod_mod_of_dvd t (Nat.pow_dvd_pow 2 hle)]

theorem mod_add_inj {n : Nat} (hi : i < n) (hj : j < n) (heq : (t + i) % n = (t + j) % n) : i = j := by
  have hmod : i % n = j % n := Nat.ModEq.add_left_cancel' t heq
  rwa [Nat.mod_eq_of_lt hi, Nat.mod_eq_of_lt hj] at hmod

/-- A window of numbers as long as the modulus hits each remainder once. -/
theorem perm_window {n : Nat} (hn : 0 < n) (t : Nat) : ((List.range n).map fun i => (t + i) % n).Perm (List.range n) := by
  have hnodup : ((List.range n).map fun i => (t + i) % n).Nodup :=
    List.Nodup.map_on (fun i hi j hj => mod_add_inj (List.mem_range.1 hi) (List.mem_range.1 hj)) List.nodup_range
  have hsub : (List.range n).map (fun i => (t + i) % n) ⊆ List.range n := by
    intro x hx
    obtain ⟨i, _, rfl⟩ := List.mem_map.1 hx
    exact List.mem_range.2 (Nat.mod_lt _ hn)
  exact (List.Nodup.subperm hnodup hsub).perm_of_length_le (by simp)

/-- **One ticket for each slot.** For a capacity that a power of two of `w` bits can round up, `a3_spmc_init` returns with the
least power of two that is at least the capacity and 1. Any `q->cap` tickets in a row, also those between which `size_t`
wraps, have all slots, each once, and a ticket `q->cap` further on has the slot of the first. -/
theorem index_window (E : Type) (hw : 0 < w) (hcap : cap ≤ 2 ^ (w - 1)) :
    ∃ q : Queue E, init (· % 2 ^ w) cap = some q ∧
      (∀ fuel, cap < fuel → initLoop (· % 2 ^ w) fuel 1 cap = some q.cap) ∧
      (∃ k, q.cap = 2 ^ k) ∧ max cap 1 ≤ q.cap ∧ (∀ i, max cap 1 ≤ 2 ^ i → q.cap ≤ 2 ^ i) ∧
      (∀ t, ((tickets w t q.cap).map (index q)).Perm (List.range q.cap)) ∧
      ∀ t, index q ((t + q.cap) % 2 ^ w) = index q (t % 2 ^ w) := by
  have hloop : ∀ fuel, cap < fuel → ∃ k, k < w ∧ initLoop (· % 2 ^ w) fuel 1 cap = some (2 ^ k) ∧ cap ≤ 2 ^ k ∧
      ∀ i < k, 2 ^ i < cap := fun fuel hfuel => initLoop_least (j := 0) hcap (by omega) (by omega) hw (by simp)
  obtain ⟨k, hk, hfirst, hle, hsmall⟩ := hloop (cap + 1) (Nat.lt_succ_self cap)
  have hmin : ∀ i, cap ≤ 2 ^ i → k ≤ i := fun i hi =>
    Nat.not_lt.1 fun hik => absurd hi (Nat.not_le.2 (hsmall i hik))
  refine ⟨{ data := List.replicate (2 ^ k) none, cap := 2 ^ k, mask := 2 ^ k - 1, head := 0, end_ := 0 }, ?_, ?_, ⟨k, rfl⟩,
    ?_, ?_, ?_, ?_⟩
  · rw [init, hfirst]
    rfl
  · intro fuel hfuel
    obtain ⟨k', _, hrest, hle', hsmall'⟩ := hloop fuel hfuel
    have heq : k' = k := Nat.le_antisymm (Nat.not_lt.1 fun hlt => absurd hle (Nat.not_le.2 (hsmall' k hlt))) (hmin k' hle')
    rw [hrest, heq]
  · exact Nat.max_le.2 ⟨hle, Nat.two_pow_pos k⟩
  · exact fun i hi => Nat.pow_le_pow_right (Nat.succ_pos 1) (hmin i (Nat.max_le.1 hi).1)
  · intro t
    rw [tickets, List.map_map]
    have hslots : ∀ i, (index (E := E) ⟨List.replicate (2 ^ k) none, 2 ^ k, 2 ^ k - 1, 0, 0⟩ ∘ fun i => (t + i) % 2 ^ w) i =
        (t + i) % 2 ^ k := fun i => index_wrap rfl (Nat.le_of_lt hk) (t + i)
    rw [List.map_congr_left fun i _ => hslots i]
    exact perm_window (Nat.two_pow_pos k) t
  · intro t
    rw [index_wrap rfl (Nat.le_of_lt hk), index_wrap rfl (Nat.le_of_lt hk), Nat.add_mod_right]

/-- Tickets of 32 bits and a capacity of 5. -/
theorem index_window_five :
    ∃ q : Queue Nat, init (· % 2 ^ 32) 5 = some q ∧
      (∀ fuel, 5 < fuel → initLoop (· % 2 ^ 32) fuel 1 5 = some q.cap) ∧
      (∃ k, q.cap = 2 ^ k) ∧ max 5 1 ≤ q.cap ∧ (∀ i, max 5 1 ≤ 2 ^ i → q.cap ≤ 2 ^ i) ∧
      (∀ t, ((tickets 32 t q.cap).map (index q)).Perm (List.range q.cap)) ∧
      ∀ t, index q ((t + q.cap) % 2 ^ 32) = index q (t % 2 ^ 32) :=
  index_window Nat (by decide) (by decide)

end A3Spmc
