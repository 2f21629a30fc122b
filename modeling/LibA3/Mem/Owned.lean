import Mathlib.Logic.Function.Basic

/-!
# Blocks with owners

The allocated blocks of a memory, by address, and who holds which of them with what in it. `Owned` says that each block has one
holder: nothing is lost and nothing is held twice. A holder can get a new block, write into its block, or give it back;
what the others hold stays as it is.
-/

namespace Mem

variable {ι α : Type} {blocks : Nat → Option (List α)} {holds : ι → Option (Nat × List α)} {i : ι} {p : Nat}
  {bs bs' : List α}

/-- `n` cells from `p` on are in none of the blocks. -/
def Room (blocks : Nat → Option (List α)) (p n : Nat) : Prop :=
  ∀ q bs, blocks q = some bs → p + n ≤ q ∨ q + bs.length ≤ p

structure Owned (blocks : Nat → Option (List α)) (holds : ι → Option (Nat × List α)) : Prop where
  found : ∀ i p bs, holds i = some (p, bs) → blocks p = some bs
  one : ∀ i j p bs bs', holds i = some (p, bs) → holds j = some (p, bs') → i = j
  all : ∀ p bs, blocks p = some bs → ∃ i, holds i = some (p, bs)
  nonempty : ∀ p bs, blocks p = some bs → bs ≠ []
  apart : ∀ p q bs bs', p ≠ q → blocks p = some bs → blocks q = some bs' → p + bs.length ≤ q ∨ q + bs'.length ≤ p

theorem Owned.empty : Owned (fun _ => none : Nat → Option (List α)) (fun _ => none : ι → Option (Nat × List α)) where
  found := by simp
  one := by simp
  all := by simp
  nonempty := by simp
  apart := by simp

/-- Where there is room there is no block. -/
theorem Owned.unused {n : Nat} (h : Owned blocks holds) (hroom : Room blocks p n) (hn : 0 < n) : blocks p = none := by
  cases hp : blocks p with
  | none => rfl
  | some cs =>
    have hpos : 0 < cs.length := List.length_pos_iff.2 (h.nonempty p cs hp)
    have hapart := hroom p cs hp
    omega

theorem Owned.ne_of_unused {q : Nat} (h : Owned blocks holds) (hi : holds i = some (p, bs)) (hq : blocks q = none) : q ≠ p := by
  rintro rfl
  rw [h.found i q bs hi] at hq
  cases hq

/-- What someone else holds is another block. -/
theorem Owned.other {j : ι} {q : Nat} (h : Owned blocks holds) (hi : holds i = some (p, bs)) (hj : holds j = some (q, bs'))
    (hne : j ≠ i) : q ≠ p := by
  intro heq
  subst heq
  exact hne (h.one j i q bs' bs hj hi)

variable [DecidableEq ι]

/-- Giving a block back. -/
theorem Owned.drop (h : Owned blocks holds) (hi : holds i = some (p, bs)) :
    Owned (Function.update blocks p none) (Function.update holds i none) where
  found j q cs hj := by
    by_cases hji : j = i
    · simp [hji] at hj
    · rw [Function.update_of_ne hji] at hj
      rw [Function.update_of_ne (h.other hi hj hji)]
      exact h.found j q cs hj
  one j k q cs cs' hj hk := by
    by_cases hji : j = i
    · simp [hji] at hj
    · by_cases hki : k = i
      · simp [hki] at hk
      · rw [Function.update_of_ne hji] at hj
        rw [Function.update_of_ne hki] at hk
        exact h.one j k q cs cs' hj hk
  all q cs hq := by
    by_cases hqp : q = p
    · simp [hqp] at hq
    · rw [Function.update_of_ne hqp] at hq
      obtain ⟨j, hj⟩ := h.all q cs hq
      have hji : j ≠ i := by
        rintro rfl
        rw [hi] at hj
        cases hj
        exact hqp rfl
      exact ⟨j, by rw [Function.update_of_ne hji, hj]⟩
  nonempty q cs hq := by
    by_cases hqp : q = p
    · simp [hqp] at hq
    · rw [Function.update_of_ne hqp] at hq
      exact h.nonempty q cs hq
  apart q r cs cs' hqr hq hr := by
    by_cases hqp : q = p
    · simp [hqp] at hq
    · by_cases hrp : r = p
      · simp [hrp] at hr
      · rw [Function.update_of_ne hqp] at hq
        rw [Function.update_of_ne hrp] at hr
        exact h.apart q r cs cs' hqr hq hr

/-- A new block, for someone who holds none. -/
theorem Owned.place (h : Owned blocks holds) (hi : holds i = none) (hroom : Room blocks p bs.length) (hbs : bs ≠ []) :
    Owned (Function.update blocks p (some bs)) (Function.update holds i (some (p, bs))) := by
  have hp : blocks p = none := h.unused hroom (List.length_pos_iff.2 hbs)
  exact {
    found := fun j q cs hj => by
      by_cases hji : j = i
      · subst hji
        rw [Function.update_self] at hj
        cases hj
        rw [Function.update_self]
      · rw [Function.update_of_ne hji] at hj
        rw [Function.update_of_ne (h.ne_of_unused hj hp).symm, h.found j q cs hj]
    one := fun j k q cs cs' hj hk => by
      by_cases hji : j = i
      · by_cases hki : k = i
        · rw [hji, hki]
        · subst hji
          rw [Function.update_self] at hj
          rw [Function.update_of_ne hki] at hk
          cases hj
          exact (h.ne_of_unused hk hp rfl).elim
      · rw [Function.update_of_ne hji] at hj
        by_cases hki : k = i
        · subst hki
          rw [Function.update_self] at hk
          cases hk
          exact (h.ne_of_unused hj hp rfl).elim
        · rw [Function.update_of_ne hki] at hk
          exact h.one j k q cs cs' hj hk
    all := fun q cs hq => by
      by_cases hqp : q = p
      · subst hqp
        rw [Function.update_self] at hq
        cases hq
        exact ⟨i, by rw [Function.update_self]⟩
      · rw [Function.update_of_ne hqp] at hq
        obtain ⟨j, hj⟩ := h.all q cs hq
        have hji : j ≠ i := by
          rintro rfl
          simp [hi] at hj
        exact ⟨j, by rw [Function.update_of_ne hji, hj]⟩
    nonempty := fun q cs hq => by
      by_cases hqp : q = p
      · subst hqp
        rw [Function.update_self] at hq
        cases hq
        exact hbs
      · rw [Function.update_of_ne hqp] at hq
        exact h.nonempty q cs hq
    apart := fun q r cs cs' hqr hq hr => by
      by_cases hqp : q = p
      · subst hqp
        rw [Function.update_self] at hq
        rw [Function.update_of_ne (Ne.symm hqr)] at hr
        cases hq
        exact hroom r cs' hr
      · rw [Function.update_of_ne hqp] at hq
        by_cases hrp : r = p
        · subst hrp
          rw [Function.update_self] at hr
          cases hr
          exact (hroom q cs hq).symm
        · rw [Function.update_of_ne hrp] at hr
          exact h.apart q r cs cs' hqr hq hr }

/-- Writing into one's block: the same cells, given back and taken again. -/
theorem Owned.write (h : Owned blocks holds) (hi : holds i = some (p, bs)) (hlen : bs'.length = bs.length) :
    Owned (Function.update blocks p (some bs')) (Function.update holds i (some (p, bs'))) := by
  have hroom : Room (Function.update blocks p none) p bs'.length := by
    intro q cs hq
    by_cases hqp : q = p
    · simp [hqp] at hq
    · rw [Function.update_of_ne hqp] at hq
      rw [hlen]
      exact h.apart p q bs cs (Ne.symm hqp) (h.found i p bs hi) hq
  have hbs : bs' ≠ [] := by
    have hne := List.length_pos_iff.2 (h.nonempty p bs (h.found i p bs hi))
    exact List.length_pos_iff.1 (by omega)
  have hagain := (h.drop hi).place (Function.update_self i none holds) hroom hbs
  rwa [Function.update_idem, Function.update_idem] at hagain

end Mem
