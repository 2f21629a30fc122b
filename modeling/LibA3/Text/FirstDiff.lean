import Mathlib.Logic.Function.Basic
import Mathlib.Tactic.Common

/-!
# Comparing sequences where they first differ

`firstDiff` compares two sequences by a key, element by element, and gives up behind an element that stops it. As an
order it is as good as that of the keys (`firstDiff_swap`, `firstDiff_neg_trans`); what it cannot tell apart is what
first differs behind such an element (`firstDiff_eq_zero_iff`).
-/

namespace Text

variable {α : Type} {key : α → Int} {stop : α → Bool} {f : α → α} {x y : α} {xs ys zs : List α}

/-- The difference of the first keys that differ, or 0 if there are none up to an element that stops it. -/
def firstDiff (key : α → Int) (stop : α → Bool) : List α → List α → Int
  | x :: xs, y :: ys => if key x ≠ key y then key x - key y else if stop x then 0 else firstDiff key stop xs ys
  | _, _ => 0

theorem firstDiff_of_ne (h : key x ≠ key y) : firstDiff key stop (x :: xs) (y :: ys) = key x - key y := if_pos h

theorem firstDiff_stop (h : key x = key y) (hx : stop x = true) : firstDiff key stop (x :: xs) (y :: ys) = 0 := by
  rw [firstDiff, if_neg (not_not_intro h), if_pos hx]

theorem firstDiff_cons (h : key x = key y) (hx : stop x = false) :
    firstDiff key stop (x :: xs) (y :: ys) = firstDiff key stop xs ys := by
  rw [firstDiff, if_neg (not_not_intro h), if_neg (by simp [hx])]

@[simp] theorem firstDiff_nil_left : firstDiff key stop [] ys = 0 := by cases ys <;> rfl

@[simp] theorem firstDiff_nil_right : firstDiff key stop xs [] = 0 := by cases xs <;> rfl

/-! ## The order -/

theorem firstDiff_swap (hstop : ∀ x y, key x = key y → stop x = stop y) :
    firstDiff key stop ys xs = - firstDiff key stop xs ys := by
  induction xs generalizing ys with
  | nil => simp
  | cons x xs ih =>
    cases ys with
    | nil => simp
    | cons y ys =>
      by_cases hkey : key x = key y
      · cases hx : stop x with
        | true =>
          have hy : stop y = true := (hstop x y hkey).symm.trans hx
          rw [firstDiff_stop hkey hx, firstDiff_stop hkey.symm hy]
          rfl
        | false =>
          have hy : stop y = false := (hstop x y hkey).symm.trans hx
          rw [firstDiff_cons hkey hx, firstDiff_cons hkey.symm hy]
          exact ih
      · rw [firstDiff_of_ne hkey, firstDiff_of_ne fun h => hkey h.symm]
        omega

/-- Two sequences in order differ at their heads, or have heads that do not stop the comparison and tails in order. -/
theorem firstDiff_neg_iff : firstDiff key stop xs ys < 0 ↔
    ∃ x xs' y ys', xs = x :: xs' ∧ ys = y :: ys' ∧
      (key x < key y ∨ key x = key y ∧ stop x = false ∧ firstDiff key stop xs' ys' < 0) := by
  constructor
  · intro h
    cases xs with
    | nil => simp at h
    | cons x xs =>
      cases ys with
      | nil => simp at h
      | cons y ys =>
        refine ⟨x, xs, y, ys, rfl, rfl, ?_⟩
        by_cases hkey : key x = key y
        · cases hx : stop x with
          | true =>
            rw [firstDiff_stop hkey hx] at h
            exact absurd h (Int.lt_irrefl 0)
          | false =>
            rw [firstDiff_cons hkey hx] at h
            exact Or.inr ⟨hkey, rfl, h⟩
        · rw [firstDiff_of_ne hkey] at h
          exact Or.inl (by omega)
  · rintro ⟨x, xs', y, ys', rfl, rfl, hlt | ⟨hkey, hx, h⟩⟩
    · rw [firstDiff_of_ne (Int.ne_of_lt hlt)]
      omega
    · rw [firstDiff_cons hkey hx]
      exact h

theorem firstDiff_neg_trans (hxy : firstDiff key stop xs ys < 0) (hyz : firstDiff key stop ys zs < 0) :
    firstDiff key stop xs zs < 0 := by
  induction xs generalizing ys zs with
  | nil => simp at hxy
  | cons x xs ih =>
    obtain ⟨_, _, y, ys', hx, rfl, hxy⟩ := firstDiff_neg_iff.1 hxy
    obtain ⟨_, _, z, zs', hy, rfl, hyz⟩ := firstDiff_neg_iff.1 hyz
    cases hx
    cases hy
    refine firstDiff_neg_iff.2 ⟨x, xs, z, zs', rfl, rfl, ?_⟩
    rcases hxy with hxy | ⟨hxy, hstop, htail⟩
    · rcases hyz with hyz | ⟨hyz, _⟩
      · exact Or.inl (Int.lt_trans hxy hyz)
      · exact Or.inl (hyz ▸ hxy)
    · rcases hyz with hyz | ⟨hyz, _, htail'⟩
      · exact Or.inl (hxy ▸ hyz)
      · exact Or.inr ⟨hxy.trans hyz, hstop, ih htail htail'⟩

/-! ## What it cannot tell apart -/

/-- The sequences agree up to an element that stops the comparison, and first differ behind it. -/
def DifferBehind (stop : α → Bool) (xs ys : List α) : Prop :=
  ∃ p x y xs' ys', xs = p ++ x :: xs' ∧ ys = p ++ y :: ys' ∧ x ≠ y ∧ ∃ s ∈ p, stop s = true

/-- Two sequences of one length that differ have a first difference. -/
theorem exists_first_difference (hlen : xs.length = ys.length) (hne : xs ≠ ys) :
    ∃ p x y xs' ys', xs = p ++ x :: xs' ∧ ys = p ++ y :: ys' ∧ x ≠ y := by
  induction xs generalizing ys with
  | nil => exact absurd (List.length_eq_zero_iff.1 hlen.symm).symm hne
  | cons x xs ih =>
    cases ys with
    | nil => cases hlen
    | cons y ys =>
      by_cases hxy : x = y
      · subst hxy
        have htail : xs ≠ ys := fun h => hne (by rw [h])
        obtain ⟨p, a, b, xs', ys', rfl, rfl, hab⟩ := ih (Nat.succ.inj hlen) htail
        exact ⟨x :: p, a, b, xs', ys', rfl, rfl, hab⟩
      · exact ⟨[], x, y, xs, ys, rfl, rfl, hxy⟩

theorem DifferBehind.ne (h : DifferBehind stop xs ys) : xs ≠ ys := by
  obtain ⟨p, x, y, xs', ys', rfl, rfl, hne, -⟩ := h
  intro heq
  exact hne (List.cons.inj (List.append_cancel_left heq)).1

/-- A common start that does not stop the comparison is passed over. -/
theorem firstDiff_append {p : List α} (hp : ∀ s ∈ p, stop s = false) :
    firstDiff key stop (p ++ xs) (p ++ ys) = firstDiff key stop xs ys := by
  induction p with
  | nil => rfl
  | cons s p ih =>
    rw [List.cons_append, List.cons_append, firstDiff_cons rfl (hp s List.mem_cons_self)]
    exact ih fun t ht => hp t (List.mem_cons_of_mem s ht)

/-- A common start that stops the comparison ends it. -/
theorem firstDiff_append_stop {p : List α} (hp : ∃ s ∈ p, stop s = true) :
    firstDiff key stop (p ++ xs) (p ++ ys) = 0 := by
  induction p with
  | nil =>
    obtain ⟨s, hs, -⟩ := hp
    cases hs
  | cons s p ih =>
    cases hs : stop s with
    | true => exact firstDiff_stop rfl hs
    | false =>
      obtain ⟨t, ht, htrue⟩ := hp
      rw [List.cons_append, List.cons_append, firstDiff_cons rfl hs]
      rcases List.mem_cons.1 ht with rfl | ht
      · rw [hs] at htrue
        cases htrue
      · exact ih ⟨t, ht, htrue⟩

theorem firstDiff_self : firstDiff key stop xs xs = 0 := by
  induction xs with
  | nil => rfl
  | cons x xs ih =>
    cases hx : stop x with
    | true => exact firstDiff_stop rfl hx
    | false => exact (firstDiff_cons rfl hx).trans ih

/-- With a key for each element, sequences of one length compare equal if they are, or differ too late. -/
theorem firstDiff_eq_zero_iff (hkey : Function.Injective key) (hlen : xs.length = ys.length) :
    firstDiff key stop xs ys = 0 ↔ xs = ys ∨ DifferBehind stop xs ys := by
  constructor
  · intro hzero
    by_cases heq : xs = ys
    · exact Or.inl heq
    · obtain ⟨p, x, y, xs', ys', rfl, rfl, hne⟩ := exists_first_difference hlen heq
      refine Or.inr ⟨p, x, y, xs', ys', rfl, rfl, hne, ?_⟩
      by_contra hnone
      have hp : ∀ s ∈ p, stop s = false := fun s hs =>
        Bool.eq_false_iff.2 fun htrue => hnone ⟨s, hs, htrue⟩
      have hxy : key x ≠ key y := fun h => hne (hkey h)
      rw [firstDiff_append hp, firstDiff_of_ne hxy] at hzero
      omega
  · rintro (rfl | ⟨p, x, y, xs', ys', rfl, rfl, -, hs⟩)
    · exact firstDiff_self
    · exact firstDiff_append_stop hs

/-- Where nothing stops the comparison, it is one of all keys. -/
theorem firstDiff_eq_zero_iff_map (hlen : xs.length = ys.length) (hxs : ∀ x ∈ xs, stop x = false) :
    firstDiff key stop xs ys = 0 ↔ xs.map key = ys.map key := by
  induction xs generalizing ys with
  | nil => simp [List.length_eq_zero_iff.1 hlen.symm]
  | cons x xs ih =>
    cases ys with
    | nil => simp at hlen
    | cons y ys =>
      by_cases hxy : key x = key y
      · rw [firstDiff_cons hxy (hxs x List.mem_cons_self),
          ih (by simpa using hlen) fun z hz => hxs z (List.mem_cons_of_mem x hz), List.map_cons, List.map_cons, hxy]
        simp
      · rw [firstDiff_of_ne hxy]
        simp [hxy, Int.sub_eq_zero]

/-! ## A map that stops where the comparison does -/

/-- `f` of every element up to one that stops it. -/
def mapUntil (f : α → α) (stop : α → Bool) : List α → List α
  | [] => []
  | x :: xs => if stop x then x :: xs else f x :: mapUntil f stop xs

theorem length_mapUntil : (mapUntil f stop xs).length = xs.length := by
  induction xs with
  | nil => rfl
  | cons x xs ih =>
    rw [mapUntil]
    split
    · rfl
    · rw [List.length_cons, List.length_cons, ih]

/-- Comparing what has been mapped is comparing by the key of the image, if the map leaves alone the elements that
stop it and makes no new ones. -/
theorem firstDiff_mapUntil {key' : α → Int} (hkey' : ∀ x, key' x = key (f x)) (hfix : ∀ x, stop x = true → f x = x)
    (hkeep : ∀ x, stop (f x) = stop x) (hstop : ∀ x y, key' x = key' y → stop x = stop y) :
    firstDiff key stop (mapUntil f stop xs) (mapUntil f stop ys) = firstDiff key' stop xs ys := by
  -- the head is mapped in either case
  have hhead : ∀ z zs, ∃ zs', mapUntil f stop (z :: zs) = f z :: zs' ∧ (stop z = false → zs' = mapUntil f stop zs) := by
    intro z zs
    rw [mapUntil]
    cases hz : stop z with
    | true => exact ⟨zs, by rw [hfix z hz]; rfl, nofun⟩
    | false => exact ⟨_, rfl, fun _ => rfl⟩
  induction xs generalizing ys with
  | nil => simp [mapUntil]
  | cons x xs ih =>
    cases ys with
    | nil => simp [mapUntil]
    | cons y ys =>
      obtain ⟨xs', hx, hxs⟩ := hhead x xs
      obtain ⟨ys', hy, hys⟩ := hhead y ys
      rw [hx, hy]
      by_cases hxy : key' x = key' y
      · have hfxy : key (f x) = key (f y) := by rw [← hkey', ← hkey', hxy]
        cases hsx : stop x with
        | true =>
          have hfx : stop (f x) = true := (hkeep x).trans hsx
          rw [firstDiff_stop hfxy hfx, firstDiff_stop hxy hsx]
        | false =>
          have hfx : stop (f x) = false := (hkeep x).trans hsx
          have hsy : stop y = false := (hstop x y hxy).symm.trans hsx
          rw [firstDiff_cons hfxy hfx, firstDiff_cons hxy hsx, hxs hsx, hys hsy]
          exact ih
      · have hfxy : key (f x) ≠ key (f y) := by rw [← hkey', ← hkey']; exact hxy
        rw [firstDiff_of_ne hfxy, firstDiff_of_ne hxy, hkey', hkey']

end Text
