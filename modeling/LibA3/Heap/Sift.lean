import Mathlib.Data.Multiset.Range
import Mathlib.Logic.Function.Iterate

/-!
# Binary heaps with a hole

A heap lies in a store from index 0 on, but its positions are counted from 1: the children of position `i` are `2i` and
`2i + 1`. While an element is being sifted, one position is a hole: `UpHole` and `DownHole` say what a store with
a hole still keeps, so that putting the element into it ends in a heap. One step moves the hole to its parent or to
one of its children.
-/

namespace BinHeap

variable {T : Type} {le : T → T → Prop} {a : Nat → T} {e v : T} {hole c i j m : Nat}

/-- The element at position `i`. -/
def at' (a : Nat → T) (i : Nat) : T := a (i - 1)

def put (a : Nat → T) (i : Nat) (v : T) : Nat → T := Function.update a (i - 1) v

/-- No element is smaller than its parent. -/
def Ordered (le : T → T → Prop) (a : Nat → T) (m : Nat) : Prop :=
  ∀ i, 2 ≤ i → i ≤ m → le (at' a (i / 2)) (at' a i)

/-- What is stored at the positions up to `m`. -/
def items (a : Nat → T) (m : Nat) : Multiset T := (Multiset.range m).map a

@[simp] theorem at_put_self : at' (put a i v) i = v := Function.update_self ..

theorem at_put_ne (hi : 1 ≤ i) (hj : 1 ≤ j) (hne : j ≠ i) : at' (put a i v) j = at' a j := by
  have hidx : j - 1 ≠ i - 1 := by omega
  exact Function.update_of_ne hidx v a

theorem put_put {u : T} : put (put a i u) i v = put a i v := Function.update_idem ..

/-! ## Contents -/

theorem items_put (hi : 1 ≤ i) (him : i ≤ m) : at' a i ::ₘ items (put a i v) m = v ::ₘ items a m := by
  have hmem : i - 1 ∈ Multiset.range m := Multiset.mem_range.2 (by omega)
  have hrest : ((Multiset.range m).erase (i - 1)).map (put a i v) = ((Multiset.range m).erase (i - 1)).map a := by
    refine Multiset.map_congr rfl fun k hk => ?_
    have hne : k ≠ i - 1 := by
      rintro rfl
      exact (Multiset.nodup_range m).notMem_erase hk
    exact Function.update_of_ne hne v a
  have hself : put a i v (i - 1) = v := Function.update_self ..
  rw [items, items, ← Multiset.cons_erase hmem, Multiset.map_cons, Multiset.map_cons, hrest, hself, at']
  exact Multiset.cons_swap ..

/-- The hole moved: what it is moved past is put where it was. -/
theorem items_move (hi : 1 ≤ i) (him : i ≤ m) (hj : 1 ≤ j) (hjm : j ≤ m) (hne : j ≠ i) :
    items (put (put a i (at' a j)) j e) m = items (put a i e) m := by
  have h1 : at' a j ::ₘ items (put (put a i (at' a j)) j e) m = e ::ₘ items (put a i (at' a j)) m := by
    have h := items_put (a := put a i (at' a j)) (v := e) hj hjm
    rwa [at_put_ne hi hj hne] at h
  have h2 : at' a i ::ₘ items (put a i (at' a j)) m = at' a j ::ₘ items a m := items_put hi him
  have h3 : at' a i ::ₘ items (put a i e) m = e ::ₘ items a m := items_put hi him
  refine (Multiset.cons_inj_right (at' a i)).1 ((Multiset.cons_inj_right (at' a j)).1 ?_)
  rw [Multiset.cons_swap, h1, Multiset.cons_swap, h2, h3, Multiset.cons_swap]

theorem items_succ : items a (m + 1) = at' a (m + 1) ::ₘ items a m := by
  rw [items, items, Multiset.range_succ, Multiset.map_cons]
  rfl

/-- The last element in place of the first. -/
theorem items_replace : items a (m + 1) = at' a 1 ::ₘ items (put a 1 (at' a (m + 1))) m := by
  cases m with
  | zero => rfl
  | succ m => rw [items_succ, items_put (Nat.le_refl 1) (Nat.le_add_left 1 m)]

/-- The first element is at or before all others. -/
theorem Ordered.first_le (hrefl : ∀ x, le x x) (htrans : ∀ x y z, le x y → le y z → le x z) (h : Ordered le a m) :
    ∀ i, 1 ≤ i → i ≤ m → le (at' a 1) (at' a i) := by
  intro i
  induction i using Nat.strongRecOn with
  | ind i ih =>
    intro h1 him
    by_cases hi : i = 1
    · rw [hi]
      exact hrefl _
    · exact htrans _ _ _ (ih (i / 2) (by omega) (by omega) (by omega)) (h i (by omega) him)

theorem Ordered.first_le_items (hrefl : ∀ x, le x x) (htrans : ∀ x y z, le x y → le y z → le x z)
    (h : Ordered le a m) {x : T} (hx : x ∈ items a m) : le (at' a 1) x := by
  obtain ⟨k, hk, rfl⟩ := Multiset.mem_map.1 hx
  exact h.first_le hrefl htrans (k + 1) (by omega) (by have := Multiset.mem_range.1 hk; omega)

/-! ## Up -/

/-- The pairs off the hole are in order, and the hole's children are at or after `e` and after the hole's parent. -/
structure UpHole (le : T → T → Prop) (a : Nat → T) (m hole : Nat) (e : T) : Prop where
  away : ∀ i, 2 ≤ i → i ≤ m → i ≠ hole → i / 2 ≠ hole → le (at' a (i / 2)) (at' a i)
  across : 2 ≤ hole → ∀ c, c ≤ m → c / 2 = hole → le (at' a (hole / 2)) (at' a c)
  below : ∀ c, c ≤ m → c / 2 = hole → le e (at' a c)

/-- A place behind the last. -/
theorem Ordered.upHole (h : Ordered le a m) : UpHole le a (m + 1) (m + 1) e :=
  { away := fun i h2 him hne _ => h i h2 (by omega)
    across := fun _ c hc hpar => by omega
    below := fun c hc hpar => by omega }

theorem UpHole.move (htrans : ∀ x y z, le x y → le y z → le x z) (h : UpHole le a m hole e) (h2 : 2 ≤ hole)
    (hm : hole ≤ m) (hle : le e (at' a (hole / 2))) : UpHole le (put a hole (at' a (hole / 2))) m (hole / 2) e := by
  -- what the new hole's parent is below
  have hup : 2 ≤ hole / 2 → le (at' a (hole / 2 / 2)) (at' a (hole / 2)) :=
    fun h4 => h.away (hole / 2) h4 (by omega) (by omega) (by omega)
  constructor
  · intro i hi2 him hne hpar
    by_cases hih : i = hole
    · exact absurd (congrArg (· / 2) hih) hpar
    rw [at_put_ne (by omega) (by omega) hih]
    by_cases hph : i / 2 = hole
    · rw [hph, at_put_self]
      exact h.across h2 i him hph
    · rw [at_put_ne (by omega) (by omega) hph]
      exact h.away i hi2 him hih hph
  · intro h4 c hcm hpar
    rw [at_put_ne (by omega) (by omega) (by omega)]
    by_cases hch : c = hole
    · rw [hch, at_put_self]
      exact hup h4
    · rw [at_put_ne (by omega) (by omega) hch]
      have hc := h.away c (by omega) hcm hch (by omega)
      rw [hpar] at hc
      exact htrans _ _ _ (hup h4) hc
  · intro c hcm hpar
    by_cases hch : c = hole
    · rw [hch, at_put_self]
      exact hle
    · rw [at_put_ne (by omega) (by omega) hch]
      have hc := h.away c (by omega) hcm hch (by omega)
      rw [hpar] at hc
      exact htrans _ _ _ hle hc

theorem UpHole.finish (h : UpHole le a m hole e) (h1 : 1 ≤ hole) (hstop : 2 ≤ hole → le (at' a (hole / 2)) e) :
    Ordered le (put a hole e) m := by
  intro i h2 him
  by_cases hih : i = hole
  · rw [hih, at_put_self, at_put_ne h1 (by omega) (by omega)]
    exact hstop (hih ▸ h2)
  rw [at_put_ne h1 (by omega) hih]
  by_cases hph : i / 2 = hole
  · rw [hph, at_put_self]
    exact h.below i him hph
  · rw [at_put_ne h1 (by omega) hph]
    exact h.away i h2 him hih hph

/-! ## Down -/

/-- The pairs off the hole are in order, and `e` and the hole's children are at or after the hole's parent. -/
structure DownHole (le : T → T → Prop) (a : Nat → T) (m hole : Nat) (e : T) : Prop where
  away : ∀ i, 2 ≤ i → i ≤ m → i ≠ hole → i / 2 ≠ hole → le (at' a (i / 2)) (at' a i)
  across : 2 ≤ hole → ∀ c, c ≤ m → c / 2 = hole → le (at' a (hole / 2)) (at' a c)
  above : 2 ≤ hole → le (at' a (hole / 2)) e

/-- The first element replaced. -/
theorem Ordered.downHole (h : Ordered le a m) : DownHole le (put a 1 v) m 1 e := by
  refine ⟨fun i h2 him hne hpar => ?_, fun h2 => by omega, fun h2 => by omega⟩
  rw [at_put_ne (Nat.le_refl 1) (by omega) hpar, at_put_ne (Nat.le_refl 1) (by omega) hne]
  exact h i h2 him

theorem Ordered.mono (h : Ordered le a m) (hj : j ≤ m) : Ordered le a j := fun i h2 hij => h i h2 (Nat.le_trans hij hj)

theorem DownHole.move (h : DownHole le a m hole e) (h1 : 1 ≤ hole) (hcm : c ≤ m) (hpar : c / 2 = hole)
    (hle : le (at' a c) e) (hmin : ∀ c', c' ≤ m → c' / 2 = hole → le (at' a c) (at' a c')) :
    DownHole le (put a hole (at' a c)) m c e := by
  constructor
  · intro i h2 him hne hpar'
    by_cases hih : i = hole
    · rw [hih, at_put_self, at_put_ne h1 (by omega) (by omega)]
      exact h.across (hih ▸ h2) c hcm hpar
    rw [at_put_ne h1 (by omega) hih]
    by_cases hph : i / 2 = hole
    · rw [hph, at_put_self]
      exact hmin i him hph
    · rw [at_put_ne h1 (by omega) hph]
      exact h.away i h2 him hih hph
  · intro _ d hdm hdc
    rw [hpar, at_put_self, at_put_ne h1 (by omega) (by omega)]
    have hd := h.away d (by omega) hdm (by omega) (by omega)
    rwa [hdc] at hd
  · intro _
    rw [hpar, at_put_self]
    exact hle

/-- The element put into the hole makes a heap if and only if it is at or before the hole's children. -/
theorem DownHole.finish_iff (h : DownHole le a m hole e) (h1 : 1 ≤ hole) :
    Ordered le (put a hole e) m ↔ ∀ c, c ≤ m → c / 2 = hole → le e (at' a c) := by
  constructor
  · intro hord c hcm hpar
    have hc := hord c (by omega) hcm
    rwa [hpar, at_put_self, at_put_ne h1 (by omega) (by omega)] at hc
  · intro hstop i h2 him
    by_cases hih : i = hole
    · rw [hih, at_put_self, at_put_ne h1 (by omega) (by omega)]
      exact h.above (hih ▸ h2)
    rw [at_put_ne h1 (by omega) hih]
    by_cases hph : i / 2 = hole
    · rw [hph, at_put_self]
      exact hstop i him hph
    · rw [at_put_ne h1 (by omega) hph]
      exact h.away i h2 him hih hph

/-! ## The way down -/

section Path
variable {f : Nat → Nat}

/-- The positions on the way from the root, `f` choosing a child. -/
def OnPath (f : Nat → Nat) (i : Nat) : Prop := ∃ k, f^[k] 1 = i

theorem onPath_root : OnPath f 1 := ⟨0, rfl⟩

theorem OnPath.child (h : OnPath f i) : OnPath f (f i) := by
  obtain ⟨k, rfl⟩ := h
  exact ⟨k + 1, Function.iterate_succ_apply' f k 1⟩

theorem le_iterate (hf : ∀ i, 1 ≤ i → i < f i) (h1 : 1 ≤ i) : ∀ k, i ≤ f^[k] i := by
  intro k
  induction k with
  | zero => exact Nat.le_refl i
  | succ k ih =>
    rw [Function.iterate_succ_apply']
    exact Nat.le_trans ih (Nat.le_of_lt (hf _ (Nat.le_trans h1 ih)))

/-- The way goes on from each of its positions to all those that are further down. -/
theorem OnPath.below (hf : ∀ i, 1 ≤ i → i < f i) (hi : OnPath f i) (hj : OnPath f j) (hlt : i < j) :
    ∃ k, f^[k] (f i) = j := by
  obtain ⟨k, rfl⟩ := hi
  obtain ⟨k', rfl⟩ := hj
  have hkk : k < k' := by
    by_contra hge
    obtain ⟨d, rfl⟩ := Nat.exists_eq_add_of_le' (Nat.not_lt.1 hge)
    rw [Function.iterate_add_apply] at hlt
    exact absurd (le_iterate hf (le_iterate hf (Nat.le_refl 1) k') d) (Nat.not_le.2 hlt)
  obtain ⟨d, rfl⟩ := Nat.exists_eq_add_of_lt hkk
  refine ⟨d, ?_⟩
  rw [← Function.iterate_succ_apply' f k 1, ← Function.iterate_add_apply]
  congr 1
  omega

/-- What is further down is not before. -/
theorem Ordered.le_iterate (hrefl : ∀ x, le x x) (htrans : ∀ x y z, le x y → le y z → le x z) (h : Ordered le a m)
    (hf : ∀ i, 1 ≤ i → i < f i) (hpar : ∀ i, f i / 2 = i) (h1 : 1 ≤ i) :
    ∀ k, f^[k] i ≤ m → le (at' a i) (at' a (f^[k] i)) := by
  intro k
  induction k with
  | zero => exact fun _ => hrefl _
  | succ k ih =>
    rw [Function.iterate_succ_apply']
    intro hkm
    have hk1 : 1 ≤ f^[k] i := Nat.le_trans h1 (BinHeap.le_iterate hf h1 k)
    have hlt := hf _ hk1
    have hpair := h (f (f^[k] i)) (by omega) hkm
    rw [hpar] at hpair
    exact htrans _ _ _ (ih (by omega)) hpair

end Path

end BinHeap
