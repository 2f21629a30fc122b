import Mathlib.Data.List.Nodup
import Mathlib.Logic.Function.Basic

/-!
# Displacement along a path

`displace f x is` is the assignment `f` after `x` was put into the first slot of the path `is`, the old
occupant of that slot into the second, and so on; what the last slot held is dropped. Every slot is then in
one of three cases (`displace_cases`): the first one of the path holds `x`, a later one what its predecessor
held, and any other slot what it held before.
-/

namespace RobinHood

variable {ι α : Type}

/-- Every slot of the path but the first has a predecessor. -/
theorem exists_pred {b : ι} : ∀ {i : ι} {is : List ι}, b ∈ is → ∃ a, (a, b) ∈ (i :: is).zip is
  | i, j :: is, h => by
    rw [List.zip_cons_cons]
    rcases List.mem_cons.1 h with rfl | hmem
    · exact ⟨i, List.mem_cons_self⟩
    · obtain ⟨a, ha⟩ := exists_pred (i := j) hmem
      exact ⟨a, List.mem_cons_of_mem _ ha⟩

variable [DecidableEq ι]

def displace : (ι → α) → α → List ι → ι → α
  | f, _, [] => f
  | f, x, i :: is => displace (Function.update f i x) (f i) is

theorem displace_of_not_mem : ∀ {is : List ι} (f : ι → α) (x : α) {i : ι}, i ∉ is → displace f x is i = f i
  | [], _, _, _, _ => rfl
  | j :: is, f, x, i, h => by
    obtain ⟨hij, his⟩ := List.ne_and_not_mem_of_not_mem_cons h
    rw [displace, displace_of_not_mem _ _ his, Function.update_of_ne hij]

theorem displace_head {i : ι} {is : List ι} (f : ι → α) (x : α) (h : i ∉ is) : displace f x (i :: is) i = x := by
  rw [displace, displace_of_not_mem _ _ h, Function.update_self]

/-- What a slot of the path held is in the next one. -/
theorem displace_next : ∀ {i : ι} {is : List ι} (f : ι → α) (x : α), (i :: is).Nodup → ∀ {a b : ι},
    (a, b) ∈ (i :: is).zip is → displace f x (i :: is) b = f a
  | i, [], _, _, _, a, b, h => by simp at h
  | i, j :: is, f, x, hnd, a, b, h => by
    obtain ⟨hi, hnd'⟩ := List.nodup_cons.1 hnd
    rw [List.zip_cons_cons] at h
    rw [displace]
    rcases List.mem_cons.1 h with heq | hmem
    · obtain ⟨rfl, rfl⟩ := Prod.mk.inj heq
      exact displace_head _ _ (List.nodup_cons.1 hnd').1
    · have hne : a ≠ i := fun hai => hi (hai ▸ (List.of_mem_zip hmem).1)
      rw [displace_next _ _ hnd' hmem, Function.update_of_ne hne]

theorem displace_cases {i : ι} {is : List ι} (f : ι → α) (x : α) (hnd : (i :: is).Nodup) (b : ι) :
    (b = i ∧ displace f x (i :: is) b = x) ∨
      (∃ a, (a, b) ∈ (i :: is).zip is ∧ displace f x (i :: is) b = f a) ∨
      (b ∉ i :: is ∧ displace f x (i :: is) b = f b) := by
  by_cases hb : b ∈ i :: is
  · rcases List.mem_cons.1 hb with rfl | hmem
    · exact Or.inl ⟨rfl, displace_head f x (List.nodup_cons.1 hnd).1⟩
    · obtain ⟨a, ha⟩ := exists_pred hmem
      exact Or.inr (Or.inl ⟨a, ha, displace_next f x hnd ha⟩)
  · exact Or.inr (Or.inr ⟨hb, displace_of_not_mem f x hb⟩)

end RobinHood
