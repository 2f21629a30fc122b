import LibA3.Mem.Block

/-!
# Blocks of equal chunks

A block whose first cells are chunks of one size, one after the other.
-/

namespace Mem

variable {α : Type} {bytes ys : List α} {n : Nat} {x : List α} {xs as bs : List (List α)}

/-- All chunks are of size `n`. -/
def Sized (n : Nat) (xs : List (List α)) : Prop := ∀ x ∈ xs, x.length = n

theorem Sized.of_append (h : Sized n (as ++ bs)) : Sized n as ∧ Sized n bs :=
  ⟨fun x hx => h x (List.mem_append_left _ hx), fun x hx => h x (List.mem_append_right _ hx)⟩

theorem Sized.append (h : Sized n as) (h' : Sized n bs) : Sized n (as ++ bs) := by
  intro x hx
  rcases List.mem_append.1 hx with hx | hx
  · exact h x hx
  · exact h' x hx

theorem Sized.singleton (h : x.length = n) : Sized n [x] := by
  intro y hy
  rw [List.mem_singleton.1 hy]
  exact h

theorem Sized.length_flatten (h : Sized n xs) : xs.flatten.length = xs.length * n := by
  induction xs with
  | nil => simp
  | cons x xs ih =>
    obtain ⟨hx, hxs⟩ := List.forall_mem_cons.1 h
    rw [List.flatten_cons, List.length_append, hx, ih hxs, List.length_cons, Nat.succ_mul, Nat.add_comm]

/-- The first chunks of a block. -/
theorem take_chunks (h : Sized n (as ++ bs)) (hbytes : bytes.take ((as ++ bs).length * n) = (as ++ bs).flatten) :
    bytes.take (as.length * n) = as.flatten := by
  have hle : as.length * n ≤ (as ++ bs).length * n := by
    rw [List.length_append]
    exact Nat.mul_le_mul_right n (Nat.le_add_right _ _)
  rw [← Nat.min_eq_left hle, ← List.take_take, hbytes, List.flatten_append, ← h.of_append.1.length_flatten]
  exact List.take_left

/-- One chunk of a block. -/
theorem window_chunk (h : Sized n (as ++ x :: bs))
    (hbytes : bytes.take ((as ++ x :: bs).length * n) = (as ++ x :: bs).flatten) :
    window bytes (as.length * n) (as.length * n + n) = x := by
  have heq : as ++ x :: bs = (as ++ [x]) ++ bs := by simp
  have hlen : (as ++ [x]).length * n = as.length * n + n := by
    rw [List.length_append, List.length_singleton, Nat.succ_mul]
  rw [heq] at h hbytes
  have htake := take_chunks h hbytes
  rw [hlen, List.flatten_append] at htake
  rw [window, htake, ← h.of_append.1.of_append.1.length_flatten, List.drop_left]
  simp

/-- A chunk written behind the chunks. -/
theorem take_push (hle : xs.length * n ≤ bytes.length) (hbytes : bytes.take (xs.length * n) = xs.flatten)
    (hx : x.length = n) :
    (splice bytes (xs.length * n) x).take ((xs ++ [x]).length * n) = (xs ++ [x]).flatten := by
  have hlen : (xs ++ [x]).length * n = xs.length * n + x.length := by
    rw [List.length_append, List.length_singleton, Nat.succ_mul, hx]
  rw [hlen, take_splice_end hle, hbytes]
  simp

/-! ## One chunk written, another one read -/

theorem chunk_le {i j : Nat} (h : i < j) : i * n + n ≤ j * n := by
  rw [← Nat.succ_mul]
  exact Nat.mul_le_mul_right n h

theorem window_splice_ne {i j off head tail : Nat} (hne : i ≠ j) (hoff : off + ys.length ≤ n) (htail : tail ≤ n)
    (hi : i * n + n ≤ bytes.length) :
    window (splice bytes (i * n + off) ys) (j * n + head) (j * n + tail) = window bytes (j * n + head) (j * n + tail) := by
  rcases Nat.lt_or_gt_of_ne hne with hlt | hlt
  · have hchunk := chunk_le (n := n) hlt
    exact window_splice_of_le (by omega) (by omega)
  · have hchunk := chunk_le (n := n) hlt
    exact window_splice_of_ge (by omega) (by omega)

end Mem
