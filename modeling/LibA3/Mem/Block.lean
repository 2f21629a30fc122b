import Mathlib.Data.List.Basic

/-!
# Blocks of memory

A block is the list of its cells. `window` reads a range of cells, `splice` overwrites one; the lemmas say what
one does to the other. Nothing here knows what the cells hold or who owns the block.
-/

namespace Mem

variable {α : Type} {xs ys zs : List α} {head tail off n : Nat}

/-- The cells `head .. tail - 1`. -/
def window (xs : List α) (head tail : Nat) : List α := (xs.take tail).drop head

/-- The cells from `off` on replaced by `ys`. -/
def splice (xs : List α) (off : Nat) (ys : List α) : List α := xs.take off ++ ys ++ xs.drop (off + ys.length)

/-! ## `window` -/

@[simp] theorem length_window (h : tail ≤ xs.length) : (window xs head tail).length = tail - head := by
  rw [window, List.length_drop, List.length_take, Nat.min_eq_left h]

@[simp] theorem window_self : window xs head head = [] := by
  rw [window, List.drop_eq_nil_iff, List.length_take]
  exact Nat.min_le_left _ _

theorem drop_window : (window xs head tail).drop n = window xs (head + n) tail := by
  rw [window, window, List.drop_drop]

theorem window_zero : window xs 0 tail = xs.take tail := rfl

/-- The first cell of a range. -/
theorem window_cons (hlt : head < tail) (hle : tail ≤ xs.length) :
    window xs head tail = xs.get ⟨head, Nat.lt_of_lt_of_le hlt hle⟩ :: window xs (head + 1) tail := by
  have hlen : head < (xs.take tail).length := by rw [List.length_take, Nat.min_eq_left hle]; exact hlt
  rw [window, List.drop_eq_getElem_cons hlen, List.getElem_take, window]
  rfl

theorem getElem?_window {i : Nat} : (window xs head tail)[i]? = if head + i < tail then xs[head + i]? else none := by
  rw [window, List.getElem?_drop, List.getElem?_take]

theorem take_window (hle : head + n ≤ tail) : (window xs head tail).take n = window xs head (head + n) := by
  rw [window, window, List.take_drop, List.take_take, Nat.min_eq_left hle]

/-- Cells of a longer block whose first cells are those of `xs`. -/
theorem window_append (hle : tail ≤ xs.length) : window (xs ++ zs) head tail = window xs head tail := by
  rw [window, window, List.take_append_of_le_length hle]

theorem window_take (hle : tail ≤ n) : window (xs.take n) head tail = window xs head tail := by
  rw [window, window, List.take_take, Nat.min_eq_left hle]

/-! ## `splice` -/

@[simp] theorem length_splice (h : off + ys.length ≤ xs.length) : (splice xs off ys).length = xs.length := by
  rw [splice, List.length_append, List.length_append, List.length_take, List.length_drop]
  omega

theorem splice_nil : splice xs off [] = xs := by
  rw [splice, List.append_nil, List.length_nil, Nat.add_zero, List.take_append_drop]

/-- Writing what is there. -/
theorem splice_window (h : off + n ≤ xs.length) : splice xs off (window xs off (off + n)) = xs := by
  have hlen : (window xs off (off + n)).length = n := by rw [length_window h, Nat.add_sub_cancel_left]
  have htake : xs.take off ++ window xs off (off + n) = xs.take (off + n) := by
    rw [window, List.take_add, List.drop_left' (by rw [List.length_take]; omega)]
  rw [splice, hlen, htake, List.take_append_drop]

theorem take_splice (h : n ≤ off) (hoff : off ≤ xs.length) : (splice xs off ys).take n = xs.take n := by
  have hlen : n ≤ (xs.take off).length := by rw [List.length_take, Nat.min_eq_left hoff]; exact h
  rw [splice, List.append_assoc, List.take_append_of_le_length hlen, List.take_take, Nat.min_eq_left h]

theorem drop_splice (h : off + ys.length ≤ n) (hle : off + ys.length ≤ xs.length) :
    (splice xs off ys).drop n = xs.drop n := by
  have hlen : (xs.take off ++ ys).length = off + ys.length := by
    rw [List.length_append, List.length_take, Nat.min_eq_left (by omega)]
  rw [splice, List.drop_append, List.drop_eq_nil_of_le (by omega), hlen, List.nil_append, List.drop_drop]
  congr 1
  omega

/-- A cell that differs is one that was overwritten. -/
theorem getElem?_splice_of_not_mem {i : Nat} (hle : off + ys.length ≤ xs.length) (h : i < off ∨ off + ys.length ≤ i) :
    (splice xs off ys)[i]? = xs[i]? := by
  rcases h with h | h
  · have htake : (splice xs off ys).take (i + 1) = xs.take (i + 1) := take_splice h (by omega)
    simpa [List.getElem?_take] using congrArg (·[i]?) htake
  · have hdrop : (splice xs off ys).drop (off + ys.length) = _ := drop_splice (Nat.le_refl _) hle
    simpa [List.getElem?_drop, Nat.add_sub_cancel' h] using congrArg (·[i - (off + ys.length)]?) hdrop

theorem take_splice_end (hoff : off ≤ xs.length) :
    (splice xs off ys).take (off + ys.length) = xs.take off ++ ys := by
  have hlen : (xs.take off ++ ys).length = off + ys.length := by
    rw [List.length_append, List.length_take, Nat.min_eq_left hoff]
  rw [splice, ← hlen]
  exact List.take_left

/-- Writing just after a range appends to it. -/
theorem window_splice_end (hle : head ≤ tail) (h : tail ≤ xs.length) :
    window (splice xs tail ys) head (tail + ys.length) = window xs head tail ++ ys := by
  have hlen : head ≤ (xs.take tail).length := by rw [List.length_take, Nat.min_eq_left h]; exact hle
  rw [window, take_splice_end h, List.drop_append_of_le_length hlen, window]

/-- Reading on into what was written just after a range. -/
theorem window_splice_take (hle : head ≤ tail) (h : tail ≤ xs.length) (hn : n ≤ ys.length) :
    window (splice xs tail ys) head (tail + n) = window xs head tail ++ ys.take n := by
  have hdiff : tail + n - head - (tail - head) = n := by omega
  have hall : window (splice xs tail ys) head (tail + n) =
      (window (splice xs tail ys) head (tail + ys.length)).take (tail + n - head) := by
    rw [window, window, List.drop_take, List.drop_take, List.take_take, Nat.min_eq_left (by omega)]
  rw [hall, window_splice_end hle h, List.take_append, length_window h, hdiff,
    List.take_of_length_le (by rw [length_window h]; omega)]

/-- What was written can be read. -/
theorem window_splice (h : off ≤ xs.length) : window (splice xs off ys) off (off + ys.length) = ys := by
  rw [window_splice_end (Nat.le_refl off) h, window_self, List.nil_append]

/-- Writing before a range leaves it alone. -/
theorem window_splice_of_le (h : off + ys.length ≤ head) (hle : off + ys.length ≤ xs.length) :
    window (splice xs off ys) head tail = window xs head tail := by
  rw [window, window, List.drop_take, List.drop_take, drop_splice h hle]

/-- Writing behind a range leaves it alone. -/
theorem window_splice_of_ge (h : tail ≤ off) (hoff : off ≤ xs.length) :
    window (splice xs off ys) head tail = window xs head tail := by
  rw [window, take_splice h hoff, window]

/-- A range, cut in two. -/
theorem window_add (hhead : head ≤ n) (htail : n ≤ tail) : window xs head n ++ window xs n tail = window xs head tail := by
  obtain ⟨k, rfl⟩ := Nat.exists_eq_add_of_le hhead
  rw [← take_window htail, ← drop_window, List.take_append_drop]

/-- Writing inside of a range. -/
theorem window_splice_inside (hle : off + ys.length ≤ n) (h : head + n ≤ xs.length) :
    window (splice xs (head + off) ys) head (head + n) = splice (window xs head (head + n)) off ys := by
  have hfront : window (splice xs (head + off) ys) head (head + off) = window xs head (head + off) :=
    window_splice_of_ge (Nat.le_refl _) (by omega)
  have hmid : window (splice xs (head + off) ys) (head + off) (head + off + ys.length) = ys := window_splice (by omega)
  have hback : window (splice xs (head + off) ys) (head + off + ys.length) (head + n) =
      window xs (head + off + ys.length) (head + n) := window_splice_of_le (Nat.le_refl _) (by omega)
  calc window (splice xs (head + off) ys) head (head + n)
      = window (splice xs (head + off) ys) head (head + off) ++
          (window (splice xs (head + off) ys) (head + off) (head + off + ys.length) ++
            window (splice xs (head + off) ys) (head + off + ys.length) (head + n)) := by
        rw [window_add (by omega) (by omega), window_add (by omega) (by omega)]
    _ = splice (window xs head (head + n)) off ys := by
        rw [hfront, hmid, hback, splice, take_window (by omega), drop_window, List.append_assoc, Nat.add_assoc]

/-- Writing before the end of a block, with other cells behind it. -/
theorem splice_append (h : off + ys.length ≤ xs.length) : splice (xs ++ zs) off ys = splice xs off ys ++ zs := by
  have hoff : off ≤ xs.length := by omega
  rw [splice, splice, List.take_append_of_le_length hoff, List.drop_append_of_le_length h, List.append_assoc, List.append_assoc,
    List.append_assoc]

/-- Two writes, one just after the other. -/
theorem splice_splice (h : off + ys.length ≤ xs.length) :
    splice (splice xs off ys) (off + ys.length) zs = splice xs off (ys ++ zs) := by
  have hoff : off ≤ xs.length := by omega
  rw [splice, take_splice_end hoff, drop_splice (Nat.le_add_right _ _) h, splice, List.length_append, Nat.add_assoc]
  simp only [List.append_assoc]

theorem splice_singleton {i : Nat} (h : i < xs.length) (x : α) : splice xs i [x] = xs.set i x := by
  rw [splice, List.set_eq_take_append_cons_drop, if_pos h, List.append_assoc]
  rfl

theorem window_singleton {i : Nat} (h : i < xs.length) : window xs i (i + 1) = [xs.get ⟨i, h⟩] := by
  rw [window_cons (Nat.lt_succ_self i) h, window_self]

end Mem
