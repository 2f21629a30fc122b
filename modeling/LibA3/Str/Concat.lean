import LibA3.Str.Compare

/-!
# `a3_string_concat`

The offset grows by the length of each string, whether or not that fits; once it has passed the end of the destination
nothing more is copied. What is there then is the start of the concatenation (`concatLoop_eq`).
-/

namespace A3Str

open Fallible Mem

variable {env : Env} {dst : A3String} {args : List A3CString}

/-- `a3_string_offset` (`str.h:144`): the length that is left behind `offset` -/
def stringOffset (env : Env) (s : A3String) (offset : Nat) : Except Fault Nat := do
  check env (s.len ≥ offset)
  pure (usub s.len offset)

/-- The `for` of `a3_string_concat` (`str.c:66`), with the arguments to come -/
def concatLoop (env : Env) : List A3CString → A3String → Nat → Except Fault A3String
  | [], dst, _ => .ok dst
  | arg :: args, dst, offset =>
    if offset < dst.len then do
      let len ← stringOffset env dst offset
      let dst ← stringCopy dst offset len arg
      concatLoop env args dst (sz (offset + arg.len))
    else .ok dst

/-- `a3_string_concat` (`str.c:59`) -/
def stringConcat (env : Env) (dst : A3String) (args : List A3CString) : Except Fault A3String := do
  check env (dst.ptr ≠ 0)
  concatLoop env args dst 0

/-- All the bytes of the arguments, in order. -/
def concatenation (args : List A3CString) : List UInt8 := args.flatMap A3CString.bytes

theorem stringOffset_eq {offset : Nat} (hle : offset ≤ dst.len) (hobj : dst.len ≤ ptrdiffMax) :
    stringOffset env dst offset = .ok (dst.len - offset) := by
  have hlt : dst.len < 2 ^ 64 := by
    unfold ptrdiffMax at hobj
    omega
  rw [stringOffset, check_true (decide_eq_true hle), ok_bind, usub_eq hle hlt]
  rfl

/-- Copying as much of a string as there is room for. -/
theorem stringCopy_take {off len : Nat} {src : A3CString} (hp : dst.ptr ≠ 0) (h : off + len ≤ dst.bytes.length) :
    stringCopy dst off len src = .ok { dst with bytes := splice dst.bytes off (src.bytes.take len) } := by
  rw [stringCopy]
  by_cases hs : src.ptr = 0
  · rw [if_pos (Or.inr hs), src.null hs, List.take_nil, splice_nil]
  · have htake : src.bytes.take (min len src.len) = src.bytes.take len := (List.take_eq_take_min ..).symm
    have hfit : off + (src.bytes.take len).length ≤ dst.bytes.length := by
      rw [List.length_take]
      omega
    rw [if_neg (not_or.2 ⟨hp, hs⟩), htake, A3String.store_eq hp hfit]

/-- Two writes of what there is room for, one behind the other, are one: once the first string has been cut off, nothing is
left to write. -/
theorem splice_take_append {block : List UInt8} {off n : Nat} (xs ys : List UInt8) (hfit : off + n ≤ block.length) :
    splice (splice block off (xs.take n)) (off + xs.length) (ys.take (n - xs.length)) =
      splice block off ((xs ++ ys).take n) := by
  rw [List.take_append]
  by_cases hle : xs.length ≤ n
  · rw [List.take_of_length_le hle]
    exact splice_splice (by omega)
  · rw [Nat.sub_eq_zero_of_le (by omega), List.take_zero, List.append_nil, splice_nil]

theorem concatLoop_eq : ∀ (args : List A3CString) (dst : A3String) (offset : Nat), dst.ptr ≠ 0 →
    dst.len ≤ dst.bytes.length → dst.len ≤ ptrdiffMax → (∀ arg ∈ args, arg.len ≤ ptrdiffMax) →
    concatLoop env args dst offset =
      .ok { dst with bytes := splice dst.bytes offset ((concatenation args).take (dst.len - offset)) } := by
  intro args
  induction args with
  | nil =>
    intro dst offset _ _ _ _
    rw [concatenation, List.flatMap_nil, List.take_nil, splice_nil, concatLoop]
  | cons arg args ih =>
    intro dst offset hp hblk hobj hargs
    rw [concatLoop]
    split
    · next hlt =>
      have hroom : offset + (dst.len - offset) ≤ dst.bytes.length := by omega
      have harg : arg.len ≤ ptrdiffMax := hargs arg List.mem_cons_self
      have hnext : sz (offset + arg.len) = offset + arg.len := by
        unfold ptrdiffMax at hobj harg
        exact sz_eq (by omega)
      have hfit : offset + (arg.bytes.take (dst.len - offset)).length ≤ dst.bytes.length := by
        rw [List.length_take]
        omega
      have hrest := ih { dst with bytes := splice dst.bytes offset (arg.bytes.take (dst.len - offset)) }
        (offset + arg.len) hp (by simp only; rw [length_splice hfit]; exact hblk) hobj
        fun a ha => hargs a (List.mem_cons_of_mem arg ha)
      rw [stringOffset_eq (Nat.le_of_lt hlt) hobj, ok_bind, stringCopy_take hp hroom, ok_bind, hnext]
      refine hrest.trans ?_
      have hleft : dst.len - (offset + arg.len) = dst.len - offset - arg.bytes.length :=
        Nat.sub_add_eq dst.len offset arg.len
      simp only [concatenation, List.flatMap_cons, Except.ok.injEq, hleft]
      exact congrArg (A3String.mk dst.ptr dst.len) (splice_take_append arg.bytes _ hroom)
    · next hge =>
      have hnone : dst.len - offset = 0 := Nat.sub_eq_zero_of_le (Nat.not_lt.1 hge)
      rw [hnone, List.take_zero, splice_nil]

/-- **`a3_string_concat` leaves the first bytes of the concatenation in the destination**, and the others there as they
were. -/
theorem concat_first (hp : dst.ptr ≠ 0) (hblk : dst.len ≤ dst.bytes.length) (hobj : dst.len ≤ ptrdiffMax)
    (hargs : ∀ arg ∈ args, arg.len ≤ ptrdiffMax) :
    ∃ r, stringConcat env dst args = .ok r ∧ r.ptr = dst.ptr ∧ r.len = dst.len ∧
      r.bytes.length = dst.bytes.length ∧
      r.bytes.take (min dst.len (concatenation args).length) =
        (concatenation args).take (min dst.len (concatenation args).length) ∧
      r.bytes.drop (min dst.len (concatenation args).length) =
        dst.bytes.drop (min dst.len (concatenation args).length) := by
  have hlen : ((concatenation args).take dst.len).length = min dst.len (concatenation args).length :=
    List.length_take
  have hfit : 0 + ((concatenation args).take dst.len).length ≤ dst.bytes.length := by
    rw [hlen]
    omega
  have hloop : concatLoop env args dst 0 = _ := concatLoop_eq args dst 0 hp hblk hobj hargs
  rw [stringConcat, check_true (decide_eq_true hp), ok_bind, hloop, Nat.sub_zero]
  refine ⟨_, rfl, rfl, rfl, length_splice hfit, ?_, ?_⟩
  · have htake : (splice dst.bytes 0 ((concatenation args).take dst.len)).take (0 + _) = _ :=
      take_splice_end (Nat.zero_le dst.bytes.length)
    rw [Nat.zero_add, hlen, List.take_zero, List.nil_append] at htake
    exact htake.trans List.take_eq_take_min
  · exact drop_splice (by omega) hfit

/-- `"01"`, `""` and `"234"` into four bytes of a block of five -/
theorem concat_first_four : ∃ r,
    stringConcat hosted ⟨8192, 4, [120, 120, 120, 120, 120]⟩ [literal [48, 49], literal [], literal [50, 51, 52]] = .ok r ∧
      r.ptr = 8192 ∧ r.len = 4 ∧ r.bytes.length = 5 ∧ r.bytes.take 4 = [48, 49, 50, 51] ∧ r.bytes.drop 4 = [120] :=
  concat_first (by decide) (by decide) (by decide) (by decide)

end A3Str
