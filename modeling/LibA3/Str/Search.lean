import LibA3.Str.Compare
import LibA3.Text.Occurrence

/-!
# Searching in strings (`str.c`, `shim/memmem`)

The fallback for `memmem` compares at every place from which more than the needle is left: the first occurrence escapes
it if and only if that is at the very end (`missing_found_iff`). `a3_string_rchr` starts at the last byte, which an empty
string has not (`rchr_iff`).
-/

namespace A3Str

open Fallible Mem Text

variable {env : Env} {s : A3CString} {c : UInt8} {needle haystack : List UInt8}

/-! ## `memmem` -/

theorem isPrefixOf_iff : needle.isPrefixOf haystack = true ↔ needle <+: haystack := List.isPrefixOf_iff_prefix

theorem memmem_found (haystack : List UInt8) (hne : needle ≠ []) : Found needle haystack (memmem haystack needle) := by
  induction haystack with
  | nil =>
    have hnot : ¬needle.isPrefixOf [] = true := by
      rw [isPrefixOf_iff, List.prefix_nil]
      exact hne
    rw [memmem, if_neg hnot]
    exact Found.nil hne
  | cons c rest ih =>
    rw [memmem]
    split
    · next h => exact Found.here (isPrefixOf_iff.1 h)
    · next h => exact Found.cons (fun h' => h (isPrefixOf_iff.2 h')) ih

theorem memmem_le {i : Nat} (hne : needle ≠ []) (h : memmem haystack needle = some i) :
    i + needle.length ≤ haystack.length := by
  have hfound := memmem_found haystack hne
  rw [h] at hfound
  exact hfound.1.le hne

/-- The fallback misses what ends at the end of the haystack, and nothing else. -/
theorem missingLoop_eq (hne : needle ≠ []) :
    missingLoop haystack needle = (memmem haystack needle).filter fun i => i + needle.length < haystack.length := by
  induction haystack with
  | nil =>
    cases hmem : memmem [] needle with
    | none => rfl
    | some i => simp [missingLoop]
  | cons c rest ih =>
    rw [missingLoop]
    by_cases hlt : needle.length < (c :: rest).length
    · rw [if_pos hlt, memmem]
      split
      · rw [Option.filter_some, Nat.zero_add, if_pos (decide_eq_true hlt)]
      · -- the same places, one further on
        rw [ih]
        cases memmem rest needle with
        | none => rfl
        | some i =>
          have hiff : (i + 1 + needle.length < (c :: rest).length) ↔ i + needle.length < rest.length := by
            rw [List.length_cons]
            omega
          simp only [Option.map_some, Option.filter_some, hiff]
          split <;> rfl
    · rw [if_neg hlt]
      cases hmem : memmem (c :: rest) needle with
      | none => rfl
      | some i =>
        have hle := memmem_le hne hmem
        rw [Option.filter_some, if_neg (by simp only [decide_eq_true_eq]; omega)]

/-- The library where the C library has `memmem`, and where it has not. -/
def native (env : Env) : Env := { env with hasMemmem := true }

def fallback (env : Env) : Env := { env with hasMemmem := false }

theorem shimMemmem_native : shimMemmem (native env) haystack needle = memmem haystack needle := rfl

theorem shimMemmem_fallback (hne : needle ≠ []) : shimMemmem (fallback env) haystack needle =
    (memmem haystack needle).filter fun i => i + needle.length < haystack.length := by
  have hshim : shimMemmem (fallback env) haystack needle =
      if haystack.length = 0 ∨ needle.length = 0 then none else missingLoop haystack needle := rfl
  rw [hshim, ← missingLoop_eq hne]
  split
  · next h =>
    rcases h with h | h
    · rw [List.length_eq_zero_iff.1 h]
      rfl
    · exact absurd (List.length_eq_zero_iff.1 h) hne
  · rfl

theorem onlyAtEnd_iff (hne : needle ≠ []) : OnlyAtEnd needle haystack ↔
    ∃ i, memmem haystack needle = some i ∧ i + needle.length = haystack.length := by
  have hfound := memmem_found haystack hne
  constructor
  · rintro ⟨i, hi, hend⟩
    exact ⟨i, hfound.unique hi, hend⟩
  · rintro ⟨i, hi, hend⟩
    rw [hi] at hfound
    exact ⟨i, hfound, hend⟩

/-- The fallback gives the same answer as `memmem` unless the first occurrence is at the very end. -/
theorem shimMemmem_agrees (hne : needle ≠ []) :
    shimMemmem (fallback env) haystack needle = shimMemmem (native env) haystack needle ↔
      ¬OnlyAtEnd needle haystack := by
  rw [shimMemmem_fallback hne, shimMemmem_native, onlyAtEnd_iff hne]
  cases hmem : memmem haystack needle with
  | none => simp
  | some i =>
    have hle := memmem_le hne hmem
    simp only [Option.filter_eq_some_iff, Option.some.injEq, decide_eq_true_eq, true_and, exists_eq_left']
    omega

/-- **The fallback finds the first occurrence** unless that is at the very end. -/
theorem missing_found_iff (hne : needle ≠ []) :
    Found needle haystack (shimMemmem (fallback env) haystack needle) ↔ ¬OnlyAtEnd needle haystack := by
  have hfound := memmem_found haystack hne
  have hagree : shimMemmem (fallback env) haystack needle = _ ↔ _ := shimMemmem_agrees hne
  rw [← hagree, shimMemmem_native]
  constructor
  · exact fun h => h.unique hfound
  · intro h
    rw [h]
    exact hfound

theorem shimMemmem_le {i : Nat} (hne : needle ≠ []) (h : shimMemmem env haystack needle = some i) :
    i + needle.length ≤ haystack.length := by
  cases hmem : env.hasMemmem with
  | true =>
    rw [shimMemmem, if_pos hmem] at h
    exact memmem_le hne h
  | false =>
    have henv : env = fallback env := by rw [fallback, ← hmem]
    rw [henv, shimMemmem_fallback hne, Option.filter_eq_some_iff] at h
    exact memmem_le hne h.1

/-! ## `a3_string_memmem` -/

/-- The length need not be looked at first. -/
theorem stringMemmem_eq {hay : A3String} {off n : Nat} {needle : A3CString} (hp : hay.ptr ≠ 0)
    (hfit : off + n ≤ hay.bytes.length) (hne : needle.bytes ≠ []) :
    stringMemmem env hay off n needle = .ok (shimMemmem env (window hay.bytes off (off + n)) needle.bytes) := by
  have hptr : needle.ptr ≠ 0 := fun h => hne (needle.null h)
  have hpos : needle.len > 0 := List.length_pos_of_ne_nil hne
  rw [stringMemmem, check_true (decide_eq_true hp), ok_bind, check_true (decide_eq_true hptr), ok_bind,
    check_true (decide_eq_true hpos), ok_bind]
  split
  · next hlt =>
    cases hfound : shimMemmem env (window hay.bytes off (off + n)) needle.bytes with
    | none => rfl
    | some i =>
      have hle := shimMemmem_le hne hfound
      rw [length_window hfit, Nat.add_sub_cancel_left] at hle
      exact absurd (Nat.le_trans (Nat.le_add_left _ _) hle) (Nat.not_le.2 hlt)
  · rw [A3String.load_eq hp hfit, ok_bind, pure_ok]

/-! ## `a3_string_rchr` -/

/-- `str.ptr[i]` -/
def A3CString.load (s : A3CString) (i : Nat) : Except Fault UInt8 :=
  if s.ptr = 0 then .error .nullDeref else s.bytes[i]?.elim (.error .outOfBounds) .ok

/-- The string from `&str.ptr[i]` on -/
def A3CString.suffix (s : A3CString) (i : Nat) : A3CString :=
  ⟨s.ptr + i, s.bytes.drop i, fun h => by rw [s.null (Nat.eq_zero_of_add_eq_zero h).1, List.drop_nil]⟩

/-- `A3_CS_NULL` (`str.h:101`) -/
def nullCString : A3CString := ⟨0, [], fun _ => rfl⟩

/-- The `for` of `a3_string_rchr_impl` (`str.c:138`) -/
def rchrLoop (str : A3CString) (c : UInt8) (i : Nat) : Except Fault (Option Nat) := do
  if (← str.load i) = c then pure (some i)
  else
    match i with
    | 0 => pure none
    | i + 1 => rchrLoop str c i

/-- `a3_string_rchr_impl` (`str.c:135`) -/
def stringRchr (env : Env) (str : A3CString) (c : UInt8) : Except Fault A3CString := do
  check env (str.ptr ≠ 0)
  match ← rchrLoop str c (usub str.len 1) with
  | some i => pure (str.suffix i)
  | none => pure nullCString

/-- The suffix that starts at the last occurrence of `c`. -/
structure LastOccurrence (s : A3CString) (c : UInt8) (r : A3CString) : Prop where
  null_iff : r.ptr = 0 ↔ c ∉ s.bytes
  null : c ∉ s.bytes → r = nullCString
  suffix : ∀ as bs, s.bytes = as ++ c :: bs → c ∉ bs → r = s.suffix as.length

theorem load_eq {i : Nat} {x : UInt8} (hp : s.ptr ≠ 0) (h : s.bytes[i]? = some x) : s.load i = .ok x := by
  rw [A3CString.load, if_neg hp, h]
  rfl

theorem rchrLoop_eq (hp : s.ptr ≠ 0) : ∀ i, i < s.bytes.length →
    ∃ r, rchrLoop s c i = .ok r ∧ LastUpTo s.bytes c i r := by
  intro i
  induction i with
  | zero =>
    intro hi
    have hget := List.getElem?_eq_getElem hi
    rw [rchrLoop, load_eq hp hget, ok_bind]
    split
    · next heq => exact ⟨_, rfl, .here (by rw [hget, heq])⟩
    · next hne => exact ⟨_, rfl, .zero (by rw [hget]; exact fun h => hne (Option.some.inj h))⟩
  | succ i ih =>
    intro hi
    have hget := List.getElem?_eq_getElem hi
    rw [rchrLoop, load_eq hp hget, ok_bind]
    split
    · next heq => exact ⟨_, rfl, .here (by rw [hget, heq])⟩
    · next hne =>
      obtain ⟨r, hr, hlast⟩ := ih (Nat.lt_of_succ_lt hi)
      exact ⟨r, hr, hlast.succ (by rw [hget]; exact fun h => hne (Option.some.inj h))⟩

theorem rchr_nonempty (hp : s.ptr ≠ 0) (hlen : s.len < 2 ^ 64) (hne : s.bytes ≠ []) :
    ∃ r, stringRchr env s c = .ok r ∧ LastOccurrence s c r := by
  have hpos : 0 < s.len := List.length_pos_of_ne_nil hne
  have hstart : usub s.len 1 = s.len - 1 := usub_eq hpos hlen
  have hall : s.bytes.length ≤ s.len - 1 + 1 := by
    rw [Nat.sub_add_cancel hpos]
    exact Nat.le_refl _
  have hlast : s.len - 1 < s.bytes.length := Nat.sub_lt hpos Nat.one_pos
  obtain ⟨r, hr, hlast⟩ := rchrLoop_eq (c := c) hp (s.len - 1) hlast
  rw [stringRchr, check_true (decide_eq_true hp), ok_bind, hstart, hr, ok_bind]
  cases r with
  | none =>
    have hnot : c ∉ s.bytes := hlast.not_mem hall
    refine ⟨_, rfl, ⟨iff_of_true rfl hnot, fun _ => rfl, fun as bs heq => ?_⟩⟩
    rw [heq] at hnot
    exact absurd (List.mem_append_right as List.mem_cons_self) hnot
  | some k =>
    have hmem : c ∈ s.bytes := List.mem_of_getElem? hlast.2.1
    have hptr : (s.suffix k).ptr ≠ 0 := fun h => hp (Nat.eq_zero_of_add_eq_zero h).1
    refine ⟨_, rfl, ⟨iff_of_false hptr (not_not_intro hmem), fun h => absurd hmem h, fun as bs heq hbs => ?_⟩⟩
    rw [heq] at hlast hall
    rw [hlast.eq_length hall hbs]

theorem rchrLoop_error {f : Fault} (h : ∀ i, s.load i = .error f) : ∀ i, rchrLoop s c i = .error f
  | 0 => by
    rw [rchrLoop, h]
    rfl
  | i + 1 => by
    rw [rchrLoop, h]
    rfl

/-- There is no byte before the first: the index wraps. -/
theorem rchr_empty (hp : s.ptr ≠ 0) (h : s.bytes = []) : stringRchr env s c = .error .outOfBounds := by
  have hload : ∀ i, s.load i = .error .outOfBounds := by
    intro i
    rw [A3CString.load, if_neg hp, h]
    rfl
  rw [stringRchr, check_true (decide_eq_true hp), ok_bind, rchrLoop_error hload]
  rfl

/-- **`a3_string_rchr` finds the last occurrence in every string but the empty one.** -/
theorem rchr_iff (hp : s.ptr ≠ 0) (hlen : s.len < 2 ^ 64) :
    (∃ r, stringRchr env s c = .ok r ∧ LastOccurrence s c r) ↔ s.bytes ≠ [] := by
  constructor
  · rintro ⟨r, hr, -⟩ hempty
    rw [rchr_empty hp hempty] at hr
    cases hr
  · exact rchr_nonempty hp hlen

/-- `'4'` in `"12345654321"` -/
theorem rchr_iff_digits :
    ∃ r, stringRchr hosted (literal [49, 50, 51, 52, 53, 54, 53, 52, 51, 50, 49]) 52 = .ok r ∧
      LastOccurrence (literal [49, 50, 51, 52, 53, 54, 53, 52, 51, 50, 49]) 52 r :=
  (rchr_iff (by decide) (by decide)).2 (by decide)

/-- The empty string -/
theorem rchr_reads_outside : ¬∀ (env : Env) (s : A3CString) (c : UInt8), s.ptr ≠ 0 → s.len < 2 ^ 64 →
    ∃ r, stringRchr env s c = .ok r ∧ LastOccurrence s c r := by
  intro h
  obtain ⟨r, hr, -⟩ := h hosted (literal []) 52 (by decide) (by decide)
  rw [rchr_empty (by decide) rfl] at hr
  cases hr

end A3Str
