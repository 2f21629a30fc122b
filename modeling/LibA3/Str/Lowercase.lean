import LibA3.Str.Compare

/-!
# `a3_string_to_lowercase`

The loop of `a3_string_lowercase` ends at a NUL, and so do the C library's comparisons. What is left of two strings in
lower case compares as the strings do without regard to case (`cmpi_lowercase`).

| here | there |
| --- | --- |
| `A3String.const` | `A3_S_CONST` (`str.h:109`) |
-/

namespace A3Str

open Fallible Mem Text

variable {env : Env} {a b : A3CString}

/-! ## Lower case -/

/-- `a3_string_clone_impl` (`str.c:36`) -/
def stringClone (env : Env) (other : A3CString) : Except Fault A3String :=
  if other.ptr = 0 then .ok nullString
  else
    let ret := stringAlloc env other.len
    stringCopy ret 0 ret.len other

/-- The `for` of `a3_string_lowercase` from `i` on, with `n` turns to go -/
def lowercaseLoop : Nat → Nat → A3String → Except Fault A3String
  | 0, _, str => .ok str
  | n + 1, i, str => do
    let c ← str.load i 1
    if c = [0] then pure str
    else
      let str ← str.store i (c.map tolower)
      lowercaseLoop n (i + 1) str

/-- `a3_string_lowercase` (`str.c:83`) -/
def stringLowercase (str : A3String) : Except Fault A3String := lowercaseLoop str.len 0 str

/-- `a3_string_to_lowercase_impl` (`str.c:88`) -/
def stringToLowercase (env : Env) (str : A3CString) : Except Fault A3String := do
  let ret ← stringClone env str
  stringLowercase ret

def A3String.const (s : A3String) : A3CString :=
  ⟨s.ptr, if s.ptr = 0 then [] else s.bytes.take s.len, fun h => if_pos h⟩

/-! ## What they return -/

theorem tolower_nul (c : UInt8) (hc : isNul c = true) : tolower c = c := by
  have hzero : c = 0 := by simpa [isNul] using hc
  subst hzero
  rfl

/-- The loop lowers the bytes of its range up to a NUL. -/
theorem lowercaseLoop_eq {ptr len : Nat} (hp : ptr ≠ 0) : ∀ (n i : Nat) (ys : List UInt8), i + n ≤ ys.length →
    lowercaseLoop n i ⟨ptr, len, ys⟩ = .ok ⟨ptr, len, splice ys i (mapUntil tolower isNul (window ys i (i + n)))⟩ := by
  intro n
  induction n with
  | zero =>
    intro i ys _
    rw [Nat.add_zero, window_self, mapUntil, splice_nil, lowercaseLoop]
  | succ n ih =>
    intro i ys hle
    have hi : i < ys.length := by omega
    have hwin : window ys i (i + (n + 1)) = _ := window_cons (by omega) hle
    have hload : (A3String.mk ptr len ys).load i 1 = _ := A3String.load_eq hp hi
    rw [lowercaseLoop, hload, ok_bind, window_singleton hi]
    by_cases hnul : ys.get ⟨i, hi⟩ = 0
    · have hstop : isNul (ys.get ⟨i, hi⟩) = true := by
        rw [hnul]
        rfl
      rw [if_pos (by rw [hnul]), hwin, mapUntil, if_pos hstop, ← hwin, splice_window hle]
      rfl
    · have hgo : ¬isNul (ys.get ⟨i, hi⟩) = true := by simpa [isNul] using hnul
      have hone : i + [tolower (ys.get ⟨i, hi⟩)].length ≤ ys.length := hi
      have hstore : (A3String.mk ptr len ys).store i ([ys.get ⟨i, hi⟩].map tolower) = _ := A3String.store_eq hp hone
      have hrest := ih (i + 1) (splice ys i [tolower (ys.get ⟨i, hi⟩)]) (by rw [length_splice hone]; omega)
      have hsame : window (splice ys i [tolower (ys.get ⟨i, hi⟩)]) (i + 1) (i + 1 + n) =
          window ys (i + 1) (i + (n + 1)) := by
        have htail : i + 1 + n = i + (n + 1) := by omega
        rw [htail]
        exact window_splice_of_le (Nat.le_refl _) hone
      rw [if_neg (by simpa using hnul), hstore, ok_bind]
      refine hrest.trans ?_
      rw [hsame, hwin, mapUntil, if_neg hgo]
      exact congrArg (fun bs => Except.ok (A3String.mk ptr len bs)) (splice_splice hone)

/-- **`a3_string_lowercase` (`str.c:83`)** -/
theorem stringLowercase_eq {str : A3String} (hp : str.ptr ≠ 0) (hlen : str.len ≤ str.bytes.length) :
    stringLowercase str =
      .ok { str with bytes := mapUntil tolower isNul (str.bytes.take str.len) ++ str.bytes.drop str.len } := by
  have hloop : lowercaseLoop str.len 0 ⟨str.ptr, str.len, str.bytes⟩ = _ :=
    lowercaseLoop_eq hp str.len 0 str.bytes (by rw [Nat.zero_add]; exact hlen)
  rw [stringLowercase]
  refine hloop.trans ?_
  rw [Nat.zero_add, window_zero, splice, length_mapUntil, List.length_take, Nat.min_eq_left hlen, Nat.zero_add,
    List.take_zero, List.nil_append]

theorem stringClone_eq (hp : a.ptr ≠ 0) (hobj : a.len ≤ ptrdiffMax) (hcalloc : env.calloc (a.len + 1) ≠ 0) :
    stringClone env a = .ok ⟨env.calloc (a.len + 1), a.len, a.bytes ++ [0]⟩ := by
  have hsz : sz (a.len + 1) = a.len + 1 := sz_eq (by unfold ptrdiffMax at hobj; omega)
  have halloc : stringAlloc env a.len = ⟨env.calloc (a.len + 1), a.len, List.replicate (a.len + 1) 0⟩ := by
    rw [stringAlloc, hsz]
  have hfit : 0 + a.len ≤ (List.replicate (a.len + 1) (0 : UInt8)).length := by
    rw [List.length_replicate]
    omega
  have hcopy : stringCopy ⟨env.calloc (a.len + 1), a.len, List.replicate (a.len + 1) 0⟩ 0 a.len a = _ :=
    stringCopy_eq hcalloc (Nat.le_refl _) hfit
  have hdrop : (List.replicate (a.len + 1) (0 : UInt8)).drop (0 + a.bytes.length) = [0] := by
    have hrest : a.len + 1 - (0 + a.bytes.length) = 1 := by
      rw [Nat.zero_add]
      exact Nat.add_sub_cancel_left a.len 1
    rw [List.drop_replicate, hrest]
    rfl
  rw [stringClone, if_neg hp, halloc]
  refine hcopy.trans ?_
  rw [splice, hdrop]
  rfl

/-- **`a3_string_to_lowercase` (`str.c:88`)** -/
theorem stringToLowercase_eq (hp : a.ptr ≠ 0) (hobj : a.len ≤ ptrdiffMax) (hcalloc : env.calloc (a.len + 1) ≠ 0) :
    stringToLowercase env a = .ok ⟨env.calloc (a.len + 1), a.len, mapUntil tolower isNul a.bytes ++ [0]⟩ := by
  have hlen : a.len ≤ (a.bytes ++ [0]).length := by
    rw [List.length_append]
    exact Nat.le_succ _
  have hlower : stringLowercase ⟨env.calloc (a.len + 1), a.len, a.bytes ++ [0]⟩ = _ := stringLowercase_eq hcalloc hlen
  rw [stringToLowercase, stringClone_eq hp hobj hcalloc, ok_bind, hlower]
  simp only [A3CString.len, List.take_left, List.drop_left]

theorem const_eq {ptr : Nat} {bytes tail : List UInt8} (hp : ptr ≠ 0) :
    (A3String.mk ptr bytes.length (bytes ++ tail)).const = ⟨ptr, bytes, fun h => absurd h hp⟩ := by
  simp [A3String.const, hp]

/-! ## Comparing without regard to case -/

/-- `s` is the string `bytes`. -/
def Holds (s : A3String) (bytes : List UInt8) : Prop := s.ptr ≠ 0 ∧ s.const.bytes = bytes

theorem lowercase_holds (hp : a.ptr ≠ 0) (hobj : a.len ≤ ptrdiffMax) (hcalloc : env.calloc (a.len + 1) ≠ 0) :
    ∃ s, stringToLowercase env a = .ok s ∧ Holds s (mapUntil tolower isNul a.bytes) := by
  have hconst : (A3String.mk (env.calloc (a.len + 1)) _ (mapUntil tolower isNul a.bytes ++ [0])).const = _ :=
    const_eq hcalloc
  rw [length_mapUntil] at hconst
  refine ⟨_, stringToLowercase_eq hp hobj hcalloc, hcalloc, ?_⟩
  exact congrArg A3CString.bytes hconst

/-- The lower case of one string against the lower case of the other, and the strings themselves. -/
theorem stringCmp_lowercase {la lb : A3String} (ha : a.ptr ≠ 0) (hb : b.ptr ≠ 0)
    (hla : Holds la (mapUntil tolower isNul a.bytes)) (hlb : Holds lb (mapUntil tolower isNul b.bytes)) :
    stringCmp env la.const lb.const = stringCmpi env a b := by
  have hlena : la.const.len = a.len := by rw [A3CString.len, hla.2, length_mapUntil]; rfl
  have hlenb : lb.const.len = b.len := by rw [A3CString.len, hlb.2, length_mapUntil]; rfl
  by_cases hlen : a.len = b.len
  · have hlen' : la.const.len = lb.const.len := by rw [hlena, hlenb, hlen]
    rw [stringCmp_eq hla.1 hlb.1 hlen', stringCmpi_eq ha hb hlen, hla.2, hlb.2]
    exact congrArg Except.ok (firstDiff_mapUntil (fun _ => rfl) tolower_nul isNul_tolower isNul_of_caseKey)
  · have hlen' : la.const.len ≠ lb.const.len := by rw [hlena, hlenb]; exact hlen
    rw [stringCmp, stringCmpi, cmpWith_ne hla.1 hlb.1 hlen', cmpWith_ne ha hb hlen]

/-- **Comparing without regard to case is comparing in lower case**, for all bytes. -/
theorem cmpi_lowercase (ha : a.ptr ≠ 0) (hb : b.ptr ≠ 0) (hobja : a.len ≤ ptrdiffMax) (hobjb : b.len ≤ ptrdiffMax)
    (hcalloca : env.calloc (a.len + 1) ≠ 0) (hcallocb : env.calloc (b.len + 1) ≠ 0) :
    ∃ la lb i j, stringToLowercase env a = .ok la ∧ stringToLowercase env b = .ok lb ∧
      stringCmpi env a b = .ok i ∧ stringCmp env la.const lb.const = .ok j ∧ i.sign = j.sign ∧ (i = 0 ↔ j = 0) := by
  obtain ⟨la, hreta, hla⟩ := lowercase_holds ha hobja hcalloca
  obtain ⟨lb, hretb, hlb⟩ := lowercase_holds hb hobjb hcallocb
  have hcmpi : stringCmpi env a b = _ := cmpWith_eq ha hb
  have hcmp : stringCmp env la.const lb.const = _ := (stringCmp_lowercase ha hb hla hlb).trans hcmpi
  exact ⟨la, lb, _, _, hreta, hretb, hcmpi, hcmp, rfl, Iff.rfl⟩

/-- `"A\0B"` and `"a\0C"` -/
theorem cmpi_lowercase_nul : ∃ la lb i j, stringToLowercase hosted (literal [65, 0, 66]) = .ok la ∧
    stringToLowercase hosted (literal [97, 0, 67]) = .ok lb ∧
    stringCmpi hosted (literal [65, 0, 66]) (literal [97, 0, 67]) = .ok i ∧
    stringCmp hosted la.const lb.const = .ok j ∧ i.sign = j.sign ∧ (i = 0 ↔ j = 0) :=
  cmpi_lowercase (by decide) (by decide) (by decide) (by decide) (by decide) (by decide)

end A3Str
