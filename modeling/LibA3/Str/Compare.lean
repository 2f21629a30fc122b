import LibA3.Str.Basic
import LibA3.Text.FirstDiff

/-!
# Comparing strings (`str.c`)

`a3_string_cmp` and `a3_string_cmpi` compare strings of one length by a function of the C library, which takes them for
C strings: what stands behind a NUL is not looked at (`cmp_zero_iff`). Strings of different lengths compare less, either
way round (`cmp_orders_iff`).

| here | there |
| --- | --- |
| `strncmp`, `strncasecmp`, `tolower` | the C library's, in the C locale |
| `operatorEq`  | `operator==` (`str.h:275`) |
-/

namespace A3Str

open Fallible Mem Text

variable {env : Env} {a b c : A3CString}

/-! ## The C library -/

def tolower (c : UInt8) : UInt8 := if 65 ≤ c ∧ c ≤ 90 then c + 32 else c

/-- `'\0'` -/
def isNul (c : UInt8) : Bool := c == 0

def byteKey (c : UInt8) : Int := c.toNat

def caseKey (c : UInt8) : Int := (tolower c).toNat

def strncmp (s1 s2 : List UInt8) (n : Nat) : Int := firstDiff byteKey isNul (s1.take n) (s2.take n)

def strncasecmp (s1 s2 : List UInt8) (n : Nat) : Int := firstDiff caseKey isNul (s1.take n) (s2.take n)

/-! ## The comparisons -/

/-- What `a3_string_cmp_impl` and `a3_string_cmpi_impl` have in common. -/
def cmpWith (compare : List UInt8 → List UInt8 → Nat → Int) (env : Env) (lhs rhs : A3CString) : Except Fault Int := do
  check env (lhs.ptr ≠ 0 ∧ rhs.ptr ≠ 0)
  if lhs.len ≠ rhs.len then pure (-1)
  else pure (compare lhs.bytes rhs.bytes lhs.len)

/-- `a3_string_cmp_impl` (`str.c:121`) -/
def stringCmp : Env → A3CString → A3CString → Except Fault Int := cmpWith strncmp

/-- `a3_string_cmpi_impl` (`str.c:128`) -/
def stringCmpi : Env → A3CString → A3CString → Except Fault Int := cmpWith strncasecmp

def operatorEq (env : Env) (lhs rhs : A3CString) : Except Fault Bool := do return (← stringCmp env lhs rhs) == 0

/-! ## Bytes -/

theorem byteKey_injective : Function.Injective byteKey := by
  intro x y h
  simp only [byteKey, Int.natCast_inj] at h
  exact UInt8.toNat_inj.1 h

theorem isNul_tolower (c : UInt8) : isNul (tolower c) = isNul c := by
  rw [tolower]
  split
  · next h =>
    obtain ⟨hlo, hhi⟩ := h
    have hc : c ≠ 0 := by
      rintro rfl
      exact absurd hlo (by decide)
    have hc' : c + 32 ≠ 0 := by
      intro h0
      have hnat := congrArg UInt8.toNat h0
      rw [UInt8.le_iff_toNat_le] at hlo hhi
      rw [UInt8.toNat_add] at hnat
      simp only [UInt8.reduceToNat] at hlo hhi hnat
      omega
    rw [isNul, isNul, beq_false_of_ne hc, beq_false_of_ne hc']
  · rfl

theorem isNul_of_byteKey (x y : UInt8) (h : byteKey x = byteKey y) : isNul x = isNul y := by
  rw [byteKey_injective h]

theorem isNul_of_caseKey (x y : UInt8) (h : caseKey x = caseKey y) : isNul x = isNul y := by
  have heq : tolower x = tolower y := byteKey_injective h
  rw [← isNul_tolower x, ← isNul_tolower y, heq]

/-! ## What the comparisons return -/

theorem cmpWith_eq {compare : List UInt8 → List UInt8 → Nat → Int} (ha : a.ptr ≠ 0) (hb : b.ptr ≠ 0) :
    cmpWith compare env a b = .ok (if a.len ≠ b.len then -1 else compare a.bytes b.bytes a.len) := by
  rw [cmpWith, check_true (decide_eq_true ⟨ha, hb⟩), ok_bind]
  split
  · rfl
  · rfl

/-- Strings of one length are compared as a whole. -/
theorem cmpWith_firstDiff {key : UInt8 → Int} (ha : a.ptr ≠ 0) (hb : b.ptr ≠ 0) (hlen : a.len = b.len) :
    cmpWith (fun s1 s2 n => firstDiff key isNul (s1.take n) (s2.take n)) env a b =
      .ok (firstDiff key isNul a.bytes b.bytes) := by
  have htake : b.bytes.take a.len = b.bytes := by
    rw [hlen]
    exact List.take_length
  rw [cmpWith_eq ha hb, if_neg (not_not_intro hlen), htake]
  congr 2
  exact List.take_length

theorem stringCmp_eq (ha : a.ptr ≠ 0) (hb : b.ptr ≠ 0) (hlen : a.len = b.len) :
    stringCmp env a b = .ok (firstDiff byteKey isNul a.bytes b.bytes) := cmpWith_firstDiff ha hb hlen

theorem stringCmpi_eq (ha : a.ptr ≠ 0) (hb : b.ptr ≠ 0) (hlen : a.len = b.len) :
    stringCmpi env a b = .ok (firstDiff caseKey isNul a.bytes b.bytes) := cmpWith_firstDiff ha hb hlen

theorem cmpWith_ne {compare : List UInt8 → List UInt8 → Nat → Int} (ha : a.ptr ≠ 0) (hb : b.ptr ≠ 0)
    (hlen : a.len ≠ b.len) : cmpWith compare env a b = .ok (-1) := by
  rw [cmpWith_eq ha hb, if_pos hlen]

/-! ## Equality -/

/-- Equal to `a3_string_cmp`, and to `operator==`, are the strings with the same bytes, and these have one hash. -/
structure EqualAsBytes (env : Env) (a b : A3CString) : Prop where
  cmp : stringCmp env a b = .ok 0 ↔ a.len = b.len ∧ a.bytes = b.bytes
  operatorEq : operatorEq env a b = .ok (decide (a.len = b.len ∧ a.bytes = b.bytes))
  /-- whatever `std::hash` makes of the bytes -/
  hash : ∀ hash : List UInt8 → UInt64, A3Str.operatorEq env a b = .ok true → hash a.bytes = hash b.bytes

/-- The strings have one length, and their first difference stands behind a NUL. -/
def DifferBehindNul (a b : A3CString) : Prop := a.len = b.len ∧ DifferBehind isNul a.bytes b.bytes

theorem stringCmp_zero_iff (ha : a.ptr ≠ 0) (hb : b.ptr ≠ 0) :
    stringCmp env a b = .ok 0 ↔ a.bytes = b.bytes ∨ DifferBehindNul a b := by
  by_cases hlen : a.len = b.len
  · have hzero : firstDiff byteKey isNul a.bytes b.bytes = 0 ↔ _ := firstDiff_eq_zero_iff byteKey_injective hlen
    rw [stringCmp_eq ha hb hlen, Except.ok.injEq, hzero, DifferBehindNul, and_iff_right hlen]
  · have hne : a.bytes ≠ b.bytes := fun h => hlen (congrArg List.length h)
    rw [stringCmp, cmpWith_ne ha hb hlen]
    constructor
    · intro h
      cases h
    · rintro (h | ⟨h, -⟩)
      · exact absurd h hne
      · exact absurd h hlen

theorem operatorEq_eq (ha : a.ptr ≠ 0) (hb : b.ptr ≠ 0) :
    ∃ r, operatorEq env a b = .ok r ∧ (r = true ↔ stringCmp env a b = .ok 0) := by
  have hcmp : stringCmp env a b = _ := cmpWith_eq ha hb
  rw [operatorEq, hcmp, ok_bind, pure_ok]
  refine ⟨_, rfl, ?_⟩
  rw [beq_iff_eq, Except.ok.injEq]

/-- **`a3_string_cmp` is equality of the bytes, unless the first difference stands behind a NUL.** -/
theorem cmp_zero_iff (ha : a.ptr ≠ 0) (hb : b.ptr ≠ 0) : EqualAsBytes env a b ↔ ¬DifferBehindNul a b := by
  have hcmp : stringCmp env a b = .ok 0 ↔ _ := stringCmp_zero_iff ha hb
  obtain ⟨r, hr, hiff⟩ : ∃ r, operatorEq env a b = .ok r ∧ _ := operatorEq_eq ha hb
  constructor
  · intro h hdiff
    have hzero : stringCmp env a b = .ok 0 := hcmp.2 (Or.inr hdiff)
    exact hdiff.2.ne (h.cmp.1 hzero).2
  · intro hdiff
    have hsame : stringCmp env a b = .ok 0 ↔ a.len = b.len ∧ a.bytes = b.bytes := by
      rw [hcmp]
      constructor
      · rintro (h | h)
        · exact ⟨congrArg List.length h, h⟩
        · exact absurd h hdiff
      · exact fun h => Or.inl h.2
    refine ⟨hsame, ?_, fun hash h => ?_⟩
    · rw [hr, Except.ok.injEq, Bool.eq_iff_iff, hiff, hsame, decide_eq_true_iff]
    · rw [hr, Except.ok.injEq] at h
      exact congrArg hash (hsame.1 (hiff.1 h)).2

/-- A literal, at some address. -/
def literal (bytes : List UInt8) : A3CString := ⟨4096, bytes, fun h => absurd h (by decide)⟩

/-- A C library that has memory left, and `memmem`. -/
def hosted : Env := ⟨true, fun _ => 8192, fun _ => 8192, fun _ => 0, true⟩

/-- `"s1"` and `"s2"` -/
theorem cmp_zero_iff_same : EqualAsBytes hosted (literal [115, 49]) (literal [115, 50]) := by
  refine (cmp_zero_iff (by decide) (by decide)).2 fun h => ?_
  obtain ⟨-, p, x, y, xs, ys, hx, hy, -, s, hs, hnul⟩ := h
  have hmem : s ∈ [115, 49] := by
    rw [show ([115, 49] : List UInt8) = p ++ x :: xs from hx]
    exact List.mem_append_left _ hs
  rcases List.mem_cons.1 hmem with rfl | hmem
  · cases hnul
  · obtain rfl := List.mem_singleton.1 hmem
    cases hnul

/-- `"a\0b"` and `"a\0c"` -/
theorem cmp_behind_nul : ¬∀ (env : Env) (a b : A3CString), a.ptr ≠ 0 → b.ptr ≠ 0 → EqualAsBytes env a b := by
  intro h
  have hcmp := (h hosted (literal [97, 0, 98]) (literal [97, 0, 99]) (by decide) (by decide)).cmp
  have hzero : stringCmp hosted (literal [97, 0, 98]) (literal [97, 0, 99]) = .ok 0 := rfl
  exact absurd (hcmp.1 hzero).2 (by decide)

/-! ## Order -/

/-- What the doc of `a3_string_cmp` says of two strings, and of a third behind them (`str.h:246`): the sign tells how
the first stands to the second, either way round, and is that of an order. -/
structure Orders (cmp : A3CString → A3CString → Except Fault Int) (a b c : A3CString) : Prop where
  opposite : ∃ i j, cmp a b = .ok i ∧ cmp b a = .ok j ∧ j.sign = - i.sign
  trans : ∀ i j, cmp a b = .ok i → i < 0 → cmp b c = .ok j → j < 0 → ∃ k, cmp a c = .ok k ∧ k < 0

theorem orders_iff {key : UInt8 → Int} (hkey : ∀ x y, key x = key y → isNul x = isNul y) (ha : a.ptr ≠ 0) (hb : b.ptr ≠ 0)
    (hc : c.ptr ≠ 0) :
    Orders (cmpWith (fun s1 s2 n => firstDiff key isNul (s1.take n) (s2.take n)) env) a b c ↔ a.len = b.len := by
  constructor
  · intro h
    obtain ⟨i, j, hi, hj, hsign⟩ := h.opposite
    by_contra hlen
    rw [cmpWith_ne ha hb hlen, Except.ok.injEq] at hi
    rw [cmpWith_ne hb ha fun h => hlen h.symm, Except.ok.injEq] at hj
    subst hi
    subst hj
    exact absurd hsign (by decide)
  · intro hab
    refine ⟨⟨_, _, cmpWith_firstDiff ha hb hab, cmpWith_firstDiff hb ha hab.symm, ?_⟩, fun i j hi hneg hj hneg' => ?_⟩
    · rw [firstDiff_swap hkey, Int.sign_neg]
    · by_cases hbc : b.len = c.len
      · have hac : a.len = c.len := hab.trans hbc
        rw [cmpWith_firstDiff ha hb hab, Except.ok.injEq] at hi
        rw [cmpWith_firstDiff hb hc hbc, Except.ok.injEq] at hj
        subst hi
        subst hj
        exact ⟨_, cmpWith_firstDiff ha hc hac, firstDiff_neg_trans hneg hneg'⟩
      · have hac : a.len ≠ c.len := fun h => hbc (hab.symm.trans h)
        exact ⟨-1, cmpWith_ne ha hc hac, by decide⟩

/-- **`a3_string_cmp` and `a3_string_cmpi` order the strings of one length**, and no two of different lengths. -/
theorem cmp_orders_iff (ha : a.ptr ≠ 0) (hb : b.ptr ≠ 0) (hc : c.ptr ≠ 0) :
    (Orders (stringCmp env) a b c ↔ a.len = b.len) ∧ (Orders (stringCmpi env) a b c ↔ a.len = b.len) := by
  constructor
  · exact orders_iff isNul_of_byteKey ha hb hc
  · exact orders_iff isNul_of_caseKey ha hb hc

/-- `"a"`, `"b"` and `"c"` -/
theorem cmp_orders_iff_abc : Orders (stringCmp hosted) (literal [97]) (literal [98]) (literal [99]) ∧
    Orders (stringCmpi hosted) (literal [97]) (literal [98]) (literal [99]) := by
  have hne : ∀ bytes, (literal bytes).ptr ≠ 0 := fun _ => Nat.succ_ne_zero 4095
  have h : (Orders (stringCmp hosted) (literal [97]) (literal [98]) (literal [99]) ↔ _) ∧ _ :=
    cmp_orders_iff (hne _) (hne _) (hne _)
  exact ⟨h.1.2 rfl, h.2.2 rfl⟩

/-- `"a"` and `"ab"`: each compares less than the other. -/
theorem cmp_both_less : ¬∀ (env : Env) (a b c : A3CString), a.ptr ≠ 0 → b.ptr ≠ 0 → c.ptr ≠ 0 →
    Orders (stringCmp env) a b c ∧ Orders (stringCmpi env) a b c := by
  intro h
  obtain ⟨i, j, hi, hj, hsign⟩ :=
    (h hosted (literal [97]) (literal [97, 98]) (literal [97]) (by decide) (by decide) (by decide)).1.opposite
  have hi' : stringCmp hosted (literal [97]) (literal [97, 98]) = .ok (-1) := rfl
  have hj' : stringCmp hosted (literal [97, 98]) (literal [97]) = .ok (-1) := rfl
  cases hi.symm.trans hi'
  cases hj.symm.trans hj'
  exact absurd hsign (by decide)

end A3Str
