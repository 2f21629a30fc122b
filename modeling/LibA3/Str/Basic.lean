import LibA3.Mem.Block
import LibA3.Fallible
import Mathlib.Algebra.Group.Nat.Defs

/-!
# Strings (`str.c`)

| here | there |
| --- | --- |
| `Fault`       | what a call ends in that does not return |
| `A3String`    | `A3String` (`str.h:43`) with the block its pointer addresses, `bytes`, of which the string uses `len` |
| `A3CString`   | `A3CString` (`str.h:33`), its `len` bytes; a null string has none |
| `sz`, `usub`  | `size_t` sums and differences, 64 bits wide |
| `check`       | `assert` |
| `memmem`      | the C library's, and `a3_shim_memmem` of `shim/memmem/missing.c` where it has none |
| `Formatted`   | a format with its arguments, as the text `vsnprintf` makes of them |

A string that is read does not overlap a buffer that is written.
-/

namespace A3Str

open Mem

inductive Fault where
  /-- an `assert` fails -/
  | assertion
  /-- an access outside the block -/
  | outOfBounds
  /-- an access through `NULL` -/
  | nullDeref
  /-- a loop runs for ever -/
  | diverges
deriving DecidableEq, Repr

/-- What the library is compiled with, and what the C library answers. -/
structure Env where
  asserts : Bool
  /-- the address of a new block of that many bytes, 0 for `NULL` -/
  calloc : Nat → Nat
  /-- the address of a block resized to that many bytes, 0 for `NULL` -/
  realloc : Nat → Nat
  /-- what the bytes are that `realloc` adds -/
  junk : Nat → UInt8
  hasMemmem : Bool

/-- The most bytes an object can have, `PTRDIFF_MAX`. -/
def ptrdiffMax : Nat := 2 ^ 63 - 1

def sz (n : Nat) : Nat := n % 2 ^ 64

def usub (a b : Nat) : Nat := (a + 2 ^ 64 - b) % 2 ^ 64

def check (env : Env) (c : Bool) : Except Fault Unit := if env.asserts && !c then .error .assertion else .ok ()

structure A3String where
  ptr : Nat
  len : Nat
  bytes : List UInt8
deriving DecidableEq, Repr

structure A3CString where
  ptr : Nat
  bytes : List UInt8
  null : ptr = 0 → bytes = []

def A3CString.len (s : A3CString) : Nat := s.bytes.length

/-- Reading `n` bytes from offset `off`. -/
def A3String.load (s : A3String) (off n : Nat) : Except Fault (List UInt8) :=
  if s.ptr = 0 then .error .nullDeref
  else if off + n ≤ s.bytes.length then .ok (window s.bytes off (off + n)) else .error .outOfBounds

/-- Writing `src` at offset `off`. -/
def A3String.store (s : A3String) (off : Nat) (src : List UInt8) : Except Fault A3String :=
  if s.ptr = 0 then .error .nullDeref
  else if off + src.length ≤ s.bytes.length then .ok { s with bytes := splice s.bytes off src }
  else .error .outOfBounds

/-! ## Allocation -/

/-- `A3_S_NULL` (`str.h:98`) -/
def nullString : A3String := ⟨0, 0, []⟩

/-- `a3_string_alloc` (`str.c:24`) -/
def stringAlloc (env : Env) (len : Nat) : A3String :=
  { ptr := env.calloc (sz (len + 1)), len := len, bytes := List.replicate (sz (len + 1)) 0 }

def resize (env : Env) (bytes : List UInt8) (n : Nat) : List UInt8 :=
  bytes.take n ++ (List.range (n - bytes.length)).map fun i => env.junk (bytes.length + i)

/-- `a3_string_realloc` (`str.c:28`): the new string, and what becomes of `*this` -/
def stringRealloc (env : Env) (this : A3String) (newLen : Nat) : Except Fault (A3String × A3String) := do
  let ret : A3String :=
    { ptr := env.realloc (sz (newLen + 1)), len := newLen, bytes := resize env this.bytes (sz (newLen + 1)) }
  let ret ← ret.store newLen [0]
  pure (ret, nullString)

/-! ## Copying and formatting -/

/-- `a3_string_copy` (`str.c:53`) to the `len` bytes at offset `off` of `dst` -/
def stringCopy (dst : A3String) (off len : Nat) (src : A3CString) : Except Fault A3String :=
  if dst.ptr = 0 ∨ src.ptr = 0 then .ok dst else dst.store off (src.bytes.take (min len src.len))

/-- The `for` of `a3_string_reverse` from `i` on, with `n` swaps to go -/
def reverseLoop : Nat → Nat → A3String → Except Fault A3String
  | 0, _, str => .ok str
  | n + 1, i, str => do
    let tmp ← str.load i 1
    let other ← str.load (str.len - 1 - i) 1
    let str ← str.store i other
    let str ← str.store (str.len - 1 - i) tmp
    reverseLoop n (i + 1) str

/-- `a3_string_reverse` (`str.c:75`) -/
def stringReverse (str : A3String) : Except Fault A3String := reverseLoop (str.len / 2) 0 str

/-- `"0123456789"[d]` -/
def digit (d : Nat) : UInt8 := UInt8.ofNat (48 + d)

/-- The `do` of `a3_string_itoa_into` (`str.c:96`) -/
def itoaLoop : Nat → A3String → Nat → Nat → Except Fault (A3String × Nat)
  | 0, _, _, _ => .error .diverges
  | fuel + 1, dst, i, v => do
    let dst ← dst.store i [digit (v % 10)]
    if i + 1 ≤ dst.len ∧ v / 10 ≠ 0 then itoaLoop fuel dst (i + 1) (v / 10) else pure (dst, i + 1)

/-- `a3_string_itoa_into` (`str.c:94`) -/
def itoaInto (dst : A3String) (v : Nat) : Except Fault A3String := do
  let (dst, i) ← itoaLoop (dst.len + 1) dst 0 v
  stringReverse { dst with len := i }

/-- What a format and its arguments come to: a text, or an error behind the part that could be converted. -/
inductive Formatted where
  | text (bytes : List UInt8)
  | error (bytes : List UInt8)

def Formatted.bytes : Formatted → List UInt8
  | .text bytes => bytes
  | .error bytes => bytes

/-- `INT_MAX` -/
def intMax : Nat := 2 ^ 31 - 1

/-- What `vsnprintf` returns: the length of the text, if it is an `int`. -/
def Formatted.rc : Formatted → Int
  | .text bytes => if bytes.length ≤ intMax then bytes.length else -1
  | .error _ => -1

/-- `vsnprintf` to the `size` bytes at offset `off` of `dst`: at most `size - 1` bytes of the text, and a NUL -/
def vsnprintf (dst : A3String) (off size : Nat) (fmt : Formatted) : Except Fault (Int × A3String) :=
  if size = 0 then .ok (fmt.rc, dst)
  else do
    let dst ← dst.store off (fmt.bytes.take (size - 1) ++ [0])
    pure (fmt.rc, dst)

/-! ## Searching -/

/-- `memmem` of the C library: the first occurrence -/
def memmem : List UInt8 → List UInt8 → Option Nat
  | [], needle => if needle.isPrefixOf [] then some 0 else none
  | c :: rest, needle => if needle.isPrefixOf (c :: rest) then some 0 else (memmem rest needle).map (· + 1)

/-- The `for` of `missing.c:22` -/
def missingLoop : List UInt8 → List UInt8 → Option Nat
  | [], _ => none
  | c :: rest, needle =>
    if needle.length < (c :: rest).length then
      if needle.isPrefixOf (c :: rest) then some 0 else (missingLoop rest needle).map (· + 1)
    else none

/-- `a3_shim_memmem` (`present.c`, `missing.c`) -/
def shimMemmem (env : Env) (haystack needle : List UInt8) : Option Nat :=
  if env.hasMemmem then memmem haystack needle
  else if haystack.length = 0 ∨ needle.length = 0 then none
  else missingLoop haystack needle

/-- `a3_string_memmem_impl` (`str.c:149`) in the `n` bytes at offset `off` of `haystack` -/
def stringMemmem (env : Env) (haystack : A3String) (off n : Nat) (needle : A3CString) : Except Fault (Option Nat) := do
  check env (haystack.ptr ≠ 0)
  check env (needle.ptr ≠ 0)
  check env (needle.len > 0)
  if n < needle.len then pure none
  else
    let bytes ← haystack.load off n
    pure (shimMemmem env bytes needle.bytes)

/-! ## What the primitives do when nothing is wrong -/

theorem check_true {env : Env} {c : Bool} (h : c = true) : check env c = .ok () := by
  rw [check, h, Bool.not_true, Bool.and_false]
  rfl

theorem sz_eq {n : Nat} (h : n < 2 ^ 64) : sz n = n := Nat.mod_eq_of_lt h

theorem usub_eq {a b : Nat} (hle : b ≤ a) (ha : a < 2 ^ 64) : usub a b = a - b := by
  unfold usub
  omega

theorem A3String.load_eq {s : A3String} {off n : Nat} (hp : s.ptr ≠ 0) (h : off + n ≤ s.bytes.length) :
    s.load off n = .ok (window s.bytes off (off + n)) := by
  rw [A3String.load, if_neg hp, if_pos h]

theorem A3String.store_eq {s : A3String} {off : Nat} {src : List UInt8} (hp : s.ptr ≠ 0)
    (h : off + src.length ≤ s.bytes.length) :
    s.store off src = .ok { s with bytes := splice s.bytes off src } := by
  rw [A3String.store, if_neg hp, if_pos h]

/-- Copying a string that fits copies all of it. -/
theorem stringCopy_eq {dst : A3String} {off len : Nat} {src : A3CString} (hp : dst.ptr ≠ 0) (hlen : src.len ≤ len)
    (h : off + src.len ≤ dst.bytes.length) :
    stringCopy dst off len src = .ok { dst with bytes := splice dst.bytes off src.bytes } := by
  rw [stringCopy]
  by_cases hs : src.ptr = 0
  · have hnil : src.bytes = [] := src.null hs
    rw [if_pos (Or.inr hs), hnil, splice_nil]
  · have htake : src.bytes.take (min len src.len) = src.bytes := by
      rw [Nat.min_eq_right hlen]; exact List.take_length
    rw [if_neg (not_or.2 ⟨hp, hs⟩), htake, A3String.store_eq hp h]

theorem stringCopy_len {dst dst' : A3String} {off len : Nat} {src : A3CString}
    (h : stringCopy dst off len src = .ok dst') : dst'.len = dst.len := by
  unfold stringCopy A3String.store at h
  split at h
  · cases h; rfl
  · split at h
    · cases h
    · split at h
      · cases h; rfl
      · cases h

theorem length_resize (env : Env) (bytes : List UInt8) (n : Nat) : (resize env bytes n).length = n := by
  rw [resize, List.length_append, List.length_take, List.length_map, List.length_range]
  omega

theorem window_resize {env : Env} {bytes : List UInt8} {head tail n : Nat} (hn : tail ≤ n) (hle : tail ≤ bytes.length) :
    window (resize env bytes n) head tail = window bytes head tail := by
  have hlen : tail ≤ (bytes.take n).length := by rw [List.length_take]; omega
  rw [resize, window_append hlen, window_take hn]

/-- A successful reallocation (`str.c:28`). -/
theorem stringRealloc_eq {env : Env} {this : A3String} {newLen : Nat} (hlt : newLen + 1 < 2 ^ 64)
    (hp : env.realloc (newLen + 1) ≠ 0) :
    stringRealloc env this newLen =
      .ok (⟨env.realloc (newLen + 1), newLen, splice (resize env this.bytes (newLen + 1)) newLen [0]⟩, nullString) := by
  have hlen : newLen + [(0 : UInt8)].length ≤ (resize env this.bytes (newLen + 1)).length := by
    rw [length_resize]; exact Nat.le_refl _
  simp only [stringRealloc, sz_eq hlt]
  rw [A3String.store_eq hp hlen]
  rfl

end A3Str
