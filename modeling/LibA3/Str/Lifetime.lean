import LibA3.Mem.Owned
import LibA3.Str.Concat
import LibA3.Str.Lowercase
import LibA3.Str.Numeral
import LibA3.Str.Search
import LibA3.Trans

/-!
# Strings on the heap

A program with any number of `A3String` variables, and the blocks that `calloc` and `realloc` have made and `free` has not taken
back. Each variable that is not null has a block to itself, one byte longer than the string and with a NUL there: the
variables can be thought of as values, and nothing leaks.

| here | there |
| --- | --- |
| `Var`        | an `A3String`, as the variable holds it |
| `Store.get`  | a variable with the block it points to |
| `stringFrom` | `a3_cstring_from` (`str.h:139`) of `a3_string_cstr` |
| `Call.free`  | `a3_string_free` (`str.c:45`) |
| `Call.copy`  | `a3_string_copy` (`str.c:53`), which does nothing where both point to the same block |
| `Call.write` | what the program itself writes into a string |

* `strings_are_values` — a run of calls is a run on values
-/

namespace A3Str

open Fallible Mem Text Trans

/-! ## The heap -/

structure Var where
  ptr : Nat
  len : Nat

structure Store where
  blocks : Nat → Option (List UInt8)
  vars : Nat → Var

def Store.get (s : Store) (x : Nat) : Except Fault A3String :=
  if (s.vars x).ptr = 0 then .ok ⟨0, (s.vars x).len, []⟩
  else
    match s.blocks (s.vars x).ptr with
    | some bytes => .ok ⟨(s.vars x).ptr, (s.vars x).len, bytes⟩
    | none => .error .outOfBounds

/-- `x = str;`, with what is in the block of `str` -/
def Store.assign (s : Store) (x : Nat) (str : A3String) : Store where
  blocks := if str.ptr = 0 then s.blocks else Function.update s.blocks str.ptr (some str.bytes)
  vars := Function.update s.vars x ⟨str.ptr, str.len⟩

/-- `free` -/
def Store.release (s : Store) (ptr : Nat) : Except Fault Store :=
  if ptr = 0 then .ok s
  else
    match s.blocks ptr with
    | some _ => .ok { s with blocks := Function.update s.blocks ptr none }
    | none => .error .outOfBounds

/-- `a3_string_from` (`str.h:132`): `strlen` reads up to the first NUL from the pointer on -/
def stringFrom (str : A3String) : Except Fault A3String :=
  if str.ptr = 0 then .ok nullString
  else
    match str.bytes.findIdx? isNul with
    | some len => .ok { str with len := len }
    | none => .error .outOfBounds

/-! ## Calls -/

inductive Call where
  | alloc (x len : Nat)
  | realloc (x this newLen : Nat)
  | clone (x other : Nat)
  | toLowercase (x str : Nat)
  | free (this : Nat)
  | copy (dst src : Nat)
  | concat (dst : Nat) (args : List Nat)
  | reverse (str : Nat)
  | lowercase (str : Nat)
  | itoaInto (dst v : Nat)
  | write (dst off : Nat) (bytes : List UInt8)
  | cstr (x : Nat)

/-- A call, and the bytes of the string it returns where that is part of another one. -/
def exec (env : Env) (s : Store) : Call → Except Fault (Store × List UInt8)
  | .alloc x len => .ok (s.assign x (stringAlloc env len), [])
  | .realloc x this newLen => do
    let str ← s.get this
    let (ret, rest) ← stringRealloc env str newLen
    let s ← s.release str.ptr
    pure ((s.assign this rest).assign x ret, [])
  | .clone x other => do
    let str ← s.get other
    let ret ← stringClone env str.const
    pure (s.assign x ret, [])
  | .toLowercase x str => do
    let str ← s.get str
    let ret ← stringToLowercase env str.const
    pure (s.assign x ret, [])
  | .free this => do
    check env ((s.vars this).ptr ≠ 0)
    let s ← s.release (s.vars this).ptr
    pure (s.assign this nullString, [])
  | .copy dst src => do
    let dstStr ← s.get dst
    let srcStr ← s.get src
    if dstStr.ptr = srcStr.ptr then pure (s, [])
    else
      let ret ← stringCopy dstStr 0 dstStr.len srcStr.const
      pure (s.assign dst ret, [])
  | .concat dst args => do
    let str ← s.get dst
    let strs ← args.mapM s.get
    let ret ← stringConcat env str (strs.map A3String.const)
    pure (s.assign dst ret, [])
  | .reverse x => do
    let str ← s.get x
    let ret ← stringReverse str
    pure (s.assign x ret, [])
  | .lowercase x => do
    let str ← s.get x
    let ret ← stringLowercase str
    pure (s.assign x ret, [])
  | .itoaInto dst v => do
    let str ← s.get dst
    let ret ← A3Str.itoaInto str v
    pure (s.assign dst { ret with len := str.len }, ret.const.bytes)
  | .write dst off bytes => do
    let str ← s.get dst
    let ret ← str.store off bytes
    pure (s.assign dst ret, [])
  | .cstr x => do
    let str ← s.get x
    let ret ← stringFrom str
    pure (s, ret.const.bytes)

/-- What the program sees to: a variable that holds a string is not overwritten, a null one is not written to, and what is written
fits. -/
def Legal (s : Store) : Call → Prop
  | .alloc x len => (s.vars x).ptr = 0 ∧ len + 1 < 2 ^ 64
  | .realloc x this newLen => (x = this ∨ (s.vars x).ptr = 0) ∧ newLen + 1 < 2 ^ 64
  | .clone x _ => (s.vars x).ptr = 0
  | .toLowercase x _ => (s.vars x).ptr = 0
  | .concat dst args => (s.vars dst).ptr ≠ 0 ∧ dst ∉ args ∧ ∀ x ∈ args, (s.vars x).ptr = 0 → (s.vars x).len = 0
  | .free x | .reverse x | .lowercase x => (s.vars x).ptr ≠ 0
  | .itoaInto dst v => (s.vars dst).ptr ≠ 0 ∧ (decimal v).length ≤ (s.vars dst).len
  | .write dst off bytes => (s.vars dst).ptr ≠ 0 ∧ off + bytes.length ≤ (s.vars dst).len
  | .copy _ _ | .cstr _ => True

/-- The block that a call gives back to the allocator. -/
def returned (s : Store) : Call → Nat
  | .realloc _ this _ => (s.vars this).ptr
  | _ => 0

/-- The allocator answers `NULL`, or where there is room beside the allocated blocks; `realloc` may use its block again. -/
structure Answers (env : Env) (s : Store) (old : Nat) : Prop where
  calloc : ∀ n, env.calloc n ≠ 0 → n ≤ ptrdiffMax ∧ Room s.blocks (env.calloc n) n
  realloc : ∀ n, env.realloc n ≠ 0 → n ≤ ptrdiffMax ∧ Room (Function.update s.blocks old none) (env.realloc n) n

def Step (s : Store) (a : Call × List UInt8) (s' : Store) : Prop :=
  ∃ env, Answers env s (returned s a.1) ∧ Legal s a.1 ∧ exec env s a.1 = .ok (s', a.2)

/-- Memory that is not there, where it is written to nevertheless: `a3_string_realloc` ends its string, and
`a3_string_to_lowercase` reads its copy. -/
def Refused (env : Env) (s : Store) : Call → Prop
  | .realloc _ _ newLen => env.realloc (newLen + 1) = 0
  | .toLowercase _ str => (s.vars str).ptr ≠ 0 ∧ 0 < (s.vars str).len ∧ env.calloc ((s.vars str).len + 1) = 0
  | _ => False

/-! ## Values -/

abbrev Values := Nat → Option (List UInt8)

def Call.Allocates : Call → Prop
  | .alloc _ _ | .clone _ _ | .toLowercase _ _ => True
  | _ => False

inductive ValueStep : Values → Call × List UInt8 → Values → Prop
  | alloc (vals : Values) (x len : Nat) :
      ValueStep vals (.alloc x len, []) (Function.update vals x (some (List.replicate len 0)))
  | realloc (vals : Values) (x this newLen : Nat) (junk : List UInt8) :
      junk.length = newLen - ((vals this).getD []).length →
      ValueStep vals (.realloc x this newLen, [])
        (Function.update (Function.update vals this none) x (some (((vals this).getD []).take newLen ++ junk)))
  | clone (vals : Values) (x other : Nat) : ValueStep vals (.clone x other, []) (Function.update vals x (vals other))
  | toLowercase (vals : Values) (x str : Nat) :
      ValueStep vals (.toLowercase x str, []) (Function.update vals x ((vals str).map (mapUntil tolower isNul)))
  | refused (vals : Values) (call : Call) : call.Allocates → ValueStep vals (call, []) vals
  | free (vals : Values) (this : Nat) : ValueStep vals (.free this, []) (Function.update vals this none)
  | copy (vals : Values) (dst src : Nat) :
      ValueStep vals (.copy dst src, []) (Function.update vals dst
        ((vals dst).map fun text => splice text 0 (((vals src).getD []).take text.length)))
  | concat (vals : Values) (dst : Nat) (args : List Nat) :
      ValueStep vals (.concat dst args, []) (Function.update vals dst
        ((vals dst).map fun text => splice text 0 ((args.flatMap fun x => (vals x).getD []).take text.length)))
  | reverse (vals : Values) (str : Nat) :
      ValueStep vals (.reverse str, []) (Function.update vals str ((vals str).map List.reverse))
  | lowercase (vals : Values) (str : Nat) :
      ValueStep vals (.lowercase str, []) (Function.update vals str ((vals str).map (mapUntil tolower isNul)))
  | itoaInto (vals : Values) (dst v : Nat) :
      ValueStep vals (.itoaInto dst v, decimal v)
        (Function.update vals dst ((vals dst).map fun text => splice text 0 (decimal v)))
  | write (vals : Values) (dst off : Nat) (bytes : List UInt8) :
      ValueStep vals (.write dst off bytes, [])
        (Function.update vals dst ((vals dst).map fun text => splice text off bytes))
  | cstr (vals : Values) (x : Nat) :
      ValueStep vals (.cstr x, ((vals x).getD []).takeWhile fun c => !isNul c) vals

/-! ## Values on the heap -/

variable {env : Env} {s s' : Store} {vals vals' : Values} {x : Nat} {text text' : List UInt8}

def holding (s : Store) (vals : Values) (x : Nat) : Option (Nat × List UInt8) :=
  (vals x).map fun text => ((s.vars x).ptr, text ++ [0])

def Fits (v : Var) : Option (List UInt8) → Prop
  | none => v.ptr = 0
  | some text => v.ptr ≠ 0 ∧ v.len = text.length ∧ text.length < ptrdiffMax

/-- Each variable that has a value has a block with that value and a NUL, and there are no other blocks. -/
structure Stands (s : Store) (vals : Values) : Prop where
  owned : Owned s.blocks (holding s vals)
  fits : ∀ x, Fits (s.vars x) (vals x)

theorem holding_none (h : vals x = none) : holding s vals x = none := by rw [holding, h, Option.map_none]

theorem holding_some (h : vals x = some text) : holding s vals x = some ((s.vars x).ptr, text ++ [0]) := by
  rw [holding, h, Option.map_some]

theorem Stands.null (h : Stands s vals) (hx : vals x = none) : (s.vars x).ptr = 0 := by simpa only [Fits, hx] using h.fits x

theorem Stands.filled (h : Stands s vals) (hx : vals x = some text) :
    (s.vars x).ptr ≠ 0 ∧ (s.vars x).len = text.length ∧ text.length < ptrdiffMax := by
  simpa only [Fits, hx] using h.fits x

theorem Stands.value (h : Stands s vals) (hp : (s.vars x).ptr ≠ 0) : ∃ text, vals x = some text := by
  cases hx : vals x with
  | none => exact (hp (h.null hx)).elim
  | some text => exact ⟨text, rfl⟩

theorem Stands.no_value (h : Stands s vals) (hp : (s.vars x).ptr = 0) : vals x = none := by
  cases hx : vals x with
  | none => rfl
  | some text => exact ((h.filled hx).1 hp).elim

theorem Stands.block (h : Stands s vals) (hx : vals x = some text) : s.blocks (s.vars x).ptr = some (text ++ [0]) :=
  h.owned.found x _ _ (holding_some hx)

theorem Stands.no_block (h : Stands s vals) : s.blocks 0 = none := by
  cases h0 : s.blocks 0 with
  | none => rfl
  | some bytes =>
    obtain ⟨x, hx⟩ := h.owned.all 0 bytes h0
    obtain ⟨text, htext, heq⟩ := Option.map_eq_some_iff.1 hx
    exact ((h.filled htext).1 (congrArg Prod.fst heq)).elim

/-! ## What a variable is -/

theorem get_null (hp : (s.vars x).ptr = 0) : s.get x = .ok ⟨0, (s.vars x).len, []⟩ := by rw [Store.get, if_pos hp]

theorem Stands.get (h : Stands s vals) (hx : vals x = some text) :
    s.get x = .ok ⟨(s.vars x).ptr, text.length, text ++ [0]⟩ := by
  obtain ⟨hp, hlen, _⟩ := h.filled hx
  rw [Store.get, if_neg hp, h.block hx, hlen]

theorem const_null (len : Nat) : (A3String.mk 0 len []).const = nullCString := by simp [A3String.const, nullCString]

/-- What a call that reads `x` sees. -/
theorem Stands.get_const (h : Stands s vals) (x : Nat) :
    ∃ str, s.get x = .ok str ∧ str.ptr = (s.vars x).ptr ∧ str.const.ptr = (s.vars x).ptr ∧
      str.const.bytes = (vals x).getD [] := by
  cases hx : vals x with
  | none =>
    have hp := h.null hx
    exact ⟨_, get_null hp, hp.symm, by rw [const_null, hp]; rfl, by rw [const_null]; rfl⟩
  | some text =>
    have hconst : (A3String.mk (s.vars x).ptr text.length (text ++ [0])).const = _ := const_eq (h.filled hx).1
    exact ⟨_, h.get hx, rfl, by rw [hconst], by rw [hconst]; rfl⟩

/-! ## Making, writing and giving back -/

theorem holding_assign (str : A3String) (v : Option (List UInt8)) :
    holding (s.assign x str) (Function.update vals x v) =
      Function.update (holding s vals) x (v.map fun text => (str.ptr, text ++ [0])) := by
  funext y
  by_cases hy : y = x
  · subst hy
    simp [holding, Store.assign]
  · simp [holding, Store.assign, hy]

theorem fits_assign {str : A3String} {v : Option (List UInt8)} (h : ∀ y, Fits (s.vars y) (vals y))
    (hx : Fits ⟨str.ptr, str.len⟩ v) (y : Nat) : Fits ((s.assign x str).vars y) (Function.update vals x v y) := by
  by_cases hyx : y = x
  · subst hyx
    simpa [Store.assign] using hx
  · simpa [Store.assign, hyx] using h y

/-- A variable that is null is given a new string. -/
theorem Stands.new {ptr : Nat} (h : Stands s vals) (hx : vals x = none) (hp : ptr ≠ 0) (hsmall : text.length < ptrdiffMax)
    (hroom : Room s.blocks ptr (text.length + 1)) :
    Stands (s.assign x ⟨ptr, text.length, text ++ [0]⟩) (Function.update vals x (some text)) where
  owned := by
    have hlen : (text ++ [(0 : UInt8)]).length = text.length + 1 := List.length_append
    rw [holding_assign, Store.assign, if_neg hp]
    have hne : text ++ [(0 : UInt8)] ≠ [] := List.append_ne_nil_of_right_ne_nil _ (List.cons_ne_nil _ _)
    exact h.owned.place (holding_none hx) (by rw [hlen]; exact hroom) hne
  fits := fits_assign h.fits ⟨hp, rfl, hsmall⟩

/-- A string is given other bytes. -/
theorem Stands.set (h : Stands s vals) (hx : vals x = some text) (hlen : text'.length = text.length) :
    Stands (s.assign x ⟨(s.vars x).ptr, text.length, text' ++ [0]⟩) (Function.update vals x (some text')) where
  owned := by
    rw [holding_assign, Store.assign, if_neg (h.filled hx).1]
    exact h.owned.write (holding_some hx) (by rw [List.length_append, List.length_append, hlen])
  fits := fits_assign h.fits ⟨(h.filled hx).1, hlen.symm, by rw [hlen]; exact (h.filled hx).2.2⟩

/-- A null variable stays null. -/
theorem Stands.skip (h : Stands s vals) (hx : vals x = none) (len : Nat) (bytes : List UInt8) :
    Stands (s.assign x ⟨0, len, bytes⟩) vals := by
  have hvals : Function.update vals x none = vals := by rw [← hx, Function.update_eq_self]
  have hnone : Function.update (holding s vals) x none = holding s vals := by
    rw [← holding_none (s := s) hx, Function.update_eq_self]
  have howned : Owned (s.assign x ⟨0, len, bytes⟩).blocks
      (holding (s.assign x ⟨0, len, bytes⟩) (Function.update vals x none)) := by
    rw [holding_assign, Store.assign, if_pos rfl, Option.map_none, hnone]
    exact h.owned
  rw [← hvals]
  exact ⟨howned, fits_assign h.fits rfl⟩

/-- The block of a variable is given back, and the variable is null from then on. -/
theorem Stands.drop (h : Stands s vals) (x : Nat) :
    ∃ s', s.release (s.vars x).ptr = .ok s' ∧ s'.blocks = Function.update s.blocks (s.vars x).ptr none ∧
      Stands (s'.assign x nullString) (Function.update vals x none) := by
  cases hx : vals x with
  | none =>
    have hp := h.null hx
    have hblocks : Function.update s.blocks (s.vars x).ptr none = s.blocks := by rw [hp, ← h.no_block, Function.update_eq_self]
    have hvals : Function.update vals x none = vals := by rw [← hx, Function.update_eq_self]
    exact ⟨s, by rw [Store.release, if_pos hp], hblocks.symm, by rw [hvals]; exact h.skip hx 0 []⟩
  | some text =>
    have hrelease : s.release (s.vars x).ptr = .ok { s with blocks := Function.update s.blocks (s.vars x).ptr none } := by
      rw [Store.release, if_neg (h.filled hx).1, h.block hx]
    refine ⟨_, hrelease, rfl, ?_, ?_⟩
    · rw [holding_assign]
      exact h.owned.drop (holding_some hx)
    · exact fits_assign h.fits rfl

/-! ## What a call does -/

/-- The call returns, and does to the values what it should. -/
def Does (env : Env) (s : Store) (vals : Values) (call : Call) : Prop :=
  ∃ s' out vals', exec env s call = .ok (s', out) ∧ ValueStep vals (call, out) vals' ∧ Stands s' vals'

theorem len_of_bytes {a : A3CString} (h : a.bytes = text) : a.len = text.length := congrArg List.length h

theorem stringAlloc_eq {len : Nat} (hlt : len + 1 < 2 ^ 64) :
    stringAlloc env len = ⟨env.calloc (len + 1), len, List.replicate len 0 ++ [0]⟩ := by
  rw [stringAlloc, sz_eq hlt, List.replicate_succ']

/-- A block that the allocator gives, with a string and its NUL. -/
theorem Stands.fresh {n : Nat} (h : Stands s vals) (hans : Answers env s 0) (hx : vals x = none) (hn : text.length = n)
    (hp : env.calloc (n + 1) ≠ 0) :
    Stands (s.assign x ⟨env.calloc (n + 1), n, text ++ [0]⟩) (Function.update vals x (some text)) := by
  subst hn
  obtain ⟨hsmall, hroom⟩ := hans.calloc _ hp
  exact h.new hx hp hsmall hroom

theorem Stands.alloc {len : Nat} (h : Stands s vals) (hans : Answers env s 0) (hlegal : Legal s (.alloc x len)) :
    Does env s vals (.alloc x len) := by
  obtain ⟨hx, hlt⟩ := hlegal
  by_cases hp : env.calloc (len + 1) = 0
  · refine ⟨_, _, vals, rfl, .refused _ _ trivial, ?_⟩
    rw [stringAlloc_eq hlt, hp]
    exact h.skip (h.no_value hx) _ _
  · refine ⟨_, _, _, rfl, .alloc _ _ _, ?_⟩
    rw [stringAlloc_eq hlt]
    exact h.fresh hans (h.no_value hx) List.length_replicate hp

theorem stringClone_null {a : A3CString} (h : a.ptr = 0) : stringClone env a = .ok nullString := by rw [stringClone, if_pos h]

/-- There is nothing to copy to. -/
theorem stringClone_refused {a : A3CString} (hp : a.ptr ≠ 0) (hobj : a.len + 1 < 2 ^ 64) (hcalloc : env.calloc (a.len + 1) = 0) :
    stringClone env a = .ok ⟨0, a.len, List.replicate a.len 0 ++ [0]⟩ := by
  rw [stringClone, if_neg hp, stringAlloc_eq hobj, hcalloc]
  simp only [stringCopy, true_or, if_true]

theorem Stands.clone {other : Nat} (h : Stands s vals) (hans : Answers env s 0) (hlegal : Legal s (.clone x other)) :
    Does env s vals (.clone x other) := by
  have hx : vals x = none := h.no_value hlegal
  obtain ⟨str, hget, -, hptr, hbytes⟩ := h.get_const other
  have hexec : ∀ ret, stringClone env str.const = .ok ret → exec env s (.clone x other) = .ok (s.assign x ret, []) := by
    intro ret hret
    rw [exec, hget, ok_bind, hret]
    rfl
  cases ho : vals other with
  | none =>
    have hstep := ValueStep.clone vals x other
    rw [ho, ← hx, Function.update_eq_self] at hstep
    exact ⟨_, _, vals, hexec _ (stringClone_null (hptr.trans (h.null ho))), hstep, h.skip hx 0 []⟩
  | some text =>
    obtain ⟨hp, _, hsmall⟩ := h.filled ho
    rw [ho] at hbytes
    have hlen : str.const.len = text.length := len_of_bytes hbytes
    have hp' : str.const.ptr ≠ 0 := by rw [hptr]; exact hp
    by_cases hcalloc : env.calloc (text.length + 1) = 0
    · have hret := stringClone_refused hp' (by unfold ptrdiffMax at hsmall; omega) (by rw [hlen, hcalloc])
      exact ⟨_, _, vals, hexec _ hret, .refused _ _ trivial, h.skip hx _ _⟩
    · have hret := stringClone_eq hp' (by rw [hlen]; exact Nat.le_of_lt hsmall) (by rw [hlen]; exact hcalloc)
      have hstep := ValueStep.clone vals x other
      rw [ho] at hstep
      rw [hlen, hbytes] at hret
      exact ⟨_, _, _, hexec _ hret, hstep, h.fresh hans hx rfl hcalloc⟩

theorem Stands.toLowercase {y : Nat} (h : Stands s vals) (hans : Answers env s 0) (hlegal : Legal s (.toLowercase x y))
    (hmem : ¬Refused env s (.toLowercase x y)) : Does env s vals (.toLowercase x y) := by
  have hx : vals x = none := h.no_value hlegal
  obtain ⟨str, hget, -, hptr, hbytes⟩ := h.get_const y
  have hexec : ∀ ret, stringToLowercase env str.const = .ok ret →
      exec env s (.toLowercase x y) = .ok (s.assign x ret, []) := by
    intro ret hret
    rw [exec, hget, ok_bind, hret]
    rfl
  have hstep := ValueStep.toLowercase vals x y
  cases hy : vals y with
  | none =>
    have hret : stringToLowercase env str.const = .ok nullString := by
      rw [stringToLowercase, stringClone_null (hptr.trans (h.null hy)), ok_bind]
      rfl
    rw [hy, Option.map_none, ← hx, Function.update_eq_self] at hstep
    exact ⟨_, _, vals, hexec _ hret, hstep, h.skip hx 0 []⟩
  | some text =>
    obtain ⟨hp, hlen', hsmall⟩ := h.filled hy
    rw [hy] at hbytes
    have hlen : str.const.len = text.length := len_of_bytes hbytes
    have hp' : str.const.ptr ≠ 0 := by rw [hptr]; exact hp
    by_cases hcalloc : env.calloc (text.length + 1) = 0
    · -- nothing is read of an empty copy
      have hzero : text.length = 0 := by
        by_contra hpos
        exact hmem ⟨hp, by rw [hlen']; exact Nat.pos_of_ne_zero hpos, by rw [hlen']; exact hcalloc⟩
      have hclone := stringClone_refused hp' (by unfold ptrdiffMax at hsmall; omega) (by rw [hlen, hcalloc])
      have hret : stringToLowercase env str.const = .ok ⟨0, 0, [0]⟩ := by
        rw [stringToLowercase, hclone, ok_bind, hlen, hzero]
        rfl
      exact ⟨_, _, vals, hexec _ hret, .refused _ _ trivial, h.skip hx _ _⟩
    · have hret := stringToLowercase_eq hp' (by rw [hlen]; exact Nat.le_of_lt hsmall) (by rw [hlen]; exact hcalloc)
      rw [hlen, hbytes] at hret
      rw [hy] at hstep
      exact ⟨_, _, _, hexec _ hret, hstep, h.fresh hans hx length_mapUntil hcalloc⟩

/-- What `realloc` keeps and what it adds, and the NUL. -/
theorem resize_text (env : Env) (text tail : List UInt8) (n : Nat) :
    ∃ junk, junk.length = n - text.length ∧ splice (resize env (text ++ tail) (n + 1)) n [0] = text.take n ++ junk ++ [0] := by
  have hlen : (resize env (text ++ tail) (n + 1)).length = n + 1 := length_resize env _ _
  have hkept : (resize env (text ++ tail) (n + 1)).take (min n text.length) = text.take n := by
    have hwin : window (resize env (text ++ tail) (n + 1)) 0 (min n text.length) = window (text ++ tail) 0 (min n text.length) :=
      window_resize (by omega) (by rw [List.length_append]; omega)
    rw [window_zero, window_zero, List.take_append_of_le_length (Nat.min_le_right _ _)] at hwin
    rw [hwin, ← List.take_eq_take_min]
  refine ⟨window (resize env (text ++ tail) (n + 1)) (min n text.length) n, ?_, ?_⟩
  · rw [length_window (by omega)]
    omega
  · have hlast : (resize env (text ++ tail) (n + 1)).drop (n + 1) = [] := List.drop_eq_nil_of_le (by omega)
    have hcut : window (resize env (text ++ tail) (n + 1)) 0 (min n text.length) ++
        window (resize env (text ++ tail) (n + 1)) (min n text.length) n = window (resize env (text ++ tail) (n + 1)) 0 n :=
      window_add (Nat.zero_le _) (Nat.min_le_left _ _)
    rw [window_zero, window_zero, hkept] at hcut
    rw [splice, List.length_singleton, hlast, List.append_nil, hcut]

theorem Stands.realloc {this newLen : Nat} (h : Stands s vals) (hans : Answers env s (s.vars this).ptr)
    (hlegal : Legal s (.realloc x this newLen)) (hmem : ¬Refused env s (.realloc x this newLen)) :
    Does env s vals (.realloc x this newLen) := by
  obtain ⟨hx, hlt⟩ := hlegal
  obtain ⟨hsmall, hroom⟩ := hans.realloc (newLen + 1) hmem
  obtain ⟨s1, hrelease, hblocks, hdrop⟩ := h.drop this
  obtain ⟨str, tail, hget, hptr, hbytes⟩ :
      ∃ str tail, s.get this = .ok str ∧ str.ptr = (s.vars this).ptr ∧ str.bytes = (vals this).getD [] ++ tail := by
    cases ht : vals this with
    | none => exact ⟨_, [], get_null (h.null ht), (h.null ht).symm, rfl⟩
    | some text => exact ⟨_, [0], h.get ht, rfl, rfl⟩
  obtain ⟨junk, hjunk, hresize⟩ := resize_text env ((vals this).getD []) tail newLen
  have hnew : Function.update vals this none x = none := by
    by_cases hxt : x = this
    · rw [hxt, Function.update_self]
    · rw [Function.update_of_ne hxt, h.no_value (hx.resolve_left hxt)]
  have hlen : (((vals this).getD []).take newLen ++ junk).length = newLen := by
    rw [List.length_append, List.length_take]
    omega
  have hexec : exec env s (.realloc x this newLen) =
      .ok ((s1.assign this nullString).assign x
        ⟨env.realloc (newLen + 1), newLen, splice (resize env str.bytes (newLen + 1)) newLen [0]⟩, []) := by
    rw [exec, hget, ok_bind, stringRealloc_eq hlt hmem, ok_bind, hptr]
    simp only
    rw [hrelease]
    rfl
  refine ⟨_, _, _, hexec, .realloc _ _ _ _ junk hjunk, ?_⟩
  · have hstands := hdrop.new hnew hmem
      (show (((vals this).getD []).take newLen ++ junk).length < ptrdiffMax by rw [hlen]; exact hsmall)
      (by rw [hlen]; exact hblocks ▸ hroom)
    rw [hlen, ← hresize, ← hbytes] at hstands
    exact hstands

theorem Stands.free {this : Nat} (h : Stands s vals) (hlegal : Legal s (.free this)) : Does env s vals (.free this) := by
  obtain ⟨s1, hrelease, _, hdrop⟩ := h.drop this
  have hp : (s.vars this).ptr ≠ 0 := hlegal
  have hexec : exec env s (.free this) = .ok (s1.assign this nullString, []) := by
    rw [exec, check_true (decide_eq_true hp), ok_bind, hrelease]
    rfl
  exact ⟨_, _, _, hexec, .free _ _, hdrop⟩

/-- A call that writes into a string, within its length. -/
theorem Stands.does_set {call : Call} {out : List UInt8} {f : List UInt8 → List UInt8} (h : Stands s vals)
    (hx : vals x = some text) (hexec : exec env s call = .ok (s.assign x ⟨(s.vars x).ptr, text.length, f text ++ [0]⟩, out))
    (hlen : (f text).length = text.length) (hstep : ValueStep vals (call, out) (Function.update vals x ((vals x).map f))) :
    Does env s vals call := by
  rw [hx, Option.map_some] at hstep
  exact ⟨_, _, _, hexec, hstep, h.set hx hlen⟩

theorem Stands.reverse (h : Stands s vals) (hp : (s.vars x).ptr ≠ 0) : Does env s vals (.reverse x) := by
  obtain ⟨text, hx⟩ := h.value hp
  refine h.does_set (f := List.reverse) hx ?_ List.length_reverse (.reverse _ _)
  have hlen : text.length ≤ (text ++ [(0 : UInt8)]).length := by simp
  have hret : stringReverse ⟨(s.vars x).ptr, text.length, text ++ [0]⟩ = _ := stringReverse_eq hp hlen
  rw [exec, h.get hx, ok_bind, hret]
  simp

theorem Stands.lowercase (h : Stands s vals) (hp : (s.vars x).ptr ≠ 0) : Does env s vals (.lowercase x) := by
  obtain ⟨text, hx⟩ := h.value hp
  refine h.does_set (f := mapUntil tolower isNul) hx ?_ length_mapUntil (.lowercase _ _)
  have hlen : text.length ≤ (text ++ [(0 : UInt8)]).length := by simp
  have hret : stringLowercase ⟨(s.vars x).ptr, text.length, text ++ [0]⟩ = _ := stringLowercase_eq hp hlen
  rw [exec, h.get hx, ok_bind, hret]
  simp

theorem Stands.write {off : Nat} {bytes : List UInt8} (h : Stands s vals) (hlegal : Legal s (.write x off bytes)) :
    Does env s vals (.write x off bytes) := by
  obtain ⟨hp, hfit⟩ := hlegal
  obtain ⟨text, hx⟩ := h.value hp
  rw [(h.filled hx).2.1] at hfit
  refine h.does_set (f := fun text => splice text off bytes) hx ?_ (length_splice hfit) (.write _ _ _ _)
  have hfit' : off + bytes.length ≤ (text ++ [(0 : UInt8)]).length := by rw [List.length_append]; omega
  have hstore : (A3String.mk (s.vars x).ptr text.length (text ++ [0])).store off bytes = _ := A3String.store_eq hp hfit'
  rw [exec, h.get hx, ok_bind, hstore, ok_bind]
  simp only
  rw [splice_append hfit]
  rfl

theorem Stands.itoaInto {v : Nat} (h : Stands s vals) (hlegal : Legal s (.itoaInto x v)) : Does env s vals (.itoaInto x v) := by
  obtain ⟨hp, hroom⟩ := hlegal
  obtain ⟨text, hx⟩ := h.value hp
  rw [(h.filled hx).2.1] at hroom
  have hfit : 0 + (decimal v).length ≤ text.length := by rw [Nat.zero_add]; exact hroom
  refine h.does_set (f := fun text => splice text 0 (decimal v)) hx ?_ (length_splice hfit) (.itoaInto _ _ _)
  have hret : A3Str.itoaInto ⟨(s.vars x).ptr, text.length, text ++ [0]⟩ v = _ := itoaInto_eq hp (by simp) hroom
  have hconst : (A3String.mk (s.vars x).ptr (decimal v).length (decimal v ++ (text ++ [0]).drop (decimal v).length)).const = _ :=
    const_eq hp
  rw [exec, h.get hx, ok_bind, hret, ok_bind]
  simp only [hconst, pure_ok]
  rw [splice, List.take_zero, List.nil_append, Nat.zero_add, List.drop_append_of_le_length hroom, List.append_assoc]

theorem Stands.concat {args : List Nat} (h : Stands s vals) (hlegal : Legal s (.concat x args)) :
    Does env s vals (.concat x args) := by
  obtain ⟨hp, _, _⟩ := hlegal
  obtain ⟨text, hx⟩ := h.value hp
  obtain ⟨_, _, hsmall⟩ := h.filled hx
  choose strs hget _ _ hbytes using h.get_const
  have hargs : ((args.map strs).map A3String.const).flatMap A3CString.bytes = args.flatMap fun y => (vals y).getD [] := by
    simp only [List.flatMap_map, hbytes]
  have hsizes : ∀ arg ∈ (args.map strs).map A3String.const, arg.len ≤ ptrdiffMax := by
    intro arg harg
    obtain ⟨str, hstr, rfl⟩ := List.mem_map.1 harg
    obtain ⟨y, _, rfl⟩ := List.mem_map.1 hstr
    rw [len_of_bytes (hbytes y)]
    cases hy : vals y with
    | none => exact Nat.zero_le _
    | some t => exact Nat.le_of_lt (h.filled hy).2.2
  have hfit : 0 + ((args.flatMap fun y => (vals y).getD []).take text.length).length ≤ text.length := by
    rw [List.length_take]
    omega
  refine h.does_set (f := fun text => splice text 0 ((args.flatMap fun y => (vals y).getD []).take text.length)) hx ?_
    (length_splice hfit) (.concat _ _ _)
  have hloop : concatLoop env ((args.map strs).map A3String.const) ⟨(s.vars x).ptr, text.length, text ++ [0]⟩ 0 = _ :=
    concatLoop_eq _ _ 0 hp (by simp) (Nat.le_of_lt hsmall) hsizes
  rw [exec, h.get hx, ok_bind, mapM_ok fun y _ => hget y, ok_bind, stringConcat, check_true (decide_eq_true hp), ok_bind, hloop,
    ok_bind, concatenation, hargs]
  simp only [Nat.sub_zero]
  rw [splice_append hfit]
  rfl

theorem Stands.copy {y : Nat} (h : Stands s vals) : Does env s vals (.copy x y) := by
  have hstep := ValueStep.copy vals x y
  obtain ⟨src, hget, hptr, hcptr, hbytes⟩ := h.get_const y
  cases hx : vals x with
  | none =>
    have hp := h.null hx
    rw [hx, Option.map_none, ← hx, Function.update_eq_self] at hstep
    by_cases hsame : 0 = src.ptr
    · have hexec : exec env s (.copy x y) = .ok (s, []) := by
        rw [exec, get_null hp, ok_bind, hget, ok_bind]
        simp only
        rw [if_pos hsame]
        rfl
      exact ⟨_, _, _, hexec, hstep, h⟩
    · have hexec : exec env s (.copy x y) = .ok (s.assign x ⟨0, (s.vars x).len, []⟩, []) := by
        rw [exec, get_null hp, ok_bind, hget, ok_bind]
        simp only
        rw [if_neg hsame, stringCopy, if_pos (Or.inl rfl)]
        rfl
      exact ⟨_, _, _, hexec, hstep, h.skip hx _ _⟩
  | some text =>
    have hp := (h.filled hx).1
    have hget' := h.get hx
    by_cases hsame : (s.vars x).ptr = src.ptr
    · -- a string onto itself
      have hxy : x = y := by
        obtain ⟨text', hy⟩ := h.value (x := y) (by rw [← hptr, ← hsame]; exact hp)
        have hheld := holding_some (s := s) hy
        rw [← hptr, ← hsame] at hheld
        exact h.owned.one x y _ _ _ (holding_some hx) hheld
      have hexec : exec env s (.copy x y) = .ok (s, []) := by
        rw [exec, hget', ok_bind, hget, ok_bind]
        simp only
        rw [if_pos hsame]
        rfl
      have hself : splice text 0 (text.take text.length) = text := by simp [splice]
      subst hxy
      rw [hx, Option.map_some, Option.getD_some, hself, ← hx, Function.update_eq_self] at hstep
      exact ⟨_, _, _, hexec, hstep, h⟩
    · have hroom : 0 + text.length ≤ (text ++ [(0 : UInt8)]).length := by simp
      have hcopy : stringCopy ⟨(s.vars x).ptr, text.length, text ++ [0]⟩ 0 text.length src.const = _ := stringCopy_take hp hroom
      have hfit : 0 + (src.const.bytes.take text.length).length ≤ text.length := by
        rw [List.length_take]
        omega
      refine h.does_set (f := fun text => splice text 0 (((vals y).getD []).take text.length)) hx ?_
        (by rw [← hbytes]; exact length_splice hfit) hstep
      rw [exec, hget', ok_bind, hget, ok_bind]
      simp only
      rw [if_neg hsame, hcopy, ← hbytes, ← splice_append hfit]
      rfl

theorem findIdx?_isNul (text : List UInt8) :
    ∃ n, (text ++ [0]).findIdx? isNul = some n ∧ n ≤ text.length ∧ text.take n = text.takeWhile fun c => !isNul c := by
  induction text with
  | nil => exact ⟨0, rfl, Nat.le_refl _, rfl⟩
  | cons c text ih =>
    by_cases hc : isNul c = true
    · exact ⟨0, by simp [List.findIdx?_cons, hc], Nat.zero_le _, by simp [hc]⟩
    · obtain ⟨n, hn, hle, htake⟩ := ih
      refine ⟨n + 1, ?_, Nat.succ_le_succ hle, ?_⟩
      · rw [List.cons_append, List.findIdx?_cons, if_neg hc, hn]
        rfl
      · simp [hc, htake]

theorem Stands.cstr (h : Stands s vals) : Does env s vals (.cstr x) := by
  have hstep := ValueStep.cstr vals x
  cases hx : vals x with
  | none =>
    have hp := h.null hx
    have hexec : exec env s (.cstr x) = .ok (s, []) := by
      rw [exec, get_null hp, ok_bind, stringFrom, if_pos rfl, ok_bind]
      rfl
    rw [hx] at hstep
    exact ⟨_, _, _, hexec, hstep, h⟩
  | some text =>
    obtain ⟨hp, _, _⟩ := h.filled hx
    obtain ⟨n, hn, hle, htake⟩ := findIdx?_isNul text
    have hexec : exec env s (.cstr x) = .ok (s, text.takeWhile fun c => !isNul c) := by
      rw [exec, h.get hx, ok_bind, stringFrom, if_neg hp]
      simp only [hn, ok_bind, pure_ok, A3String.const, if_neg hp, List.take_append_of_le_length hle, htake]
    rw [hx] at hstep
    exact ⟨_, _, _, hexec, hstep, h⟩

/-- A call returns unless memory that it writes to is refused. -/
theorem Stands.does {call : Call} (h : Stands s vals) (hans : Answers env s (returned s call)) (hlegal : Legal s call)
    (hmem : ¬Refused env s call) : Does env s vals call := by
  cases call with
  | alloc x len => exact h.alloc hans hlegal
  | realloc x this newLen => exact h.realloc hans hlegal hmem
  | clone x other => exact h.clone hans hlegal
  | toLowercase x str => exact h.toLowercase hans hlegal hmem
  | free this => exact h.free hlegal
  | copy dst src => exact h.copy
  | concat dst args => exact h.concat hlegal
  | reverse str => exact h.reverse hlegal
  | lowercase str => exact h.lowercase hlegal
  | itoaInto dst v => exact h.itoaInto hlegal
  | write dst off bytes => exact h.write hlegal
  | cstr x => exact h.cstr

/-! ## Memory that is refused -/

theorem stringRealloc_refused {str : A3String} {newLen : Nat} (hlt : newLen + 1 < 2 ^ 64) (h : env.realloc (newLen + 1) = 0) :
    stringRealloc env str newLen = .error .nullDeref := by
  simp only [stringRealloc, sz_eq hlt, h, A3String.store, if_true]
  rfl

theorem stringLowercase_null {len : Nat} {bytes : List UInt8} (h : 0 < len) :
    stringLowercase ⟨0, len, bytes⟩ = .error .nullDeref := by
  obtain ⟨n, rfl⟩ := Nat.exists_eq_succ_of_ne_zero (Nat.ne_of_gt h)
  simp only [stringLowercase, lowercaseLoop, A3String.load, if_true]
  rfl

theorem Stands.refused {call : Call} (h : Stands s vals) (hlegal : Legal s call) (hmem : Refused env s call) :
    exec env s call = .error .nullDeref := by
  cases call with
  | realloc x this newLen =>
    obtain ⟨str, hget, _⟩ := h.get_const this
    rw [exec, hget, ok_bind, stringRealloc_refused hlegal.2 hmem]
    rfl
  | toLowercase x y =>
    obtain ⟨hp, hpos, hcalloc⟩ := hmem
    obtain ⟨str, hget, _, hptr, hbytes⟩ := h.get_const y
    obtain ⟨text, hy⟩ := h.value hp
    obtain ⟨_, hlen, hsmall⟩ := h.filled hy
    rw [hy] at hbytes
    have hlen' : str.const.len = text.length := len_of_bytes hbytes
    have hclone := stringClone_refused (a := str.const) (by rw [hptr]; exact hp)
      (by unfold ptrdiffMax at hsmall; omega) (show env.calloc (str.const.len + 1) = 0 by rw [hlen', ← hlen]; exact hcalloc)
    rw [exec, hget, ok_bind, stringToLowercase, hclone, ok_bind, stringLowercase_null (by rw [hlen', ← hlen]; exact hpos)]
    rfl
  | alloc | clone | free | copy | concat | reverse | lowercase | itoaInto | write | cstr => exact hmem.elim

/-! ## Runs -/

theorem Stands.step {a : Call × List UInt8} (h : Stands s vals) (hstep : Step s a s') :
    ∃ vals', ValueStep vals a vals' ∧ Stands s' vals' := by
  obtain ⟨env, hans, hlegal, hexec⟩ := hstep
  have hmem : ¬Refused env s a.1 := by
    intro hmem
    rw [h.refused hlegal hmem] at hexec
    cases hexec
  obtain ⟨s1, out, vals', hexec', hvalue, h'⟩ := h.does hans hlegal hmem
  rw [hexec] at hexec'
  cases hexec'
  exact ⟨vals', hvalue, h'⟩

/-- No variable holds a string. -/
def start : Store := ⟨fun _ => none, fun _ => ⟨0, 0⟩⟩

theorem stands_start : Stands start fun _ => none := ⟨Owned.empty, fun _ => rfl⟩

/-- **Strings are values.** Whatever the legal calls: each does to the values of the variables what it is for, one variable at a
time; the allocated blocks are those of the variables that are not null, one each, apart from each other and with a NUL
behind the string; and a call that is legal returns unless `realloc` or the copy for `a3_string_to_lowercase` is refused. -/
theorem strings_are_values {calls : List (Call × List UInt8)} (hrun : Run Step start calls s) :
    ∃ vals, Run ValueStep (fun _ => none) calls vals ∧ Stands s vals ∧
      ∀ env call, Answers env s (returned s call) → Legal s call →
        ((∃ r, exec env s call = .ok r) ↔ ¬Refused env s call) := by
  have hsim : ∀ (s : Store) (vals : Values) (a : Call × List UInt8) (s' : Store), Stands s vals → Step s a s' →
      ∃ vals', ValueStep vals a vals' ∧ Stands s' vals' := fun _ _ _ _ h hs => h.step hs
  obtain ⟨vals, hvalues, h⟩ := hrun.simulate hsim stands_start
  refine ⟨vals, hvalues, h, fun env call hans hlegal => ⟨?_, fun hmem => ?_⟩⟩
  · rintro ⟨r, hr⟩ hmem
    rw [h.refused hlegal hmem] at hr
    cases hr
  · obtain ⟨s', out, _, hexec, _⟩ := h.does hans hlegal hmem
    exact ⟨_, hexec⟩

/-- Sixteen bytes of memory, in one block. -/
def oneBlock : Env :=
  ⟨true, fun n => if n ≤ 16 then 4096 else 0, fun n => if n ≤ 16 then 4096 else 0, fun _ => 0, true⟩

/-- `"hi"`, written into two bytes and read as a C string -/
theorem strings_are_values_hi : ∃ s vals,
    Run ValueStep (fun _ => none) [(.alloc 0 2, []), (.write 0 0 [104, 105], []), (.cstr 0, [104, 105])] vals ∧ Stands s vals ∧
      ∀ env call, Answers env s (returned s call) → Legal s call →
        ((∃ r, exec env s call = .ok r) ↔ ¬Refused env s call) := by
  have hlarge : ∀ n, oneBlock.calloc n ≠ 0 → n ≤ ptrdiffMax := by
    intro n hn
    have hle : n ≤ 16 := by
      by_contra hgt
      exact hn (if_neg hgt)
    exact Nat.le_trans hle (by decide)
  have hnone : ∀ s old, Answers ⟨true, fun _ => 0, fun _ => 0, fun _ => 0, true⟩ s old :=
    fun _ _ => ⟨fun _ h => absurd rfl h, fun _ h => absurd rfl h⟩
  have hfirst : Answers oneBlock start 0 := by
    refine ⟨fun n hn => ⟨hlarge n hn, fun q bs hq => by cases hq⟩, fun n hn => ⟨hlarge n hn, fun q bs hq => ?_⟩⟩
    simp [start] at hq
  have halloc : Step start (.alloc 0 2, []) (start.assign 0 ⟨4096, 2, [0, 0, 0]⟩) := ⟨oneBlock, hfirst, ⟨rfl, by decide⟩, rfl⟩
  have hwrite : Step (start.assign 0 ⟨4096, 2, [0, 0, 0]⟩) (.write 0 0 [104, 105], [])
      ((start.assign 0 ⟨4096, 2, [0, 0, 0]⟩).assign 0 ⟨4096, 2, [104, 105, 0]⟩) :=
    ⟨_, hnone _ _, ⟨by decide, by decide⟩, rfl⟩
  have hcstr : Step ((start.assign 0 ⟨4096, 2, [0, 0, 0]⟩).assign 0 ⟨4096, 2, [104, 105, 0]⟩) (.cstr 0, [104, 105]) _ :=
    ⟨_, hnone _ _, trivial, rfl⟩
  obtain ⟨vals, h⟩ := strings_are_values (.cons halloc (.cons hwrite (.single hcstr)))
  exact ⟨_, vals, h⟩

end A3Str
