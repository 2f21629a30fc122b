import LibA3.Str.Basic

/-!
# The growable byte buffer (`buffer.h`, `buffer.c`)

A function takes the buffer and returns it, after what it returns itself.

| here | there |
| --- | --- |
| `A3Buffer`     | `A3Buffer` (`buffer.h:34`) |
| `live`         | `assert(a3_buf_initialized(buf))` |
| `writePtr`, `readPtr` | `a3_buf_write_ptr`, `a3_buf_read_ptr`: the offset into `data` and the length |
| `contents`     | the bytes `head .. tail - 1` |

`memmove` and `memcpy` return their first argument.
-/

namespace A3Buf

open A3Str Mem

structure A3Buffer where
  data : A3String
  tail : Nat
  head : Nat
  maxCap : Nat
deriving DecidableEq, Repr

def contents (b : A3Buffer) : List UInt8 := window b.data.bytes b.head b.tail

/-! ## `buffer.h` -/

/-- `a3_buf_initialized` (`buffer.h:101`) -/
def initialized (env : Env) (b : A3Buffer) : Except Fault Bool := do
  check env (b.head ≤ b.tail)
  pure (b.data.ptr ≠ 0)

def live (env : Env) (b : A3Buffer) : Except Fault Unit := do check env (← initialized env b)

/-- `a3_buf_reset` (`buffer.h:109`) -/
def reset (env : Env) (b : A3Buffer) : Except Fault A3Buffer := do
  live env b
  pure { b with head := 0, tail := 0 }

/-- `a3_buf_reset_if_empty` (`buffer.h:117`) -/
def resetIfEmpty (env : Env) (b : A3Buffer) : Except Fault (Bool × A3Buffer) := do
  live env b
  if b.head ≠ b.tail then pure (false, b)
  else
    let b ← reset env b
    pure (true, b)

/-- `a3_buf_len` (`buffer.h:128`) -/
def len (env : Env) (b : A3Buffer) : Except Fault Nat := do
  live env b
  pure (usub b.tail b.head)

/-- `a3_buf_cap` (`buffer.h:134`) -/
def cap (env : Env) (b : A3Buffer) : Except Fault Nat := do
  live env b
  pure (usub b.data.len (← len env b))

/-- `a3_buf_space` (`buffer.h:140`) -/
def space (env : Env) (b : A3Buffer) : Except Fault (Nat × A3Buffer) := do
  live env b
  let (_, b) ← resetIfEmpty env b
  pure (usub b.data.len b.tail, b)

/-- `a3_buf_compact` (`buffer.h:148`) -/
def compact (env : Env) (b : A3Buffer) : Except Fault (Bool × A3Buffer) := do
  live env b
  check env (b.head ≠ 0)
  let n ← len env b
  let moved ← b.data.load b.head n
  let data ← b.data.store 0 moved
  if data.ptr = 0 then pure (false, { b with data := data })
  else pure (true, { b with data := data, tail := usub b.tail b.head, head := 0 })

/-- The `for` of `a3_buf_ensure_cap` (`buffer.h:172`). After 64 doublings `new_cap` is 0, and stays 0. -/
def growLoop : Nat → Nat → Nat → Except Fault Nat
  | 0, _, _ => .error .diverges
  | fuel + 1, newCap, needed => if newCap < needed then growLoop fuel (sz (newCap * 2)) needed else pure newCap

/-- `a3_buf_ensure_cap` (`buffer.h:159`) -/
def ensureCap (env : Env) (b : A3Buffer) (minExtraCap : Nat) : Except Fault (Bool × A3Buffer) := do
  live env b
  let (room, b) ← space env b
  if room ≥ minExtraCap then pure (true, b)
  else if sz ((← len env b) + minExtraCap) > b.maxCap then pure (false, b)
  else if (← cap env b) ≥ minExtraCap then compact env b
  else
    let newCap ← growLoop 65 (max (max b.data.len 8) b.maxCap) (sz (b.data.len + minExtraCap))
    let (newData, data) ← stringRealloc env b.data (min newCap b.maxCap)
    if newData.ptr = 0 then pure (false, { b with data := data })
    else pure (true, { b with data := newData })

/-- `a3_buf_ensure_max_cap` (`buffer.h:182`) -/
def ensureMaxCap (env : Env) (b : A3Buffer) : Except Fault (Bool × A3Buffer) := do
  live env b
  if b.data.len ≥ b.maxCap then pure (true, b)
  else ensureCap env b (usub b.maxCap b.data.len)

/-- `a3_buf_write_ptr` (`buffer.h:192`) -/
def writePtr (env : Env) (b : A3Buffer) : Except Fault ((Nat × Nat) × A3Buffer) := do
  let (_, b) ← resetIfEmpty env b
  let (room, b) ← space env b
  pure ((b.tail, room), b)

/-- `a3_buf_read_ptr` (`buffer.h:204`) -/
def readPtr (env : Env) (b : A3Buffer) : Except Fault (Nat × Nat) := do
  live env b
  pure (b.head, ← len env b)

/-- `a3_buf_wrote` (`buffer.h:214`) -/
def wrote (env : Env) (b : A3Buffer) (n : Nat) : Except Fault A3Buffer := do
  live env b
  check env (sz (b.tail + n) ≤ b.data.len)
  pure { b with tail := sz (b.tail + n) }

/-- `a3_buf_write_str` (`buffer.h:222`) -/
def writeStr (env : Env) (b : A3Buffer) (str : A3CString) : Except Fault (Bool × A3Buffer) := do
  live env b
  if sz (str.len + (← len env b)) > b.maxCap then pure (false, b)
  else
    let (ok, b) ← ensureCap env b str.len
    if !ok then pure (false, b)
    else
      let ((off, room), b) ← writePtr env b
      let data ← stringCopy b.data off room str
      let b ← wrote env { b with data := data } str.len
      pure (true, b)

/-! ## `buffer.c` -/

/-- `a3_buf_init` (`buffer.c:26`) -/
def init (env : Env) (b : A3Buffer) (cap maxCap : Nat) : Bool × A3Buffer :=
  let data := if b.data.ptr = 0 then stringAlloc env cap else b.data
  if data.ptr = 0 then (false, { b with data := data }) else (true, { b with data := data, maxCap := maxCap })

/-- `a3_buf_write_byte` (`buffer.c:54`) -/
def writeByte (env : Env) (b : A3Buffer) (byte : UInt8) : Except Fault (Bool × A3Buffer) := do
  live env b
  let (ok, b) ← ensureCap env b 1
  if !ok then pure (false, b)
  else
    let data ← b.data.store b.tail [byte]
    pure (true, { b with data := data, tail := sz (b.tail + 1) })

/-- `a3_buf_write_line` (`buffer.c:64`) -/
def writeLine (env : Env) (b : A3Buffer) (str : A3CString) : Except Fault (Bool × A3Buffer) := do
  let (ok, b) ← writeStr env b str
  if !ok then pure (false, b) else writeByte env b 10

/-- The `while` of `a3_buf_write_vfmt` (`buffer.c:76`): `write_ptr.len` and `rc` after a `break`, `none` where `rc < 0` -/
def vfmtLoop (env : Env) (fmt : Formatted) : Nat → Nat × Nat → A3Buffer → Except Fault (Option (Nat × Nat) × A3Buffer)
  | 0, _, _ => .error .diverges
  | fuel + 1, (off, room), b => do
    let (rc, data) ← vsnprintf b.data off room fmt
    let b := { b with data := data }
    if rc < 0 then pure (none, b)
    else if rc.toNat < room then pure (some (room, rc.toNat), b)
    else
      let (ok, b) ← ensureCap env b (sz (rc.toNat + 1))
      if !ok then pure (some (room, rc.toNat), b)
      else
        let (ptr, b) ← writePtr env b
        vfmtLoop env fmt fuel ptr b

/-- `a3_buf_write_vfmt` (`buffer.c:70`), with fuel for its loop -/
def writeVfmt (env : Env) (fuel : Nat) (b : A3Buffer) (fmt : Formatted) : Except Fault (Bool × A3Buffer) := do
  live env b
  let (ptr, b) ← writePtr env b
  let (out, b) ← vfmtLoop env fmt fuel ptr b
  match out with
  | none => pure (false, b)
  | some (room, rc) =>
    let b ← wrote env b (min room rc)
    pure (true, b)

/-- A string on the stack, which is not at address 0. -/
def onStack (bytes : List UInt8) : A3CString := ⟨1, bytes, fun h => absurd h Nat.one_ne_zero⟩

/-- `a3_buf_write_num` (`buffer.c:109`) -/
def writeNum (env : Env) (b : A3Buffer) (num : UInt64) : Except Fault (Bool × A3Buffer) := do
  let numStr ← itoaInto ⟨1, 20, List.replicate 20 0⟩ num.toNat
  let str ← numStr.load 0 numStr.len
  writeStr env b (onStack str)

/-- `a3_buf_read` (`buffer.c:116`) -/
def read (env : Env) (b : A3Buffer) (n : Nat) : Except Fault A3Buffer := do
  live env b
  check env (sz (b.head + n) ≤ b.data.len)
  let (_, b) ← resetIfEmpty env { b with head := sz (b.head + n) }
  pure b

/-- `a3_buf_memmem` (`buffer.c:124`): the offset into `data` -/
def bufMemmem (env : Env) (b : A3Buffer) (needle : A3CString) : Except Fault (Option Nat) := do
  live env b
  check env (needle.ptr ≠ 0)
  check env (needle.len > 0)
  let (off, n) ← readPtr env b
  let pos ← stringMemmem env b.data off n needle
  pure (pos.map (off + ·))

/-- The first `for` of `a3_buf_token_next` (`buffer.c:142`): eat preceding delimiters -/
def eatDelims (env : Env) (delim : List UInt8) : Nat → A3Buffer → Except Fault A3Buffer
  | 0, _ => .error .diverges
  | fuel + 1, b =>
    if b.head < b.tail then do
      let c ← b.data.load b.head 1
      if c.all delim.contains then
        let b ← read env b 1
        eatDelims env delim fuel b
      else pure b
    else pure b

/-- The second `for` (`buffer.c:150`): the end of the token -/
def findDelim (data : A3String) (tail : Nat) (delim : List UInt8) : Nat → Nat → Except Fault Nat
  | 0, _ => .error .diverges
  | fuel + 1, end_ =>
    if end_ < tail then do
      let c ← data.load end_ 1
      if c.all delim.contains then pure end_ else findDelim data tail delim fuel (end_ + 1)
    else pure end_

/-- The third `for` (`buffer.c:156`): zero out all delimiters -/
def zeroDelims (tail : Nat) (delim : List UInt8) : Nat → A3String → Nat → Except Fault (A3String × Nat)
  | 0, _, _ => .error .diverges
  | fuel + 1, data, last =>
    if last < tail then do
      let c ← data.load last 1
      if c.all delim.contains then
        let data ← data.store last [0]
        zeroDelims tail delim fuel data (last + 1)
      else pure (data, last)
    else pure (data, last)

/-- `a3_buf_token_next` (`buffer.c:135`): offset and length of the token, `none` for `A3_S_NULL` -/
def tokenNext (env : Env) (b : A3Buffer) (delim : List UInt8) (preserveEnd : Bool) :
    Except Fault (Option (Nat × Nat) × A3Buffer) := do
  if !(← initialized env b) then pure (none, b)
  else
    let b ← eatDelims env delim (b.tail - b.head + 1) b
    let end_ ← findDelim b.data b.tail delim (b.tail - b.head + 1) b.head
    let (data, last) ←
      if preserveEnd then pure (b.data, end_) else zeroDelims b.tail delim (b.tail - end_ + 1) b.data end_
    pure (some (b.head, usub end_ b.head), { b with data := data, head := last })

/-- `a3_buf_consume` (`buffer.c:164`) -/
def consume (env : Env) (b : A3Buffer) (needle : A3CString) : Except Fault (Bool × A3Buffer) := do
  check env (needle.ptr ≠ 0)
  match ← bufMemmem env b needle with
  | none => pure (false, b)
  | some pos =>
    if pos ≠ b.head then pure (false, b)
    else
      let b ← read env b needle.len
      pure (true, b)

end A3Buf
