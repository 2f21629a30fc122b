import LibA3.Buf.Format
import LibA3.Buf.Line

/-!
# Writes without memory

What `realloc` cannot provide is to be reported: `a3_buf_ensure_cap` tests what `a3_string_realloc` returns, and leaves
the buffer as it is. It never comes to that, since `a3_string_realloc` has stored through the pointer.

* `no_memory_never` — no call survives a reallocation that fails
-/

namespace A3Buf

open A3Str Fallible Trans

variable {env : Env} {b : A3Buffer} {n : Nat}

/-- The call returns `false`, and leaves the buffer as it was. -/
def Refused (b : A3Buffer) (r : Except Fault (Bool × A3Buffer)) : Prop :=
  ∃ b', r = .ok (false, b') ∧ b'.data.ptr = b.data.ptr ∧ b'.data.len = b.data.len ∧ b'.head = b.head ∧
    b'.tail = b.tail ∧ contents b' = contents b

theorem not_refused_of_error {r : Except Fault (Bool × A3Buffer)} {f : Fault} (h : r = .error f) : ¬Refused b r := by
  rintro ⟨b', hb', _⟩
  rw [h] at hb'
  cases hb'

/-- Every call that has the block enlarged, whatever it writes. -/
theorem exec_null (so : Sound b) (op : Op) (h : ReallocFails env b (op.extra b)) : exec env b op = .error .nullDeref := by
  have hnull := ensureCap_null so h
  obtain ⟨⟨hlt, hle⟩, _⟩ := h
  have hsize := so.size_le
  have hwrite : ∀ str : A3CString, ensureCap env b str.len = .error .nullDeref → sz (size b + str.len) ≤ b.maxCap →
      writeStr env b str = .error .nullDeref := by
    intro str hnull hle
    rw [writeStr, live_eq so, ok_bind, len_eq so, ok_bind, Nat.add_comm, if_neg (Nat.not_lt.2 hle), hnull]
    rfl
  cases op with
  | writeByte byte =>
    have hone : ensureCap env b 1 = .error .nullDeref := hnull
    rw [exec, writeByte, live_eq so, ok_bind, hone]
    rfl
  | writeStr str => exact hwrite str hnull hle
  | writeNum num =>
    rw [exec, writeNum_eq]
    exact hwrite (onStack _) hnull hle
  | ensureCap n => exact hnull
  | ensureMaxCap =>
    have hless : b.data.len < b.maxCap := by
      have h : b.data.len < size b + (b.maxCap - b.data.len) := hlt
      omega
    rw [exec, ensureMaxCap, live_eq so, ok_bind, if_neg (Nat.not_le.2 hless), usub_eq (Nat.le_of_lt hless) so.max_lt]
    exact hnull
  | compact => exact absurd hsize (Nat.not_le.2 hlt)
  | resetIfEmpty => exact absurd hsize (Nat.not_le.2 hlt)
  | read n => exact absurd hsize (Nat.not_le.2 hlt)
  | consume needle => exact absurd hsize (Nat.not_le.2 hlt)
  | tokenNext delim preserveEnd => exact absurd hsize (Nat.not_le.2 hlt)

theorem writeLine_null (so : Sound b) (str : A3CString) (h : ReallocFails env b str.len) :
    writeLine env b str = .error .nullDeref := by
  have hstr : writeStr env b str = .error .nullDeref := exec_null so (.writeStr str) h
  rw [writeLine, hstr]
  rfl

theorem writeVfmt_null (so : Sound b) {text : List UInt8} (hint : text.length ≤ intMax)
    (h : ReallocFails env b (text.length + 1)) (fuel : Nat) :
    writeVfmt env (fuel + 1) b (.text text) = .error .nullDeref := by
  have h' : ReallocFails env (settle b) (text.length + 1) := by
    rw [ReallocFails, Grows, size_settle, settle_maxCap, settle_data]
    exact h
  have hlt := h'.1.1
  have hsize : size (settle b) ≤ (settle b).tail := Nat.sub_le _ _
  have hshort : spare (settle b) ≤ text.length := by unfold spare; omega
  obtain ⟨so1, _⟩ := scribbled_sound so.settle (.text text)
  have hnull : ensureCap env (scribbled (settle b) (.text text)) (text.length + 1) = .error .nullDeref :=
    ensureCap_null so1 h'
  rw [writeVfmt, live_eq so, ok_bind, writePtr_settle so, ok_bind]
  simp only
  rw [← settle_data b, ← spare, vfmtLoop_short so.settle hint hshort, hnull]
  rfl

/-- **A reallocation that fails** (`str.c:28`, `buffer.h:174`) is not reported, by `a3_buf_ensure_cap` or by the write that
called it: the NUL of the new string is stored through `NULL`. -/
theorem no_memory_never (so : Sound b) (h : ReallocFails env b n) :
    ensureCap env b n = .error .nullDeref ∧ ¬Refused b (ensureCap env b n) ∧
      (∀ op : Op, op.extra b = n → ¬Refused b (exec env b op)) ∧
      (∀ str : A3CString, str.len = n → ¬Refused b (writeLine env b str)) ∧
      ∀ (text : List UInt8) (fuel : Nat), text.length ≤ intMax → text.length + 1 = n →
        ¬Refused b (writeVfmt env (fuel + 1) b (.text text)) := by
  have hnull := ensureCap_null so h
  refine ⟨hnull, not_refused_of_error hnull, ?_, ?_, ?_⟩
  · rintro op rfl
    exact not_refused_of_error (exec_null so op h)
  · rintro str rfl
    exact not_refused_of_error (writeLine_null so str h)
  · rintro text fuel hint rfl
    exact not_refused_of_error (writeVfmt_null so hint h fuel)

/-! ## A buffer that is full -/

/-- A program in which `realloc` fails. -/
def starved : Env := ⟨true, fun _ => 4096, fun _ => 0, fun _ => 0, true⟩

/-- Four bytes in a buffer of four, which may grow to eight. -/
def full : A3Buffer := ⟨⟨4096, 4, [97, 98, 99, 100, 0]⟩, 4, 0, 8⟩

theorem full_fails : ReallocFails starved full 1 := ⟨by decide, 8, by decide, rfl⟩

theorem full_run : Run (Step starved) (init starved zeroed 4 8).2 [(.writeStr (onStack [97, 98, 99, 100]), true)] full := by
  have hsmall : ¬Grows (init starved zeroed 4 8).2 4 := by decide
  exact .single ⟨⟨show 4 ≤ ptrdiffMax by decide, fun hg => absurd hg hsmall⟩, fun hg => absurd hg hsmall,
    by decide +kernel⟩

theorem no_memory_never_full : ensureCap starved full 1 = .error .nullDeref ∧ ¬Refused full (ensureCap starved full 1) ∧
    (∀ op : Op, op.extra full = 1 → ¬Refused full (exec starved full op)) ∧
    (∀ str : A3CString, str.len = 1 → ¬Refused full (writeLine starved full str)) ∧
    ∀ (text : List UInt8) (fuel : Nat), text.length ≤ intMax → text.length + 1 = 1 →
      ¬Refused full (writeVfmt starved (fuel + 1) full (.text text)) :=
  no_memory_never ⟨by decide, by decide, by decide, by decide, by decide, by decide⟩ full_fails

/-- One byte more: a store through `NULL`. -/
theorem fifth_byte_null :
    Run (Step starved) (init starved zeroed 4 8).2 [(.writeStr (onStack [97, 98, 99, 100]), true)] full ∧
      ReallocFails starved full 1 ∧ writeByte starved full 101 = .error .nullDeref ∧
      ¬Refused full (writeByte starved full 101) :=
  have hnull : writeByte starved full 101 = .error .nullDeref := by decide +kernel
  ⟨full_run, full_fails, hnull, not_refused_of_error hnull⟩

end A3Buf
