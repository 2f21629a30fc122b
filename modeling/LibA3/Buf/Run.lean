import LibA3.Buf.Read
import LibA3.Trans

/-!
# Runs of buffer operations

`Op.Spec` says what an operation does to the bounded queue the buffer stands for, `exec_spec` that the
buffer does it. `Op.Allowed` is what a caller has to see to, `Op.Fits` what it cannot.
-/

namespace A3Buf

open A3Str Fallible Trans

variable {env : Env} {b b' : A3Buffer} {q q' : BoundedQueue UInt8}

/-! ## Calls -/

inductive Op where
  | writeByte (byte : UInt8)
  | writeStr (str : A3CString)
  | writeNum (num : UInt64)
  | ensureCap (minExtraCap : Nat)
  | ensureMaxCap
  | compact
  | resetIfEmpty
  | read (n : Nat)
  | consume (needle : A3CString)
  | tokenNext (delim : List UInt8) (preserveEnd : Bool)

/-- One call, and whether it succeeds. -/
def exec (env : Env) (b : A3Buffer) : Op → Except Fault (Bool × A3Buffer)
  | .writeByte byte => writeByte env b byte
  | .writeStr str => writeStr env b str
  | .writeNum num => writeNum env b num
  | .ensureCap minExtraCap => ensureCap env b minExtraCap
  | .ensureMaxCap => ensureMaxCap env b
  | .compact => compact env b
  | .resetIfEmpty => resetIfEmpty env b
  | .read n => (read env b n).map fun b' => (true, b')
  | .consume needle => consume env b needle
  | .tokenNext delim preserveEnd => (tokenNext env b delim preserveEnd).map fun r => (r.1.isSome, r.2)

/-- What it does to the contents. -/
def Op.Spec (env : Env) (q : BoundedQueue UInt8) (ok : Bool) (q' : BoundedQueue UInt8) : Op → Prop
  | .writeByte byte => (ok, q') = q.write [byte]
  | .writeStr str => (ok, q') = q.write str.bytes
  | .writeNum num => (ok, q') = q.write (decimal num.toNat)
  | .ensureCap _ | .ensureMaxCap | .compact | .resetIfEmpty => q' = q
  | .read n => q' = q.read n
  | .consume needle =>
    ok = decide (startsWith env q.items needle.bytes) ∧
      q' = if startsWith env q.items needle.bytes then q.read needle.len else q
  | .tokenNext delim preserveEnd => q'.cap = q.cap ∧ q'.items = tokenRest delim preserveEnd q.items

/-- The bound of the queue is fixed. -/
theorem Op.Spec.cap_eq {op : Op} {ok : Bool} (h : op.Spec env q ok q') : q'.cap = q.cap := by
  have hwrite : ∀ {bytes : List UInt8}, (ok, q') = q.write bytes → q'.cap = q.cap := by
    intro bytes h
    rw [show q' = (q.write bytes).2 from congrArg Prod.snd h, BoundedQueue.write_cap]
  cases op with
  | writeByte byte => exact hwrite h
  | writeStr str => exact hwrite h
  | writeNum num => exact hwrite h
  | ensureCap n => exact congrArg BoundedQueue.cap h
  | ensureMaxCap => exact congrArg BoundedQueue.cap h
  | compact => exact congrArg BoundedQueue.cap h
  | resetIfEmpty => exact congrArg BoundedQueue.cap h
  | read n =>
    have hq : q' = q.read n := h
    rw [hq]
    rfl
  | consume needle =>
    rw [h.2]
    split <;> rfl
  | tokenNext delim preserveEnd => exact h.1

/-- The capacity it asks `a3_buf_ensure_cap` for. -/
def Op.extra (b : A3Buffer) : Op → Nat
  | .writeByte _ => 1
  | .writeStr str => str.len
  | .writeNum num => (decimal num.toNat).length
  | .ensureCap minExtraCap => minExtraCap
  | .ensureMaxCap => b.maxCap - b.data.len
  | .compact | .resetIfEmpty | .read _ | .consume _ | .tokenNext _ _ => 0

def Op.Pre (b : A3Buffer) : Op → Prop
  | .writeStr str => str.len ≤ ptrdiffMax
  | .compact => b.head ≠ 0
  | .read n => n ≤ size b
  | .consume needle => needle.bytes ≠ []
  | _ => True

/-- The arguments are in order, and the reallocation it makes, if it makes one, succeeds. -/
def Op.Allowed (env : Env) (b : A3Buffer) (op : Op) : Prop :=
  op.Pre b ∧ (Grows b (op.extra b) → CanGrow env b)

/-- If it is a write that has the block enlarged, the bytes fit behind `tail`. -/
def Op.Fits (b : A3Buffer) : Op → Prop
  | .writeByte _ => True
  | .writeStr str => A3Buf.Fits b str.len
  | .writeNum num => A3Buf.Fits b (decimal num.toNat).length
  | _ => True

/-! ## One call -/

theorem Rep.resetIfEmpty (r : Rep b q) : ∃ ok, resetIfEmpty env b = .ok (ok, settle b) ∧ Rep (settle b) q := by
  obtain ⟨ok, hok⟩ : ∃ ok, A3Buf.resetIfEmpty env b = .ok (ok, settle b) := resetIfEmpty_eq r.inv.sound
  exact ⟨ok, hok, r.of_eq r.inv.settle (contents_settle b) (settle_maxCap b)⟩

theorem length_decimal_le_max (num : UInt64) : (decimal num.toNat).length ≤ ptrdiffMax :=
  Nat.le_trans (length_decimal_uint64 num) (by decide)

/-- **Step lemma.** -/
theorem exec_spec (r : Rep b q) (op : Op) (ha : op.Allowed env b) (hf : op.Fits b) :
    ∃ ok b' q', exec env b op = .ok (ok, b') ∧ op.Spec env q ok q' ∧ Rep b' q' ∧
      (¬Grows b (op.extra b) → SameStore b b') := by
  obtain ⟨hpre, hgrow⟩ := ha
  cases op with
  | writeByte byte =>
    obtain ⟨b', hb', r', hs⟩ := writeByte_spec r byte hgrow
    exact ⟨_, b', _, hb', rfl, r', hs⟩
  | writeStr str =>
    obtain ⟨b', hb', r', hs⟩ := writeStr_spec r str hpre hgrow hf
    exact ⟨_, b', _, hb', rfl, r', hs⟩
  | writeNum num =>
    obtain ⟨b', hb', r', hs⟩ := writeStr_spec r (onStack (decimal num.toNat)) (length_decimal_le_max num) hgrow hf
    exact ⟨_, b', _, (writeNum_eq num).trans hb', rfl, r', hs⟩
  | ensureCap n =>
    obtain ⟨ok, b', hb', he⟩ := ensureCap_spec r.inv hgrow
    exact ⟨ok, b', q, hb', rfl, r.of_eq he.inv he.contents_eq he.maxCap_eq, he.sameStore⟩
  | ensureMaxCap =>
    have hle := r.inv.len_le
    rw [exec, ensureMaxCap, live_eq r.inv.sound, ok_bind]
    by_cases hge : b.data.len ≥ b.maxCap
    · rw [if_pos hge]
      exact ⟨true, b, q, rfl, rfl, r, fun _ => SameStore.refl b⟩
    · obtain ⟨ok, b', hb', he⟩ := ensureCap_spec r.inv hgrow
      rw [if_neg hge, usub_eq hle r.inv.max_lt]
      exact ⟨ok, b', q, hb', rfl, r.of_eq he.inv he.contents_eq he.maxCap_eq, he.sameStore⟩
  | compact =>
    obtain ⟨b', hb', so', hc', hm', hs', _⟩ := compact_spec r.inv.sound hpre
    exact ⟨true, b', q, hb', rfl, r.of_eq (r.inv.of_store so' hs' hm') hc' hm', fun _ => hs'⟩
  | resetIfEmpty =>
    obtain ⟨ok, hok, r'⟩ := r.resetIfEmpty
    exact ⟨ok, settle b, q, hok, rfl, r', fun _ => SameStore.settle b⟩
  | read n =>
    obtain ⟨b', hb', r', hd'⟩ := read_spec r hpre
    refine ⟨true, b', q.read n, ?_, rfl, r', fun _ => SameStore.of_data hd'⟩
    rw [exec, hb']
    rfl
  | consume needle =>
    obtain ⟨b', hb', r', hd'⟩ := consume_spec r needle hpre
    exact ⟨_, b', _, hb', ⟨rfl, rfl⟩, r', fun _ => SameStore.of_data hd'⟩
  | tokenNext delim preserveEnd =>
    obtain ⟨tok, b', hb', so', hc', hm', hs'⟩ := tokenNext_spec r.inv.sound delim preserveEnd
    have i' := r.inv.of_store so' hs' hm'
    have hle : (contents b').length ≤ q.cap := by
      have h1 : size b' ≤ b'.tail := Nat.sub_le _ _
      have h2 := i'.tail_le
      have h3 := i'.len_le
      rw [i'.length_contents, r.cap, ← hm']
      omega
    refine ⟨true, b', ⟨q.cap, contents b', hle⟩, ?_, ⟨rfl, ?_⟩, ⟨i', r.cap.trans hm'.symm, rfl⟩, fun _ => hs'⟩
    · rw [exec, hb']
      rfl
    · rw [r.items]
      exact hc'

/-- An operation that does what the queue does. -/
def Meets (env : Env) (b : A3Buffer) (q : BoundedQueue UInt8) (op : Op) : Prop :=
  ∃ ok b' q', exec env b op = .ok (ok, b') ∧ op.Spec env q ok q' ∧ Rep b' q'

/-- **`a3_buf_wrote` (`buffer.h:214`)**: a write that does not fit behind `tail` goes wrong. -/
theorem meets_iff_fits (r : Rep b q) (op : Op) (ha : op.Allowed env b) : Meets env b q op ↔ op.Fits b := by
  constructor
  · rintro ⟨ok, b', q', hexec, _, r'⟩
    cases op with
    | writeStr str =>
      by_contra hf
      exact writeStr_overrun r.inv str ha.1 ha.2 hf hexec r'.inv
    | writeNum num =>
      by_contra hf
      rw [exec, writeNum_eq] at hexec
      exact writeStr_overrun r.inv (onStack (decimal num.toNat)) (length_decimal_le_max num) ha.2 hf hexec r'.inv
    | _ => trivial
  · intro hf
    obtain ⟨ok, b', q', hexec, hspec, r', _⟩ := exec_spec r op ha hf
    exact ⟨ok, b', q', hexec, hspec, r'⟩

/-! ## The queue's side of a run -/

/-- A call on the queue, with what it returned. -/
def QueueStep (env : Env) (q : BoundedQueue UInt8) (a : Op × Bool) (q' : BoundedQueue UInt8) : Prop :=
  a.1.Spec env q a.2 q'

end A3Buf
