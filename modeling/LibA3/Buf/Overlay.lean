import LibA3.Buf.Growable

/-!
# Buffers overlaid on existing memory

`a3_buf_init` with the data preset and `max_cap` equal to its length. A write that the capacity check lets
through finds room in the block, behind `tail` or after compaction: there is nothing for reallocation to do
(`Overlaid.not_grows`). The check adds in `size_t`; an `a3_buf_ensure_cap` whose sum wraps passes it.

* `overlaid_queue` — the buffer is a bounded queue in the memory it was given
-/

namespace A3Buf

open A3Str Trans

variable {env : Env} {b b' : A3Buffer} {q : BoundedQueue UInt8}

/-- A buffer that may use exactly its block. -/
structure Overlaid (b : A3Buffer) : Prop where
  inv : Inv b
  maxCap_eq : b.maxCap = b.data.len
  block_eq : b.data.bytes.length = b.data.len

/-- The sum `a3_buf_ensure_cap` forms of its argument is a `size_t`. -/
def Op.NoWrap (b : A3Buffer) : Op → Prop
  | .ensureCap minExtraCap => size b + minExtraCap < 2 ^ 64
  | _ => True

/-- A call that returns, with its arguments in order. -/
def OverlayStep (env : Env) (b : A3Buffer) (a : Op × Bool) (b' : A3Buffer) : Prop :=
  a.1.Pre b ∧ a.1.NoWrap b ∧ exec env b a.1 = .ok (a.2, b')

theorem Overlaid.extra_lt (o : Overlaid b) {op : Op} (hpre : op.Pre b) (hwrap : op.NoWrap b) :
    size b + op.extra b < 2 ^ 64 := by
  have hsize : size b ≤ b.data.len := Nat.le_trans (Nat.sub_le _ _) o.inv.tail_le
  have hobject : ∀ n, n ≤ ptrdiffMax → size b + n < 2 ^ 64 := fun n hn => by
    have := o.inv.add_lt hn
    omega
  cases op with
  | writeByte byte => exact hobject 1 (by decide)
  | writeStr str => exact hobject str.len hpre
  | writeNum num => exact hobject _ (length_decimal_le_max num)
  | ensureCap n => exact hwrap
  | ensureMaxCap =>
    have hzero : Op.ensureMaxCap.extra b = 0 := by rw [Op.extra, o.maxCap_eq, Nat.sub_self]
    rw [hzero]
    exact hobject 0 (Nat.zero_le _)
  | compact => exact hobject 0 (Nat.zero_le _)
  | resetIfEmpty => exact hobject 0 (Nat.zero_le _)
  | read n => exact hobject 0 (Nat.zero_le _)
  | consume needle => exact hobject 0 (Nat.zero_le _)
  | tokenNext delim preserveEnd => exact hobject 0 (Nat.zero_le _)

/-- What the capacity check lets through fits into the block. -/
theorem Overlaid.not_grows (o : Overlaid b) {n : Nat} (h : size b + n < 2 ^ 64) : ¬Grows b n := by
  rintro ⟨hlt, hle⟩
  rw [sz_eq h, o.maxCap_eq] at hle
  omega

/-- **Step lemma.** No call moves or resizes the block. -/
theorem Overlaid.step (o : Overlaid b) (r : Rep b q) {op : Op} (hpre : op.Pre b) (hwrap : op.NoWrap b) :
    ∃ ok b' q', exec env b op = .ok (ok, b') ∧ op.Spec env q ok q' ∧ Rep b' q' ∧ Overlaid b' ∧ SameStore b b' := by
  have hng := o.not_grows (o.extra_lt hpre hwrap)
  have hfits : op.Fits b := by
    cases op with
    | writeStr str => exact fun hg => absurd hg hng
    | writeNum num => exact fun hg => absurd hg hng
    | _ => trivial
  have hallowed : op.Allowed env b := ⟨hpre, fun hg => absurd hg hng⟩
  obtain ⟨ok, b', q', hexec, hspec, r', hs⟩ := exec_spec r op hallowed hfits
  have hstore := hs hng
  have hcap : b'.maxCap = b.maxCap := by
    rw [← r'.cap, ← r.cap]
    exact hspec.cap_eq
  exact ⟨ok, b', q', hexec, hspec, r', ⟨r'.inv, by rw [hcap, o.maxCap_eq, hstore.len],
    by rw [hstore.block, o.block_eq, hstore.len]⟩, hstore⟩

/-! ## Runs -/

/-- `a3_buf_init` (`buffer.c:26`) of a buffer whose data are preset -/
theorem overlaid_init {b : A3Buffer} (hp : b.data.ptr ≠ 0) (hht : b.head ≤ b.tail) (htl : b.tail ≤ b.data.len)
    (hblk : b.data.bytes.length = b.data.len) (hobj : b.data.len ≤ ptrdiffMax) (cap : Nat) :
    init env b cap b.data.len = (true, { b with maxCap := b.data.len }) ∧ Overlaid { b with maxCap := b.data.len } := by
  have hlt : b.data.len < 2 ^ 64 := by unfold ptrdiffMax at hobj; omega
  constructor
  · rw [init, if_neg hp]
    exact if_neg hp
  · exact ⟨⟨hp, hht, htl, Nat.le_refl _, hlt, Nat.le_of_eq hblk.symm, hobj⟩, rfl, hblk⟩

/-- The queue a buffer stands for. -/
theorem Inv.rep (i : Inv b) : ∃ q, Rep b q := by
  have hle : (contents b).length ≤ b.maxCap := by
    have h1 : size b ≤ b.tail := Nat.sub_le _ _
    have h2 := i.tail_le
    have h3 := i.len_le
    rw [i.length_contents]
    omega
  exact ⟨⟨b.maxCap, contents b, hle⟩, i, rfl, rfl⟩

/-- **A buffer overlaid on existing memory** (`buffer.h:41`). In every run from `a3_buf_init` in which
`a3_buf_consume` looks for something and no sum of `a3_buf_ensure_cap` wraps, the contents are a queue bounded
by `data.len`, the block stays where and as long as it is, nothing outside it is accessed and no assertion
fails; and so for a further call. -/
theorem overlaid_queue {b : A3Buffer} (hp : b.data.ptr ≠ 0) (hht : b.head ≤ b.tail) (htl : b.tail ≤ b.data.len)
    (hblk : b.data.bytes.length = b.data.len) (hobj : b.data.len ≤ ptrdiffMax) (cap : Nat) {l : List (Op × Bool)}
    {b' : A3Buffer} (hrun : Run (OverlayStep env) (init env b cap b.data.len).2 l b') :
    ∃ q0 q, q0.cap = b.data.len ∧ q0.items = contents b ∧ Run (QueueStep env) q0 l q ∧ Rep b' q ∧ SameStore b b' ∧
      ∀ op : Op, op.Pre b' → op.NoWrap b' →
        ∃ ok b'' q', exec env b' op = .ok (ok, b'') ∧ op.Spec env q ok q' ∧ Rep b'' q' ∧ SameStore b b'' := by
  obtain ⟨hinit, o⟩ : init env b cap b.data.len = _ ∧ _ := overlaid_init hp hht htl hblk hobj cap
  rw [hinit] at hrun
  obtain ⟨q0, r0⟩ := o.inv.rep
  have hsim : ∀ (b1 : A3Buffer) (q : BoundedQueue UInt8) (a : Op × Bool) (b2 : A3Buffer),
      (Overlaid b1 ∧ Rep b1 q ∧ SameStore b b1) → OverlayStep env b1 a b2 →
      ∃ q', QueueStep env q a q' ∧ (Overlaid b2 ∧ Rep b2 q' ∧ SameStore b b2) := by
    rintro b1 q a b2 ⟨o1, r1, s1⟩ ⟨hpre, hwrap, hexec⟩
    obtain ⟨ok, b3, q', hb3, hspec, r3, o3, s3⟩ := o1.step r1 hpre hwrap
    rw [hb3] at hexec
    cases hexec
    exact ⟨q', hspec, o3, r3, s1.trans s3⟩
  obtain ⟨q, hq, o', r', s'⟩ := hrun.simulate (R := fun b1 q => Overlaid b1 ∧ Rep b1 q ∧ SameStore b b1) hsim
    ⟨o, r0, rfl, rfl, rfl⟩
  refine ⟨q0, q, r0.cap, r0.items, hq, r', s', fun op hpre hwrap => ?_⟩
  obtain ⟨ok, b'', q', hexec, hspec, r'', _, s''⟩ := o'.step r' hpre hwrap
  exact ⟨ok, b'', q', hexec, hspec, r'', s'.trans s''⟩

/-- Four bytes of memory, the first of which is in the buffer. -/
def scratch : A3Buffer := ⟨⟨4096, 4, [97, 0, 0, 0]⟩, 1, 0, 0⟩

theorem overlaid_queue_4 : ∃ q0 q, q0.cap = 4 ∧ q0.items = [97] ∧
      Run (QueueStep demo) q0 [(.writeStr (onStack [98, 99, 100]), true), (.read 2, true), (.writeByte 101, true)] q ∧
      Rep ⟨⟨4096, 4, [99, 100, 101, 100]⟩, 3, 0, 4⟩ q ∧ SameStore scratch ⟨⟨4096, 4, [99, 100, 101, 100]⟩, 3, 0, 4⟩ ∧
      ∀ op : Op, op.Pre ⟨⟨4096, 4, [99, 100, 101, 100]⟩, 3, 0, 4⟩ → op.NoWrap ⟨⟨4096, 4, [99, 100, 101, 100]⟩, 3, 0, 4⟩ →
        ∃ ok b'' q', exec demo ⟨⟨4096, 4, [99, 100, 101, 100]⟩, 3, 0, 4⟩ op = .ok (ok, b'') ∧
          op.Spec demo q ok q' ∧ Rep b'' q' ∧ SameStore scratch b'' := by
  have h1 : OverlayStep demo (init demo scratch 0 4).2 (.writeStr (onStack [98, 99, 100]), true)
      ⟨⟨4096, 4, [97, 98, 99, 100]⟩, 4, 0, 4⟩ :=
    ⟨show 3 ≤ ptrdiffMax by decide, trivial, by decide +kernel⟩
  have h2 : OverlayStep demo ⟨⟨4096, 4, [97, 98, 99, 100]⟩, 4, 0, 4⟩ (.read 2, true)
      ⟨⟨4096, 4, [97, 98, 99, 100]⟩, 4, 2, 4⟩ :=
    ⟨show 2 ≤ 4 by decide, trivial, by decide +kernel⟩
  have h3 : OverlayStep demo ⟨⟨4096, 4, [97, 98, 99, 100]⟩, 4, 2, 4⟩ (.writeByte 101, true)
      ⟨⟨4096, 4, [99, 100, 101, 100]⟩, 3, 0, 4⟩ :=
    ⟨trivial, trivial, by decide +kernel⟩
  exact overlaid_queue (b := scratch) (by decide) (by decide) (by decide) (by decide) (by decide) 0
    (.cons h1 (.cons h2 (.single h3)))

/-- An empty needle runs into an assertion, and an `a3_buf_ensure_cap` whose sum wraps reallocates the memory. -/
theorem empty_needle_asserts : exec demo (init demo scratch 0 4).2 (.consume (onStack [])) = .error .assertion ∧
    ∃ b', exec demo (init demo scratch 0 4).2 (.ensureCap (2 ^ 64 - 1)) = .ok (true, b') ∧
      b'.data.ptr ≠ scratch.data.ptr := by
  refine ⟨by decide +kernel, ⟨⟨8192, 4, [97, 0, 0, 0, 0]⟩, 1, 0, 4⟩, by decide +kernel, by decide⟩

end A3Buf
