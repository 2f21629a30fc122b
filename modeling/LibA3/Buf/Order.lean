import LibA3.Buf.Growable
import LibA3.Buf.Returned

/-!
# The order of the indices

`head ≤ tail ≤ data.len`, with the assertions compiled out and any arguments that pass the ones a call makes on entry.
`a3_buf_read` compares the new `head` with `data.len`, and `a3_buf_wrote` the new `tail`, after a sum that may wrap:
neither looks at the other index.

* `indices_ordered` — the order is kept as long as these two leave it alone, and no other call disturbs it
-/

namespace A3Buf

open A3Str Fallible Trans

variable {env : Env} {b b' : A3Buffer} {n : Nat} {ok : Bool}

/-- The indices in order, within the bound. -/
structure Ordered (b : A3Buffer) : Prop where
  head_le : b.head ≤ b.tail
  tail_le : b.tail ≤ b.data.len
  len_le : b.data.len ≤ b.maxCap
  max_lt : b.maxCap < 2 ^ 64

/-! ## Calls -/

inductive Move where
  | writeByte (byte : UInt8)
  | wrote (n : Nat)
  | read (n : Nat)
  | compact
  | resetIfEmpty
  | consume (needle : A3CString)
  | tokenNext (delim : List UInt8) (preserveEnd : Bool)

def move (env : Env) (b : A3Buffer) : Move → Except Fault A3Buffer
  | .writeByte byte => (writeByte env b byte).map Prod.snd
  | .wrote n => wrote env b n
  | .read n => read env b n
  | .compact => (compact env b).map Prod.snd
  | .resetIfEmpty => (resetIfEmpty env b).map Prod.snd
  | .consume needle => (consume env b needle).map Prod.snd
  | .tokenNext delim preserveEnd => (tokenNext env b delim preserveEnd).map Prod.snd

/-- What the call asserts on entry, besides an initialised buffer. -/
def Move.Asserted (b : A3Buffer) : Move → Prop
  | .wrote n => sz (b.tail + n) ≤ b.data.len
  | .read n => sz (b.head + n) ≤ b.data.len
  | .compact => b.head ≠ 0
  | .consume needle => needle.ptr ≠ 0
  | _ => True

/-- The new index does not pass the other one. -/
def Move.InOrder (b : A3Buffer) : Move → Prop
  | .wrote n => b.head ≤ sz (b.tail + n)
  | .read n => sz (b.head + n) ≤ b.tail
  | _ => True

/-- A call that returns. -/
def MoveStep (env : Env) (b : A3Buffer) (m : Move) (b' : A3Buffer) : Prop :=
  m.Asserted b ∧ m.InOrder b ∧ move env b m = .ok b'

/-! ## One call -/

theorem Ordered.settle (o : Ordered b) : Ordered (settle b) := by
  by_cases h : b.head = b.tail
  · rw [settle_empty h]
    exact ⟨Nat.le_refl 0, Nat.zero_le _, o.len_le, o.max_lt⟩
  · rw [settle_nonempty h]
    exact o

theorem Ordered.tail_lt (o : Ordered b) : b.tail < 2 ^ 64 :=
  Nat.lt_of_le_of_lt (Nat.le_trans o.tail_le o.len_le) o.max_lt

theorem Ordered.len_lt (o : Ordered b) : b.data.len < 2 ^ 64 := Nat.lt_of_le_of_lt o.len_le o.max_lt

/-- One more byte has its place wherever `a3_buf_ensure_cap(1)` reports success. -/
theorem Ordered.ensures (o : Ordered b) (h : Ensures env b 1 ok b') :
    Ordered b' ∧ (ok = true → b'.tail + 1 ≤ b'.data.len) := by
  have hhead := o.head_le
  have htail := o.tail_le
  have hlen := o.len_le
  have hmax := o.max_lt
  have hroom : usub b.data.len b.tail = b.data.len - b.tail := usub_eq htail o.len_lt
  have hsize : usub b.tail b.head = b.tail - b.head := usub_eq hhead o.tail_lt
  have hfree : usub b.data.len (b.tail - b.head) = b.data.len - (b.tail - b.head) := usub_eq (by omega) o.len_lt
  cases h with
  | room hle => exact ⟨o, fun _ => by omega⟩
  | refused hshort hmany =>
    refine ⟨o, fun hok => ?_⟩
    cases hok
  | compacted hshort hle hcap hcompact =>
    obtain ⟨_, hh', ht', hl', hm'⟩ := compact_ok hcompact
    rw [hsize] at ht' hcap
    exact ⟨⟨by omega, by omega, by omega, by omega⟩, fun _ => by omega⟩
  | grown hle hcap hgrow =>
    obtain ⟨_, hh', ht', hm', hwrap, newCap, hloop, hl'⟩ := growTo_ok hgrow
    obtain ⟨_, hstart⟩ := growLoop_le hloop
    rw [hsize] at hle hcap
    -- the contents fill the block, so one more byte is within `max_cap`, or the sum wraps to 0
    have hone : sz (b.data.len + 1) ≤ b.maxCap := by
      rw [show b.tail - b.head + 1 = b.data.len + 1 by omega] at hle
      exact hle
    have hnew : newCap = max (max b.data.len 8) b.maxCap := hstart (by omega)
    have hgrown : b'.data.len = b.maxCap := by omega
    unfold sz at hone
    exact ⟨⟨by omega, by omega, by omega, by omega⟩, fun _ => by omega⟩

theorem Ordered.writeByte {byte : UInt8} (o : Ordered b) (h : writeByte env b byte = .ok (ok, b')) : Ordered b' := by
  obtain ⟨_, _, h⟩ := bind_ok h
  obtain ⟨⟨room, b1⟩, hb1, h⟩ := bind_ok h
  obtain ⟨o1, hroom⟩ := o.settle.ensures (ensureCap_ok hb1)
  cases room with
  | false =>
    cases h
    exact o1
  | true =>
    obtain ⟨data, hdata, h⟩ := bind_ok h
    obtain ⟨_, _, rfl⟩ := store_ok hdata
    have hfit := hroom rfl
    have hhead := o1.head_le
    cases h
    refine ⟨?_, ?_, o1.len_le, o1.max_lt⟩
    · show b1.head ≤ sz (b1.tail + 1)
      rw [sz_eq (Nat.lt_of_le_of_lt hfit o1.len_lt)]
      omega
    · show sz (b1.tail + 1) ≤ b1.data.len
      rw [sz_eq (Nat.lt_of_le_of_lt hfit o1.len_lt)]
      exact hfit

theorem Ordered.compact (o : Ordered b) (h : compact env b = .ok (ok, b')) : Ordered b' := by
  obtain ⟨_, hh, ht, hl, hmax⟩ := compact_ok h
  have htail := o.tail_le
  have hlen := o.len_le
  have hlt := o.max_lt
  rw [usub_eq o.head_le o.tail_lt] at ht
  exact ⟨by omega, by omega, by omega, by omega⟩

theorem read_ok (h : read env b n = .ok b') : b' = settle { b with head := sz (b.head + n) } := by
  obtain ⟨_, _, h⟩ := bind_ok h
  obtain ⟨_, _, h⟩ := bind_ok h
  obtain ⟨⟨_, b1⟩, hb1, h⟩ := bind_ok h
  cases h
  exact resetIfEmpty_ok hb1

theorem Ordered.read (o : Ordered b) (hle : sz (b.head + n) ≤ b.tail) (h : read env b n = .ok b') : Ordered b' := by
  rw [read_ok h]
  exact Ordered.settle ⟨hle, o.tail_le, o.len_le, o.max_lt⟩

/-- A needle that was found is not longer than the contents. -/
theorem Ordered.consume {needle : A3CString} (o : Ordered b) (h : consume env b needle = .ok (ok, b')) : Ordered b' := by
  obtain ⟨_, _, h⟩ := bind_ok h
  obtain ⟨pos, hpos, h⟩ := bind_ok h
  cases pos with
  | none =>
    cases h
    exact o
  | some pos =>
    simp only at h
    split at h
    · cases h
      exact o
    · obtain ⟨b1, hb1, h⟩ := bind_ok h
      cases h
      refine o.read ?_ hb1
      have hlen : needle.len ≤ b.tail - b.head := by
        obtain ⟨_, _, hpos⟩ := bind_ok hpos
        obtain ⟨_, _, hpos⟩ := bind_ok hpos
        obtain ⟨_, _, hpos⟩ := bind_ok hpos
        obtain ⟨⟨off, n⟩, hread, hpos⟩ := bind_ok hpos
        obtain ⟨_, _, hread⟩ := bind_ok hread
        obtain ⟨l, hl, hread⟩ := bind_ok hread
        cases hread
        obtain ⟨found, hfound, hpos⟩ := bind_ok hpos
        obtain ⟨_, _, hfound⟩ := bind_ok hfound
        obtain ⟨_, _, hfound⟩ := bind_ok hfound
        obtain ⟨_, _, hfound⟩ := bind_ok hfound
        rw [len_ok hl, usub_eq o.head_le o.tail_lt] at hfound
        split at hfound
        · cases hfound
          cases hpos
        · omega
      have hhead := o.head_le
      have htail := o.tail_lt
      rw [sz_eq (by omega)]
      omega

/-! ## The loops of `a3_buf_token_next` -/

theorem Ordered.eatDelims {delim : List UInt8} : ∀ {fuel : Nat} {b : A3Buffer}, Ordered b →
    eatDelims env delim fuel b = .ok b' → Ordered b' := by
  intro fuel
  induction fuel with
  | zero =>
    intro b _ h
    cases h
  | succ fuel ih =>
    intro b o h
    unfold A3Buf.eatDelims at h
    split at h
    · next hlt =>
      obtain ⟨c, _, h⟩ := bind_ok h
      split at h
      · obtain ⟨b1, hb1, h⟩ := bind_ok h
        have htail := o.tail_lt
        exact ih (o.read (by rw [sz_eq (by omega)]; exact hlt) hb1) h
      · cases h
        exact o
    · cases h
      exact o

theorem findDelim_ok {data : A3String} {tail end_ : Nat} {delim : List UInt8} : ∀ {fuel start : Nat}, start ≤ tail →
    findDelim data tail delim fuel start = .ok end_ → start ≤ end_ ∧ end_ ≤ tail := by
  intro fuel
  induction fuel with
  | zero =>
    intro start _ h
    cases h
  | succ fuel ih =>
    intro start hle h
    unfold findDelim at h
    split at h
    · next hlt =>
      obtain ⟨c, _, h⟩ := bind_ok h
      split at h
      · cases h
        exact ⟨Nat.le_refl _, hle⟩
      · obtain ⟨h1, h2⟩ := ih hlt h
        exact ⟨Nat.le_of_succ_le h1, h2⟩
    · cases h
      exact ⟨Nat.le_refl _, hle⟩

theorem zeroDelims_ok {tail last : Nat} {data' : A3String} {delim : List UInt8} : ∀ {fuel : Nat} {data : A3String}
    {start : Nat}, start ≤ tail → zeroDelims tail delim fuel data start = .ok (data', last) →
    last ≤ tail ∧ data'.len = data.len := by
  intro fuel
  induction fuel with
  | zero =>
    intro data start _ h
    cases h
  | succ fuel ih =>
    intro data start hle h
    unfold zeroDelims at h
    split at h
    · next hlt =>
      obtain ⟨c, _, h⟩ := bind_ok h
      split at h
      · obtain ⟨data1, hdata1, h⟩ := bind_ok h
        obtain ⟨_, _, rfl⟩ := store_ok hdata1
        obtain ⟨hlast, hlen⟩ := ih hlt h
        exact ⟨hlast, hlen⟩
      · cases h
        exact ⟨hle, rfl⟩
    · cases h
      exact ⟨hle, rfl⟩

theorem Ordered.tokenNext {delim : List UInt8} {preserveEnd : Bool} {tok : Option (Nat × Nat)} (o : Ordered b)
    (h : tokenNext env b delim preserveEnd = .ok (tok, b')) : Ordered b' := by
  obtain ⟨live, _, h⟩ := bind_ok h
  split at h
  · cases h
    exact o
  · obtain ⟨b1, hb1, h⟩ := bind_ok h
    have o1 := o.eatDelims hb1
    obtain ⟨end_, hend, h⟩ := bind_ok h
    obtain ⟨hstart, hle⟩ := findDelim_ok o1.head_le hend
    cases preserveEnd with
    | true =>
      cases h
      exact ⟨hle, o1.tail_le, o1.len_le, o1.max_lt⟩
    | false =>
      obtain ⟨⟨data, last⟩, hzero, h⟩ := bind_ok h
      obtain ⟨hlast, hlen⟩ := zeroDelims_ok hle hzero
      cases h
      exact ⟨hlast, by rw [hlen]; exact o1.tail_le, by rw [hlen]; exact o1.len_le, o1.max_lt⟩

/-! ## Runs -/

/-- **Step lemma.** -/
theorem Ordered.move (o : Ordered b) {m : Move} (ha : m.Asserted b) (hm : m.InOrder b) (h : move env b m = .ok b') :
    Ordered b' := by
  cases m with
  | writeByte byte =>
    obtain ⟨⟨ok, b1⟩, hb1, rfl⟩ := map_ok h
    exact o.writeByte hb1
  | wrote n =>
    have hwrote := wrote_ok (show wrote env b n = .ok b' from h)
    rw [hwrote]
    exact ⟨hm, ha, o.len_le, o.max_lt⟩
  | read n => exact o.read hm h
  | compact =>
    obtain ⟨⟨ok, b1⟩, hb1, rfl⟩ := map_ok h
    exact o.compact hb1
  | resetIfEmpty =>
    obtain ⟨⟨ok, b1⟩, hb1, rfl⟩ := map_ok h
    rw [resetIfEmpty_ok hb1]
    exact o.settle
  | consume needle =>
    obtain ⟨⟨ok, b1⟩, hb1, rfl⟩ := map_ok h
    exact o.consume hb1
  | tokenNext delim preserveEnd =>
    obtain ⟨⟨tok, b1⟩, hb1, rfl⟩ := map_ok h
    exact o.tokenNext hb1

/-- A call that passes the other index leaves the indices out of order. -/
theorem not_ordered_of_passed {m : Move} (hm : ¬m.InOrder b) (h : move env b m = .ok b') : b'.tail < b'.head := by
  cases m with
  | wrote n =>
    have hwrote := wrote_ok (show wrote env b n = .ok b' from h)
    rw [hwrote]
    exact Nat.lt_of_not_le hm
  | read n =>
    have hpassed : b.tail < sz (b.head + n) := Nat.lt_of_not_le hm
    rw [read_ok h, settle_nonempty (Nat.ne_of_gt hpassed)]
    exact hpassed
  | writeByte byte => exact absurd trivial hm
  | compact => exact absurd trivial hm
  | resetIfEmpty => exact absurd trivial hm
  | consume needle => exact absurd trivial hm
  | tokenNext delim preserveEnd => exact absurd trivial hm

/-- With assertions compiled out, the lengths are the differences of indices in order. -/
theorem Ordered.lengths (o : Ordered b) (hoff : env.asserts = false) :
    len env b = .ok (b.tail - b.head) ∧ cap env b = .ok (b.data.len - (b.tail - b.head)) := by
  have hhead := o.head_le
  have htail := o.tail_le
  have hcheck : ∀ c, check env c = .ok () := fun c => by
    rw [check, hoff]
    rfl
  have hlive : live env b = .ok () := by
    rw [live, initialized, hcheck, ok_bind, pure_ok, ok_bind, hcheck]
  have hlen : len env b = .ok (b.tail - b.head) := by
    rw [len, hlive, ok_bind, pure_ok, usub_eq hhead o.tail_lt]
  refine ⟨hlen, ?_⟩
  rw [cap, hlive, ok_bind, hlen, ok_bind, pure_ok, usub_eq (by omega) o.len_lt]

/-- `a3_buf_init` (`buffer.c:26`), allocating or on data that are within the bound. -/
theorem init_ordered {b0 : A3Buffer} {cap maxCap : Nat} (hle : cap ≤ maxCap) (hmax : maxCap < 2 ^ 64) (hhead : b0.head = 0)
    (htail : b0.tail = 0) (hdata : b0.data.ptr ≠ 0 → b0.data.len ≤ maxCap) (h : init env b0 cap maxCap = (true, b)) :
    Ordered b := by
  obtain ⟨data, hblock⟩ : ∃ data, data = if b0.data.ptr = 0 then stringAlloc env cap else b0.data := ⟨_, rfl⟩
  have hlen : data.len ≤ maxCap := by
    rw [hblock]
    split
    · exact hle
    · next hp => exact hdata hp
  rw [init, ← hblock] at h
  by_cases hp : data.ptr = 0
  · rw [if_pos hp] at h
    cases h
  · rw [if_neg hp] at h
    cases h
    exact ⟨by rw [hhead, htail], by rw [htail]; exact Nat.zero_le _, hlen, hmax⟩

/-- **The indices stay in order** (`buffer.h:100-156`, `buffer.h:214`, `buffer.c:54`, `buffer.c:116-176`) in every run, with
assertions compiled out, in which no `a3_buf_read` takes `head` past `tail` and no `a3_buf_wrote` `tail` behind `head`;
and a further call keeps them in order if and only if it is none of these. -/
theorem indices_ordered (hoff : env.asserts = false) {b0 b1 : A3Buffer} {cap maxCap : Nat} (hle : cap ≤ maxCap)
    (hmax : maxCap < 2 ^ 64) (hhead : b0.head = 0) (htail : b0.tail = 0)
    (hdata : b0.data.ptr ≠ 0 → b0.data.len ≤ maxCap) (hinit : init env b0 cap maxCap = (true, b1)) {l : List Move}
    (hrun : Run (MoveStep env) b1 l b) :
    (b.head ≤ b.tail ∧ b.tail ≤ b.data.len) ∧ len env b = .ok (b.tail - b.head) ∧
      A3Buf.cap env b = .ok (b.data.len - (b.tail - b.head)) ∧
      ∀ (m : Move) (b' : A3Buffer), m.Asserted b → move env b m = .ok b' →
        ((b'.head ≤ b'.tail ∧ b'.tail ≤ b'.data.len) ↔ m.InOrder b) := by
  have hstep : ∀ (b : A3Buffer) (m : Move) (b' : A3Buffer), Ordered b → MoveStep env b m b' → Ordered b' :=
    fun _ _ _ o h => o.move h.1 h.2.1 h.2.2
  have o : Ordered b := hrun.invariant hstep (init_ordered hle hmax hhead htail hdata hinit)
  obtain ⟨hlen, hcap⟩ := o.lengths hoff
  refine ⟨⟨o.head_le, o.tail_le⟩, hlen, hcap, fun m b' ha h => ⟨fun hb' => ?_, fun hm => ?_⟩⟩
  · by_contra hno
    exact absurd hb'.1 (Nat.not_le.2 (not_ordered_of_passed hno h))
  · have o' := o.move ha hm h
    exact ⟨o'.head_le, o'.tail_le⟩

/-! ## A read past the end -/

/-- The library without its assertions. -/
def release : Env := ⟨false, fun _ => 4096, fun _ => 8192, fun _ => 0, true⟩

theorem one_byte_run : Run (MoveStep release) (init release zeroed 4 8).2 [.writeByte 97]
    ⟨⟨4096, 4, [97, 0, 0, 0, 0]⟩, 1, 0, 8⟩ :=
  .single ⟨trivial, trivial, by decide +kernel⟩

theorem indices_ordered_one : (0 ≤ 1 ∧ 1 ≤ 4) ∧
    len release ⟨⟨4096, 4, [97, 0, 0, 0, 0]⟩, 1, 0, 8⟩ = .ok 1 ∧
    cap release ⟨⟨4096, 4, [97, 0, 0, 0, 0]⟩, 1, 0, 8⟩ = .ok 3 ∧
    ∀ (m : Move) (b' : A3Buffer), m.Asserted ⟨⟨4096, 4, [97, 0, 0, 0, 0]⟩, 1, 0, 8⟩ →
      move release ⟨⟨4096, 4, [97, 0, 0, 0, 0]⟩, 1, 0, 8⟩ m = .ok b' →
        ((b'.head ≤ b'.tail ∧ b'.tail ≤ b'.data.len) ↔ m.InOrder ⟨⟨4096, 4, [97, 0, 0, 0, 0]⟩, 1, 0, 8⟩) :=
  have hinit : init release zeroed 4 8 = (true, (init release zeroed 4 8).2) := rfl
  indices_ordered rfl (by decide) (by decide) rfl rfl (fun h => absurd rfl h) hinit one_byte_run

/-- One byte is in the buffer, and two are read: the assertion holds, and the length wraps around. -/
theorem two_of_one_read : Run (MoveStep release) (init release zeroed 4 8).2 [.writeByte 97]
      ⟨⟨4096, 4, [97, 0, 0, 0, 0]⟩, 1, 0, 8⟩ ∧
    (Move.read 2).Asserted ⟨⟨4096, 4, [97, 0, 0, 0, 0]⟩, 1, 0, 8⟩ ∧
    move release ⟨⟨4096, 4, [97, 0, 0, 0, 0]⟩, 1, 0, 8⟩ (.read 2) = .ok ⟨⟨4096, 4, [97, 0, 0, 0, 0]⟩, 1, 2, 8⟩ ∧
    len release ⟨⟨4096, 4, [97, 0, 0, 0, 0]⟩, 1, 2, 8⟩ = .ok (2 ^ 64 - 1) :=
  ⟨one_byte_run, show 2 ≤ 4 by decide, by decide +kernel, by decide +kernel⟩

end A3Buf
