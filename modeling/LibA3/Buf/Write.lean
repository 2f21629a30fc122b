import LibA3.Buf.Spec
import LibA3.Str.Numeral

/-!
# Writing

`a3_buf_write_str`, `a3_buf_write_num` and `a3_buf_write_byte` do what `BoundedQueue.write` does, if the bytes
fit behind `tail` where the block has to be enlarged (`Fits`); one byte always does. If they do not fit, the
assertion of `a3_buf_wrote` fails (`writeStr_past`, `writeStr_overrun`).
-/

namespace A3Buf

open A3Str Fallible Mem

variable {env : Env} {b b' : A3Buffer} {q : BoundedQueue UInt8} {n : Nat} {bytes : List UInt8}

/-- The contents of the buffer are the queue. -/
structure Rep (b : A3Buffer) (q : BoundedQueue UInt8) : Prop where
  inv : Inv b
  cap : q.cap = b.maxCap
  items : q.items = contents b

theorem Rep.length_items (r : Rep b q) : q.items.length = size b := by
  rw [r.items, r.inv.length_contents]

/-- A function that changes neither the contents nor `max_cap`. -/
theorem Rep.of_eq (r : Rep b q) (i : Inv b') (hc : contents b' = contents b) (hm : b'.maxCap = b.maxCap) : Rep b' q :=
  ⟨i, r.cap.trans hm.symm, r.items.trans hc.symm⟩

/-! ## Appending at `tail` -/

/-- Two objects together are shorter than the address space. -/
theorem Inv.add_lt (i : Inv b) (h : n ≤ ptrdiffMax) : b.data.len + n < 2 ^ 64 := by
  have := i.object
  unfold ptrdiffMax at *
  omega

theorem Sound.withBytes (so : Sound b) (h : bytes.length = b.data.bytes.length) :
    Sound { b with data := { b.data with bytes := bytes } } :=
  ⟨so.ptr, so.head_le, so.tail_le, so.max_lt, by simp only; rw [h]; exact so.block, so.object⟩

/-- `bytes` stored behind `tail`, and `tail` moved on. -/
def appended (b : A3Buffer) (bytes : List UInt8) : A3Buffer :=
  { b with data := { b.data with bytes := splice b.data.bytes b.tail bytes }, tail := b.tail + bytes.length }

theorem Sound.appended (so : Sound b) (h : b.tail + bytes.length ≤ b.data.len) :
    Sound (appended b bytes) ∧ contents (appended b bytes) = contents b ++ bytes ∧ SameStore b (appended b bytes) := by
  have hfit : b.tail + bytes.length ≤ b.data.bytes.length := Nat.le_trans h so.block
  have hlen := length_splice hfit
  refine ⟨⟨so.ptr, Nat.le_trans so.head_le (Nat.le_add_right _ _), h, so.max_lt, ?_, so.object⟩, ?_, rfl, rfl, hlen⟩
  · rw [A3Buf.appended]
    simp only
    rw [hlen]
    exact so.block
  · exact window_splice_end so.head_le (Nat.le_trans so.tail_le so.block)

/-- Where `a3_buf_ensure_cap` has made room, appending is a write to the queue. -/
theorem Rep.write (r : Rep b q) (he : Ensured b bytes.length true b') (hroom : b'.tail + bytes.length ≤ b'.data.len) :
    (q.write bytes).1 = true ∧ Rep (appended b' bytes) (q.write bytes).2 ∧ SameStore b' (appended b' bytes) := by
  obtain ⟨hsound, hcont, hstore⟩ := he.inv.sound.appended hroom
  have hinv := he.inv.of_store hsound hstore rfl
  have hsize := r.inv.sound.size_eq he.inv.sound he.contents_eq
  have hfits : q.items.length + bytes.length ≤ q.cap := by
    have h1 : size b' ≤ b'.tail := Nat.sub_le _ _
    have h2 := he.inv.len_le
    rw [r.length_items, r.cap, ← he.maxCap_eq]
    omega
  obtain ⟨hok, hcap, hitems⟩ := BoundedQueue.write_fits hfits
  refine ⟨hok, ⟨hinv, ?_, ?_⟩, hstore⟩
  · rw [hcap, r.cap, ← he.maxCap_eq]
    rfl
  · rw [hitems, hcont, he.contents_eq, r.items]

/-- Where `a3_buf_ensure_cap` succeeds, there is room, unless the block was enlarged and is still too short. -/
theorem Answered.room {ok : Bool} (ha : Answered b n ok b') (hok : ok = true) (hfits : Fits b n) :
    b'.tail + n ≤ b'.data.len := by
  rcases ha.outcome with ⟨_, _, hroom⟩ | ⟨hno, _⟩ | ⟨_, hg, hlen, htail⟩
  · exact hroom
  · rw [hok] at hno
    cases hno
  · rw [hlen, htail]
    exact hfits hg

theorem Ensured.sameStore {ok : Bool} (he : Ensured b n ok b') (hg : ¬Grows b n) : SameStore b b' := by
  rcases he.outcome with ⟨_, hs, _⟩ | ⟨_, hs, _⟩ | ⟨_, h, _⟩
  · exact hs
  · exact hs
  · exact absurd h hg

/-! ## `a3_buf_write_byte` -/

/-- One byte more than the block holds is one more than `tail`. -/
theorem fits_one (i : Inv b) (hgrow : Grows b 1 → CanGrow env b) : Fits b 1 := by
  intro hg
  have hmax := (hgrow hg).1
  obtain ⟨hlt, hle⟩ := hg
  have hht := i.head_le
  have htl := i.tail_le
  have hlm := i.len_le
  have htail := settle_tail_le b
  unfold size at hlt hle
  unfold ptrdiffMax at hmax
  rw [sz_eq (by omega)] at hle
  omega

theorem writeByte_appends (so : Sound b) (byte : UInt8) (hb' : ensureCap env b 1 = .ok (true, b')) (so' : Sound b')
    (hroom : b'.tail + 1 ≤ b'.data.len) : writeByte env b byte = .ok (true, appended b' [byte]) := by
  have hfit : b'.tail + [byte].length ≤ b'.data.bytes.length := Nat.le_trans hroom so'.block
  rw [writeByte, live_eq so, ok_bind, hb', ok_bind]
  simp only [Bool.not_true, Bool.false_eq_true, if_false]
  rw [A3String.store_eq so'.ptr hfit, ok_bind, pure_ok, sz_eq (Nat.lt_of_le_of_lt hroom so'.len_lt)]
  rfl

/-- **`a3_buf_write_byte` (`buffer.c:54`)** -/
theorem writeByte_spec (r : Rep b q) (byte : UInt8) (hgrow : Grows b 1 → CanGrow env b) :
    ∃ b', writeByte env b byte = .ok ((q.write [byte]).1, b') ∧ Rep b' (q.write [byte]).2 ∧
      (¬Grows b 1 → SameStore b b') := by
  obtain ⟨ok, b', hb', he⟩ := ensureCap_spec r.inv hgrow
  cases ok with
  | false =>
    have hfull : q.cap < q.items.length + [byte].length := by
      have hmany := he.answered.refused
      have : sz (size b + 1) ≤ size b + 1 := Nat.mod_le _ _
      rw [r.cap, r.length_items, List.length_singleton]
      omega
    rw [BoundedQueue.write_full hfull, writeByte, live_eq r.inv.sound, ok_bind, hb', ok_bind]
    exact ⟨b', rfl, r.of_eq he.inv he.contents_eq he.maxCap_eq, he.sameStore⟩
  | true =>
    have hroom := he.answered.room rfl (fits_one r.inv hgrow)
    obtain ⟨hok, hrep, hstore⟩ : _ ∧ Rep (appended b' [byte]) _ ∧ _ := r.write he hroom
    refine ⟨appended b' [byte], ?_, hrep, fun hg => (he.sameStore hg).trans hstore⟩
    rw [hok]
    exact writeByte_appends r.inv.sound byte hb' he.inv.sound hroom

/-! ## `a3_buf_write_str` -/

theorem writePtr_settle (so : Sound b) :
    writePtr env b = .ok (((settle b).tail, b.data.len - (settle b).tail), settle b) := by
  obtain ⟨r, hr⟩ : ∃ r, resetIfEmpty env b = .ok (r, settle b) := resetIfEmpty_eq so
  rw [writePtr, hr, ok_bind]
  simp only
  rw [space_eq so.settle, ok_bind, settle_settle, settle_data]
  rfl

theorem writePtr_eq (so : Sound b) (hs : settle b = b) : writePtr env b = .ok ((b.tail, b.data.len - b.tail), b) := by
  rw [writePtr_settle so, hs]

theorem wrote_eq (so : Sound b) (h : b.tail + n ≤ b.data.len) : wrote env b n = .ok { b with tail := b.tail + n } := by
  have hlt : b.tail + n < 2 ^ 64 := Nat.lt_of_le_of_lt h so.len_lt
  rw [wrote, live_eq so, ok_bind, sz_eq hlt, check_true (decide_eq_true h), ok_bind, pure_ok]

theorem wrote_ok (h : wrote env b n = .ok b') : b' = { b with tail := sz (b.tail + n) } := by
  obtain ⟨_, _, h⟩ := bind_ok h
  obtain ⟨_, _, h⟩ := bind_ok h
  cases h
  rfl

theorem writeStr_appends (so : Sound b) (str : A3CString) (hle : sz (str.len + size b) ≤ b.maxCap)
    (hb' : ensureCap env b str.len = .ok (true, b')) (so' : Sound b') (hs' : settle b' = b')
    (hroom : b'.tail + str.len ≤ b'.data.len) : writeStr env b str = .ok (true, appended b' str.bytes) := by
  have hcopy : stringCopy b'.data b'.tail (b'.data.len - b'.tail) str = _ :=
    stringCopy_eq so'.ptr (by omega) (Nat.le_trans hroom so'.block)
  have hbytes := so'.withBytes (length_splice (Nat.le_trans hroom so'.block))
  rw [writeStr, live_eq so, ok_bind, len_eq so, ok_bind, if_neg (Nat.not_lt.2 hle), hb', ok_bind]
  simp only [Bool.not_true, Bool.false_eq_true, if_false]
  rw [writePtr_eq so' hs', ok_bind]
  simp only
  rw [hcopy, ok_bind, wrote_eq hbytes hroom, ok_bind]
  rfl

/-- **`a3_buf_write_str` (`buffer.h:222`)** -/
theorem writeStr_spec (r : Rep b q) (str : A3CString) (hobj : str.len ≤ ptrdiffMax)
    (hgrow : Grows b str.len → CanGrow env b) (hfits : Fits b str.len) :
    ∃ b', writeStr env b str = .ok ((q.write str.bytes).1, b') ∧ Rep b' (q.write str.bytes).2 ∧
      (¬Grows b str.len → SameStore b b') := by
  have hmem := r.inv.add_lt hobj
  have hsize : size b ≤ b.data.len := Nat.le_trans (Nat.sub_le _ _) r.inv.tail_le
  have hsum : sz (str.len + size b) = str.len + size b := sz_eq (by omega)
  by_cases hmany : b.maxCap < str.len + size b
  · have hfull : q.cap < q.items.length + str.bytes.length := by
      rw [r.cap, r.length_items, Nat.add_comm]; exact hmany
    rw [BoundedQueue.write_full hfull, writeStr, live_eq r.inv.sound, ok_bind, len_eq r.inv.sound, ok_bind, hsum,
      if_pos hmany]
    exact ⟨b, rfl, r, fun _ => SameStore.refl b⟩
  · obtain ⟨ok, b', hb', he⟩ := ensureCap_spec r.inv hgrow
    cases ok with
    | false =>
      -- it has been checked that the bytes are not too many
      have hrefused := he.answered.refused
      rw [sz_eq (by omega)] at hrefused
      omega
    | true =>
      have hroom := he.answered.room rfl hfits
      obtain ⟨hok, hrep, hstore⟩ : _ ∧ Rep (appended b' str.bytes) _ ∧ _ := r.write he hroom
      refine ⟨appended b' str.bytes, ?_, hrep, fun hg => (he.sameStore hg).trans hstore⟩
      rw [hok]
      exact writeStr_appends r.inv.sound str (by rw [hsum]; omega) hb' he.inv.sound he.settled hroom

/-- Enlarged and still too short: with assertions compiled out, `tail` leaves the block. -/
theorem writeStr_past (i : Inv b) (str : A3CString) (hobj : str.len ≤ ptrdiffMax)
    (hgrow : Grows b str.len → CanGrow env b) (hfits : ¬Fits b str.len) {ok : Bool}
    (h : writeStr env b str = .ok (ok, b')) : b'.data.len = b.maxCap ∧ b.maxCap < b'.tail ∧ b'.tail < 2 ^ 64 := by
  have hmem := i.add_lt hobj
  unfold Fits at hfits
  rw [Classical.not_imp] at hfits
  obtain ⟨hg, hover⟩ := hfits
  obtain ⟨ok1, b1, hb1, he⟩ := ensureCap_spec i hgrow
  have hsum : sz (str.len + size b) ≤ b.maxCap := by rw [Nat.add_comm]; exact hg.2
  have hgrown : ok1 = true ∧ b1.data.len = b.maxCap ∧ b1.tail = (settle b).tail := by
    have hsize1 := i.sound.size_eq he.inv.sound he.contents_eq
    rcases he.outcome with ⟨_, hs, hroom⟩ | ⟨_, _, hmany⟩ | ⟨hok, _, hlen, htail⟩
    · have h1 : size b1 ≤ b1.tail := Nat.sub_le _ _
      have h2 := hs.len
      have h3 := hg.1
      omega
    · exact absurd hg.2 (Nat.not_le.2 hmany)
    · exact ⟨hok, hlen, htail⟩
  obtain ⟨rfl, hlen, htail⟩ := hgrown
  rw [writeStr, live_eq i.sound, ok_bind, len_eq i.sound, ok_bind, if_neg (Nat.not_lt.2 hsum), hb1, ok_bind] at h
  simp only [Bool.not_true, Bool.false_eq_true, if_false] at h
  rw [writePtr_eq he.inv.sound he.settled, ok_bind] at h
  simp only at h
  obtain ⟨data, hdata, h⟩ := bind_ok h
  obtain ⟨b2, hb2, h⟩ := bind_ok h
  have hlt : b1.tail + str.len < 2 ^ 64 := by
    have := settle_tail_le b; have := i.tail_le; omega
  have hwrote := wrote_ok hb2
  cases h
  rw [hwrote]
  simp only
  rw [sz_eq hlt]
  exact ⟨(stringCopy_len hdata).trans hlen, by omega, hlt⟩

theorem writeStr_overrun (i : Inv b) (str : A3CString) (hobj : str.len ≤ ptrdiffMax)
    (hgrow : Grows b str.len → CanGrow env b) (hfits : ¬Fits b str.len) {ok : Bool}
    (h : writeStr env b str = .ok (ok, b')) : ¬Inv b' := by
  obtain ⟨hlen, htail, _⟩ := writeStr_past i str hobj hgrow hfits h
  intro i'
  have := i'.tail_le
  omega

/-! ## `a3_buf_write_num` -/

/-- **`a3_buf_write_num` (`buffer.c:109`)** is a write of the decimal numeral: the scratch buffer holds it. -/
theorem writeNum_eq (num : UInt64) : writeNum env b num = writeStr env b (onStack (decimal num.toNat)) := by
  have hlen := length_decimal_uint64 num
  have hitoa : itoaInto ⟨1, 20, List.replicate 20 0⟩ num.toNat = _ :=
    itoaInto_eq Nat.one_ne_zero (by rw [List.length_replicate]) hlen
  have hload : (A3String.mk 1 (decimal num.toNat).length
      (decimal num.toNat ++ (List.replicate 20 0).drop (decimal num.toNat).length)).load 0 (decimal num.toNat).length =
      .ok (decimal num.toNat) := by
    rw [A3String.load_eq Nat.one_ne_zero (by simp only; rw [List.length_append]; omega)]
    simp only
    rw [Nat.zero_add, window_append (Nat.le_refl _), window_zero, List.take_length]
  rw [writeNum, hitoa, ok_bind, hload, ok_bind]

/-- **`a3_string_itoa_into` writes the decimal numeral of every number that fits**, and the 20 bytes that
`a3_buf_write_num` has for it fit every number of 64 bits. -/
theorem itoa_numeral {dst : A3String} {v : Nat} (hp : dst.ptr ≠ 0) (hblk : dst.len ≤ dst.bytes.length)
    (hroom : Nat.log 10 v + 1 ≤ dst.len) :
    (∃ r, itoaInto dst v = .ok r ∧ r.ptr = dst.ptr ∧ r.len = Nat.log 10 v + 1 ∧ Canonical (r.bytes.take r.len) v ∧
      r.bytes.length = dst.bytes.length ∧ r.bytes.drop r.len = dst.bytes.drop r.len) ∧
    ∀ (env : Env) (b : A3Buffer) (num : UInt64), ∃ text, Canonical text num.toNat ∧ text.length ≤ 20 ∧
      writeNum env b num = writeStr env b (onStack text) :=
  ⟨itoaInto_canonical hp hblk hroom, fun _ _ num =>
    ⟨decimal num.toNat, canonical_decimal _, length_decimal_uint64 num, writeNum_eq num⟩⟩

/-- 255 in three bytes of four -/
theorem itoa_numeral_255 :
    (∃ r, itoaInto ⟨4096, 3, [0, 0, 0, 120]⟩ 255 = .ok r ∧ r.ptr = 4096 ∧ r.len = Nat.log 10 255 + 1 ∧
      Canonical (r.bytes.take r.len) 255 ∧ r.bytes.length = 4 ∧ r.bytes.drop r.len = [0, 0, 0, 120].drop r.len) ∧
    ∀ (env : Env) (b : A3Buffer) (num : UInt64), ∃ text, Canonical text num.toNat ∧ text.length ≤ 20 ∧
      writeNum env b num = writeStr env b (onStack text) :=
  itoa_numeral (by decide) (by decide) (by decide)

end A3Buf
