import LibA3.Buf.Basic
import LibA3.Queue.Bounded
import LibA3.Str.Itoa

/-!
# What each function of the buffer does

`Sound` is `head ≤ tail ≤ data.len` of an initialised buffer with its block; under it no assertion of the small functions
fails and no difference wraps. `Inv` adds `data.len ≤ max_cap`, and `Rep b q` that the contents of `b` are the bounded
queue `q`.

`a3_buf_ensure_cap` has four ways out, which `Answered` lists: there is room behind `tail`; the bytes are too
many; there is room after moving the contents to the front; the block is enlarged, always to `max_cap`, and
the contents stay where they are. After the last, the room behind `tail` is what `max_cap` leaves, which may
be less than was asked for (`Fits`).
-/

namespace A3Buf

open A3Str Fallible Mem

variable {env : Env} {b b' : A3Buffer} {n : Nat}

/-! ## Well-formed buffers -/

structure Inv (b : A3Buffer) : Prop where
  ptr : b.data.ptr ≠ 0
  head_le : b.head ≤ b.tail
  tail_le : b.tail ≤ b.data.len
  len_le : b.data.len ≤ b.maxCap
  max_lt : b.maxCap < 2 ^ 64
  block : b.data.len ≤ b.data.bytes.length
  object : b.data.len ≤ ptrdiffMax

/-- An initialised buffer whose indices are in order. -/
structure Sound (b : A3Buffer) : Prop where
  ptr : b.data.ptr ≠ 0
  head_le : b.head ≤ b.tail
  tail_le : b.tail ≤ b.data.len
  max_lt : b.maxCap < 2 ^ 64
  block : b.data.len ≤ b.data.bytes.length
  object : b.data.len ≤ ptrdiffMax

theorem Inv.sound (i : Inv b) : Sound b := ⟨i.ptr, i.head_le, i.tail_le, i.max_lt, i.block, i.object⟩

theorem Sound.inv (so : Sound b) (h : b.data.len ≤ b.maxCap) : Inv b :=
  ⟨so.ptr, so.head_le, so.tail_le, h, so.max_lt, so.block, so.object⟩

theorem Sound.len_lt (so : Sound b) : b.data.len < 2 ^ 64 := by
  have := so.object
  unfold ptrdiffMax at this
  omega

theorem Sound.tail_lt (so : Sound b) : b.tail < 2 ^ 64 := Nat.lt_of_le_of_lt so.tail_le so.len_lt

/-- The number of bytes in the buffer. -/
def size (b : A3Buffer) : Nat := b.tail - b.head

/-- The buffer as `a3_buf_reset_if_empty` leaves it. -/
def settle (b : A3Buffer) : A3Buffer := if b.head = b.tail then { b with head := 0, tail := 0 } else b

/-- The two buffers use the same block. -/
structure SameStore (b b' : A3Buffer) : Prop where
  ptr : b'.data.ptr = b.data.ptr
  len : b'.data.len = b.data.len
  block : b'.data.bytes.length = b.data.bytes.length

theorem SameStore.refl (b : A3Buffer) : SameStore b b := ⟨rfl, rfl, rfl⟩

theorem SameStore.of_data (h : b'.data = b.data) : SameStore b b' := ⟨by rw [h], by rw [h], by rw [h]⟩

theorem SameStore.trans {c : A3Buffer} (h : SameStore b b') (h' : SameStore b' c) : SameStore b c :=
  ⟨h'.ptr.trans h.ptr, h'.len.trans h.len, h'.block.trans h.block⟩

/-- A buffer in the same block, with the same bound. -/
theorem Inv.of_store (i : Inv b) (so : Sound b') (hs : SameStore b b') (hm : b'.maxCap = b.maxCap) : Inv b' :=
  so.inv (by rw [hs.len, hm]; exact i.len_le)

theorem Sound.length_contents (so : Sound b) : (contents b).length = size b :=
  length_window (Nat.le_trans so.tail_le so.block)

theorem Inv.length_contents (i : Inv b) : (contents b).length = size b := i.sound.length_contents

theorem Sound.size_eq (so : Sound b) (so' : Sound b') (h : contents b' = contents b) : size b' = size b := by
  rw [← so'.length_contents, h, so.length_contents]

theorem Sound.size_le (so : Sound b) : size b ≤ b.data.len := Nat.le_trans (Nat.sub_le _ _) so.tail_le

theorem settle_empty (h : b.head = b.tail) : settle b = { b with head := 0, tail := 0 } := if_pos h

theorem settle_nonempty (h : b.head ≠ b.tail) : settle b = b := if_neg h

theorem settle_iff : settle b = b ↔ (b.head = b.tail → b.tail = 0) := by
  constructor
  · intro h heq
    rw [settle_empty heq] at h
    exact (congrArg A3Buffer.tail h).symm
  · intro h
    by_cases heq : b.head = b.tail
    · have ht := h heq
      have hh := heq.trans ht
      cases b
      simp only at ht hh
      subst ht hh
      exact settle_empty rfl
    · exact settle_nonempty heq

@[simp] theorem settle_settle (b : A3Buffer) : settle (settle b) = settle b := by
  by_cases h : b.head = b.tail
  · rw [settle_empty h, settle_empty rfl]
  · rw [settle_nonempty h, settle_nonempty h]

@[simp] theorem size_settle (b : A3Buffer) : size (settle b) = size b := by
  by_cases h : b.head = b.tail
  · rw [settle_empty h, size, size, h, Nat.sub_self, Nat.sub_self]
  · rw [settle_nonempty h]

theorem settle_tail_le (b : A3Buffer) : (settle b).tail ≤ b.tail := by
  by_cases h : b.head = b.tail
  · rw [settle_empty h]; exact Nat.zero_le _
  · rw [settle_nonempty h]

@[simp] theorem settle_data (b : A3Buffer) : (settle b).data = b.data := by
  by_cases h : b.head = b.tail
  · rw [settle_empty h]
  · rw [settle_nonempty h]

@[simp] theorem settle_maxCap (b : A3Buffer) : (settle b).maxCap = b.maxCap := by
  by_cases h : b.head = b.tail
  · rw [settle_empty h]
  · rw [settle_nonempty h]

@[simp] theorem contents_settle (b : A3Buffer) : contents (settle b) = contents b := by
  by_cases h : b.head = b.tail
  · rw [settle_empty h, contents, contents, h, window_self, window_self]
  · rw [settle_nonempty h]

theorem Sound.settle (so : Sound b) : Sound (settle b) := by
  by_cases h : b.head = b.tail
  · rw [settle_empty h]
    exact ⟨so.ptr, Nat.le_refl 0, Nat.zero_le _, so.max_lt, so.block, so.object⟩
  · rw [settle_nonempty h]
    exact so

theorem Inv.settle (i : Inv b) : Inv (settle b) := by
  refine i.sound.settle.inv ?_
  rw [settle_data, settle_maxCap]
  exact i.len_le

theorem SameStore.settle (b : A3Buffer) : SameStore b (settle b) := SameStore.of_data (settle_data b)

/-! ## The small functions -/

theorem initialized_eq (so : Sound b) : initialized env b = .ok true := by
  rw [initialized, check_true (decide_eq_true so.head_le), ok_bind, pure_ok, decide_eq_true so.ptr]

theorem live_eq (so : Sound b) : live env b = .ok () := by
  rw [live, initialized_eq so, ok_bind, check_true rfl]

theorem resetIfEmpty_eq (so : Sound b) : ∃ r, resetIfEmpty env b = .ok (r, settle b) := by
  rw [resetIfEmpty, live_eq so, ok_bind]
  by_cases h : b.head = b.tail
  · refine ⟨true, ?_⟩
    rw [if_neg (not_not.2 h), reset, live_eq so, settle_empty h]
    rfl
  · refine ⟨false, ?_⟩
    rw [if_pos h, settle_nonempty h]
    rfl

theorem len_eq (so : Sound b) : len env b = .ok (size b) := by
  rw [len, live_eq so, ok_bind, pure_ok, usub_eq so.head_le so.tail_lt, size]

theorem cap_eq (so : Sound b) : cap env b = .ok (b.data.len - size b) := by
  rw [cap, live_eq so, ok_bind, len_eq so, ok_bind, pure_ok, usub_eq so.size_le so.len_lt]

theorem space_eq (so : Sound b) : space env b = .ok (b.data.len - (settle b).tail, settle b) := by
  obtain ⟨r, hr⟩ : ∃ r, resetIfEmpty env b = .ok (r, settle b) := resetIfEmpty_eq so
  have htail : (settle b).tail ≤ b.data.len := Nat.le_trans (settle_tail_le b) so.tail_le
  rw [space, live_eq so, ok_bind, hr, ok_bind]
  simp only
  rw [pure_ok, settle_data, usub_eq htail so.len_lt]

/-- `a3_buf_compact` (`buffer.h:148`): the contents at the front of the same block. -/
theorem compact_spec (so : Sound b) (h : b.head ≠ 0) : ∃ b', compact env b = .ok (true, b') ∧ Sound b' ∧
    contents b' = contents b ∧ b'.maxCap = b.maxCap ∧ SameStore b b' ∧ b'.head = 0 ∧ b'.tail = size b := by
  have hht := so.head_le
  have htl := so.tail_le
  have hblk := so.block
  have hsize := so.size_le
  have hsum : b.head + size b = b.tail := Nat.add_sub_cancel' hht
  have hload : b.data.load b.head (size b) = .ok (contents b) := by
    rw [A3String.load_eq so.ptr (by omega), hsum, contents]
  have hfit : 0 + (contents b).length ≤ b.data.bytes.length := by rw [so.length_contents]; omega
  have hlen := length_splice hfit
  refine ⟨⟨{ b.data with bytes := splice b.data.bytes 0 (contents b) }, size b, 0, b.maxCap⟩, ?_, ?_, ?_, rfl, ?_,
    rfl, rfl⟩
  · rw [compact, live_eq so, ok_bind, check_true (decide_eq_true h), ok_bind, len_eq so, ok_bind, hload, ok_bind,
      A3String.store_eq so.ptr hfit, ok_bind, if_neg so.ptr, pure_ok, usub_eq hht so.tail_lt]
    rfl
  · exact ⟨so.ptr, Nat.zero_le _, hsize, so.max_lt, by simp only; rw [hlen]; exact hblk, so.object⟩
  · have hw : window (splice b.data.bytes 0 (contents b)) 0 (0 + (contents b).length) = contents b :=
      window_splice (Nat.zero_le _)
    rw [Nat.zero_add, so.length_contents] at hw
    exact hw
  · exact ⟨rfl, rfl, hlen⟩

/-! ## `a3_buf_ensure_cap` -/

/-- `n` more bytes are allowed, and do not fit into the block in any way. -/
def Grows (b : A3Buffer) (n : Nat) : Prop := b.data.len < size b + n ∧ sz (size b + n) ≤ b.maxCap

instance (b : A3Buffer) (n : Nat) : Decidable (Grows b n) :=
  inferInstanceAs (Decidable (b.data.len < size b + n ∧ sz (size b + n) ≤ b.maxCap))

/-- The block can be enlarged to `max_cap`. -/
def CanGrow (env : Env) (b : A3Buffer) : Prop := b.maxCap + 1 ≤ ptrdiffMax ∧ env.realloc (b.maxCap + 1) ≠ 0

/-- Where a write of `n` bytes has the block enlarged, it fits behind `tail`. -/
def Fits (b : A3Buffer) (n : Nat) : Prop := Grows b n → (settle b).tail + n ≤ b.maxCap

/-- The capacity asked of `realloc` is `max_cap`, and the loop does not run more than once. -/
theorem growLoop_eq {len total maxCap n : Nat} (hlen : len ≤ total) (htotal : total ≤ maxCap)
    (hmax : maxCap + 1 ≤ ptrdiffMax) (hfit : sz (len + n) ≤ maxCap) :
    ∃ newCap, growLoop 65 (max (max total 8) maxCap) (sz (total + n)) = .ok newCap ∧ maxCap ≤ newCap := by
  unfold ptrdiffMax at hmax
  unfold sz at hfit ⊢
  rw [growLoop]
  split
  · next hlt =>
    -- the sum did not wrap, so it is below twice `max_cap`
    have hdouble : (total + n) % 2 ^ 64 ≤ sz (max (max total 8) maxCap * 2) := by unfold sz; omega
    rw [growLoop, if_neg (Nat.not_lt.2 hdouble)]
    refine ⟨_, rfl, ?_⟩
    unfold sz
    omega
  · refine ⟨_, rfl, Nat.le_max_right _ _⟩

/-- How `a3_buf_ensure_cap` comes out. -/
structure Answered (b : A3Buffer) (n : Nat) (ok : Bool) (b' : A3Buffer) : Prop where
  sound : Sound b'
  contents_eq : contents b' = contents b
  maxCap_eq : b'.maxCap = b.maxCap
  settled : settle b' = b'
  outcome : (ok = true ∧ SameStore b b' ∧ b'.tail + n ≤ b'.data.len) ∨
    (ok = false ∧ SameStore b b' ∧ b.maxCap < sz (size b + n)) ∨
    (ok = true ∧ Grows b n ∧ b'.data.len = b.maxCap ∧ b'.tail = (settle b).tail)

/-- How it comes out for a buffer within its bound. -/
structure Ensured (b : A3Buffer) (n : Nat) (ok : Bool) (b' : A3Buffer) : Prop where
  inv : Inv b'
  contents_eq : contents b' = contents b
  maxCap_eq : b'.maxCap = b.maxCap
  settled : settle b' = b'
  outcome : (ok = true ∧ SameStore b b' ∧ b'.tail + n ≤ b'.data.len) ∨
    (ok = false ∧ SameStore b b' ∧ b.maxCap < sz (size b + n)) ∨
    (ok = true ∧ Grows b n ∧ b'.data.len = b.maxCap ∧ b'.tail = (settle b).tail)

theorem Ensured.answered {ok : Bool} (he : Ensured b n ok b') : Answered b n ok b' :=
  ⟨he.inv.sound, he.contents_eq, he.maxCap_eq, he.settled, he.outcome⟩

theorem Answered.ensured {ok : Bool} (ha : Answered b n ok b') (i : Inv b) : Ensured b n ok b' := by
  refine ⟨?_, ha.contents_eq, ha.maxCap_eq, ha.settled, ha.outcome⟩
  rcases ha.outcome with ⟨_, hs, _⟩ | ⟨_, hs, _⟩ | ⟨_, _, hlen, _⟩
  · exact i.of_store ha.sound hs ha.maxCap_eq
  · exact i.of_store ha.sound hs ha.maxCap_eq
  · exact ha.sound.inv (by rw [hlen, ha.maxCap_eq])

/-- It refuses only what is too much. -/
theorem Answered.refused (ha : Answered b n false b') : b.maxCap < sz (size b + n) := by
  rcases ha.outcome with ⟨hno, _⟩ | ⟨_, _, hmany⟩ | ⟨hno, _⟩
  · cases hno
  · exact hmany
  · cases hno

theorem Answered.granted {ok : Bool} (ha : Answered b n ok b') (hle : sz (size b + n) ≤ b.maxCap) : ok = true := by
  cases ok with
  | false => exact absurd ha.refused (Nat.not_lt.2 hle)
  | true => rfl

/-- The block enlarged to `max_cap`, with the contents where they were. -/
theorem realloc_spec (i : Inv b) (hs : settle b = b) (hgrow : CanGrow env b) : ∃ data,
    stringRealloc env b.data b.maxCap = .ok (data, nullString) ∧ data.ptr ≠ 0 ∧ data.len = b.maxCap ∧
      Inv { b with data := data } ∧ contents { b with data := data } = contents b ∧
      settle { b with data := data } = { b with data := data } := by
  obtain ⟨hobj, hre⟩ := hgrow
  have htail := i.tail_le
  have hlen := i.len_le
  have hblk := i.block
  have hlt : b.maxCap + 1 < 2 ^ 64 := by unfold ptrdiffMax at hobj; omega
  have hresize := length_resize env b.data.bytes (b.maxCap + 1)
  have hfit : b.maxCap + [(0 : UInt8)].length ≤ (resize env b.data.bytes (b.maxCap + 1)).length := by
    rw [hresize]; exact Nat.le_refl _
  refine ⟨_, stringRealloc_eq hlt hre, hre, rfl, ?_, ?_, ?_⟩
  · refine ⟨hre, i.head_le, Nat.le_trans htail hlen, Nat.le_refl _, i.max_lt, ?_, Nat.le_of_succ_le hobj⟩
    simp only
    rw [length_splice hfit, hresize]
    exact Nat.le_succ _
  · rw [contents, window]
    simp only
    rw [take_splice (by omega) (by omega), ← window, window_resize (by omega) (by omega), contents]
  · have h : b.head = b.tail → b.tail = 0 := settle_iff.1 hs
    exact settle_iff.2 h

/-! Its branches, by the checks it makes. -/

/-- There is room behind `tail`. -/
theorem ensureCap_room (so : Sound b) (h : n ≤ b.data.len - (settle b).tail) :
    ensureCap env b n = .ok (true, settle b) := by
  rw [ensureCap, live_eq so, ok_bind, space_eq so, ok_bind]
  exact if_pos h

/-- The bytes are too many. -/
theorem ensureCap_refused (so : Sound b) (h : b.data.len - (settle b).tail < n) (hmany : b.maxCap < sz (size b + n)) :
    ensureCap env b n = .ok (false, settle b) := by
  rw [ensureCap, live_eq so, ok_bind, space_eq so, ok_bind]
  simp only
  rw [if_neg (Nat.not_le.2 h), len_eq so.settle, ok_bind, size_settle, settle_maxCap, if_pos hmany]
  rfl

/-- There is room after compaction: with `head` at 0 there would have been room. -/
theorem ensureCap_compacted (so : Sound b) (h : b.data.len - (settle b).tail < n) (hle : sz (size b + n) ≤ b.maxCap)
    (hcap : n ≤ b.data.len - size b) : ∃ b', ensureCap env b n = .ok (true, b') ∧ Sound b' ∧ contents b' = contents b ∧
      b'.maxCap = b.maxCap ∧ SameStore b b' ∧ b'.head = 0 ∧ b'.tail = size b := by
  have hsize : (settle b).tail - (settle b).head = size b := size_settle b
  obtain ⟨b', hb', so', hc', hm', hs', hh', ht'⟩ : ∃ b', compact env (settle b) = .ok (true, b') ∧ _ :=
    compact_spec so.settle (by omega)
  rw [contents_settle] at hc'
  rw [settle_maxCap] at hm'
  rw [size_settle] at ht'
  refine ⟨b', ?_, so', hc', hm', (SameStore.settle b).trans hs', hh', ht'⟩
  rw [ensureCap, live_eq so, ok_bind, space_eq so, ok_bind]
  simp only
  rw [if_neg (Nat.not_le.2 h), len_eq so.settle, ok_bind, size_settle, settle_maxCap, if_neg (Nat.not_lt.2 hle),
    cap_eq so.settle, ok_bind, settle_data, size_settle, if_pos hcap, hb']

/-- The reallocation at the end of `a3_buf_ensure_cap` (`buffer.h:171`). -/
def growTo (env : Env) (b : A3Buffer) (n : Nat) : Except Fault (Bool × A3Buffer) := do
  let newCap ← growLoop 65 (max (max b.data.len 8) b.maxCap) (sz (b.data.len + n))
  let (newData, data) ← stringRealloc env b.data (min newCap b.maxCap)
  if newData.ptr = 0 then pure (false, { b with data := data })
  else pure (true, { b with data := newData })

/-- There is no room in any way. -/
theorem ensureCap_grows (so : Sound b) (hg : Grows b n) : ensureCap env b n = growTo env (settle b) n := by
  obtain ⟨hlt, hle⟩ := hg
  have hdata := so.size_le
  have hsize : size b ≤ (settle b).tail := by
    rw [← size_settle]
    exact Nat.sub_le _ _
  rw [ensureCap, live_eq so, ok_bind, space_eq so, ok_bind]
  simp only
  rw [if_neg (by omega), len_eq so.settle, ok_bind, size_settle, settle_maxCap, if_neg (Nat.not_lt.2 hle),
    cap_eq so.settle, ok_bind, settle_data, size_settle, if_neg (by omega), growTo, settle_data, settle_maxCap]

theorem growTo_eq (i : Inv b) (hs : settle b = b) (hle : sz (size b + n) ≤ b.maxCap) (hcan : CanGrow env b) : ∃ b',
    growTo env b n = .ok (true, b') ∧ Inv b' ∧ contents b' = contents b ∧ b'.maxCap = b.maxCap ∧ settle b' = b' ∧
      b'.data.len = b.maxCap ∧ b'.tail = b.tail := by
  obtain ⟨newCap, hloop, hnew⟩ := growLoop_eq i.sound.size_le i.len_le hcan.1 hle
  obtain ⟨data, hdata, hp, hlen, i', hc', hs'⟩ := realloc_spec i hs hcan
  refine ⟨_, ?_, i', hc', rfl, hs', hlen, rfl⟩
  rw [growTo, hloop, ok_bind, Nat.min_eq_right hnew, hdata, ok_bind]
  exact if_neg hp

/-- **`a3_buf_ensure_cap` (`buffer.h:159`)** -/
theorem ensureCap_answered (so : Sound b) (hgrow : Grows b n → b.data.len ≤ b.maxCap ∧ CanGrow env b) :
    ∃ ok b', ensureCap env b n = .ok (ok, b') ∧ Answered b n ok b' := by
  have hss := settle_settle b
  by_cases hroom : n ≤ b.data.len - (settle b).tail
  · have htail : (settle b).tail ≤ b.data.len := Nat.le_trans (settle_tail_le b) so.tail_le
    refine ⟨true, settle b, ensureCap_room so hroom, so.settle, contents_settle b, settle_maxCap b, hss,
      Or.inl ⟨rfl, SameStore.settle b, ?_⟩⟩
    rw [settle_data]
    omega
  · have hshort := Nat.lt_of_not_le hroom
    by_cases hmany : b.maxCap < sz (size b + n)
    · exact ⟨false, settle b, ensureCap_refused so hshort hmany, so.settle, contents_settle b, settle_maxCap b, hss,
        Or.inr (Or.inl ⟨rfl, SameStore.settle b, hmany⟩)⟩
    · have hle := Nat.le_of_not_lt hmany
      by_cases hcap : n ≤ b.data.len - size b
      · have hsize := so.size_le
        obtain ⟨b', hb', so', hc', hm', hs', hh', ht'⟩ : ∃ b', ensureCap env b n = .ok (true, b') ∧ _ :=
          ensureCap_compacted so hshort hle hcap
        refine ⟨true, b', hb', so', hc', hm', settle_iff.2 fun h => h.symm.trans hh', Or.inl ⟨rfl, hs', ?_⟩⟩
        rw [ht', hs'.len]
        omega
      · have hg : Grows b n := ⟨by omega, hle⟩
        obtain ⟨hlen, hcan⟩ := hgrow hg
        have hgrow' : CanGrow env (settle b) := by rwa [CanGrow, settle_maxCap]
        obtain ⟨b', hb', i', hc', hm', hs', hd', ht'⟩ : ∃ b', growTo env (settle b) n = .ok (true, b') ∧ _ :=
          growTo_eq (so.inv hlen).settle hss (by rwa [size_settle, settle_maxCap]) hgrow'
        refine ⟨true, b', (ensureCap_grows so hg).trans hb', i'.sound, hc'.trans (contents_settle b),
          hm'.trans (settle_maxCap b), hs', Or.inr (Or.inr ⟨rfl, hg, ?_, ht'⟩)⟩
        rw [hd', settle_maxCap]

theorem ensureCap_spec (i : Inv b) (hgrow : Grows b n → CanGrow env b) :
    ∃ ok b', ensureCap env b n = .ok (ok, b') ∧ Ensured b n ok b' := by
  obtain ⟨ok, b', hb', ha⟩ : ∃ ok b', ensureCap env b n = .ok (ok, b') ∧ _ :=
    ensureCap_answered i.sound fun hg => ⟨i.len_le, hgrow hg⟩
  exact ⟨ok, b', hb', ha.ensured i⟩

end A3Buf
