import LibA3.Buf.Growable
import LibA3.Buf.Returned

/-!
# Writes that fail

A write that returns `false` has been refused by a check, before it has changed anything but `head` and `tail` of an
empty buffer. `a3_buf_write_line` makes two writes: where the string takes up exactly what `max_cap` leaves, the newline
is refused and the string stays.

* `refused_unchanged_iff` — that is the only way in which a failed write changes the contents
-/

namespace A3Buf

open A3Str Fallible Mem

variable {env : Env} {b b' b1 : A3Buffer} {n : Nat} {ok : Bool} {str : A3CString}

/-- If the call returns `false`, the contents are what they were. -/
def Unchanged (b : A3Buffer) (r : Except Fault (Bool × A3Buffer)) : Prop :=
  ∀ b', r = .ok (false, b') → contents b' = contents b

/-! ## One write -/

theorem ensureCap_unchanged (h : ensureCap env b n = .ok (false, b')) : contents b' = contents b := by
  rw [(ensureCap_false h).1, contents_settle]

theorem writeByte_false {byte : UInt8} (h : writeByte env b byte = .ok (false, b')) :
    ensureCap env b 1 = .ok (false, b') := by
  obtain ⟨_, _, h⟩ := bind_ok h
  obtain ⟨⟨ok, b1⟩, hb1, h⟩ := bind_ok h
  cases ok with
  | false =>
    cases h
    exact hb1
  | true =>
    obtain ⟨_, _, h⟩ := bind_ok h
    cases h

theorem writeByte_unchanged (byte : UInt8) : Unchanged b (writeByte env b byte) :=
  fun _ h => ensureCap_unchanged (writeByte_false h)

theorem writeStr_unchanged (str : A3CString) : Unchanged b (writeStr env b str) := by
  intro b' h
  obtain ⟨_, _, h⟩ := bind_ok h
  obtain ⟨l, _, h⟩ := bind_ok h
  split at h
  · cases h
    rfl
  · obtain ⟨⟨ok, b1⟩, hb1, h⟩ := bind_ok h
    cases ok with
    | false =>
      cases h
      exact ensureCap_unchanged hb1
    | true =>
      obtain ⟨_, _, h⟩ := bind_ok h
      obtain ⟨_, _, h⟩ := bind_ok h
      obtain ⟨_, _, h⟩ := bind_ok h
      cases h

theorem writeNum_unchanged (num : UInt64) : Unchanged b (writeNum env b num) := by
  rw [writeNum_eq]
  exact writeStr_unchanged _

/-! ## Two writes -/

/-- The string takes up exactly what `max_cap` leaves, and is written: nothing has to be enlarged, or it can be, and leaves
no room either. A block longer than `max_cap` has no room where the string ends with it. -/
structure SplitLine (env : Env) (b : A3Buffer) (str : A3CString) : Prop where
  nonempty : str.bytes ≠ []
  exact_ : size b + str.len = b.maxCap
  full : b.data.len ≤ b.maxCap ∨ (settle b).tail + str.len = b.data.len
  fits : Fits b str.len
  grow : Grows b str.len → CanGrow env b

/-- The string is written, the newline is not. -/
theorem SplitLine.split (so : Sound b) (hobj : str.len ≤ ptrdiffMax) (hsplit : SplitLine env b str) :
    ∃ b', writeLine env b str = .ok (false, b') ∧ contents b' = contents b ++ str.bytes := by
  have hexact := hsplit.exact_
  have hpos : 0 < str.len := List.length_pos_of_ne_nil hsplit.nonempty
  have hmax : b.maxCap + 1 < 2 ^ 64 := by
    have h1 := so.size_le
    have h2 := so.object
    unfold ptrdiffMax at hobj h2
    omega
  have hsum : sz (size b + str.len) = b.maxCap := by rw [hexact, sz_eq (by omega)]
  obtain ⟨ok, b1, hb1, ha⟩ : ∃ ok b', ensureCap env b str.len = .ok (ok, b') ∧ _ :=
    ensureCap_answered so fun hg => ⟨by have := hg.1; omega, hsplit.grow hg⟩
  obtain rfl := ha.granted (by omega)
  have hroom := ha.room rfl hsplit.fits
  obtain ⟨so2, hc2, _⟩ : Sound (appended b1 str.bytes) ∧ _ := ha.sound.appended hroom
  have hsize1 := so.size_eq ha.sound ha.contents_eq
  have hsize2 : size (appended b1 str.bytes) = b.maxCap := by
    rw [← so2.length_contents, hc2, List.length_append, ha.sound.length_contents, hsize1]
    exact hexact
  -- no room is left, in the block that there was or in one of `max_cap` bytes
  have hfull : b1.data.len ≤ b1.tail + str.len := by
    rcases hsplit.full with hle | hend
    · have htail : size b1 ≤ b1.tail := Nat.sub_le _ _
      rcases ha.outcome with ⟨_, hs, _⟩ | ⟨hno, _⟩ | ⟨_, _, hlen, _⟩
      · have := hs.len
        omega
      · cases hno
      · omega
    · have h := hb1.symm.trans (ensureCap_room so (by omega))
      cases h
      rw [settle_data]
      omega
  have hrefused : ensureCap env (appended b1 str.bytes) 1 = .ok (false, settle (appended b1 str.bytes)) := by
    refine ensureCap_refused so2 ?_ ?_
    · have hne : (appended b1 str.bytes).head ≠ (appended b1 str.bytes).tail := by
        have := ha.sound.head_le
        show b1.head ≠ b1.tail + str.len
        omega
      rw [settle_nonempty hne]
      show b1.data.len - (b1.tail + str.len) < 1
      omega
    · have hmax2 : (appended b1 str.bytes).maxCap = b.maxCap := ha.maxCap_eq
      rw [hsize2, hmax2, sz_eq hmax]
      exact Nat.lt_succ_self _
  refine ⟨settle (appended b1 str.bytes), ?_, ?_⟩
  · rw [writeLine, writeStr_appends so str (by rw [Nat.add_comm, hsum]) hb1 ha.sound ha.settled hroom, ok_bind]
    simp only [Bool.not_true, Bool.false_eq_true, if_false]
    rw [writeByte, live_eq so2, ok_bind, hrefused, ok_bind]
    rfl
  · rw [contents_settle, hc2, ha.contents_eq]

theorem Sound.sum_eq (so : Sound b) (hobj : n ≤ ptrdiffMax) : sz (size b + n) = size b + n := by
  have h1 := so.size_le
  have h2 := so.object
  unfold ptrdiffMax at hobj h2
  exact sz_eq (by omega)

/-- A string that was written is behind the contents, or ends behind the block. -/
theorem writeStr_true (so : Sound b) (hre : ReallocBounded env) (hobj : str.len ≤ ptrdiffMax)
    (h : writeStr env b str = .ok (true, b')) : size b + str.len ≤ b.maxCap ∧ (Grows b str.len → CanGrow env b) ∧
      ((0 < b'.data.len ∧ b'.data.len < b'.tail ∧ b'.tail < 2 ^ 64) ∨
        Fits b str.len ∧ ∃ b1, ensureCap env b str.len = .ok (true, b1) ∧ Answered b str.len true b1 ∧
          b1.tail + str.len ≤ b1.data.len ∧ b' = appended b1 str.bytes) := by
  have hsum := so.sum_eq hobj
  have hle : size b + str.len ≤ b.maxCap := by
    by_contra hmany
    rw [writeStr, live_eq so, ok_bind, len_eq so, ok_bind, Nat.add_comm, hsum, if_pos (Nat.lt_of_not_le hmany)] at h
    cases h
  have hcan : Grows b str.len → CanGrow env b := by
    intro hg
    by_contra hno
    have hwrap : b.data.len + str.len < 2 ^ 64 := by
      have := so.object
      unfold ptrdiffMax at this hobj
      omega
    obtain ⟨f, hf⟩ : ∃ f, ensureCap env b str.len = .error f := ensureCap_fails so hre hg hwrap hno
    rw [writeStr, live_eq so, ok_bind, len_eq so, ok_bind, Nat.add_comm, hsum, if_neg (Nat.not_lt.2 hle), hf] at h
    cases h
  refine ⟨hle, hcan, ?_⟩
  by_cases hfits : Fits b str.len
  · obtain ⟨ok, b1, hb1, ha⟩ : ∃ ok b', ensureCap env b str.len = .ok (ok, b') ∧ _ :=
      ensureCap_answered so fun hg => ⟨by have := hg.1; omega, hcan hg⟩
    obtain rfl := ha.granted (by omega)
    have hroom := ha.room rfl hfits
    have h' := writeStr_appends so str (by rw [Nat.add_comm, hsum]; exact hle) hb1 ha.sound ha.settled hroom
    rw [h] at h'
    cases h'
    exact Or.inr ⟨hfits, b1, hb1, ha, hroom, rfl⟩
  · have hg := (Classical.not_imp.1 hfits).1
    have hlt := hg.1
    obtain ⟨hlen, htail, hbound⟩ := writeStr_past (so.inv (by omega)) str hobj hcan hfits h
    exact Or.inl ⟨by omega, by omega, hbound⟩

/-- In a block longer than `max_cap`, what takes up all the room there is was not compacted: that would have left more. -/
theorem ensureCap_exact (so : Sound b) (hobj : n ≤ ptrdiffMax) (hle : size b + n ≤ b.maxCap) (hover : b.maxCap < b.data.len)
    (hb' : ensureCap env b n = .ok (true, b')) (hend : b'.tail + n = b'.data.len) : (settle b).tail + n = b.data.len := by
  by_cases hspare : n ≤ b.data.len - (settle b).tail
  · have h := hb'.symm.trans (ensureCap_room so hspare)
    cases h
    rwa [settle_data] at hend
  · have hsum := so.sum_eq hobj
    obtain ⟨b1, hb1, _, _, _, hs1, _, ht1⟩ : ∃ b', ensureCap env b n = .ok (true, b') ∧ _ :=
      ensureCap_compacted so (Nat.lt_of_not_le hspare) (by rw [hsum]; exact hle) (by omega)
    have h := hb'.symm.trans hb1
    cases h
    have := hs1.len
    omega

/-- Nothing else is left behind by an `a3_buf_write_line` that fails. -/
theorem writeLine_false (so : Sound b) (hre : ReallocBounded env) (hobj : str.len ≤ ptrdiffMax)
    (h : writeLine env b str = .ok (false, b')) : contents b' = contents b ∨ SplitLine env b str := by
  obtain ⟨⟨ok, b1⟩, hb1, h⟩ := bind_ok h
  cases ok with
  | false =>
    cases h
    exact Or.inl (writeStr_unchanged str _ hb1)
  | true =>
    obtain ⟨rfl, hfull, hmany⟩ := ensureCap_false (writeByte_false h)
    obtain ⟨hle, hcan, hout⟩ := writeStr_true so hre hobj hb1
    rw [contents_settle]
    rw [settle_data] at hfull
    rcases hout with ⟨hpos, hlt, hbound⟩ | ⟨hfits, b2, hb2, ha, hroom, rfl⟩
    · -- behind the block, the room has wrapped
      have htail : (settle b1).tail = b1.tail ∨ (settle b1).tail = 0 := by
        by_cases heq : b1.head = b1.tail
        · rw [settle_empty heq]
          exact Or.inr rfl
        · rw [settle_nonempty heq]
          exact Or.inl rfl
      unfold usub at hfull
      omega
    · obtain ⟨so1, hc1, _⟩ : Sound (appended b2 str.bytes) ∧ _ := ha.sound.appended hroom
      by_cases hnil : str.bytes = []
      · rw [hc1, hnil, List.append_nil, ha.contents_eq]
        exact Or.inl rfl
      · have hpos : 0 < str.len := List.length_pos_of_ne_nil hnil
        have hhead := ha.sound.head_le
        have hsettled : settle (appended b2 str.bytes) = appended b2 str.bytes :=
          settle_nonempty (show b2.head ≠ b2.tail + str.len by omega)
        have hsize2 := so.size_eq ha.sound ha.contents_eq
        have hsize1 : (b2.tail + str.len) - b2.head = size b + str.len := by
          unfold size at hsize2 ⊢
          omega
        rw [hsettled] at hfull hmany
        have hfull' : b2.data.len ≤ b2.tail + str.len := by
          have hroom' : usub b2.data.len (b2.tail + str.len) < 1 := hfull
          rw [usub_eq hroom ha.sound.len_lt] at hroom'
          omega
        have hexact : size b + str.len = b.maxCap := by
          have hmany' : b2.maxCap < sz (usub (b2.tail + str.len) b2.head + 1) := hmany
          have hmod : sz (size b + str.len + 1) ≤ size b + str.len + 1 := Nat.mod_le _ _
          rw [usub_eq (by omega) (Nat.lt_of_le_of_lt hroom ha.sound.len_lt), hsize1, ha.maxCap_eq] at hmany'
          omega
        refine Or.inr ⟨hnil, hexact, ?_, hfits, hcan⟩
        rw [or_iff_not_imp_left, Nat.not_le]
        intro hover
        exact ensureCap_exact so hobj hle hover hb2 (Nat.le_antisymm hroom hfull')

/-- **Writes that fail** (`buffer.c:54-67`, `buffer.c:109`, `buffer.h:222`) leave the contents as they were, except for
`a3_buf_write_line` exactly where it splits. -/
theorem refused_unchanged_iff (so : Sound b) (hre : ReallocBounded env) (str : A3CString) (hobj : str.len ≤ ptrdiffMax) :
    (∀ byte, Unchanged b (writeByte env b byte)) ∧ Unchanged b (writeStr env b str) ∧
      (∀ num, Unchanged b (writeNum env b num)) ∧
      (Unchanged b (writeLine env b str) ↔ ¬SplitLine env b str) := by
  refine ⟨writeByte_unchanged, writeStr_unchanged str, writeNum_unchanged, ?_, ?_⟩
  · intro hline hsplit
    obtain ⟨b', hb', hc'⟩ := hsplit.split so hobj
    have h := hline b' hb'
    rw [hc', List.append_right_eq_self] at h
    exact hsplit.nonempty h
  · intro hno b' hb'
    exact (writeLine_false so hre hobj hb').resolve_right hno

/-- Three bytes and a newline, in a new buffer of four. -/
theorem refused_unchanged_iff_three :
    (∀ byte, Unchanged (init roomy zeroed 4 4).2 (writeByte roomy (init roomy zeroed 4 4).2 byte)) ∧
      Unchanged (init roomy zeroed 4 4).2 (writeStr roomy (init roomy zeroed 4 4).2 (onStack [97, 98, 99])) ∧
      (∀ num, Unchanged (init roomy zeroed 4 4).2 (writeNum roomy (init roomy zeroed 4 4).2 num)) ∧
      (Unchanged (init roomy zeroed 4 4).2 (writeLine roomy (init roomy zeroed 4 4).2 (onStack [97, 98, 99])) ↔
        ¬SplitLine roomy (init roomy zeroed 4 4).2 (onStack [97, 98, 99])) :=
  refused_unchanged_iff ⟨by decide, by decide, by decide, by decide, by decide, by decide⟩ roomy_bounded _ (by decide)

/-- Four bytes and a newline: `false`, and the four bytes are in the buffer. -/
theorem four_and_newline : writeLine roomy (init roomy zeroed 4 4).2 (onStack [97, 98, 99, 100]) =
      .ok (false, ⟨⟨4096, 4, [97, 98, 99, 100, 0]⟩, 4, 0, 4⟩) ∧ contents (init roomy zeroed 4 4).2 = [] ∧
    contents ⟨⟨4096, 4, [97, 98, 99, 100, 0]⟩, 4, 0, 4⟩ = [97, 98, 99, 100] ∧
    ¬Unchanged (init roomy zeroed 4 4).2 (writeLine roomy (init roomy zeroed 4 4).2 (onStack [97, 98, 99, 100])) := by
  have hsplit : writeLine roomy (init roomy zeroed 4 4).2 (onStack [97, 98, 99, 100]) =
      .ok (false, ⟨⟨4096, 4, [97, 98, 99, 100, 0]⟩, 4, 0, 4⟩) := by decide +kernel
  refine ⟨hsplit, by decide, by decide, fun h => ?_⟩
  exact absurd (h _ hsplit) (by decide)

end A3Buf
