import LibA3.Buf.Alloc
import LibA3.Buf.Growable
import LibA3.Fuel

/-!
# Formatted writes

`a3_buf_write_vfmt` prints into what is free behind `tail`, and where that is too short asks `a3_buf_ensure_cap` for
the text and its NUL, and prints again. One enlargement may leave too little room (`Fits`), but then the next
request is met by compaction: three attempts are enough.

A request that is refused ends the loop as well, and then what was printed is taken into the contents, cut off and
with the NUL.
-/

namespace A3Buf

open A3Str Fallible Mem

variable {env : Env} {b b' : A3Buffer} {fmt : Formatted} {text : List UInt8} {room n fuel : Nat}

/-! ## What `vsnprintf` leaves behind `tail` -/

/-- What `vsnprintf` stores in `room` bytes. -/
def printed (text : List UInt8) (room : Nat) : List UInt8 := if room = 0 then [] else text.take (room - 1) ++ [0]

theorem length_printed : (printed text room).length = min room (text.length + 1) := by
  unfold printed
  by_cases h : room = 0
  · rw [if_pos h, h, Nat.zero_min]
    rfl
  · rw [if_neg h, List.length_append, List.length_take, List.length_singleton]
    omega

/-- All of the text, where there is room for its NUL. -/
theorem take_printed (h : text.length < room) : (printed text room).take text.length = text := by
  have hall : text.take (room - 1) = text := List.take_of_length_le (by omega)
  rw [printed, if_neg (by omega), hall, List.take_left]

/-- The buffer with `fmt` printed behind `tail`. -/
def scribbled (b : A3Buffer) (fmt : Formatted) : A3Buffer :=
  { b with data := { b.data with bytes := splice b.data.bytes b.tail (printed fmt.bytes (b.data.len - b.tail)) } }

theorem scribbled_fit (so : Sound b) (fmt : Formatted) :
    b.tail + (printed fmt.bytes (b.data.len - b.tail)).length ≤ b.data.bytes.length := by
  have htail := so.tail_le
  have hblk := so.block
  rw [length_printed]
  omega

theorem vsnprintf_eq (so : Sound b) : vsnprintf b.data b.tail (b.data.len - b.tail) fmt =
    .ok (fmt.rc, (scribbled b fmt).data) := by
  have hfit := scribbled_fit so fmt
  unfold vsnprintf scribbled
  unfold printed at hfit ⊢
  split
  · rw [splice_nil]
  · next h =>
    rw [if_neg h] at hfit
    rw [A3String.store_eq so.ptr hfit]
    rfl

theorem scribbled_sound (so : Sound b) (fmt : Formatted) :
    Sound (scribbled b fmt) ∧ contents (scribbled b fmt) = contents b := by
  refine ⟨so.withBytes (length_splice (scribbled_fit so fmt)), ?_⟩
  exact window_splice_of_ge (Nat.le_refl _) (Nat.le_trans so.tail_le so.block)

theorem scribbled_settled (hs : settle b = b) : settle (scribbled b fmt) = scribbled b fmt := by
  have h : b.head = b.tail → b.tail = 0 := settle_iff.1 hs
  exact settle_iff.2 h

/-! ## One attempt -/

theorem rc_text (h : text.length ≤ intMax) : (Formatted.text text).rc = text.length := if_pos h

/-- What is free behind `tail`. -/
def spare (b : A3Buffer) : Nat := b.data.len - b.tail

theorem vfmtLoop_error (so : Sound b) (h : fmt.rc < 0) :
    vfmtLoop env fmt (fuel + 1) (b.tail, spare b) b = .ok (none, scribbled b fmt) := by
  unfold vfmtLoop spare
  simp only
  rw [vsnprintf_eq so, ok_bind]
  exact if_pos h

theorem vfmtLoop_fits (so : Sound b) (hint : text.length ≤ intMax) (h : text.length < spare b) :
    vfmtLoop env (.text text) (fuel + 1) (b.tail, spare b) b =
      .ok (some (spare b, text.length), scribbled b (.text text)) := by
  unfold vfmtLoop spare at *
  simp only
  rw [vsnprintf_eq so, ok_bind]
  simp only
  rw [rc_text hint, if_neg (by omega), Int.toNat_natCast, if_pos h]
  rfl

/-- With too little room, `a3_buf_ensure_cap` is asked for the text and its NUL. -/
theorem vfmtLoop_short (so : Sound b) (hint : text.length ≤ intMax) (h : spare b ≤ text.length) :
    vfmtLoop env (.text text) (fuel + 1) (b.tail, spare b) b = (do
      let (ok, b') ← ensureCap env (scribbled b (.text text)) (text.length + 1)
      if !ok then pure (some (spare b, text.length), b')
      else
        let (ptr, b'') ← writePtr env b'
        vfmtLoop env (.text text) fuel ptr b'') := by
  have hlt : text.length + 1 < 2 ^ 64 := by unfold intMax at hint; omega
  have hprint : vsnprintf b.data b.tail (spare b) (.text text) = _ := vsnprintf_eq so
  rw [vfmtLoop]
  simp only
  rw [hprint, ok_bind]
  simp only
  rw [rc_text hint, if_neg (by omega), Int.toNat_natCast, if_neg (Nat.not_lt.2 h), sz_eq hlt]
  rfl

theorem vfmtLoop_refused (so : Sound b) (hint : text.length ≤ intMax) (h : spare b ≤ text.length)
    (hb' : ensureCap env (scribbled b (.text text)) (text.length + 1) = .ok (false, b')) :
    vfmtLoop env (.text text) (fuel + 1) (b.tail, spare b) b = .ok (some (spare b, text.length), b') := by
  rw [vfmtLoop_short so hint h, hb', ok_bind]
  rfl

theorem vfmtLoop_again (so : Sound b) (hint : text.length ≤ intMax) (h : spare b ≤ text.length)
    (hb' : ensureCap env (scribbled b (.text text)) (text.length + 1) = .ok (true, b')) (so' : Sound b')
    (hs' : settle b' = b') : vfmtLoop env (.text text) (fuel + 1) (b.tail, spare b) b =
      vfmtLoop env (.text text) fuel (b'.tail, spare b') b' := by
  rw [vfmtLoop_short so hint h, hb', ok_bind]
  simp only [Bool.not_true, Bool.false_eq_true, if_false]
  rw [writePtr_eq so' hs', ok_bind]
  rfl

/-! ## The loop -/

/-- `b'` holds what `b` holds, and has more than `n` bytes free behind `tail`. -/
structure Ready (b : A3Buffer) (n : Nat) (b' : A3Buffer) : Prop where
  sound : Sound b'
  contents_eq : contents b' = contents b
  maxCap_eq : b'.maxCap = b.maxCap
  len_le : b.data.len ≤ b.maxCap → b'.data.len ≤ b.maxCap
  settled : settle b' = b'
  room : n < spare b'

theorem Sound.sum_lt (so : Sound b) (h : n ≤ intMax) : size b + (n + 1) < 2 ^ 64 := by
  have hsize := so.size_le
  have hobj := so.object
  unfold ptrdiffMax at hobj
  unfold intMax at h
  omega

/-- Where nothing has to be enlarged, two attempts are enough. -/
theorem vfmtLoop_within (so : Sound b) (hs : settle b = b) (hint : text.length ≤ intMax)
    (hng : ¬Grows b (text.length + 1)) (hle : spare b ≤ text.length → size b + text.length < b.maxCap) :
    ∃ b', Ready b text.length b' ∧ ∀ fuel, 2 ≤ fuel →
      vfmtLoop env (.text text) fuel (b.tail, spare b) b =
        .ok (some (spare b', text.length), scribbled b' (.text text)) := by
  by_cases hroom : text.length < spare b
  · refine ⟨b, ⟨so, rfl, rfl, id, hs, hroom⟩, fun fuel hfuel => ?_⟩
    obtain ⟨m, rfl⟩ := Fuel.succ_of_lt hfuel
    exact vfmtLoop_fits so hint hroom
  · have hshort := Nat.le_of_not_lt hroom
    obtain ⟨so1, hc1⟩ := scribbled_sound so (.text text)
    obtain ⟨ok, b', hb', ha⟩ : ∃ ok b', ensureCap env (scribbled b (.text text)) (text.length + 1) = .ok (ok, b') ∧ _ :=
      ensureCap_answered so1 fun hg => absurd hg hng
    rcases ha.outcome with ⟨rfl, hst, hfit⟩ | ⟨_, _, hmany⟩ | ⟨_, hg, _⟩
    · refine ⟨b', ⟨ha.sound, ha.contents_eq.trans hc1, ha.maxCap_eq, fun h => ?_, ha.settled, ?_⟩, fun fuel hfuel => ?_⟩
      · rw [hst.len]
        exact h
      · unfold spare
        omega
      · obtain ⟨m, rfl⟩ := Fuel.succ_of_lt hfuel
        obtain ⟨m', rfl⟩ := Fuel.succ_of_lt (Nat.lt_of_succ_lt_succ hfuel)
        rw [vfmtLoop_again so hint hshort hb' ha.sound ha.settled]
        exact vfmtLoop_fits ha.sound hint (by unfold spare; omega)
    · have hsize : size (scribbled b (.text text)) = size b := rfl
      have hmax : (scribbled b (.text text)).maxCap = b.maxCap := rfl
      have := hle hshort
      rw [hsize, hmax, sz_eq (so.sum_lt hint)] at hmany
      omega
    · exact absurd hg hng

/-- One enlargement may be too little, but only the first. -/
theorem vfmtLoop_ready (so : Sound b) (hs : settle b = b) (hint : text.length ≤ intMax)
    (hgrow : Grows b (text.length + 1) → CanGrow env b)
    (hle : spare b ≤ text.length → size b + text.length < b.maxCap) :
    ∃ b', Ready b text.length b' ∧ ∀ fuel, 3 ≤ fuel →
      vfmtLoop env (.text text) fuel (b.tail, spare b) b =
        .ok (some (spare b', text.length), scribbled b' (.text text)) := by
  by_cases hg : Grows b (text.length + 1)
  · have hlt := hg.1
    have hmax := hg.2
    rw [sz_eq (so.sum_lt hint)] at hmax
    have hsize : size b ≤ b.tail := Nat.sub_le _ _
    have hshort : spare b ≤ text.length := by unfold spare; omega
    obtain ⟨so1, hc1⟩ := scribbled_sound so (.text text)
    obtain ⟨ok, b1, hb1, ha⟩ : ∃ ok b', ensureCap env (scribbled b (.text text)) (text.length + 1) = .ok (ok, b') ∧ _ :=
      ensureCap_answered so1 fun _ => ⟨show b.data.len ≤ b.maxCap by omega, hgrow hg⟩
    have hsize1 : size b1 = size b := so.size_eq ha.sound (ha.contents_eq.trans hc1)
    have hmax1 : b1.maxCap = b.maxCap := ha.maxCap_eq
    have hgrown : ok = true ∧ b1.data.len = b.maxCap := by
      rcases ha.outcome with ⟨_, hst, hfit⟩ | ⟨_, _, hmany⟩ | ⟨hok, _, hlen, _⟩
      · have hlen : b1.data.len = b.data.len := hst.len
        have : size b1 ≤ b1.tail := Nat.sub_le _ _
        omega
      · exact absurd hg.2 (Nat.not_le.2 hmany)
      · exact ⟨hok, hlen⟩
    obtain ⟨rfl, hlen1⟩ := hgrown
    have hng1 : ¬Grows b1 (text.length + 1) := by
      rintro ⟨hlt1, _⟩
      omega
    obtain ⟨b', hr, hloop⟩ : ∃ b', Ready b1 text.length b' ∧ _ :=
      vfmtLoop_within ha.sound ha.settled hint hng1 fun _ => by omega
    refine ⟨b', ⟨hr.sound, hr.contents_eq.trans (ha.contents_eq.trans hc1), hr.maxCap_eq.trans hmax1, fun _ => ?_,
      hr.settled, hr.room⟩, fun fuel hfuel => ?_⟩
    · rw [← hmax1]
      exact hr.len_le (by omega)
    · obtain ⟨m, rfl⟩ := Fuel.succ_of_lt hfuel
      rw [vfmtLoop_again so hint hshort hb1 ha.sound ha.settled]
      exact hloop m (Nat.le_of_succ_le_succ hfuel)
  · obtain ⟨b', hr, hloop⟩ : ∃ b', Ready b text.length b' ∧ _ := vfmtLoop_within so hs hint hg hle
    exact ⟨b', hr, fun fuel hfuel => hloop fuel (Nat.le_of_succ_le hfuel)⟩

/-! ## `a3_buf_write_vfmt` -/

/-- The first `n` bytes of what was printed taken into the contents. -/
def withPrinted (b : A3Buffer) (fmt : Formatted) (n : Nat) : A3Buffer := { scribbled b fmt with tail := b.tail + n }

theorem withPrinted_sound (so : Sound b) (hn : n ≤ (printed fmt.bytes (spare b)).length) :
    wrote env (scribbled b fmt) n = .ok (withPrinted b fmt n) ∧ Sound (withPrinted b fmt n) ∧
      contents (withPrinted b fmt n) = contents b ++ (printed fmt.bytes (spare b)).take n := by
  have htail := so.tail_le
  obtain ⟨so1, _⟩ := scribbled_sound so fmt
  have hfit : b.tail + n ≤ b.data.len := by
    rw [length_printed] at hn
    unfold spare at hn
    omega
  refine ⟨wrote_eq so1 hfit, ⟨so1.ptr, Nat.le_trans so.head_le (Nat.le_add_right _ _), hfit, so1.max_lt, so1.block,
    so1.object⟩, ?_⟩
  exact window_splice_take so.head_le (Nat.le_trans so.tail_le so.block) hn

theorem writeVfmt_of_loop (so : Sound b) {room rc : Nat}
    (hloop : vfmtLoop env fmt fuel ((settle b).tail, spare (settle b)) (settle b) = .ok (some (room, rc), scribbled b' fmt))
    (so' : Sound b') (hn : min room rc ≤ (printed fmt.bytes (spare b')).length) :
    writeVfmt env fuel b fmt = .ok (true, withPrinted b' fmt (min room rc)) := by
  rw [writeVfmt, live_eq so, ok_bind, writePtr_settle so, ok_bind]
  simp only
  rw [← settle_data b, ← spare, hloop, ok_bind]
  simp only
  rw [(withPrinted_sound so' hn).1, ok_bind]
  rfl

/-- All of the text, where there is room for it and its NUL, or can be. -/
theorem writeVfmt_whole (so : Sound b) (hint : text.length ≤ intMax) (hgrow : Grows b (text.length + 1) → CanGrow env b)
    (hle : spare (settle b) ≤ text.length → size b + text.length < b.maxCap) :
    ∃ b', (∀ fuel, 3 ≤ fuel → writeVfmt env fuel b (.text text) = .ok (true, b')) ∧ Sound b' ∧
      contents b' = contents b ++ text ∧ b'.maxCap = b.maxCap ∧ (b.data.len ≤ b.maxCap → b'.data.len ≤ b.maxCap) := by
  have hgrow' : Grows (settle b) (text.length + 1) → CanGrow env (settle b) := by
    rw [Grows, CanGrow, size_settle, settle_maxCap, settle_data]
    exact hgrow
  obtain ⟨b1, hr, hloop⟩ : ∃ b1, Ready (settle b) text.length b1 ∧ _ :=
    vfmtLoop_ready so.settle (settle_settle b) hint hgrow' (by rwa [size_settle, settle_maxCap])
  have hroom := hr.room
  have hmin : min (spare b1) text.length = text.length := Nat.min_eq_right (Nat.le_of_lt hroom)
  have hn : min (spare b1) text.length ≤ (printed text (spare b1)).length := by rw [length_printed]; omega
  obtain ⟨_, so', hc'⟩ : wrote env (scribbled b1 (.text text)) _ = _ ∧ _ := withPrinted_sound hr.sound hn
  refine ⟨_, fun fuel hfuel => writeVfmt_of_loop so (hloop fuel hfuel) hr.sound hn, so', ?_,
    hr.maxCap_eq.trans (settle_maxCap b), fun h => ?_⟩
  · rw [hc', hmin, hr.contents_eq, contents_settle]
    exact congrArg (contents b ++ ·) (take_printed hroom)
  · have hlen := hr.len_le (by rw [settle_data, settle_maxCap]; exact h)
    rwa [settle_maxCap] at hlen

/-- What was printed, cut off, where there is no room and `a3_buf_ensure_cap` refuses to make any. -/
theorem writeVfmt_cut (so : Sound b) (hint : text.length ≤ intMax) (hroom : spare (settle b) ≤ text.length)
    (hmany : b.maxCap ≤ size b + text.length) :
    ∃ b', (∀ fuel, 3 ≤ fuel → writeVfmt env fuel b (.text text) = .ok (true, b')) ∧ Sound b' ∧
      contents b' = contents b ++ printed text (spare (settle b)) ∧ b'.maxCap = b.maxCap ∧ b'.data.len = b.data.len := by
  obtain ⟨so1, hc1⟩ := scribbled_sound so.settle (.text text)
  have hs1 : settle (scribbled (settle b) (.text text)) = scribbled (settle b) (.text text) :=
    scribbled_settled (settle_settle b)
  have hrefused : ensureCap env (scribbled (settle b) (.text text)) (text.length + 1) =
      .ok (false, scribbled (settle b) (.text text)) := by
    refine (ensureCap_refused so1 ?_ ?_).trans (by rw [hs1])
    · rw [hs1]
      exact Nat.lt_succ_of_le hroom
    · have hsize : size (scribbled (settle b) (.text text)) = size b := size_settle b
      have hmax : (scribbled (settle b) (.text text)).maxCap = b.maxCap := settle_maxCap b
      rw [hsize, hmax, sz_eq (so.sum_lt hint)]
      omega
  have hmin : min (spare (settle b)) text.length = spare (settle b) := Nat.min_eq_left hroom
  have hlen : (printed text (spare (settle b))).length = spare (settle b) := by rw [length_printed]; omega
  have hn : min (spare (settle b)) text.length ≤ (printed text (spare (settle b))).length := by rw [hlen, hmin]
  obtain ⟨_, so', hc'⟩ : wrote env (scribbled (settle b) (.text text)) _ = _ ∧ _ := withPrinted_sound so.settle hn
  refine ⟨_, fun fuel hfuel => ?_, so', ?_, settle_maxCap b, (SameStore.settle b).len⟩
  · obtain ⟨m, rfl⟩ := Fuel.succ_of_lt hfuel
    exact writeVfmt_of_loop so (vfmtLoop_refused so.settle hint hroom hrefused) so.settle hn
  · rw [hc', hmin, contents_settle]
    exact congrArg (contents b ++ ·) (List.take_of_length_le (Nat.le_of_eq hlen))

/-- `rc < 0` -/
theorem writeVfmt_error (so : Sound b) (h : fmt.rc < 0) :
    ∃ b', (∀ fuel, 3 ≤ fuel → writeVfmt env fuel b fmt = .ok (false, b')) ∧ Sound b' ∧ contents b' = contents b ∧
      b'.maxCap = b.maxCap ∧ b'.data.len = b.data.len := by
  obtain ⟨so1, hc1⟩ := scribbled_sound so.settle fmt
  refine ⟨_, fun fuel hfuel => ?_, so1, hc1.trans (contents_settle b), settle_maxCap b,
    (SameStore.settle b).len⟩
  obtain ⟨m, rfl⟩ := Fuel.succ_of_lt hfuel
  rw [writeVfmt, live_eq so, ok_bind, writePtr_settle so, ok_bind]
  simp only
  rw [← settle_data b, ← spare, vfmtLoop_error so.settle h, ok_bind]
  rfl

/-- **`a3_buf_write_vfmt` returns** (`buffer.c:76`): after three attempts at most, with the indices in order and the
contents it found still in front. -/
theorem writeVfmt_terminates (i : Inv b) (fmt : Formatted) (hgrow : Grows b (fmt.bytes.length + 1) → CanGrow env b) :
    ∃ ok b', (∀ fuel, 3 ≤ fuel → writeVfmt env fuel b fmt = .ok (ok, b')) ∧ Inv b' ∧ contents b <+: contents b' := by
  by_cases hneg : fmt.rc < 0
  · obtain ⟨b', hb', so', hc', hm', hl'⟩ : ∃ b', (∀ fuel, 3 ≤ fuel → writeVfmt env fuel b fmt = .ok (false, b')) ∧ _ :=
      writeVfmt_error i.sound hneg
    exact ⟨false, b', hb', so'.inv (by rw [hl', hm']; exact i.len_le), hc' ▸ List.prefix_rfl⟩
  · cases fmt with
    | error bytes => exact absurd (show (-1 : Int) < 0 by decide) hneg
    | text text =>
      have hint : text.length ≤ intMax := by
        by_contra h
        rw [Formatted.rc, if_neg h] at hneg
        exact hneg (by decide)
      by_cases hle : spare (settle b) ≤ text.length → size b + text.length < b.maxCap
      · obtain ⟨b', hb', so', hc', hm', hl'⟩ : ∃ b', (∀ fuel, 3 ≤ fuel → writeVfmt env fuel b _ = .ok (true, b')) ∧ _ :=
          writeVfmt_whole i.sound hint hgrow hle
        exact ⟨true, b', hb', so'.inv (by rw [hm']; exact hl' i.len_le), hc' ▸ List.prefix_append _ _⟩
      · obtain ⟨hroom, hmany⟩ := Classical.not_imp.1 hle
        obtain ⟨b', hb', so', hc', hm', hl'⟩ : ∃ b', (∀ fuel, 3 ≤ fuel → writeVfmt env fuel b _ = .ok (true, b')) ∧ _ :=
          writeVfmt_cut i.sound hint hroom (Nat.le_of_not_lt hmany)
        exact ⟨true, b', hb', so'.inv (by rw [hl', hm']; exact i.len_le), hc' ▸ List.prefix_append _ _⟩

/-- Ten bytes printed into a new buffer of ten that may grow to 200. -/
theorem writeVfmt_terminates_exact : ∃ ok b', (∀ fuel, 3 ≤ fuel →
      writeVfmt demo fuel (init demo zeroed 10 200).2 (.text (List.replicate 10 32)) = .ok (ok, b')) ∧ Inv b' ∧
    contents (init demo zeroed 10 200).2 <+: contents b' :=
  writeVfmt_terminates ⟨by decide, by decide, by decide, by decide, by decide, by decide, by decide⟩ _
    fun _ => ⟨by decide, by decide⟩

/-! ## Whether all of the text is written -/

/-- What a caller may expect: `true` for all of the text, `false` and nothing for a text that is too long, and no
byte that is not the text's. -/
def WritesText (env : Env) (b : A3Buffer) (text : List UInt8) : Prop :=
  ∃ ok b', (∀ fuel, 3 ≤ fuel → writeVfmt env fuel b (.text text) = .ok (ok, b')) ∧
    (ok = true ↔ contents b' = contents b ++ text) ∧
    (b.maxCap < (contents b).length + text.length → ok = false ∧ contents b' = contents b) ∧
    ∃ k, contents b' = contents b ++ text.take k

/-- The text has its place, and its NUL another one: within `max_cap`, or in the room there is. Two texts need no
place for the NUL: the empty one, and one that fills the room and ends in a NUL itself. -/
def PlaceForNul (b : A3Buffer) (text : List UInt8) : Prop :=
  size b + text.length ≤ b.maxCap ∧ (size b + text.length < b.maxCap ∨ text.length < spare (settle b) ∨ text = [] ∨
    (text.length = spare (settle b) ∧ text.getLast? = some 0))

theorem printed_eq_iff (h : room ≤ text.length) :
    printed text room = text ↔ text = [] ∨ (text.length = room ∧ text.getLast? = some 0) := by
  constructor
  · intro heq
    have hlen : (printed text room).length = room := by rw [length_printed]; omega
    rw [heq] at hlen
    by_cases hzero : room = 0
    · exact Or.inl (List.length_eq_zero_iff.1 (hlen.trans hzero))
    · refine Or.inr ⟨hlen, ?_⟩
      rw [printed, if_neg hzero] at heq
      rw [← heq]
      exact List.getLast?_concat
  · rintro (rfl | ⟨hlen, hlast⟩)
    · rw [printed, if_pos (Nat.le_zero.1 h)]
    · have hne : text ≠ [] := by
        rintro rfl
        cases hlast
      have hpos : room ≠ 0 := by
        rw [← hlen]
        exact Nat.ne_of_gt (List.length_pos_of_ne_nil hne)
      rw [printed, if_neg hpos, ← hlen, ← List.dropLast_eq_take]
      exact List.dropLast_append_getLast? 0 hlast

/-- After `true`, it is a question of which bytes were appended. -/
theorem writesText_of_true {bytes : List UInt8}
    (hb' : ∀ fuel, 3 ≤ fuel → writeVfmt env fuel b (.text text) = .ok (true, b'))
    (hc' : contents b' = contents b ++ bytes) :
    WritesText env b text ↔ (contents b).length + text.length ≤ b.maxCap ∧ bytes = text := by
  constructor
  · rintro ⟨ok, b1, hb1, hall, hlong, _⟩
    have h := (hb' 3 (Nat.le_refl 3)).symm.trans (hb1 3 (Nat.le_refl 3))
    cases h
    refine ⟨?_, ?_⟩
    · by_contra h
      exact absurd (hlong (Nat.lt_of_not_le h)).1 (by decide)
    · have h := hall.1 rfl
      rw [hc'] at h
      exact List.append_cancel_left h
  · rintro ⟨hfits, rfl⟩
    refine ⟨true, b', hb', iff_of_true rfl hc', fun h => absurd h (Nat.not_lt.2 hfits), bytes.length, ?_⟩
    rw [hc', List.take_length]

/-- Where the block has to be enlarged and cannot be, nothing is returned. -/
theorem writeVfmt_fails (so : Sound b) (hre : ReallocBounded env) (hint : text.length ≤ intMax)
    (hg : Grows b (text.length + 1)) (hno : ¬CanGrow env b) : ∃ f, writeVfmt env (fuel + 1) b (.text text) = .error f := by
  have hg' : Grows (settle b) (text.length + 1) := by
    rw [Grows, size_settle, settle_maxCap, settle_data]
    exact hg
  have hno' : ¬CanGrow env (settle b) := by
    rw [CanGrow, settle_maxCap]
    exact hno
  have hsize : size (settle b) ≤ (settle b).tail := Nat.sub_le _ _
  have hlt := hg'.1
  have hshort : spare (settle b) ≤ text.length := by unfold spare; omega
  have hwrap : (settle b).data.len + (text.length + 1) < 2 ^ 64 := by
    have hobj := so.settle.object
    unfold ptrdiffMax at hobj
    unfold intMax at hint
    omega
  obtain ⟨so1, _⟩ := scribbled_sound so.settle (.text text)
  obtain ⟨f, hf⟩ : ∃ f, ensureCap env (scribbled (settle b) (.text text)) (text.length + 1) = .error f :=
    ensureCap_fails so1 hre hg' hwrap hno'
  refine ⟨f, ?_⟩
  rw [writeVfmt, live_eq so, ok_bind, writePtr_settle so, ok_bind]
  simp only
  rw [← settle_data b, ← spare, vfmtLoop_short so.settle hint hshort, hf]
  rfl

/-- **`a3_buf_write_vfmt` (`buffer.c:70`)** writes all or nothing of a text exactly if `vsnprintf` cannot return its length,
or the text and a NUL have their place; the reallocation, where there is one, has to succeed. -/
theorem writeVfmt_whole_iff (so : Sound b) (hre : ReallocBounded env) (text : List UInt8) :
    WritesText env b text ↔ intMax < text.length ∨
      ((Grows b (text.length + 1) → CanGrow env b) ∧ PlaceForNul b text) := by
  by_cases hlong : intMax < text.length
  · refine iff_of_true ?_ (Or.inl hlong)
    have hneg : (Formatted.text text).rc < 0 := by
      rw [Formatted.rc, if_neg (Nat.not_le.2 hlong)]
      decide
    obtain ⟨b', hb', _, hc', _⟩ : ∃ b', (∀ fuel, 3 ≤ fuel → writeVfmt env fuel b _ = .ok (false, b')) ∧ _ :=
      writeVfmt_error so hneg
    have hne : text ≠ [] := by
      rintro rfl
      exact absurd hlong (Nat.not_lt_zero _)
    refine ⟨false, b', hb', iff_of_false Bool.false_ne_true ?_, fun _ => ⟨rfl, hc'⟩, 0, ?_⟩
    · intro h
      rw [hc', List.self_eq_append_right] at h
      exact hne h
    · rw [hc', List.take_zero, List.append_nil]
  · have hint := Nat.le_of_not_lt hlong
    rw [or_iff_right hlong]
    by_cases hcan : Grows b (text.length + 1) → CanGrow env b
    · rw [and_iff_right hcan, PlaceForNul]
      by_cases hle : spare (settle b) ≤ text.length → size b + text.length < b.maxCap
      · obtain ⟨b', hb', _, hc', _⟩ : ∃ b', (∀ fuel, 3 ≤ fuel → writeVfmt env fuel b _ = .ok (true, b')) ∧ _ :=
          writeVfmt_whole so hint hcan hle
        have hplace : size b + text.length < b.maxCap ∨ text.length < spare (settle b) := by omega
        rw [writesText_of_true hb' hc', so.length_contents, and_iff_left rfl, ← or_assoc,
          or_iff_left_of_imp fun _ => hplace]
        exact (and_iff_left hplace).symm
      · obtain ⟨hroom, hmany⟩ := Classical.not_imp.1 hle
        obtain ⟨b', hb', _, hc', _⟩ : ∃ b', (∀ fuel, 3 ≤ fuel → writeVfmt env fuel b _ = .ok (true, b')) ∧ _ :=
          writeVfmt_cut so hint hroom (Nat.le_of_not_lt hmany)
        rw [writesText_of_true hb' hc', so.length_contents, printed_eq_iff hroom, or_iff_right hmany,
          or_iff_right (Nat.not_lt.2 hroom)]
    · refine iff_of_false ?_ fun h => hcan h.1
      rintro ⟨ok, b1, hb1, _⟩
      obtain ⟨hg, hno⟩ := Classical.not_imp.1 hcan
      obtain ⟨f, hf⟩ : ∃ f, writeVfmt env 3 b (.text text) = .error f := writeVfmt_fails so hre hint hg hno
      rw [hb1 3 (Nat.le_refl 3)] at hf
      cases hf

/-- Three bytes of text and their NUL, in a buffer of four. -/
theorem writeVfmt_whole_iff_three : WritesText roomy (init roomy zeroed 4 4).2 [97, 98, 99] ↔ intMax < 3 ∨
    ((Grows (init roomy zeroed 4 4).2 4 → CanGrow roomy (init roomy zeroed 4 4).2) ∧
      PlaceForNul (init roomy zeroed 4 4).2 [97, 98, 99]) :=
  writeVfmt_whole_iff ⟨by decide, by decide, by decide, by decide, by decide, by decide⟩ roomy_bounded _

/-- Six bytes printed into a buffer of four that may not grow: `true`, and three of them and a NUL. -/
theorem six_printed_cut : writeVfmt roomy 3 (init roomy zeroed 4 4).2 (.text [97, 98, 99, 100, 101, 102]) =
      .ok (true, ⟨⟨4096, 4, [97, 98, 99, 0, 0]⟩, 4, 0, 4⟩) ∧
    ¬WritesText roomy (init roomy zeroed 4 4).2 [97, 98, 99, 100, 101, 102] := by
  have hcut : writeVfmt roomy 3 (init roomy zeroed 4 4).2 (.text [97, 98, 99, 100, 101, 102]) =
      .ok (true, ⟨⟨4096, 4, [97, 98, 99, 0, 0]⟩, 4, 0, 4⟩) := by decide +kernel
  refine ⟨hcut, ?_⟩
  rintro ⟨ok, b', hb', _, hlong, _⟩
  have h := hcut.symm.trans (hb' 3 (Nat.le_refl 3))
  cases h
  exact absurd (hlong (by decide)).1 (by decide)

end A3Buf
