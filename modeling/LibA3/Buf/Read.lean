import LibA3.Buf.Write
import LibA3.Str.Search

/-!
# Reading

`a3_buf_read`, `a3_buf_consume` and `a3_buf_token_next` take bytes off the front of the contents; none of them
moves the block. The third overwrites bytes with zeros, all of them in front of the new `head`.
-/

namespace A3Buf

open A3Str Fallible Mem

variable {env : Env} {b b' : A3Buffer} {q : BoundedQueue UInt8} {n : Nat}

/-! ## `a3_buf_read` -/

theorem Sound.advance (so : Sound b) (h : n ≤ size b) :
    Sound { b with head := b.head + n } ∧ contents { b with head := b.head + n } = (contents b).drop n := by
  have hle : b.head + n ≤ b.tail := by
    have := so.head_le; unfold size at h; omega
  exact ⟨⟨so.ptr, hle, so.tail_le, so.max_lt, so.block, so.object⟩, drop_window.symm⟩

theorem read_eq (so : Sound b) (h : n ≤ size b) : read env b n = .ok (settle { b with head := b.head + n }) := by
  have hht := so.head_le
  have htl := so.tail_le
  have hlt := so.len_lt
  have hle : b.head + n ≤ b.data.len := by unfold size at h; omega
  obtain ⟨r, hr⟩ : ∃ r, resetIfEmpty env { b with head := b.head + n } = .ok (r, _) := resetIfEmpty_eq (so.advance h).1
  rw [read, live_eq so, ok_bind, sz_eq (by omega), check_true (decide_eq_true hle), ok_bind, hr, ok_bind]
  rfl

/-- **`a3_buf_read` (`buffer.c:116`)** -/
theorem read_spec (r : Rep b q) (h : n ≤ size b) :
    ∃ b', read env b n = .ok b' ∧ Rep b' (q.read n) ∧ b'.data = b.data := by
  obtain ⟨so', hc'⟩ := r.inv.sound.advance h
  have i' := so'.inv r.inv.len_le
  refine ⟨_, read_eq r.inv.sound h, ⟨i'.settle, ?_, ?_⟩, settle_data _⟩
  · rw [settle_maxCap]; exact r.cap
  · rw [contents_settle, hc', ← r.items]; rfl

/-! ## `a3_buf_consume` -/

/-- What `a3_buf_consume` looks for: an occurrence found at the front. -/
def startsWith (env : Env) (s needle : List UInt8) : Prop := needle.length ≤ s.length ∧ shimMemmem env s needle = some 0

instance (env : Env) (s needle : List UInt8) : Decidable (startsWith env s needle) :=
  inferInstanceAs (Decidable (needle.length ≤ s.length ∧ shimMemmem env s needle = some 0))

theorem bufMemmem_eq (so : Sound b) (needle : A3CString) (hne : needle.bytes ≠ []) :
    bufMemmem env b needle = .ok ((shimMemmem env (contents b) needle.bytes).map (b.head + ·)) := by
  have hp : needle.ptr ≠ 0 := fun h => hne (needle.null h)
  have hpos : needle.len > 0 := List.length_pos_of_ne_nil hne
  have hsum : b.head + size b = b.tail := Nat.add_sub_cancel' so.head_le
  have hblk : b.head + size b ≤ b.data.bytes.length := by rw [hsum]; exact Nat.le_trans so.tail_le so.block
  rw [bufMemmem, live_eq so, ok_bind, check_true (decide_eq_true hp), ok_bind, check_true (decide_eq_true hpos),
    ok_bind, readPtr, live_eq so, ok_bind, len_eq so, ok_bind, pure_ok, ok_bind]
  simp only
  rw [stringMemmem_eq so.ptr hblk hne, hsum, ok_bind]
  rfl

theorem consume_eq (so : Sound b) (needle : A3CString) (hne : needle.bytes ≠ []) :
    consume env b needle =
      .ok (if startsWith env (contents b) needle.bytes then (true, settle { b with head := b.head + needle.len })
        else (false, b)) := by
  have hp : needle.ptr ≠ 0 := fun h => hne (needle.null h)
  rw [consume, check_true (decide_eq_true hp), ok_bind, bufMemmem_eq so needle hne, ok_bind]
  cases hfind : shimMemmem env (contents b) needle.bytes with
  | none =>
    have hnot : ¬startsWith env (contents b) needle.bytes := by
      rintro ⟨-, h⟩
      rw [hfind] at h
      cases h
    rw [if_neg hnot]
    rfl
  | some k =>
    by_cases hk : k = 0
    · subst hk
      have hle := shimMemmem_le hne hfind
      rw [Nat.zero_add] at hle
      have hread : read env b needle.len = _ := read_eq so (by rw [← so.length_contents]; exact hle)
      rw [if_pos ⟨hle, hfind⟩]
      simp only [Option.map_some, Nat.add_zero, ne_eq, not_true_eq_false, if_false]
      rw [hread]
      rfl
    · -- found, but further on
      have hnot : ¬startsWith env (contents b) needle.bytes := by
        rintro ⟨-, h⟩
        rw [hfind] at h
        exact hk (Option.some.inj h)
      simp only [Option.map_some]
      rw [if_neg hnot, if_pos (by omega)]
      rfl

/-- **`a3_buf_consume` (`buffer.c:164`)** of a needle that is not empty -/
theorem consume_spec (r : Rep b q) (needle : A3CString) (hne : needle.bytes ≠ []) :
    ∃ b', consume env b needle = .ok (decide (startsWith env q.items needle.bytes), b') ∧
      Rep b' (if startsWith env q.items needle.bytes then q.read needle.len else q) ∧ b'.data = b.data := by
  rw [consume_eq r.inv.sound needle hne, ← r.items]
  by_cases hs : startsWith env q.items needle.bytes
  · have hle : needle.len ≤ size b := by
      rw [← r.length_items]
      exact hs.1
    obtain ⟨b', hb', r', hd'⟩ : ∃ b', read env b needle.len = .ok b' ∧ _ := read_spec r hle
    rw [read_eq r.inv.sound hle, Except.ok.injEq] at hb'
    rw [if_pos hs, if_pos hs, decide_eq_true hs, hb']
    exact ⟨b', rfl, r', hd'⟩
  · rw [if_neg hs, if_neg hs, decide_eq_false hs]
    exact ⟨b, rfl, r, rfl⟩

/-! ## `a3_buf_token_next` -/

/-- What is left after the next token. -/
def tokenRest (delim : List UInt8) (preserveEnd : Bool) (s : List UInt8) : List UInt8 :=
  let rest := (s.dropWhile delim.contains).dropWhile fun c => !delim.contains c
  if preserveEnd then rest else rest.dropWhile delim.contains

theorem takeWhile_window_le {α : Type} (p : α → Bool) {xs : List α} {head tail : Nat} (hle : head ≤ tail)
    (h : tail ≤ xs.length) : head + ((window xs head tail).takeWhile p).length ≤ tail := by
  have hpre := (List.takeWhile_prefix (l := window xs head tail) p).length_le
  rw [length_window h] at hpre
  omega

theorem drop_takeWhile {α : Type} (p : α → Bool) (l : List α) : l.drop (l.takeWhile p).length = l.dropWhile p := by
  have h : (l.takeWhile p ++ l.dropWhile p).drop (l.takeWhile p).length = l.dropWhile p := List.drop_left
  rwa [List.takeWhile_append_dropWhile] at h

/-- A byte at `at_` inside the block, and what it makes of the rest of the contents. -/
theorem load_one {data : A3String} {at_ tail : Nat} (hp : data.ptr ≠ 0) (hlt : at_ < tail)
    (hblk : tail ≤ data.bytes.length) (delim : List UInt8) :
    ∃ c, data.load at_ 1 = .ok [c] ∧ window data.bytes at_ tail = c :: window data.bytes (at_ + 1) tail ∧
      [c].all delim.contains = delim.contains c := by
  refine ⟨data.bytes.get ⟨at_, by omega⟩, ?_, window_cons hlt hblk, ?_⟩
  · rw [A3String.load_eq hp (by omega), window_singleton (by omega)]
  · rw [List.all_cons, List.all_nil, Bool.and_true]

theorem eatDelims_spec (delim : List UInt8) : ∀ (fuel : Nat) (b : A3Buffer), Sound b → size b < fuel →
    ∃ b', eatDelims env delim fuel b = .ok b' ∧ Sound b' ∧ contents b' = (contents b).dropWhile delim.contains ∧
      b'.data = b.data ∧ b'.maxCap = b.maxCap := by
  intro fuel
  induction fuel with
  | zero => intro b _ h; exact absurd h (Nat.not_lt_zero _)
  | succ fuel ih =>
    intro b so hfuel
    rw [eatDelims]
    by_cases hlt : b.head < b.tail
    · obtain ⟨c, hload, hwin, hall⟩ := load_one so.ptr hlt (Nat.le_trans so.tail_le so.block) delim
      have hcont : contents b = c :: contents { b with head := b.head + 1 } := hwin
      have hone : 1 ≤ size b := by unfold size; omega
      obtain ⟨so1, _⟩ := so.advance hone
      rw [if_pos hlt, hload, ok_bind, hall, hcont, List.dropWhile_cons]
      split
      · rw [read_eq so hone, ok_bind]
        have hsize : size (settle { b with head := b.head + 1 }) < fuel := by
          rw [size_settle]
          unfold size at hfuel ⊢
          simp only
          omega
        obtain ⟨b', hb', so', hc', hd', hm'⟩ := ih _ so1.settle hsize
        refine ⟨b', hb', so', ?_, ?_, ?_⟩
        · rw [hc', contents_settle]
        · rw [hd', settle_data]
        · rw [hm', settle_maxCap]
      · exact ⟨b, rfl, so, hcont, rfl, rfl⟩
    · have hnil : contents b = [] := by
        have := so.head_le
        rw [contents, show b.head = b.tail by omega, window_self]
      rw [if_neg hlt, hnil]
      exact ⟨b, rfl, so, hnil, rfl, rfl⟩

theorem findDelim_eq {data : A3String} {tail : Nat} (hp : data.ptr ≠ 0) (hblk : tail ≤ data.bytes.length)
    (delim : List UInt8) : ∀ (fuel end_ : Nat), end_ ≤ tail → tail - end_ < fuel →
    findDelim data tail delim fuel end_ =
      .ok (end_ + ((window data.bytes end_ tail).takeWhile fun c => !delim.contains c).length) := by
  intro fuel
  induction fuel with
  | zero => intro end_ _ h; exact absurd h (Nat.not_lt_zero _)
  | succ fuel ih =>
    intro end_ hle hfuel
    rw [findDelim]
    by_cases hlt : end_ < tail
    · obtain ⟨c, hload, hwin, hall⟩ := load_one hp hlt hblk delim
      rw [if_pos hlt, hload, ok_bind, hall, hwin, List.takeWhile_cons]
      cases hc : delim.contains c with
      | true => rfl
      | false =>
        simp only [Bool.false_eq_true, if_false, Bool.not_false, if_true, List.length_cons]
        rw [ih (end_ + 1) hlt (by omega)]
        congr 1
        omega
    · have heq : end_ = tail := Nat.le_antisymm hle (Nat.le_of_not_lt hlt)
      rw [if_neg hlt, heq, window_self]
      rfl

/-- The delimiters from `last` on are overwritten with zeros, and nothing else. -/
theorem zeroDelims_eq {tail : Nat} (delim : List UInt8) : ∀ (fuel : Nat) (data : A3String) (last : Nat), data.ptr ≠ 0 →
    tail ≤ data.bytes.length → last ≤ tail → tail - last < fuel →
    ∃ k, k = ((window data.bytes last tail).takeWhile delim.contains).length ∧
      zeroDelims tail delim fuel data last =
        .ok ({ data with bytes := splice data.bytes last (List.replicate k 0) }, last + k) := by
  intro fuel
  induction fuel with
  | zero => intro data last _ _ _ h; exact absurd h (Nat.not_lt_zero _)
  | succ fuel ih =>
    intro data last hp hblk hle hfuel
    have hnone : ({ data with bytes := splice data.bytes last (List.replicate 0 0) } : A3String) = data := by
      rw [List.replicate_zero, splice_nil]
    rw [zeroDelims]
    by_cases hlt : last < tail
    · obtain ⟨c, hload, hwin, hall⟩ := load_one hp hlt hblk delim
      rw [if_pos hlt, hload, ok_bind, hall, hwin, List.takeWhile_cons]
      split
      · have hfit : last + [(0 : UInt8)].length ≤ data.bytes.length := Nat.le_trans hlt hblk
        have hlen := length_splice hfit
        obtain ⟨k, hk, hloop⟩ := ih { data with bytes := splice data.bytes last [0] } (last + 1) hp
          (by simp only; rw [hlen]; exact hblk) hlt (by omega)
        have hrest : window (splice data.bytes last [0]) (last + 1) tail = window data.bytes (last + 1) tail :=
          window_splice_of_le (Nat.le_refl _) hfit
        have htwo : splice (splice data.bytes last [0]) (last + 1) (List.replicate k 0) =
            splice data.bytes last ([0] ++ List.replicate k 0) := splice_splice hfit
        simp only at hk hloop
        rw [hrest] at hk
        refine ⟨k + 1, by rw [List.length_cons, hk], ?_⟩
        rw [A3String.store_eq hp hfit, ok_bind, hloop, htwo, Nat.add_assoc, Nat.add_comm 1 k]
        rfl
      · exact ⟨0, rfl, by rw [hnone]; rfl⟩
    · have heq : last = tail := Nat.le_antisymm hle (Nat.le_of_not_lt hlt)
      refine ⟨0, by rw [heq, window_self]; rfl, ?_⟩
      rw [if_neg hlt, hnone]
      rfl

/-- The next token. -/
def tokenOf (delim : List UInt8) (s : List UInt8) : List UInt8 :=
  (s.dropWhile delim.contains).takeWhile fun c => !delim.contains c

/-- The delimiters that are taken with the token. -/
def tokenEnd (delim : List UInt8) (preserveEnd : Bool) (s : List UInt8) : List UInt8 :=
  if preserveEnd then []
  else (((s.dropWhile delim.contains).dropWhile fun c => !delim.contains c).takeWhile delim.contains)

theorem append_tokenRest (delim : List UInt8) (preserveEnd : Bool) (s : List UInt8) :
    s.dropWhile delim.contains = tokenOf delim s ++ (tokenEnd delim preserveEnd s ++ tokenRest delim preserveEnd s) := by
  unfold tokenOf tokenEnd tokenRest
  cases preserveEnd with
  | true => exact List.takeWhile_append_dropWhile.symm
  | false =>
    simp only [Bool.false_eq_true, if_false]
    rw [List.takeWhile_append_dropWhile, List.takeWhile_append_dropWhile]

/-- The first `n` bytes taken off, and `k` more that become zeros. -/
def taken (b : A3Buffer) (n k : Nat) : A3Buffer :=
  { b with
    data := { b.data with bytes := splice b.data.bytes (b.head + n) (List.replicate k 0) }
    head := b.head + n + k }

theorem Sound.taken (so : Sound b) {k : Nat} (h : n + k ≤ size b) : Sound (taken b n k) ∧
    contents (taken b n k) = (contents b).drop (n + k) ∧ SameStore b (taken b n k) := by
  have hle : b.head + n + k ≤ b.tail := by
    have := so.head_le; unfold size at h; omega
  have hfit : b.head + n + (List.replicate k (0 : UInt8)).length ≤ b.data.bytes.length := by
    rw [List.length_replicate]; exact Nat.le_trans hle (Nat.le_trans so.tail_le so.block)
  have hlen := length_splice hfit
  refine ⟨⟨so.ptr, hle, so.tail_le, so.max_lt, ?_, so.object⟩, ?_, rfl, rfl, hlen⟩
  · rw [A3Buf.taken]
    simp only
    rw [hlen]
    exact so.block
  · have hout : window (splice b.data.bytes (b.head + n) (List.replicate k 0)) (b.head + n + k) b.tail =
        window b.data.bytes (b.head + n + k) b.tail :=
      window_splice_of_le (by rw [List.length_replicate]) hfit
    rw [contents, contents, A3Buf.taken, drop_window, ← Nat.add_assoc]
    exact hout

/-- **`a3_buf_token_next` (`buffer.c:135`)**: where the token is, and what becomes of the buffer -/
theorem tokenNext_eq (so : Sound b) (delim : List UInt8) (preserveEnd : Bool) :
    ∃ b1, Sound b1 ∧ contents b1 = tokenOf delim (contents b) ++
        (tokenEnd delim preserveEnd (contents b) ++ tokenRest delim preserveEnd (contents b)) ∧
      b1.data = b.data ∧ b1.maxCap = b.maxCap ∧
      tokenNext env b delim preserveEnd = .ok (some (b1.head, (tokenOf delim (contents b)).length),
        taken b1 (tokenOf delim (contents b)).length (tokenEnd delim preserveEnd (contents b)).length) := by
  obtain ⟨b1, hb1, so1, hc1, hd1, hm1⟩ : ∃ b1, eatDelims env delim (b.tail - b.head + 1) b = .ok b1 ∧ _ :=
    eatDelims_spec delim _ b so (Nat.lt_succ_self _)
  have hblk1 : b1.tail ≤ b1.data.bytes.length := Nat.le_trans so1.tail_le so1.block
  -- the token ends at the next delimiter
  obtain ⟨end_, hend⟩ : ∃ end_, end_ = b1.head + (tokenOf delim (contents b)).length := ⟨_, rfl⟩
  have htok : tokenOf delim (contents b) = (contents b1).takeWhile fun c => !delim.contains c := by rw [hc1]; rfl
  have hle1 : end_ ≤ b1.tail := by rw [hend, htok]; exact takeWhile_window_le _ so1.head_le hblk1
  have hfind := findDelim_eq so1.ptr hblk1 delim (b1.tail - b1.head + 1) b1.head so1.head_le (Nat.lt_succ_self _)
  rw [← contents, ← htok, ← hend] at hfind
  have hlen : usub end_ b1.head = (tokenOf delim (contents b)).length := by
    rw [usub_eq (by omega) (Nat.lt_of_le_of_lt hle1 so1.tail_lt), hend, Nat.add_sub_cancel_left]
  refine ⟨b1, so1, hc1.trans (append_tokenRest delim preserveEnd (contents b)), hd1, hm1, ?_⟩
  rw [tokenNext, initialized_eq so, ok_bind]
  simp only [Bool.not_true, Bool.false_eq_true, if_false]
  rw [hb1, ok_bind, hfind, ok_bind]
  cases preserveEnd with
  | true =>
    have hnone : splice b1.data.bytes (b1.head + (tokenOf delim (contents b)).length) (List.replicate 0 0) =
        b1.data.bytes := splice_nil
    simp only [if_true, pure_ok, ok_bind]
    rw [hlen, hend, taken, tokenEnd, if_pos rfl, List.length_nil, hnone]
    rfl
  | false =>
    obtain ⟨k, hk, hzero⟩ := zeroDelims_eq delim (b1.tail - end_ + 1) b1.data end_ so1.ptr hblk1 hle1 (Nat.lt_succ_self _)
    have hrest1 : window b1.data.bytes end_ b1.tail = (contents b1).dropWhile fun c => !delim.contains c := by
      rw [hend, htok, ← drop_window, ← contents, drop_takeWhile]
    have hk' : k = (tokenEnd delim false (contents b)).length := by rw [hk, hrest1, hc1]; rfl
    simp only [Bool.false_eq_true, if_false]
    rw [hzero, ok_bind, hlen, hk', hend]
    rfl

/-- What is left of the buffer when the token and the delimiters after it are taken from its front. -/
theorem Sound.rest {b1 : A3Buffer} (so1 : Sound b1) {tok end_ rest : List UInt8}
    (hc : contents b1 = tok ++ (end_ ++ rest)) (hd : b1.data = b.data) :
    tok.length + end_.length ≤ size b1 ∧ Sound (A3Buf.taken b1 tok.length end_.length) ∧
      contents (A3Buf.taken b1 tok.length end_.length) = rest ∧ SameStore b (A3Buf.taken b1 tok.length end_.length) := by
  have hle : tok.length + end_.length ≤ size b1 := by
    rw [← so1.length_contents, hc, List.length_append, List.length_append]
    omega
  obtain ⟨so', hc', hs'⟩ := so1.taken hle
  refine ⟨hle, so', ?_, SameStore.trans ⟨by rw [hd], by rw [hd], by rw [hd]⟩ hs'⟩
  rw [hc', hc, ← List.append_assoc, ← List.length_append, List.drop_left]

theorem tokenNext_spec (so : Sound b) (delim : List UInt8) (preserveEnd : Bool) :
    ∃ tok b', tokenNext env b delim preserveEnd = .ok (some tok, b') ∧ Sound b' ∧
      contents b' = tokenRest delim preserveEnd (contents b) ∧ b'.maxCap = b.maxCap ∧ SameStore b b' := by
  obtain ⟨b1, so1, hc1, hd1, hm1, htok⟩ := tokenNext_eq so delim preserveEnd
  obtain ⟨-, so', hrest, hs'⟩ := so1.rest hc1 hd1
  exact ⟨_, _, htok, so', hrest, hm1, hs'⟩

end A3Buf
