import LibA3.Fallible
import LibA3.Mem.Align
import LibA3.Trans
import LibA3.Vec.Spec

/-!
# Elements and the storage requested for them

Elements lie `elem_size` bytes apart, which is the size given to `a3_vec_init_` rounded up to the alignment.
`a3_vec_reserve` requests so much for each; `a3_vec_init_` requests the size it was given. `size_t` has `w` bits here, and
`Room` is what keeps a request from overflowing.

* `elements_in_storage_iff` — elements stay within the storage if the size is a multiple of the alignment, or there is no
  storage at first
-/

namespace A3Vec

open Fallible Mem Trans

variable {w k size align b n m i j cap fuel : Nat} {junk : Nat → Nat → UInt8} {s s' s1 : St} {xs : List (List UInt8)}
  {elem : List UInt8} {p : Ptr}

/-- What is done with a vector that has been initialized. -/
inductive Use where
  | write (elem : List UInt8)
  | pop
  | reserve (additional : Nat)

/-- The call, and the element pointer it hands out. -/
def handOut (z : SizeT) (junk : Nat → Nat → UInt8) (fuel : Nat) (s : St) : Use → Except Fault (St × Option Ptr)
  | .write _ => writePtr z junk fuel s
  | .pop => .ok (popPtr z s)
  | .reserve additional => do return (← reserve z junk fuel s additional, none)

/-- The call, and what `A3_VEC_PUSH` writes through the pointer. -/
def use (z : SizeT) (junk : Nat → Nat → UInt8) (fuel : Nat) (s : St) : Use → Except Fault St
  | .write elem => push z junk fuel s elem
  | .pop => .ok (popPtr z s).1
  | .reserve additional => reserve z junk fuel s additional

/-- There is room for `n` elements more, or the number of bytes requested for them is a `size_t`. -/
def Room (w : Nat) (s : St) (n : Nat) : Prop :=
  s.vec.len + n ≤ s.vec.cap ∨
    match s.vec.buf with
    | none => n * s.vec.elemSize < 2 ^ w
    | some _ => ∃ j, s.vec.len + n ≤ s.vec.cap * 2 ^ j ∧ s.vec.cap * 2 ^ j * s.vec.elemSize < 2 ^ w

def Use.Fits (w : Nat) (s : St) : Use → Prop
  | .write elem => elem.length = s.vec.elemSize ∧ Room w s 1
  | .pop => True
  | .reserve additional => Room w s additional

def UseStep (w : Nat) (junk : Nat → Nat → UInt8) (s : St) (u : Use) (s' : St) : Prop :=
  u.Fits w s ∧ ∃ k, ∀ fuel, k ≤ fuel → use (.bits w) junk fuel s u = .ok s'

/-- The element at `p` is within the bytes that were requested for the vector's storage. -/
def Requested (s : St) (p : Ptr) : Prop :=
  s.vec.buf = some p.1 ∧ ∃ data, Owns s.heap p.1 data ∧ p.2 + s.vec.elemSize ≤ data.length

/-! ## Arithmetic that does not overflow -/

theorem bits_add (h : m + n < 2 ^ w) : (SizeT.bits w).add m n = m + n := Nat.mod_eq_of_lt h

theorem bits_mul (h : m * n < 2 ^ w) : (SizeT.bits w).mul m n = m * n := Nat.mod_eq_of_lt h

theorem bits_sub (hle : n ≤ m) (h : m < 2 ^ w) : (SizeT.bits w).sub m n = m - n := by
  unfold SizeT.bits
  simp only
  rw [Nat.sub_add_comm hle, Nat.add_mod_right, Nat.mod_eq_of_lt (by omega)]

theorem alignUp_bits (hsize : 0 < size) (h : size + (2 ^ k - 1) < 2 ^ w) :
    alignUp (.bits w) size (2 ^ k) = roundUp size (2 ^ k) := by
  have hpos : 0 < 2 ^ k := Nat.two_pow_pos k
  have hadd : (SizeT.bits w).sub ((SizeT.bits w).add size (2 ^ k)) 1 = size + 2 ^ k - 1 := by
    -- the sum may be `2 ^ w`, the difference is not
    by_cases hlt : size + 2 ^ k < 2 ^ w
    · rw [bits_add hlt, bits_sub (by omega) hlt]
    · have heq : size + 2 ^ k = 2 ^ w := by omega
      have hone : 2 ^ w - 1 < 2 ^ w := by omega
      simp only [SizeT.bits, heq, Nat.mod_self, Nat.zero_add, Nat.mod_eq_of_lt hone]
  rw [alignUp, alignDown, hadd, bits_sub hpos (by omega), sub_mask_eq_roundUp]

theorem growCap_bits (hlen : m ≤ cap) (hroom : m + n ≤ cap * 2 ^ j) (hlt : cap * 2 ^ j < 2 ^ w) :
    growCap (.bits w) m n fuel cap = growCap .exact m n fuel cap := by
  induction fuel generalizing cap j with
  | zero => rfl
  | succ fuel ih =>
    have hcap : cap ≤ cap * 2 ^ j := Nat.le_mul_of_pos_right cap (Nat.two_pow_pos j)
    rw [growCap, growCap, bits_sub hlen (by omega), exact_sub, exact_mul]
    by_cases hmore : cap - m < n
    · rw [if_pos hmore, if_pos hmore]
      cases j with
      | zero => omega
      | succ j =>
        rw [Nat.pow_succ', ← Nat.mul_assoc] at hroom hlt
        have hdouble : cap * 2 ≤ cap * 2 * 2 ^ j := Nat.le_mul_of_pos_right _ (Nat.two_pow_pos j)
        rw [bits_mul (by omega)]
        exact ih (by omega) hroom hlt
    · rw [if_neg hmore, if_neg hmore]

theorem growCap_le {cap' : Nat} (hroom : m + n ≤ cap * 2 ^ j) (h : growCap .exact m n fuel cap = .ok cap') :
    cap' ≤ cap * 2 ^ j := by
  induction fuel generalizing cap j with
  | zero => cases h
  | succ fuel ih =>
    rw [growCap, exact_sub, exact_mul] at h
    by_cases hmore : cap - m < n
    · rw [if_pos hmore] at h
      cases j with
      | zero => omega
      | succ j =>
        rw [Nat.pow_succ', ← Nat.mul_assoc] at hroom ⊢
        exact ih hroom h
    · rw [if_neg hmore] at h
      cases h
      exact Nat.le_mul_of_pos_right _ (Nat.two_pow_pos j)

/-! ## Vectors whose storage has room for their capacity -/

/-- A vector that holds elements of the rounded size, in storage of less than `2 ^ w` bytes. -/
structure Sound (w size align : Nat) (s : St) : Prop where
  holds : ∃ xs, Holds size align s xs
  bytes : s.vec.cap * size < 2 ^ w

theorem reserve_bits (h : Holds size align s xs) (hbytes : s.vec.cap * size < 2 ^ w) (hroom : Room w s n) :
    reserve (.bits w) junk fuel s n = reserve .exact junk fuel s n ∧
      ∀ s', reserve .exact junk fuel s n = .ok s' → s'.vec.cap * size < 2 ^ w := by
  have hsize := h.size_pos
  have hlen := h.len_le
  by_cases hfits : s.vec.len + n ≤ s.vec.cap
  · have hcap : s.vec.cap ≤ s.vec.cap * size := Nat.le_mul_of_pos_right _ hsize
    have hexact : reserve .exact junk fuel s n = .ok s := if_pos hfits
    refine ⟨?_, fun s' hres => ?_⟩
    · rw [hexact, reserve, bits_add (by omega), if_pos hfits]
    · rw [hexact] at hres
      cases hres
      exact hbytes
  · have hroom := hroom.resolve_left hfits
    cases hb : s.vec.buf with
    | none =>
      have hcap := h.unset hb
      rw [hb, h.elemSize] at hroom
      have hn : n ≤ n * size := Nat.le_mul_of_pos_right n hsize
      have hadd : (SizeT.bits w).add s.vec.len n = s.vec.len + n := bits_add (by simp only at hroom; omega)
      refine ⟨?_, fun s' hres => ?_⟩
      · simp only [reserve, hadd, exact_add, if_neg hfits, hb, h.elemSize, bits_mul hroom, exact_mul]
      · simp only [reserve, exact_add, if_neg hfits, hb, h.elemSize, exact_mul] at hres
        obtain ⟨_, _, hres⟩ := bind_ok hres
        cases hres
        exact hroom
    | some b =>
      rw [hb, h.elemSize] at hroom
      obtain ⟨j, hle, hlt⟩ := hroom
      have hpow : s.vec.cap * 2 ^ j ≤ s.vec.cap * 2 ^ j * size := Nat.le_mul_of_pos_right _ hsize
      have hadd : (SizeT.bits w).add s.vec.len n = s.vec.len + n := bits_add (by omega)
      have hgrow : growCap (.bits w) s.vec.len n fuel s.vec.cap = growCap .exact s.vec.len n fuel s.vec.cap :=
        growCap_bits hlen hle (by omega)
      have hold : s.vec.len * size < 2 ^ w := Nat.lt_of_le_of_lt (Nat.mul_le_mul_right size hlen) hbytes
      cases hnew : growCap .exact s.vec.len n fuel s.vec.cap with
      | error e =>
        rw [hnew] at hgrow
        refine ⟨?_, fun s' hres => ?_⟩
        · simp only [reserve, hadd, exact_add, if_neg hfits, hb, hgrow, hnew]
          rfl
        · simp only [reserve, exact_add, if_neg hfits, hb, hnew] at hres
          cases hres
      | ok cap' =>
        rw [hnew] at hgrow
        have hcap' : cap' * size < 2 ^ w :=
          Nat.lt_of_le_of_lt (Nat.mul_le_mul_right size (growCap_le hle hnew)) hlt
        refine ⟨?_, fun s' hres => ?_⟩
        · simp only [reserve, hadd, exact_add, if_neg hfits, hb, hgrow, hnew, ok_bind, h.elemSize, bits_mul hcap', exact_mul,
            bits_mul hold]
        · simp only [reserve, exact_add, if_neg hfits, hb, hnew, ok_bind] at hres
          obtain ⟨_, _, hres⟩ := bind_ok hres
          obtain ⟨_, _, hres⟩ := bind_ok hres
          obtain ⟨_, _, hres⟩ := bind_ok hres
          obtain ⟨_, _, hres⟩ := bind_ok hres
          cases hres
          exact hcap'

/-- `a3_vec_reserve` returns, and has requested enough. -/
theorem reserve_sound (junk : Nat → Nat → UInt8) (h : Holds size align s xs) (hbytes : s.vec.cap * size < 2 ^ w)
    (hroom : Room w s n) :
    ∃ k s', (∀ fuel, k ≤ fuel → reserve (.bits w) junk fuel s n = .ok s' ∧ reserve .exact junk fuel s n = .ok s') ∧
      Holds size align s' xs ∧ s'.vec.cap * size < 2 ^ w ∧ n ≤ s'.vec.cap - s'.vec.len ∧
      (s'.vec.buf = none ↔ s.vec.buf = none ∧ n = 0) := by
  obtain ⟨k, s', hres, h', hmore, hbuf⟩ := reserve_spec junk h n
  refine ⟨k, s', fun fuel hfuel => ?_, h', ?_, hmore, hbuf⟩
  · exact ⟨(reserve_bits h hbytes hroom).1.trans (hres fuel hfuel), hres fuel hfuel⟩
  · exact (reserve_bits h hbytes hroom).2 s' (hres k (Nat.le_refl k))

/-- The place of an element that the capacity covers, however many there are. -/
theorem requested_of_lt (h : Holds size align s xs) (hb : s.vec.buf = some b) (hi : i < s.vec.cap) (len : Nat) :
    Requested { s with vec := { s.vec with len := len } } (b, i * size) := by
  obtain ⟨_, _, data, howns, hdata, _⟩ := h.storage b hb
  refine ⟨hb, data, howns, ?_⟩
  have helem : i * size + s.vec.elemSize ≤ data.length := by
    rw [hdata, h.elemSize, ← Nat.succ_mul]
    exact Nat.mul_le_mul_right size hi
  exact helem

/-- `a3_vec_write_ptr_` returns a place within the storage. -/
theorem writePtr_sound (junk : Nat → Nat → UInt8) (h : Holds size align s xs) (hbytes : s.vec.cap * size < 2 ^ w)
    (hroom : Room w s 1) :
    ∃ k s1 p, (∀ fuel, k ≤ fuel → writePtr (.bits w) junk fuel s = .ok (s1, some p) ∧
        writePtr .exact junk fuel s = .ok (s1, some p)) ∧ Requested s1 p ∧ s1.vec.cap * size < 2 ^ w := by
  obtain ⟨k, s', hres, h', hbytes', hmore, hbuf⟩ := reserve_sound junk h hbytes hroom
  cases hb : s'.vec.buf with
  | none => exact absurd (hbuf.1 hb).2 (by decide)
  | some b =>
    have hsize := h'.size_pos
    have hlt : s'.vec.len < s'.vec.cap := by omega
    have hcap : s'.vec.cap ≤ s'.vec.cap * size := Nat.le_mul_of_pos_right _ hsize
    have hoff : s'.vec.len * size < 2 ^ w :=
      Nat.lt_of_le_of_lt (Nat.mul_le_mul_right size (Nat.le_of_lt hlt)) hbytes'
    have hin : ¬s'.vec.len > s'.vec.cap := Nat.not_lt.2 (Nat.le_of_lt hlt)
    refine ⟨k, { s' with vec := { s'.vec with len := s'.vec.len + 1 } }, (b, s'.vec.len * size), fun fuel hfuel => ?_, ?_,
      hbytes'⟩
    · obtain ⟨hbits, hexact⟩ := hres fuel hfuel
      constructor
      · simp only [writePtr, hbits, ok_bind, pure_ok, bits_add (show s'.vec.len + 1 < 2 ^ w by omega), index, hb, if_neg hin,
          h'.elemSize, bits_mul hoff]
      · simp only [writePtr, hexact, ok_bind, pure_ok, exact_add, index, hb, if_neg hin, h'.elemSize, exact_mul]
    · exact requested_of_lt h' hb hlt _

theorem popPtr_sound (h : Holds size align s xs) (hbytes : s.vec.cap * size < 2 ^ w)
    (hpop : popPtr (.bits w) s = (s1, some p)) : Requested s1 p := by
  unfold popPtr at hpop
  by_cases hempty : s.vec.buf = none ∨ s.vec.len = 0
  · rw [if_pos hempty] at hpop
    cases hpop
  · rw [if_neg hempty] at hpop
    obtain ⟨hset, hlen⟩ := not_or.1 hempty
    obtain ⟨b, hb⟩ := Option.ne_none_iff_exists'.1 hset
    have hle := h.len_le
    have hoff : (s.vec.len - 1) * size < 2 ^ w :=
      Nat.lt_of_le_of_lt (Nat.mul_le_mul_right size (by omega)) hbytes
    have hin : ¬s.vec.len - 1 > s.vec.cap := by omega
    have hindex : index (.bits w) { s.vec with len := s.vec.len - 1 } (s.vec.len - 1) = some (b, (s.vec.len - 1) * size) := by
      simp only [index, hb, if_neg hin, h.elemSize, bits_mul hoff]
    simp only [hindex] at hpop
    cases hpop
    exact requested_of_lt h hb (by omega) _

theorem popPtr_fst (z z' : SizeT) (s : St) : (popPtr z s).1 = (popPtr z' s).1 := by
  unfold popPtr
  split
  · rfl
  · rfl

/-- What is left when `a3_vec_pop_` has been called. -/
theorem popPtr_holds (h : Holds size align s xs) (z : SizeT) :
    ∃ ys, Holds size align (popPtr z s).1 ys ∧ (popPtr z s).1.vec.cap = s.vec.cap := by
  rcases List.eq_nil_or_concat xs with rfl | ⟨ys, x, rfl⟩
  · have hlen : s.vec.len = 0 := h.len
    refine ⟨[], ?_, ?_⟩
    · rwa [popPtr, if_pos (Or.inr hlen)]
    · rw [popPtr, if_pos (Or.inr hlen)]
  · rw [List.concat_eq_append] at h
    obtain ⟨s', hpop, h', _⟩ := pop_spec h
    have hfst : s' = (popPtr z s).1 := by
      rw [popPtr_fst z .exact]
      cases hptr : popPtr .exact s with
      | mk s2 p =>
        simp only [pop, hptr] at hpop
        split at hpop
        · cases hpop
        · cases p with
          | none => cases hpop
          | some p =>
            obtain ⟨_, _, hpop⟩ := bind_ok hpop
            cases hpop
            rfl
    refine ⟨ys, hfst ▸ h', ?_⟩
    unfold popPtr
    split
    · rfl
    · rfl

namespace Sound

/-- A pointer handed out by the next call. -/
theorem requested {u : Use} (h : Sound w size align s) (hfits : u.Fits w s)
    (hret : ∃ k, ∀ fuel, k ≤ fuel → handOut (.bits w) junk fuel s u = .ok (s1, some p)) : Requested s1 p := by
  obtain ⟨xs, hx⟩ := h.holds
  cases u with
  | write elem =>
    obtain ⟨k, s', p', hwrite, hin, _⟩ := writePtr_sound junk hx h.bytes hfits.2
    have heq := Fuel.unique hret ⟨k, fun fuel hfuel => (hwrite fuel hfuel).1⟩
    cases Except.ok.inj heq
    exact hin
  | pop =>
    obtain ⟨k, hpop⟩ := hret
    exact popPtr_sound hx h.bytes (Except.ok.inj (hpop k (Nat.le_refl k)))
  | reserve additional =>
    obtain ⟨k, hreserve⟩ := hret
    obtain ⟨_, _, hnone⟩ := bind_ok (hreserve k (Nat.le_refl k))
    cases hnone

theorem step {u : Use} (h : Sound w size align s) (hstep : UseStep w junk s u s') : Sound w size align s' := by
  obtain ⟨xs, hx⟩ := h.holds
  obtain ⟨hfits, hret⟩ := hstep
  cases u with
  | write elem =>
    obtain ⟨helem, hroom⟩ := hfits
    rw [hx.elemSize] at helem
    obtain ⟨k, s1, p, hwrite, _, hbytes⟩ := writePtr_sound junk hx h.bytes hroom
    obtain ⟨k', s2, hpush, hx', _⟩ := push_spec junk hx helem
    have hsame : ∀ fuel, max k k' ≤ fuel → push (.bits w) junk fuel s elem = .ok s2 := by
      intro fuel hfuel
      obtain ⟨hbits, hexact⟩ := hwrite fuel (Nat.le_trans (Nat.le_max_left k k') hfuel)
      rw [← hpush fuel (Nat.le_trans (Nat.le_max_right k k') hfuel), push, push, hbits, hexact]
    obtain rfl : s' = s2 := Except.ok.inj (Fuel.unique hret ⟨_, hsame⟩)
    refine ⟨⟨_, hx'⟩, ?_⟩
    -- the write leaves the vector as `a3_vec_write_ptr_` returned it
    have hlast := hpush (max k k') (Nat.le_max_right k k')
    rw [push, (hwrite (max k k') (Nat.le_max_left k k')).2, ok_bind] at hlast
    simp only at hlast
    split at hlast
    · cases hlast
    · obtain ⟨_, _, hlast⟩ := bind_ok hlast
      cases hlast
      exact hbytes
  | pop =>
    obtain ⟨k, hpop⟩ := hret
    cases hpop k (Nat.le_refl k)
    obtain ⟨ys, hy, hcap⟩ := popPtr_holds hx (.bits w)
    exact ⟨⟨ys, hy⟩, hcap ▸ h.bytes⟩
  | reserve additional =>
    obtain ⟨k, s1, hres, hx', hbytes, _⟩ := reserve_sound junk hx h.bytes hfits
    obtain rfl : s' = s1 := Except.ok.inj (Fuel.unique hret ⟨k, fun fuel hfuel => (hres fuel hfuel).1⟩)
    exact ⟨⟨xs, hx'⟩, hbytes⟩

end Sound

/-! ## The storage that `a3_vec_init_` requests -/

/-- The vector after `a3_vec_init_` and `len` elements that fit: `cap` times the size before rounding has been requested. -/
def firstBlock (size align cap len : Nat) (data : List UInt8) : St := ⟨⟨cap, len, size, align, some 0⟩, [⟨data, true⟩]⟩

theorem init_bits (junk : Nat → Nat → UInt8) (hsize : 0 < size) (hup : size + (2 ^ k - 1) < 2 ^ w)
    (hcap : cap * size < 2 ^ w) :
    init (.bits w) junk size (2 ^ k) cap =
      .ok (if cap = 0 then ⟨⟨0, 0, roundUp size (2 ^ k), 2 ^ k, none⟩, []⟩
        else firstBlock (roundUp size (2 ^ k)) (2 ^ k) cap 0 (fresh junk 0 (cap * size))) := by
  have hpos : 0 < 2 ^ k := Nat.two_pow_pos k
  have hasserts : ¬¬(0 < size ∧ 0 < 2 ^ k) := fun h => h ⟨hsize, hpos⟩
  rw [init, if_neg hasserts, alignUp_bits hsize hup]
  by_cases hzero : cap = 0
  · subst hzero
    rfl
  · have halloc := alloc_eq junk [] (Nat.mul_pos (Nat.pos_of_ne_zero hzero) hsize) hpos
    simp only [ne_eq, hzero, not_false_eq_true, if_true, bits_mul hcap, halloc, ok_bind, pure_ok]
    rfl

/-- The storage has room for the capacity if the size is as it was given, or if there is none yet. -/
theorem init_sound (hsize : 0 < size) (hup : size + (2 ^ k - 1) < 2 ^ w) (hcap : cap * size < 2 ^ w)
    (hfits : 2 ^ k ∣ size ∨ cap = 0) (h : init (.bits w) junk size (2 ^ k) cap = .ok s) :
    Sound w (roundUp size (2 ^ k)) (2 ^ k) s := by
  have hpos : 0 < 2 ^ k := Nat.two_pow_pos k
  have hround : 0 < roundUp size (2 ^ k) := Nat.lt_of_lt_of_le hsize (le_roundUp hpos size)
  rw [init_bits junk hsize hup hcap] at h
  cases h
  by_cases hzero : cap = 0
  · rw [if_pos hzero]
    refine ⟨⟨[], hround, hpos, rfl, rfl, rfl, fun _ hx => (List.not_mem_nil hx).elim, Nat.le_refl 0, fun _ => rfl,
      fun _ hb => nomatch hb⟩, ?_⟩
    rw [Nat.zero_mul]
    exact Nat.two_pow_pos w
  · have heq := roundUp_eq hpos (hfits.resolve_right hzero)
    rw [if_neg hzero, heq]
    refine ⟨⟨[], hsize, hpos, rfl, rfl, rfl, fun _ hx => (List.not_mem_nil hx).elim, Nat.zero_le cap,
      (fun hb => nomatch hb), ?_⟩, hcap⟩
    rintro _ ⟨⟩
    exact ⟨rfl, Nat.pos_of_ne_zero hzero, _, rfl, length_fresh, by simp⟩

section First
variable {data : List UInt8} {len : Nat}

theorem room_firstBlock (hlt : len < cap) : Room w (firstBlock size align cap len data) 1 := Or.inl hlt

/-- Below the capacity `a3_vec_write_ptr_` returns the next place, whether the storage reaches it or not. -/
theorem writePtr_firstBlock (hlt : len < cap) (hcap : cap < 2 ^ w) (hoff : len * size < 2 ^ w) (fuel : Nat) :
    writePtr (.bits w) junk fuel (firstBlock size align cap len data) =
      .ok (firstBlock size align cap (len + 1) data, some (0, len * size)) := by
  have hadd : (SizeT.bits w).add len 1 = len + 1 := bits_add (by omega)
  have hfits : (SizeT.bits w).add (firstBlock size align cap len data).vec.len 1 ≤
      (firstBlock size align cap len data).vec.cap := by
    simp only [firstBlock, hadd]
    exact hlt
  have hin : ¬len > cap := by omega
  simp only [writePtr, reserve, if_pos hfits, ok_bind, pure_ok]
  simp only [firstBlock, index, if_neg hin, hadd, bits_mul hoff]

/-- An element that the storage reaches is written. -/
theorem push_firstBlock (hlt : len < cap) (hcap : cap < 2 ^ w) (hoff : len * size < 2 ^ w)
    (hin : len * size + size ≤ data.length) (helem : elem.length = size) :
    ∃ data', data'.length = data.length ∧
      ∀ fuel, push (.bits w) junk fuel (firstBlock size align cap len data) elem =
        .ok (firstBlock size align cap (len + 1) data') := by
  have hstore : store (firstBlock size align cap (len + 1) data).heap (0, len * size) elem =
      .ok [⟨splice data (len * size) elem, true⟩] := store_eq (p := (0, len * size)) rfl (by rw [helem]; exact hin)
  refine ⟨splice data (len * size) elem, length_splice (by omega), fun fuel => ?_⟩
  rw [push, writePtr_firstBlock hlt hcap hoff, ok_bind]
  have hlong : ¬elem.length < (firstBlock size align cap (len + 1) data).vec.elemSize := by
    simp only [firstBlock]
    omega
  have hall : elem.take (firstBlock size align cap (len + 1) data).vec.elemSize = elem := List.take_of_length_le (by
    simp only [firstBlock]
    omega)
  simp only [if_neg hlong, hall, hstore, ok_bind]
  rfl

/-- Elements are written one after the other as far as the storage reaches. -/
theorem run_firstBlock (hcap : cap < 2 ^ w) (hbytes : data.length < 2 ^ w) (n : Nat) (hn : n < cap)
    (hin : n * size ≤ data.length) :
    ∃ calls data', data'.length = data.length ∧
      Run (UseStep w junk) (firstBlock size align cap 0 data) calls (firstBlock size align cap n data') := by
  induction n with
  | zero => exact ⟨[], data, rfl, .nil _⟩
  | succ n ih =>
    rw [Nat.succ_mul] at hin
    obtain ⟨calls, data1, hlen1, hrun⟩ := ih (by omega) (by omega)
    obtain ⟨data', hlen', hpush⟩ : ∃ data', data'.length = data1.length ∧
        ∀ fuel, push (.bits w) junk fuel (firstBlock size align cap n data1) (List.replicate size 0) =
          .ok (firstBlock size align cap (n + 1) data') :=
      push_firstBlock (by omega) hcap (by omega) (by omega) List.length_replicate
    have hstep : UseStep w junk (firstBlock size align cap n data1) (.write (List.replicate size 0))
        (firstBlock size align cap (n + 1) data') :=
      ⟨⟨List.length_replicate, room_firstBlock (by omega)⟩, 0, fun fuel _ => hpush fuel⟩
    exact ⟨calls ++ [.write (List.replicate size 0)], data', hlen'.trans hlen1, hrun.concat hstep⟩

/-- Elements that need more than was requested: the first that the storage does not reach is handed out all the same. -/
theorem not_requested (junk : Nat → Nat → UInt8) (hsize : 0 < size) (hcap : cap < 2 ^ w) (hbytes : data.length < 2 ^ w)
    (hmore : data.length < cap * size) :
    ∃ calls s1 s2 p, Run (UseStep w junk) (firstBlock size align cap 0 data) calls s1 ∧
      (Use.write (List.replicate size 0)).Fits w s1 ∧
      (∀ fuel, handOut (.bits w) junk fuel s1 (.write (List.replicate size 0)) = .ok (s2, some p)) ∧ ¬Requested s2 p := by
  have hn : data.length / size < cap := (Nat.div_lt_iff_lt_mul hsize).2 hmore
  have hin : data.length / size * size ≤ data.length := Nat.div_mul_le_self data.length size
  obtain ⟨calls, data', hlen, hrun⟩ := run_firstBlock hcap hbytes (data.length / size) hn hin
  refine ⟨calls, _, _, _, hrun, ⟨List.length_replicate, room_firstBlock hn⟩,
    fun fuel => writePtr_firstBlock hn hcap (by omega) fuel, ?_⟩
  rintro ⟨_, _, howns, hend⟩
  cases howns
  have hfirst : data.length / size * size + size ≤ data'.length := hend
  have hlt : data.length < data.length / size * size + size := Nat.lt_div_mul_add hsize
  omega

end First

/-- **Every element lies within the storage if the size needs no rounding, or if the first storage is requested by
`a3_vec_reserve`.** Otherwise there is a run at the end of which `a3_vec_write_ptr_` returns a pointer to an element that is
not within the bytes requested. -/
theorem elements_in_storage_iff (w : Nat) (junk : Nat → Nat → UInt8) {size k cap : Nat} (hsize : 0 < size)
    (hup : size + (2 ^ k - 1) < 2 ^ w) (hcap : cap * size < 2 ^ w) :
    (∀ s0 calls s u s1 p, init (.bits w) junk size (2 ^ k) cap = .ok s0 → Run (UseStep w junk) s0 calls s → u.Fits w s →
      (∃ n, ∀ fuel, n ≤ fuel → handOut (.bits w) junk fuel s u = .ok (s1, some p)) → Requested s1 p) ↔
      2 ^ k ∣ size ∨ cap = 0 := by
  have hpos : 0 < 2 ^ k := Nat.two_pow_pos k
  constructor
  · intro hall
    by_contra hneither
    obtain ⟨hdvd, hzero⟩ := not_or.1 hneither
    have hround : size < roundUp size (2 ^ k) := lt_roundUp hpos hdvd
    have hfirst : cap ≤ cap * size := Nat.le_mul_of_pos_right cap hsize
    have hmore : cap * size < cap * roundUp size (2 ^ k) := Nat.mul_lt_mul_of_pos_left hround (Nat.pos_of_ne_zero hzero)
    have hlen : (fresh junk 0 (cap * size)).length = cap * size := length_fresh
    obtain ⟨calls, s, s1, p, hrun, hfits, hwrite, hout⟩ :=
      not_requested junk (by omega) (by omega) (hlen.symm ▸ hcap) (hlen.symm ▸ hmore)
    have hinit := init_bits junk hsize hup hcap
    rw [if_neg hzero] at hinit
    exact hout (hall _ calls s _ s1 p hinit hrun hfits ⟨0, fun fuel _ => hwrite fuel⟩)
  · intro hor s0 calls s u s1 p hinit hrun hfits hret
    have hsound : Sound w (roundUp size (2 ^ k)) (2 ^ k) s :=
      hrun.invariant (fun _ _ _ h hs => h.step hs) (init_sound hsize hup hcap hor hinit)
    exact hsound.requested hfits hret

/-- Room for one element of four bytes at first, and two elements written. -/
theorem elements_in_storage_iff_four :
    ∃ s0 s s1, init (.bits 64) (fun _ _ => 0) 4 (2 ^ 2) 1 = .ok s0 ∧
      Run (UseStep 64 fun _ _ => 0) s0 [.write [1, 0, 0, 0], .write [2, 0, 0, 0]] s ∧
      (∃ n, ∀ fuel, n ≤ fuel → handOut (.bits 64) (fun _ _ => 0) fuel s .pop = .ok (s1, some (1, 4))) ∧
      Requested s1 (1, 4) := by
  have h1 : UseStep 64 (fun _ _ => 0) ⟨⟨1, 0, 4, 4, some 0⟩, [⟨[0, 0, 0, 0], true⟩]⟩ (.write [1, 0, 0, 0])
      ⟨⟨1, 1, 4, 4, some 0⟩, [⟨[1, 0, 0, 0], true⟩]⟩ := ⟨⟨rfl, Or.inl (by decide)⟩, 0, fun _ _ => rfl⟩
  have h2 : UseStep 64 (fun _ _ => 0) ⟨⟨1, 1, 4, 4, some 0⟩, [⟨[1, 0, 0, 0], true⟩]⟩ (.write [2, 0, 0, 0])
      ⟨⟨2, 2, 4, 4, some 1⟩, [⟨[1, 0, 0, 0], false⟩, ⟨[1, 0, 0, 0, 2, 0, 0, 0], true⟩]⟩ :=
    ⟨⟨rfl, Or.inr ⟨1, by decide, by decide⟩⟩, 2, Fuel.from_add 2 fun _ => rfl⟩
  have hrun := Run.cons h1 (Run.single h2)
  have hiff := elements_in_storage_iff 64 (fun _ _ => 0) (k := 2) (show 0 < 4 by decide) (by decide)
    (show 1 * 4 < 2 ^ 64 by decide)
  have hpop : ∀ fuel, 0 ≤ fuel → handOut (.bits 64) (fun _ _ => 0) fuel
      ⟨⟨2, 2, 4, 4, some 1⟩, [⟨[1, 0, 0, 0], false⟩, ⟨[1, 0, 0, 0, 2, 0, 0, 0], true⟩]⟩ .pop =
        .ok (⟨⟨2, 1, 4, 4, some 1⟩, [⟨[1, 0, 0, 0], false⟩, ⟨[1, 0, 0, 0, 2, 0, 0, 0], true⟩]⟩, some (1, 4)) :=
    fun _ _ => rfl
  exact ⟨_, _, _, rfl, hrun, ⟨0, hpop⟩, hiff.2 (Or.inl (by decide)) _ _ _ .pop _ _ rfl hrun trivial ⟨0, hpop⟩⟩

/-- Room for one element of three bytes with alignment two: three bytes are requested, and the element takes four. -/
theorem first_element_outside :
    ∃ s0 s1 p, init (.bits 64) (fun _ _ => 0) 3 (2 ^ 1) 1 = .ok s0 ∧ s0.vec.elemSize = 4 ∧
      (Use.write [1, 2, 3, 0]).Fits 64 s0 ∧
      (∀ fuel, handOut (.bits 64) (fun _ _ => 0) fuel s0 (.write [1, 2, 3, 0]) = .ok (s1, some p)) ∧ ¬Requested s1 p := by
  refine ⟨firstBlock 4 2 1 0 [0, 0, 0], firstBlock 4 2 1 1 [0, 0, 0], (0, 0), rfl, rfl, ⟨rfl, room_firstBlock (by decide)⟩,
    fun fuel => rfl, ?_⟩
  rintro ⟨_, _, howns, hend⟩
  cases howns
  exact absurd hend (by decide)

end A3Vec
