import LibA3.Buf.Alloc

/-!
# What a call that has returned has done

In any state of the buffer, with or without its assertions: what can be said of the indices, and what `false` comes
from. `Ensures` lists the ways out of `a3_buf_ensure_cap` with the checks that lead there.
-/

namespace A3Buf

open A3Str Fallible Mem

variable {env : Env} {b b' : A3Buffer} {n : Nat} {ok : Bool}

theorem resetIfEmpty_ok (h : resetIfEmpty env b = .ok (ok, b')) : b' = settle b := by
  obtain ⟨_, _, h⟩ := bind_ok h
  by_cases hne : b.head ≠ b.tail
  · rw [if_pos hne] at h
    cases h
    exact (settle_nonempty hne).symm
  · rw [if_neg hne] at h
    obtain ⟨b1, hb1, h⟩ := bind_ok h
    obtain ⟨_, _, hb1⟩ := bind_ok hb1
    cases hb1
    cases h
    exact (settle_empty (not_not.1 hne)).symm

theorem space_ok {room : Nat} (h : space env b = .ok (room, b')) :
    b' = settle b ∧ room = usub b.data.len (settle b).tail := by
  obtain ⟨_, _, h⟩ := bind_ok h
  obtain ⟨⟨r, b1⟩, hb1, h⟩ := bind_ok h
  cases h
  rw [resetIfEmpty_ok hb1, settle_data]
  exact ⟨rfl, rfl⟩

theorem len_ok {r : Nat} (h : len env b = .ok r) : r = usub b.tail b.head := by
  obtain ⟨_, _, h⟩ := bind_ok h
  cases h
  rfl

theorem cap_ok {r : Nat} (h : cap env b = .ok r) : r = usub b.data.len (usub b.tail b.head) := by
  obtain ⟨_, _, h⟩ := bind_ok h
  obtain ⟨l, hl, h⟩ := bind_ok h
  cases h
  rw [len_ok hl]

theorem store_ok {s s' : A3String} {off : Nat} {src : List UInt8} (h : s.store off src = .ok s') :
    s.ptr ≠ 0 ∧ off + src.length ≤ s.bytes.length ∧ s' = { s with bytes := splice s.bytes off src } := by
  unfold A3String.store at h
  split at h
  · cases h
  · next hp =>
    split at h
    · next hle =>
      cases h
      exact ⟨hp, hle, rfl⟩
    · cases h

/-- `a3_buf_compact` (`buffer.h:148`) -/
theorem compact_ok (h : compact env b = .ok (ok, b')) : ok = true ∧ b'.head = 0 ∧ b'.tail = usub b.tail b.head ∧
    b'.data.len = b.data.len ∧ b'.maxCap = b.maxCap := by
  obtain ⟨_, _, h⟩ := bind_ok h
  obtain ⟨_, _, h⟩ := bind_ok h
  obtain ⟨_, _, h⟩ := bind_ok h
  obtain ⟨_, _, h⟩ := bind_ok h
  obtain ⟨data, hdata, h⟩ := bind_ok h
  obtain ⟨hp, _, rfl⟩ := store_ok hdata
  rw [if_neg hp] at h
  cases h
  exact ⟨rfl, rfl, rfl, rfl, rfl⟩

/-- The block got by a reallocation has room for the NUL. -/
theorem growTo_ok (h : growTo env b n = .ok (ok, b')) : ok = true ∧ b'.head = b.head ∧ b'.tail = b.tail ∧
    b'.maxCap = b.maxCap ∧ b'.data.len + 1 < 2 ^ 64 ∧ ∃ newCap,
      growLoop 65 (max (max b.data.len 8) b.maxCap) (sz (b.data.len + n)) = .ok newCap ∧
        b'.data.len = min newCap b.maxCap := by
  obtain ⟨newCap, hloop, h⟩ := bind_ok h
  obtain ⟨⟨newData, data⟩, hdata, h⟩ := bind_ok h
  obtain ⟨ret, hret, hdata⟩ := bind_ok hdata
  obtain ⟨hp, hfit, rfl⟩ := store_ok hret
  cases hdata
  simp only at h hfit
  rw [if_neg hp] at h
  cases h
  rw [length_resize, List.length_singleton] at hfit
  refine ⟨rfl, rfl, rfl, rfl, ?_, newCap, hloop, rfl⟩
  exact Nat.lt_of_le_of_lt hfit (Nat.mod_lt _ (by decide))

/-- The ways out of `a3_buf_ensure_cap(n)`. -/
inductive Ensures (env : Env) (b : A3Buffer) (n : Nat) : Bool → A3Buffer → Prop
  | room : n ≤ usub b.data.len b.tail → Ensures env b n true b
  | refused : usub b.data.len b.tail < n → b.maxCap < sz (usub b.tail b.head + n) → Ensures env b n false b
  | compacted {b' : A3Buffer} : usub b.data.len b.tail < n → sz (usub b.tail b.head + n) ≤ b.maxCap →
      n ≤ usub b.data.len (usub b.tail b.head) → compact env b = .ok (true, b') → Ensures env b n true b'
  | grown {b' : A3Buffer} : sz (usub b.tail b.head + n) ≤ b.maxCap → usub b.data.len (usub b.tail b.head) < n →
      growTo env b n = .ok (true, b') → Ensures env b n true b'

theorem ensureCap_ok (h : ensureCap env b n = .ok (ok, b')) : Ensures env (settle b) n ok b' := by
  obtain ⟨_, _, h⟩ := bind_ok h
  obtain ⟨⟨room, b1⟩, hspace, h⟩ := bind_ok h
  obtain ⟨rfl, rfl⟩ := space_ok hspace
  rw [← settle_data b] at h
  simp only at h
  split at h
  · next hroom =>
    cases h
    exact .room hroom
  · next hroom =>
    have hshort := Nat.lt_of_not_le hroom
    obtain ⟨l, hl, h⟩ := bind_ok h
    rw [len_ok hl] at h
    split at h
    · next hmany =>
      cases h
      exact .refused hshort hmany
    · next hmany =>
      have hle := Nat.le_of_not_lt hmany
      obtain ⟨c, hc, h⟩ := bind_ok h
      rw [cap_ok hc] at h
      split at h
      · next hcap =>
        obtain ⟨rfl, _⟩ := compact_ok h
        exact .compacted hshort hle hcap h
      · next hcap =>
        have hgrow : growTo env (settle b) n = .ok (ok, b') := h
        obtain ⟨rfl, _⟩ := growTo_ok hgrow
        exact .grown hle (Nat.lt_of_not_le hcap) hgrow

/-- `a3_buf_ensure_cap` refuses only what it has no room for and what is too much, and leaves the buffer alone. -/
theorem ensureCap_false (h : ensureCap env b n = .ok (false, b')) : b' = settle b ∧
    usub (settle b).data.len (settle b).tail < n ∧ b.maxCap < sz (usub (settle b).tail (settle b).head + n) := by
  have hout := ensureCap_ok h
  cases hout with
  | refused hshort hmany =>
    rw [settle_maxCap] at hmany
    exact ⟨rfl, hshort, hmany⟩

end A3Buf
