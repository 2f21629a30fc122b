import LibA3.Buf.Growable

/-!
# The room `a3_buf_ensure_max_cap` asks for

`a3_buf_ensure_max_cap` is to enlarge the block to `max_cap`. It asks `a3_buf_ensure_cap` for as many free bytes
as the block is short of, and where the block has them already, behind `tail` or after compaction, nothing is
enlarged.

* `ensureMaxCap_iff` — the block is `max_cap` bytes afterwards exactly where it was before, or has less free bytes than
  it is short of
-/

namespace A3Buf

open A3Str Fallible

variable {env : Env} {b b' : A3Buffer}

/-- The call returns, and if it reports success the block is as large as it may get, with the same contents. -/
def ReachesMax (env : Env) (b : A3Buffer) : Prop :=
  ∃ ok b', ensureMaxCap env b = .ok (ok, b') ∧ (ok = true → b.maxCap ≤ b'.data.len ∧ contents b' = contents b)

/-- The block is short of more bytes than are free in it. -/
def ShortOfRoom (b : A3Buffer) : Prop := b.data.len - size b < b.maxCap - b.data.len

/-- **`a3_buf_ensure_max_cap` (`buffer.h:182`)** -/
theorem ensureMaxCap_iff (so : Sound b) (hgrow : Grows b (b.maxCap - b.data.len) → CanGrow env b) :
    ReachesMax env b ↔ b.maxCap ≤ b.data.len ∨ ShortOfRoom b := by
  have hsize := so.size_le
  have hmax := so.max_lt
  unfold ReachesMax
  rw [ensureMaxCap, live_eq so, ok_bind]
  by_cases hle : b.data.len ≥ b.maxCap
  · rw [if_pos hle]
    exact iff_of_true ⟨true, b, rfl, fun _ => ⟨hle, rfl⟩⟩ (Or.inl hle)
  · have hlt : b.data.len ≤ b.maxCap := Nat.le_of_not_le hle
    obtain ⟨ok, b', hb', ha⟩ : ∃ ok b', ensureCap env b (b.maxCap - b.data.len) = .ok (ok, b') ∧ _ :=
      ensureCap_answered so fun hg => ⟨hlt, hgrow hg⟩
    have hsize' := so.size_eq ha.sound ha.contents_eq
    have htail : size b' ≤ b'.tail := Nat.sub_le _ _
    rw [if_neg hle, usub_eq hlt hmax, hb']
    constructor
    · rintro ⟨ok1, b1, hb1, hreach⟩
      cases hb1
      rcases ha.outcome with ⟨rfl, hs, _⟩ | ⟨_, _, hmany⟩ | ⟨_, hg, _⟩
      · -- nothing was enlarged
        have := (hreach rfl).1
        rw [hs.len] at this
        exact Or.inl this
      · -- no more is asked for than `max_cap` allows
        rw [sz_eq (by omega)] at hmany
        omega
      · have := hg.1
        exact Or.inr (by unfold ShortOfRoom; omega)
    · intro hcond
      refine ⟨ok, b', rfl, fun hok => ⟨?_, ha.contents_eq⟩⟩
      rcases ha.outcome with ⟨_, hs, hroom⟩ | ⟨hno, _⟩ | ⟨_, _, hlen, _⟩
      · have := hs.len
        unfold ShortOfRoom at hcond
        omega
      · rw [hok] at hno
        cases hno
      · exact Nat.le_of_eq hlen.symm

/-- One byte is in a block of four, which is short of four: three are free, and the block is enlarged. -/
theorem ensureMaxCap_iff_one :
    ReachesMax demo ⟨⟨4096, 4, [97, 0, 0, 0, 0]⟩, 1, 0, 8⟩ ↔
      8 ≤ 4 ∨ ShortOfRoom ⟨⟨4096, 4, [97, 0, 0, 0, 0]⟩, 1, 0, 8⟩ :=
  ensureMaxCap_iff ⟨by decide, by decide, by decide, by decide, by decide, by decide⟩ fun _ => ⟨by decide, by decide⟩

/-- A new buffer of four bytes that may grow to eight: the four free ones are taken for the four missing ones. -/
theorem new_stays_small : Sound (init demo zeroed 4 8).2 ∧
    ensureMaxCap demo (init demo zeroed 4 8).2 = .ok (true, (init demo zeroed 4 8).2) ∧
    (init demo zeroed 4 8).2.data.len < (init demo zeroed 4 8).2.maxCap :=
  ⟨⟨by decide, by decide, by decide, by decide, by decide, by decide⟩, by decide +kernel, by decide⟩

end A3Buf
