import LibA3.Buf.Growable

/-!
# The room `a3_buf_ensure_cap` promises

`a3_buf_ensure_cap(n)` is to say whether `length + n` stays within `max_cap`, and if it does, to see to it that
the next write of `n` bytes has its room behind `tail`. Enlarging the block does not move the contents: what
is then behind `tail` is `max_cap - tail` bytes.

* `ensureCap_promise_iff` — the promise is kept exactly where the bytes fit behind `tail`, or nothing is enlarged
-/

namespace A3Buf

open A3Str

variable {env : Env} {b b' : A3Buffer} {n : Nat}

/-- What a caller may expect after `a3_buf_ensure_cap(n)` returned `ok`. -/
structure Promised (env : Env) (b : A3Buffer) (n : Nat) (ok : Bool) (b' : A3Buffer) : Prop where
  refused_iff : ok = false ↔ b.maxCap < (contents b).length + n
  room : ok = true → ∃ room b'', space env b' = .ok (room, b'') ∧ n ≤ room
  contents_eq : contents b' = contents b
  maxCap_eq : b'.maxCap = b.maxCap
  len_ge : b.data.len ≤ b'.data.len
  len_le : b'.data.len ≤ b.maxCap

/-- All of it but the room, whatever way `a3_buf_ensure_cap` takes. -/
theorem Ensured.promised {ok : Bool} (i : Inv b) (hlt : size b + n < 2 ^ 64) (he : Ensured b n ok b')
    (hroom : ok = true → n ≤ b'.data.len - b'.tail) : Promised env b n ok b' := by
  have hsize : (contents b).length = size b := i.length_contents
  have hsize' := i.sound.size_eq he.inv.sound he.contents_eq
  have htail : size b' ≤ b'.tail := Nat.sub_le _ _
  have hlen := i.len_le
  refine ⟨?_, fun hok => ?_, he.contents_eq, he.maxCap_eq, ?_, he.maxCap_eq ▸ he.inv.len_le⟩
  · rw [hsize]
    rcases he.outcome with ⟨rfl, hs, hfit⟩ | ⟨rfl, _, hmany⟩ | ⟨rfl, hg, _⟩
    · have hs' := hs.len
      constructor
      · intro h
        cases h
      · intro h
        omega
    · rw [sz_eq hlt] at hmany
      exact iff_of_true rfl hmany
    · have hle := hg.2
      rw [sz_eq hlt] at hle
      constructor
      · intro h
        cases h
      · intro h
        omega
  · refine ⟨_, _, space_eq he.inv.sound, ?_⟩
    rw [he.settled]
    exact hroom hok
  · rcases he.outcome with ⟨_, hs, _⟩ | ⟨_, hs, _⟩ | ⟨_, _, hmax, _⟩
    · exact Nat.le_of_eq hs.len.symm
    · exact Nat.le_of_eq hs.len.symm
    · rw [hmax]
      exact hlen

/-- **`a3_buf_ensure_cap` (`buffer.h:159`) keeps its promise** exactly if, where it has to enlarge the block,
`tail + n` is within `max_cap`. -/
theorem ensureCap_promise_iff (i : Inv b) (hlt : size b + n < 2 ^ 64) (hgrow : Grows b n → CanGrow env b) :
    (∃ ok b', ensureCap env b n = .ok (ok, b') ∧ Promised env b n ok b') ↔ Fits b n := by
  obtain ⟨ok, b', hb', he⟩ := ensureCap_spec i hgrow
  constructor
  · rintro ⟨ok1, b1, hb1, hp⟩ hg
    rw [hb'] at hb1
    cases hb1
    have hle := hg.2
    rw [sz_eq hlt] at hle
    -- the bytes are allowed, so the answer is yes
    have hok : ok = true := by
      cases ok with
      | true => rfl
      | false =>
        have h := hp.refused_iff.1 rfl
        rw [i.length_contents] at h
        omega
    obtain ⟨room, b'', hspace, hroom⟩ := hp.room hok
    rw [space_eq he.inv.sound, he.settled] at hspace
    cases hspace
    have hsize' := i.sound.size_eq he.inv.sound he.contents_eq
    have htail : size b' ≤ b'.tail := Nat.sub_le _ _
    have hlt' := hg.1
    rcases he.outcome with ⟨_, hs, hfit⟩ | ⟨hno, _⟩ | ⟨_, _, hmax, htail'⟩
    · have hs' := hs.len
      omega
    · rw [hok] at hno
      cases hno
    · have hle' := he.inv.tail_le
      rw [← htail']
      omega
  · intro hfits
    refine ⟨ok, b', hb', he.promised i hlt fun hok => ?_⟩
    have := he.answered.room hok hfits
    omega

/-- One byte is in the buffer, behind three consumed ones; four more are promised, and have room. -/
theorem ensureCap_promise_iff_4 : (∃ ok b', ensureCap demo consumed 4 = .ok (ok, b') ∧ Promised demo consumed 4 ok b') ↔
    Fits consumed 4 :=
  ensureCap_promise_iff ⟨by decide, by decide, by decide, by decide, by decide, by decide, by decide⟩ (by decide)
    fun _ => ⟨by decide, by decide⟩

/-- Six bytes are promised to a buffer with three consumed bytes in front; there is room for four. -/
theorem six_more_promised : (contents consumed).length + 6 ≤ consumed.maxCap ∧
    ∃ b', ensureCap demo consumed 6 = .ok (true, b') ∧ space demo b' = .ok (4, b') :=
  ⟨by decide, ⟨⟨8192, 8, [97, 98, 99, 100, 0, 0, 0, 0, 0]⟩, 4, 3, 8⟩, by decide +kernel, by decide +kernel⟩

end A3Buf
