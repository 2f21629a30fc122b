import LibA3.Buf.Run

/-!
# Growable buffers are bounded queues

A buffer made by `a3_buf_init`, over any run of calls. A write that has the block enlarged is given a block of
`max_cap` bytes in which the contents still start at `head`: what it can append is `max_cap - tail` bytes, which
is less than `max_cap - length` where `head` is not 0. `a3_buf_ensure_cap` reports success all the same.

* `byte_queue_iff` — the buffer does what the queue does exactly as long as no write meets that case
-/

namespace A3Buf

open A3Str Trans

variable {env : Env} {b b' : A3Buffer} {q : BoundedQueue UInt8}

/-- A call that returns, by a caller that observes `Op.Allowed`, and is not a write that does not fit. -/
def Step (env : Env) (b : A3Buffer) (a : Op × Bool) (b' : A3Buffer) : Prop :=
  a.1.Allowed env b ∧ a.1.Fits b ∧ exec env b a.1 = .ok (a.2, b')

/-- A buffer of zeros, before `a3_buf_init`. -/
def zeroed : A3Buffer := ⟨nullString, 0, 0, 0⟩

/-- `a3_buf_init` (`buffer.c:26`) allocating: an empty queue bounded by `max_cap` -/
theorem init_rep {cap maxCap : Nat} (hle : cap ≤ maxCap) (hmax : maxCap < 2 ^ 64) (hobj : cap + 1 ≤ ptrdiffMax)
    (h : init env zeroed cap maxCap = (true, b)) : Rep b (BoundedQueue.empty UInt8 maxCap) := by
  have hlt : cap + 1 < 2 ^ 64 := by unfold ptrdiffMax at hobj; omega
  have hdata : (if zeroed.data.ptr = 0 then stringAlloc env cap else zeroed.data) = stringAlloc env cap := if_pos rfl
  rw [init, hdata] at h
  by_cases hp : (stringAlloc env cap).ptr = 0
  · rw [if_pos hp] at h
    cases h
  · rw [if_neg hp] at h
    cases h
    refine ⟨⟨hp, Nat.le_refl 0, Nat.zero_le _, hle, hmax, ?_, Nat.le_of_succ_le hobj⟩, rfl, ?_⟩
    · rw [stringAlloc]
      simp only
      rw [List.length_replicate, sz_eq hlt]
      exact Nat.le_succ cap
    · exact Mem.window_self.symm

theorem step_sim (r : Rep b q) {a : Op × Bool} (h : Step env b a b') : ∃ q', QueueStep env q a q' ∧ Rep b' q' := by
  obtain ⟨ha, hf, hexec⟩ := h
  obtain ⟨ok, b1, q', hb1, hspec, r', _⟩ := exec_spec r a.1 ha hf
  rw [hb1] at hexec
  cases hexec
  exact ⟨q', hspec, r'⟩

/-- **A growable buffer** (`buffer.h:140-232`). In every run from `a3_buf_init` whose writes fit behind `tail`
where they have the block enlarged, the contents are the queue, `head ≤ tail ≤ data.len ≤ max_cap`, and no
assertion fails; and a further call goes on like this if and only if it fits. -/
theorem byte_queue_iff {cap maxCap : Nat} (hle : cap ≤ maxCap) (hmax : maxCap < 2 ^ 64) (hobj : cap + 1 ≤ ptrdiffMax)
    {b0 : A3Buffer} (hinit : init env zeroed cap maxCap = (true, b0)) {l : List (Op × Bool)} {b : A3Buffer}
    (hrun : Run (Step env) b0 l b) :
    ∃ q, Run (QueueStep env) (BoundedQueue.empty UInt8 maxCap) l q ∧ Rep b q ∧
      ∀ op : Op, op.Allowed env b → (Meets env b q op ↔ op.Fits b) := by
  have hsim : ∀ (b : A3Buffer) (q : BoundedQueue UInt8) (a : Op × Bool) (b' : A3Buffer), Rep b q → Step env b a b' →
      ∃ q', QueueStep env q a q' ∧ Rep b' q' := fun _ _ _ _ r h => step_sim r h
  obtain ⟨q, hq, r⟩ := hrun.simulate hsim (init_rep hle hmax hobj hinit)
  exact ⟨q, hq, r, fun op ha => meets_iff_fits r op ha⟩

/-! ## A block enlarged and still too short -/

/-- A program whose allocations succeed. -/
def demo : Env := ⟨true, fun _ => 4096, fun _ => 8192, fun _ => 0, true⟩

/-- Four bytes written into a buffer of four, which may grow to eight, and three of them read. -/
def consumed : A3Buffer := ⟨⟨4096, 4, [97, 98, 99, 100, 0]⟩, 4, 3, 8⟩

theorem consumed_run : Run (Step demo) (init demo zeroed 4 8).2
    [(.writeStr (onStack [97, 98, 99, 100]), true), (.read 3, true)] consumed := by
  have hgrow : CanGrow demo (init demo zeroed 4 8).2 := ⟨by decide, by decide⟩
  have hwrite : Step demo (init demo zeroed 4 8).2 (.writeStr (onStack [97, 98, 99, 100]), true)
      ⟨⟨4096, 4, [97, 98, 99, 100, 0]⟩, 4, 0, 8⟩ :=
    ⟨⟨show 4 ≤ ptrdiffMax by decide, fun _ => hgrow⟩, fun _ => by decide, by decide +kernel⟩
  have hread : Step demo ⟨⟨4096, 4, [97, 98, 99, 100, 0]⟩, 4, 0, 8⟩ (.read 3, true) consumed :=
    ⟨⟨show 3 ≤ 4 by decide, fun _ => hgrow⟩, trivial, by decide +kernel⟩
  exact .cons hwrite (.single hread)

theorem byte_queue_iff_8 : ∃ q, Run (QueueStep demo) (BoundedQueue.empty UInt8 8)
      [(.writeStr (onStack [97, 98, 99, 100]), true), (.read 3, true)] q ∧ Rep consumed q ∧
      ∀ op : Op, op.Allowed demo consumed → (Meets demo consumed q op ↔ op.Fits consumed) :=
  byte_queue_iff (by decide) (by decide) (by decide) rfl consumed_run

/-- One byte is in the buffer, and writing six more runs into the assertion of `a3_buf_wrote`. -/
theorem six_more_assert : Run (Step demo) (init demo zeroed 4 8).2
      [(.writeStr (onStack [97, 98, 99, 100]), true), (.read 3, true)] consumed ∧
    (contents consumed).length + 6 ≤ consumed.maxCap ∧
    (Op.writeStr (onStack [101, 102, 103, 104, 105, 106])).Allowed demo consumed ∧
    exec demo consumed (.writeStr (onStack [101, 102, 103, 104, 105, 106])) = .error .assertion := by
  refine ⟨consumed_run, by decide, ⟨show 6 ≤ ptrdiffMax by decide, fun _ => ⟨by decide, by decide⟩⟩, by decide +kernel⟩

end A3Buf
