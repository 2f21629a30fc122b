import LibA3.Cache.Recency
import LibA3.Ht.Trail

/-!
# What an insertion does to the other bits

The bitmap is indexed by slot. EVICT throws it away, as deletion shifts entries (`cache.h:157`); INSERT keeps
it, though `A3_HT_INSERT_AT` shifts entries as well. An entry that makes way leaves its bit behind and takes
over that of the slot it moves to, so it is taken for accessed or not as the former user of that slot was
(`insert_keeps_status_iff`).
-/

namespace A3Cache

open A3Ht Fallible HT Trans RobinHood

variable {K V : Type} [Inhabited K] [Inhabited V] {M : Methods K} {c c' : Cache K V}

/-! ## Statement -/

/-- The access to slot `s` clears the word of slot `j`. -/
def Resets (c : Cache K V) (s j : Nat) : Prop := Fills c s ∧ j / entriesPerBlock = s / entriesPerBlock

instance (c : Cache K V) (s j : Nat) : Decidable (Resets c s j) := inferInstanceAs (Decidable (_ ∧ _))

/-- The key `k` is accessed after INSERT of `key` iff it was before, or its word was cleared. -/
def SameStatus (M : Methods K) (c c' : Cache K V) (key k : K) : Prop :=
  ∃ i j s, findIndex M c.table k = some (some i) ∧ findIndex M c'.table k = some (some j) ∧
    findIndex M c'.table key = some (some s) ∧ (accessed c' j = accessed c i ∨ Resets c s j)

/-- INSERT of `key` returns, and leaves the accessed status of every stored key as it was. -/
def KeepsStatus (M : Methods K) (c : Cache K V) (key : K) (value : V) : Prop :=
  ∃ c' handed, insert M c key value = .ok (c', handed) ∧
    ∀ k, (bindings M c.table k).isSome = true → SameStatus M c c' key k

/-- Along the trail of an insertion, each slot has the bit of the next one, or the next one's is cleared. -/
def BitsAgree (c : Cache K V) : List Nat → Prop
  | [] => True
  | s :: is => ∀ a b, (a, b) ∈ (s :: is).zip is → bit c a = bit c b ∨ Resets c s b

/-! ## The other bits -/

omit [Inhabited K] [Inhabited V] in
/-- **`A3_CACHE_ACCESS` (`cache.h:110`)** changes no other bit unless it clears the word first. -/
theorem access_frame {i j : Nat} (h : access c i = .ok c') (hji : j ≠ i) (hreset : ¬ Resets c i j) :
    bit c' j = bit c j := by
  obtain ⟨hw, kept, hkept, rfl⟩ := access_result h
  rw [bit_set c hw]
  by_cases hjw : j / entriesPerBlock = i / entriesPerBlock
  · have hmod : j % entriesPerBlock ≠ i % entriesPerBlock := fun hmod => hji (by
      rw [← Nat.div_add_mod j entriesPerBlock, ← Nat.div_add_mod i entriesPerBlock, hjw, hmod])
    rw [if_pos hjw, hkept, if_neg fun hfill => hreset ⟨hfill, hjw⟩, BitVec.getLsbD_or, getLsbD_bit (mod_block_lt i),
      decide_eq_false hmod, Bool.or_false, bit, hjw]
  · rw [if_neg hjw]

/-! ## INSERT with room -/

/-- What INSERT of a new key leaves of slots and bits. -/
structure Shifted (M : Methods K) (c c' : Cache K V) (key : K) (value : V) (s : Nat) (is : List Nat) : Prop
    extends Displaced M c.table c'.table key value s is where
  sound : Sound M c'
  cap : c'.table.cap = c.table.cap
  perm : c'.table.live.Perm (⟨key, value, hash M c.table key⟩ :: c.table.live)
  bits : ∀ j, j ≠ s → ¬ Resets c s j → bit c' j = bit c j

/-- **`A3_CACHE_INSERT` (`cache.h:163`)** of a new key into a cache with room. -/
theorem insert_shifts (s : Sound M c) {key : K} (value : V) (habs : ∀ e ∈ c.table.live, M.C key e.key ≠ 0)
    (hroom : c.table.size < c.table.cap) : ∃ c' slot is, insert M c key value = .ok (c', []) ∧
      Shifted M c c' key value slot is := by
  obtain ⟨t', c', found, hins, hfind, st, -⟩ := insert_room s value habs hroom
  obtain ⟨slot, is, d⟩ := insert_displaces s.wf s.fixed s.size_ge hroom habs hins
  have hok : insert M c key value = .ok (c', []) := by
    simp [insert, hins, returns, bind, Except.bind, hfind, pure, Except.pure]
  refine ⟨c', slot, is, hok, ?_⟩
  -- the FIND at the end accesses the slot where the new key is by then
  have hstored : (bindings M c'.table key).isSome = true :=
    bound_of_mem (st.perm.mem_iff.2 List.mem_cons_self) (M.C_equiv.refl key)
  rcases find_accesses hfind with ⟨hnone, rfl⟩ | ⟨i, hi, hacc⟩
  · obtain ⟨j, hj⟩ := findIndex_of_bound st.sound.wf hstored
    cases hnone.symm.trans hj
  · have htable : c'.table = t' := (access_marks hacc).1
    have hfound := d.find_new (htable ▸ st.sound.wf) (htable ▸ st.cap)
    obtain rfl : i = slot := findIndex_unique hi hfound
    exact ⟨htable ▸ d, st.sound, st.cap, st.perm,
      fun j hj hreset => access_frame (c := { c with table := t' }) hacc hj hreset⟩

/-! ## Which keys keep their status -/

variable {key : K} {value : V} {s : Nat} {is : List Nat}

theorem Shifted.accessed_eq (d : Shifted M c c' key value s is) {j : Nat} (hj : j < c.table.cap) :
    accessed c' j = .ok (bit c' j) :=
  A3Cache.accessed_eq (d.sound.block_lt (by rw [d.cap]; exact hj))

/-- An entry of the cache is in slot `i` before the call and in slot `j` after it: it has been moved along the
    trail, or not at all. -/
theorem Shifted.slot_cases (d : Shifted M c c' key value s is) (w : WF M c.table)
    (habs : ∀ e ∈ c.table.live, M.C key e.key ≠ 0) {i j : Nat} (hi : i < c.table.cap) (hj : j < c.table.cap)
    (hocc : (c.table.entry i).hash ≠ 0) (hent : c'.table.entry j = c.table.entry i) :
    j ≠ s ∧ ((i, j) ∈ (s :: is).zip is ∨ i = j) := by
  have hlive := w.entry_mem_live hi hocc
  have hsame : ∀ a, a < c.table.cap → c.table.entry a = c.table.entry i → a = i := fun a ha hai =>
    w.slot_unique ha hi (by rw [hai]; exact hocc) hocc (by rw [hai]; exact M.C_equiv.refl _)
  rcases displace_cases c.table.entry ⟨key, value, hash M c.table key⟩ d.nodup j with
    ⟨-, hnew⟩ | ⟨a, ha, hmoved⟩ | ⟨hnot, hstays⟩
  · rw [← d.entries, hent] at hnew
    exact absurd (M.C_equiv.refl key) (by simpa [hnew] using habs _ hlive)
  · rw [← d.entries, hent] at hmoved
    have hmem := List.of_mem_zip ha
    obtain rfl := hsame a (d.slot_lt a hmem.1) hmoved.symm
    exact ⟨fun hjs => (List.nodup_cons.1 d.nodup).1 (hjs ▸ hmem.2), Or.inl ha⟩
  · rw [← d.entries, hent] at hstays
    exact ⟨fun hjs => hnot (hjs ▸ List.mem_cons_self), Or.inr (hsame j hj hstays.symm).symm⟩

/-- Bits that agree along the trail: each entry comes to a slot with the bit it had. -/
theorem Shifted.same_status (d : Shifted M c c' key value s is) (x : Sound M c)
    (habs : ∀ e ∈ c.table.live, M.C key e.key ≠ 0) (hagree : BitsAgree c (s :: is)) {k : K}
    (hk : (bindings M c.table k).isSome = true) : SameStatus M c c' key k := by
  obtain ⟨e, he, hke⟩ := lookup_isSome.1 hk
  obtain ⟨i, hfi, hi, hent⟩ := findIndex_present x.wf he hke
  obtain ⟨j, hfj, hj, hent'⟩ := findIndex_present d.sound.wf (d.perm.mem_iff.2 (List.mem_cons_of_mem _ he)) hke
  rw [d.cap] at hj
  have hocc : (c.table.entry i).hash ≠ 0 := by rw [hent]; exact hash_ne_of_mem_live he
  obtain ⟨hjs, hmoves⟩ := d.slot_cases x.wf habs hi hj hocc (hent'.trans hent.symm)
  refine ⟨i, j, s, hfi, hfj, d.find_new d.sound.wf d.cap, ?_⟩
  by_cases hreset : Resets c s j
  · exact Or.inr hreset
  · rw [d.accessed_eq hj, A3Cache.accessed_eq (x.block_lt hi), d.bits j hjs hreset]
    rcases hmoves with hmem | rfl
    · rcases hagree i j hmem with heq | hr
      · exact Or.inl (by rw [heq])
      · exact absurd hr hreset
    · exact Or.inl rfl

/-- Where they do not agree, the entry that moves there shows it. -/
theorem Shifted.bits_agree (d : Shifted M c c' key value s is) (x : Sound M c)
    (hkeeps : ∀ k, (bindings M c.table k).isSome = true → SameStatus M c c' key k) : BitsAgree c (s :: is) := by
  intro a b hab
  have hmem := List.of_mem_zip hab
  have ha := d.slot_lt a hmem.1
  have hb := d.slot_lt b (List.mem_cons_of_mem _ hmem.2)
  have hbs : b ≠ s := fun hbs => (List.nodup_cons.1 d.nodup).1 (hbs ▸ hmem.2)
  have hocc := d.occupied a b hab
  have hmoved : c'.table.entry b = c.table.entry a := by rw [d.entries]; exact displace_next _ _ d.nodup hab
  have hfa : findIndex M c.table (c.table.entry a).key = some (some a) :=
    findIndex_slot x.wf ha hocc (M.C_equiv.refl _)
  have hfb : findIndex M c'.table (c.table.entry a).key = some (some b) := by
    refine findIndex_slot d.sound.wf (by rw [d.cap]; exact hb) ?_ ?_
    · rw [hmoved]; exact hocc
    · rw [hmoved]; exact M.C_equiv.refl _
  have hlive := x.wf.entry_mem_live ha hocc
  obtain ⟨i, j, s', hi, hj, hs, hstatus⟩ := hkeeps _ (bound_of_mem hlive (M.C_equiv.refl _))
  obtain rfl := findIndex_unique hfa hi
  obtain rfl := findIndex_unique hfb hj
  obtain rfl := findIndex_unique (d.find_new d.sound.wf d.cap) hs
  by_cases hreset : Resets c s b
  · exact Or.inr hreset
  · rw [d.accessed_eq hb, A3Cache.accessed_eq (x.block_lt ha), d.bits b hbs hreset] at hstatus
    rcases hstatus with heq | hr
    · exact Or.inl (Except.ok.inj heq).symm
    · exact absurd hr hreset

/-- With `size` at the capacity, INSERT of a new key evicts a stored one, or panics. -/
theorem not_keeps_of_counted (x : Sound M c) (habs : ∀ e ∈ c.table.live, M.C key e.key ≠ 0)
    (hfull : c.table.cap ≤ c.table.size) : ¬ KeepsStatus M c key value := by
  rintro ⟨c', handed, hok, hkeeps⟩
  have hins := insert_cases x key value
  rw [hok] at hins
  cases hins with
  | room _ hroom _ _ => omega
  | @replaced _ i n rest _ hv hperm _ st _ =>
    obtain ⟨hi, -, hocc⟩ := victim_spec hv
    have hlive := x.wf.entry_mem_live hi hocc
    obtain ⟨_, j, _, _, hj, _, _⟩ := hkeeps _ (bound_of_mem hlive (M.C_equiv.refl _))
    obtain ⟨-, hjlive, hkey⟩ := slot_of_findIndex st.sound.wf hj
    -- the entry found would be the new one or one that stays, and the evicted key is neither
    rcases List.mem_cons.1 (st.perm.mem_iff.1 hjlive) with hnew | hrest
    · rw [hnew] at hkey
      exact habs _ hlive (C_comm.1 hkey)
    · exact (List.pairwise_cons.1 (keys_perm hperm x.wf.keys)).1 _ hrest hkey

theorem keeps_status_iff (x : Sound M c) (value : V) (habs : ∀ e ∈ c.table.live, M.C key e.key ≠ 0) :
    KeepsStatus M c key value ↔ c.table.size < c.table.cap ∧ BitsAgree c (trail M c.table key) := by
  by_cases hroom : c.table.size < c.table.cap
  · obtain ⟨c', s, is, hok, d⟩ := insert_shifts x value habs hroom
    rw [d.trail_eq]
    constructor
    · rintro ⟨c1, handed, hok1, hkeeps⟩
      obtain ⟨rfl, -⟩ := Prod.mk.inj (Except.ok.inj (hok.symm.trans hok1))
      exact ⟨hroom, d.bits_agree x hkeeps⟩
    · rintro ⟨-, hagree⟩
      exact ⟨c', [], hok, fun k hk => d.same_status x habs hagree hk⟩
  · constructor
    · intro h
      exact absurd h (not_keeps_of_counted x habs (Nat.le_of_not_lt hroom))
    · intro h
      exact absurd h.1 hroom

/-- **INSERT of a new key keeps the status of the others iff** the table is not counted as full and every entry
    that makes way moves to a slot whose bit is its own, or is cleared. -/
theorem insert_keeps_status_iff (M : Methods K) (rand : Nat → UInt8) {capacity : Nat} (cb : Bool)
    (hcap : M.initialCap < capacity) (hdvd : entriesPerBlock ∣ capacity) :
    ∃ c0 : Cache K V, init M rand capacity cb = .ok c0 ∧
      ∀ (l : List (Call K V)) (c : Cache K V), Run (Step M) c0 l c → c.table.live.length < c.table.cap →
        ∀ (key : K) (value : V), bindings M c.table key = none →
          (KeepsStatus M c key value ↔ c.table.size < c.table.cap ∧ BitsAgree c (trail M c.table key)) := by
  obtain ⟨c0, hinit, s0, _⟩ := init_sound (V := V) M rand cb hcap hdvd
  refine ⟨c0, hinit, fun l c h _ key value hnew => ?_⟩
  exact keeps_status_iff (run_sound h s0).1 value (lookup_eq_none.1 hnew)

/-- The key 65, which a CLEAR passed over, is in slot 1 and not accessed. It makes way for 128 and is not accessed in
    slot 2 either. -/
theorem insert_keeps_status_iff_64 : ∃ c0 c : Cache Nat Nat, init numbersInTwo (fun _ => 0) 64 false = .ok c0 ∧
    Run (Step numbersInTwo) c0 [⟨.insert 1 10, none, []⟩, ⟨.insert 65 650, none, []⟩, ⟨.clear, none, []⟩,
      ⟨.insert 64 640, none, []⟩] c ∧
    trail numbersInTwo c.table 128 = [1, 2] ∧ KeepsStatus numbersInTwo c 128 1280 := by
  obtain ⟨c0, hinit, hiff⟩ : ∃ c0 : Cache Nat Nat, init numbersInTwo (fun _ => 0) 64 false = .ok c0 ∧ _ :=
    insert_keeps_status_iff numbersInTwo (fun _ => 0) false (by decide) (by decide)
  obtain rfl : cacheOf64 false 0#64 0 (List.replicate 64 default) = c0 := Except.ok.inj hinit
  have h1 : Step numbersInTwo (cacheOf64 false 0#64 0 (List.replicate 64 default)) ⟨.insert 1 10, none, []⟩
      (cacheOf64 false 2#64 1 ((List.replicate 64 default).set 1 ⟨1, 10, 1⟩)) := rfl
  have h2 : Step numbersInTwo (cacheOf64 false 2#64 1 ((List.replicate 64 default).set 1 ⟨1, 10, 1⟩))
      ⟨.insert 65 650, none, []⟩
      (cacheOf64 false 6#64 2 (((List.replicate 64 default).set 1 ⟨1, 10, 1⟩).set 2 ⟨65, 650, 65⟩)) := rfl
  have h3 : Step numbersInTwo
      (cacheOf64 false 6#64 2 (((List.replicate 64 default).set 1 ⟨1, 10, 1⟩).set 2 ⟨65, 650, 65⟩)) ⟨.clear, none, []⟩
      (cacheOf64 false 0#64 1 (((List.replicate 64 default).set 1 ⟨65, 650, 65⟩).set 2 ⟨65, 650, 0⟩)) := rfl
  have h4 : Step numbersInTwo
      (cacheOf64 false 0#64 1 (((List.replicate 64 default).set 1 ⟨65, 650, 65⟩).set 2 ⟨65, 650, 0⟩))
      ⟨.insert 64 640, none, []⟩ (cacheOf64 false 1#64 2
        ((((List.replicate 64 default).set 1 ⟨65, 650, 65⟩).set 2 ⟨65, 650, 0⟩).set 0 ⟨64, 640, 64⟩)) := rfl
  have hrun := Run.cons h1 (.cons h2 (.cons h3 (Run.single h4)))
  refine ⟨_, _, hinit, hrun, rfl, (hiff _ _ hrun (by decide) 128 1280 rfl).2 ⟨by decide, ?_⟩⟩
  intro a b hab
  obtain ⟨rfl, rfl⟩ : a = 1 ∧ b = 2 := Prod.mk.inj (List.mem_singleton.1 hab)
  exact Or.inl rfl

/-- Keys 1 and 2 in their homes in a cache of 64 slots, both accessed. Key 65 has the home of 1 and takes the slot
    of 2, which moves on to slot 3, and is not accessed any more. -/
theorem insert_moves_from_bit : ∃ c0 c c' : Cache Nat Nat, init numbersInTwo (fun _ => 0) 64 true = .ok c0 ∧
    Run (Step numbersInTwo) c0 [⟨.insert 1 10, none, []⟩, ⟨.insert 2 20, none, []⟩] c ∧
    c.table.live.length = 2 ∧ bindings numbersInTwo c.table 65 = none ∧
    insert numbersInTwo c 65 650 = .ok (c', []) ∧
    findIndex numbersInTwo c.table 2 = some (some 2) ∧ accessed c 2 = .ok true ∧
    findIndex numbersInTwo c'.table 2 = some (some 3) ∧ accessed c' 3 = .ok false ∧
    ¬ KeepsStatus numbersInTwo c 65 650 := by
  have h1 : Step numbersInTwo (cacheOf64 true 0#64 0 (List.replicate 64 default)) ⟨.insert 1 10, none, []⟩
      (cacheOf64 true 2#64 1 ((List.replicate 64 default).set 1 ⟨1, 10, 1⟩)) := rfl
  have h2 : Step numbersInTwo (cacheOf64 true 2#64 1 ((List.replicate 64 default).set 1 ⟨1, 10, 1⟩))
      ⟨.insert 2 20, none, []⟩
      (cacheOf64 true 6#64 2 (((List.replicate 64 default).set 1 ⟨1, 10, 1⟩).set 2 ⟨2, 20, 2⟩)) := rfl
  have h3 : insert numbersInTwo
      (cacheOf64 true 6#64 2 (((List.replicate 64 default).set 1 ⟨1, 10, 1⟩).set 2 ⟨2, 20, 2⟩)) 65 650 =
      .ok (cacheOf64 true 6#64 3
        ((((List.replicate 64 default).set 1 ⟨1, 10, 1⟩).set 2 ⟨65, 650, 65⟩).set 3 ⟨2, 20, 2⟩), []) := rfl
  refine ⟨_, _, _, rfl, .cons h1 (Run.single h2), rfl, rfl, h3, rfl, rfl, rfl, rfl, ?_⟩
  rintro ⟨c1, handed, hok, hkeeps⟩
  obtain ⟨rfl, -⟩ := Prod.mk.inj (Except.ok.inj (h3.symm.trans hok))
  obtain ⟨i, j, s, hi, hj, hs, hstatus⟩ := hkeeps 2 rfl
  cases hi
  cases hj
  cases hs
  rcases hstatus with heq | hr
  · cases heq
  · exact absurd hr (by decide)

end A3Cache
