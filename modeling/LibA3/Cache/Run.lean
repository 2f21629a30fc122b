import LibA3.Cache.Bitmap
import LibA3.Ht.Run
import LibA3.Fallible

/-!
# Runs of cache operations

`Sound` is the invariant of a cache whose capacity is a multiple of the word size. One lemma per operation
says what it does to the stored entries and to the bitmap: `find_spec`, `evict_spec`, `insert_spec`,
`clear_spec`; a step of a run is one call that returns, and its label is what the call was, what it
returned and which entries it handed to the eviction callback.
-/

namespace A3Cache

open A3Ht Fallible HT Trans

variable {K V : Type} [Inhabited K] [Inhabited V]

/-! ## Calls -/

inductive Op (K V : Type) where
  | insert (key : K) (value : V)
  | find (key : K)
  | clear

def exec (M : Methods K) (c : Cache K V) : Op K V → Except Fault (Cache K V × Option V × List (Handed K V))
  | .insert key value => (insert M c key value).map fun r => (r.1, none, r.2)
  | .find key => (find M c key).map fun r => (r.1, r.2, [])
  | .clear => (clear c).map fun r => (r.1, none, r.2)

structure Call (K V : Type) where
  op : Op K V
  /-- what FIND returned -/
  found : Option V
  handed : List (Handed K V)

/-- One call, returning. -/
def Step (M : Methods K) (c : Cache K V) (a : Call K V) (c' : Cache K V) : Prop :=
  exec M c a.op = .ok (c', a.found, a.handed)

section Returned

variable {M : Methods K} {c c' : Cache K V} {key : K} {found : Option V} {handed : List (Handed K V)}

/-- A step is the call it names, returning. -/
theorem step_insert {value : V} (h : Step M c ⟨.insert key value, found, handed⟩ c') :
    insert M c key value = .ok (c', handed) := by
  obtain ⟨r, hr, heq⟩ := map_ok h
  cases heq
  exact hr

theorem step_find (h : Step M c ⟨.find key, found, handed⟩ c') : find M c key = .ok (c', found) ∧ handed = [] := by
  obtain ⟨r, hr, heq⟩ := map_ok h
  cases heq
  exact ⟨hr, rfl⟩

theorem step_clear (h : Step M c ⟨.clear, found, handed⟩ c') : clear c = .ok (c', handed) := by
  obtain ⟨r, hr, heq⟩ := map_ok h
  cases heq
  exact hr

end Returned

/-- The key of an INSERT is not in the cache. -/
def Op.Fresh (M : Methods K) (c : Cache K V) : Op K V → Prop
  | .insert key _ => bindings M c.table key = none
  | _ => True

/-- A call that inserts no stored key. -/
def FreshStep (M : Methods K) (c : Cache K V) (a : Call K V) (c' : Cache K V) : Prop :=
  a.op.Fresh M c ∧ Step M c a c'

/-! ## The invariant -/

structure Sound (M : Methods K) (c : Cache K V) : Prop where
  wf : WF M c.table
  fixed : c.table.canGrow = false
  no_cb : c.table.duplicateCb = none
  size_ge : c.table.live.length ≤ c.table.size
  size_le : c.table.size ≤ c.table.cap
  idx_lt : c.evictionIndex < c.table.cap
  aligned : entriesPerBlock ∣ c.table.cap
  bitmap : Bitmap c

variable {M : Methods K} {c : Cache K V}

theorem Sound.block_lt (s : Sound M c) {i : Nat} (hi : i < c.table.cap) : i / entriesPerBlock < c.accessed.length := by
  rw [s.bitmap.words]; exact A3Cache.block_lt s.aligned hi

theorem Sound.live_le (s : Sound M c) : c.table.live.length ≤ c.table.cap := s.wf.live_le_cap

/-- The table put into a cache in place of its own. -/
theorem Sound.withTable (s : Sound M c) {t : HT K V} {n : Nat} (w : WF M t)
    (hs : SameBut { c.table with size := n } t) (hge : t.live.length ≤ n) (hle : n ≤ c.table.cap) :
    Sound M { c with table := t } := by
  have hcap : t.cap = c.table.cap := by rw [hs]
  have hsize : t.size = n := by rw [hs]
  exact {
    wf := w
    fixed := by simp only; rw [hs]; exact s.fixed
    no_cb := by simp only; rw [hs]; exact s.no_cb
    size_ge := by simp only; omega
    size_le := by simp only; omega
    idx_lt := by simp only [hcap]; exact s.idx_lt
    aligned := by simp only [hcap]; exact s.aligned
    bitmap := ⟨by simp only [hcap]; exact s.bitmap.words, s.bitmap.not_full⟩ }

theorem Sound.withAccessed (s : Sound M c) {blocks : List (BitVec 64)} (b : Bitmap { c with accessed := blocks }) :
    Sound M { c with accessed := blocks } :=
  ⟨s.wf, s.fixed, s.no_cb, s.size_ge, s.size_le, s.idx_lt, s.aligned, b⟩

/-! ## FIND -/

/-- **`A3_CACHE_FIND` (`cache.h:125`)** returns the bound value, and only touches the bitmap. -/
theorem find_spec (s : Sound M c) (key : K) : ∃ blocks,
    find M c key = .ok ({ c with accessed := blocks }, bindings M c.table key) ∧
      Bitmap { c with accessed := blocks } := by
  cases hb : bindings M c.table key with
  | none =>
    refine ⟨c.accessed, ?_, s.bitmap⟩
    rw [find, findIndex_absent s.wf (lookup_eq_none.1 hb)]; rfl
  | some v =>
    obtain ⟨e, he, hk, rfl⟩ := (lookup_eq_some s.wf.keys).1 hb
    obtain ⟨i, hfi, hi, hent⟩ := findIndex_present s.wf he hk
    obtain ⟨blocks, hacc, hbm⟩ := access_spec s.bitmap (s.block_lt hi)
    refine ⟨blocks, ?_, hbm⟩
    simp only [find, hfi, returns, bind, Except.bind, hi, if_true, hacc, pure, Except.pure, hent]

/-! ## EVICT -/

theorem evictLoop_victim (s : Sound M c) : evictLoop (c.table.cap + 1) c c.evictionIndex c.evictionIndex =
    match victim c with
    | some i => .ok (true, i)
    | none => .ok (false, c.evictionIndex) := by
  have hpos := s.wf.cap_pos
  obtain ⟨n, hn⟩ : ∃ n, c.table.cap = n + 1 := ⟨c.table.cap - 1, by omega⟩
  have h := evictLoop_eq (fun i hi => accessed_eq (s.block_lt hi)) s.idx_lt n (c.table.cap + 1) 0 (by omega) (by omega)
  simp only [Nat.add_zero, Nat.mod_eq_of_lt s.idx_lt, ← hn, ← victim_eq_scanFrom] at h
  exact h

/-- **`A3_CACHE_EVICT` (`cache.h:136`)** with a victim: its entry is handed over, then leaves. -/
theorem evict_spec (s : Sound M c) {i : Nat} (h : victim c = some i) : ∃ c',
    evict c = .ok (c', callback c.evictionCallback c.table i) ∧ Sound M c' ∧
      c'.evictionCallback = c.evictionCallback ∧ AllClear c' ∧
      SameBut { c.table with size := c.table.size - 1 } c'.table ∧
      c.table.live.Perm (c.table.entry i :: c'.table.live) := by
  obtain ⟨hi, _, hocc⟩ := victim_spec h
  obtain ⟨t', hdel, hs, w', hperm⟩ := deleteIndex_spec s.wf hi hocc
  have hlen := hperm.length_eq
  simp only [List.length_cons] at hlen
  have hge := s.size_ge
  have hle := s.size_le
  have s1 : Sound M { c with evictionIndex := i, table := t' } := by
    have s0 := s.withTable w' hs (by omega) (by omega)
    have hcap : t'.cap = c.table.cap := by rw [hs]
    exact ⟨s0.wf, s0.fixed, s0.no_cb, s0.size_ge, s0.size_le, by simp only [hcap]; exact hi, s0.aligned,
      s0.bitmap.words, s0.bitmap.not_full⟩
  obtain ⟨hreset, hbm⟩ := reset_spec s1.bitmap.words
  have hloop := evictLoop_victim s
  rw [h] at hloop
  refine ⟨_, ?_, s1.withAccessed hbm, rfl, allClear_replicate s1.aligned rfl, hs, hperm⟩
  simp [evict, hloop, bind, Except.bind, pure, Except.pure, hdel, returns, hreset]

/-- **`A3_CACHE_EVICT`** without one: the panic. -/
theorem evict_none (s : Sound M c) (h : victim c = none) : evict c = .error .unableToEvict := by
  have hloop := evictLoop_victim s
  rw [h] at hloop
  simp [evict, hloop, bind, Except.bind, throw, throwThe, MonadExceptOf.throw]

/-! ## INSERT -/

/-- The cache after `key` was stored beside the entries `rest`. -/
structure Stored (M : Methods K) (c c' : Cache K V) (key : K) (value : V) (rest : List (Entry K V)) : Prop where
  sound : Sound M c'
  cap : c'.table.cap = c.table.cap
  callback : c'.evictionCallback = c.evictionCallback
  hash_eq : ∀ k, hash M c'.table k = hash M c.table k
  perm : c'.table.live.Perm (⟨key, value, hash M c.table key⟩ :: rest)

/-- The table takes a new key while it has room, and FIND then marks it. -/
theorem insert_room (s : Sound M c) {key : K} (value : V) (habs : ∀ e ∈ c.table.live, M.C key e.key ≠ 0)
    (hroom : c.table.size < c.table.cap) : ∃ t' c' found,
    A3Ht.insert M c.table key value = some (t', true) ∧ find M { c with table := t' } key = .ok (c', found) ∧
      Stored M c c' key value c.table.live ∧ c'.table.size = c.table.size + 1 := by
  have href : refuses M c.table = false := by rw [refuses_fixed s.fixed]; exact decide_eq_false (by omega)
  obtain ⟨t', hins, w', hs, hperm⟩ := insert_absent s.wf s.size_ge href value habs
  rw [grows_fixed s.fixed] at hs
  have hs' : SameBut { c.table with size := c.table.size + 1 } t' := hs
  have hlen := hperm.length_eq
  simp only [List.length_cons] at hlen
  have hge := s.size_ge
  have s' := s.withTable w' hs' (by omega) (by omega)
  obtain ⟨blocks, hfind, hbm⟩ := find_spec s' key
  have hcap : t'.cap = c.table.cap := by rw [hs']
  have hsize : t'.size = c.table.size + 1 := by rw [hs']
  have hhash : ∀ k, hash M t' k = hash M c.table k := fun k => by rw [hs']; rfl
  exact ⟨t', _, _, hins, hfind, ⟨s'.withAccessed hbm, hcap, rfl, hhash, hperm⟩, hsize⟩

/-- **`A3_CACHE_INSERT` (`cache.h:163`)** of a new key into a cache with room. -/
theorem insert_free (s : Sound M c) {key : K} (value : V) (habs : ∀ e ∈ c.table.live, M.C key e.key ≠ 0)
    (hroom : c.table.size < c.table.cap) : ∃ c', insert M c key value = .ok (c', []) ∧
      Stored M c c' key value c.table.live ∧ c'.table.size = c.table.size + 1 := by
  obtain ⟨t', c', found, hins, hfind, hst⟩ := insert_room s value habs hroom
  refine ⟨c', ?_, hst⟩
  simp [insert, hins, returns, bind, Except.bind, hfind, pure, Except.pure]

/-- The second half of `A3_CACHE_INSERT`, from the state the first `A3_HT_INSERT` left by returning
    `false`. It ends in a panic if there is no victim, or if the key is still stored without it. -/
theorem insert_retry {t1 : HT K V} {key : K} {value : V} (hins : A3Ht.insert M c.table key value = some (t1, false))
    (s : Sound M { c with table := t1 }) :
    match victim { c with table := t1 } with
    | none => insert M c key value = .error .unableToEvict
    | some i => ∀ rest, t1.live.Perm (t1.entry i :: rest) →
      if ∀ e ∈ rest, M.C key e.key ≠ 0 then
        ∃ c', insert M c key value = .ok (c', callback c.evictionCallback t1 i) ∧
          Stored M { c with table := t1 } c' key value rest ∧ c'.table.size = t1.size
      else insert M c key value = .error .unableToInsert := by
  cases hv : victim { c with table := t1 } with
  | none => simp [insert, hins, returns, bind, Except.bind, evict_none s hv]
  | some i =>
    intro rest hrest
    obtain ⟨c2, hev, s2, hcb, _, hs, hperm⟩ := evict_spec s hv
    have hcap : c2.table.cap = t1.cap := by rw [hs]
    have hsize : c2.table.size = t1.size - 1 := by rw [hs]
    have hhash : ∀ k, hash M c2.table k = hash M t1 k := fun k => by rw [hs]; rfl
    -- the victim was counted
    have hlive : c2.table.live.Perm rest := (List.perm_cons _).1 (hperm.symm.trans hrest)
    have hlen := hperm.length_eq
    have hge := s.size_ge
    have hle := s.size_le
    simp only [List.length_cons] at hlen
    simp only at hge hle hlen hcb hev
    split
    · rename_i habs
      obtain ⟨t', c', found, hins2, hfind, st, hsz⟩ := insert_room s2 value
        (fun e he => habs e (hlive.mem_iff.1 he)) (by omega)
      refine ⟨c', ?_, ⟨st.sound, st.cap.trans hcap, st.callback.trans hcb, fun k => (st.hash_eq k).trans (hhash k), ?_⟩,
        by omega⟩
      · simp [insert, hins, returns, bind, Except.bind, hev, hins2, hfind, pure, Except.pure]
      · have hp := st.perm.trans (hlive.cons _)
        rwa [hhash] at hp
    · rename_i hpres
      simp only [ne_eq, not_forall, not_not] at hpres
      obtain ⟨e, he, hk⟩ := hpres
      have hins2 := insert_present_fixed s2.wf s2.fixed s2.no_cb (by omega) value (hlive.mem_iff.2 he) hk
      simp [insert, hins, returns, bind, Except.bind, hev, hins2, throw, throwThe, MonadExceptOf.throw]

/-- When the first `A3_HT_INSERT` returns `false`: the cache is full, or has the key. No slot changes. -/
theorem insert_false (s : Sound M c) {key : K} (value : V)
    (h : (∃ e ∈ c.table.live, M.C key e.key = 0) ∨ c.table.cap ≤ c.table.size) : ∃ n,
    A3Ht.insert M c.table key value = some ({ c.table with size := n }, false) ∧
      Sound M { c with table := { c.table with size := n } } := by
  have hge := s.size_ge
  have hle := s.size_le
  by_cases hfull : c.table.cap ≤ c.table.size
  · refine ⟨c.table.size, insert_refused ?_ key value, s⟩
    rw [refuses_fixed s.fixed]; exact decide_eq_true hfull
  · rcases h with ⟨e, he, hk⟩ | h
    · refine ⟨c.table.size + 1, insert_present_fixed s.wf s.fixed s.no_cb (by omega) value he hk, ?_⟩
      exact s.withTable (s.wf.setSize _) (SameBut.refl _) (Nat.le_succ_of_le hge) (by omega)
    · exact absurd h hfull

/-- **`A3_CACHE_INSERT`** otherwise: the victim is replaced, or the call ends in one of the two panics. -/
theorem insert_full (s : Sound M c) (key : K) (value : V)
    (h : (∃ e ∈ c.table.live, M.C key e.key = 0) ∨ c.table.cap ≤ c.table.size) :
    match victim c with
    | none => insert M c key value = .error .unableToEvict
    | some i => ∀ rest, c.table.live.Perm (c.table.entry i :: rest) →
      if ∀ e ∈ rest, M.C key e.key ≠ 0 then
        ∃ c' n, insert M c key value = .ok (c', callback c.evictionCallback { c.table with size := n } i) ∧
          Stored M c c' key value rest ∧ c'.table.size = n
      else insert M c key value = .error .unableToInsert := by
  obtain ⟨n, hins, s1⟩ := insert_false s value h
  have hr := insert_retry hins s1
  have hvic : victim { c with table := { c.table with size := n } } = victim c := rfl
  rw [hvic] at hr
  cases hv : victim c with
  | none => rw [hv] at hr; exact hr
  | some i =>
    rw [hv] at hr
    intro rest hrest
    have := hr rest hrest
    split
    · rename_i habs
      rw [if_pos habs] at this
      obtain ⟨c', hok, st, hsize⟩ := this
      exact ⟨c', n, hok, ⟨st.sound, st.cap, st.callback, st.hash_eq, st.perm⟩, hsize⟩
    · rename_i hpres
      rwa [if_neg hpres] at this

/-- How `A3_CACHE_INSERT` comes out. Only a new key in a table with room goes in beside all the others. -/
inductive Inserted (M : Methods K) (c : Cache K V) (key : K) (value : V) :
    Except Fault (Cache K V × List (Handed K V)) → Prop
  | room {c' : Cache K V} : (∀ e ∈ c.table.live, M.C key e.key ≠ 0) → c.table.size < c.table.cap →
      Stored M c c' key value c.table.live → c'.table.size = c.table.size + 1 → Inserted M c key value (.ok (c', []))
  | replaced {c' : Cache K V} {i n : Nat} {rest : List (Entry K V)} :
      (∃ e ∈ c.table.live, M.C key e.key = 0) ∨ c.table.cap ≤ c.table.size →
      victim c = some i → c.table.live.Perm (c.table.entry i :: rest) → (∀ e ∈ rest, M.C key e.key ≠ 0) →
      Stored M c c' key value rest → c'.table.size = n →
      Inserted M c key value (.ok (c', callback c.evictionCallback { c.table with size := n } i))
  | noVictim : (∃ e ∈ c.table.live, M.C key e.key = 0) ∨ c.table.cap ≤ c.table.size → victim c = none →
      Inserted M c key value (.error .unableToEvict)
  | stillStored {i : Nat} {rest : List (Entry K V)} : victim c = some i →
      c.table.live.Perm (c.table.entry i :: rest) → ¬(∀ e ∈ rest, M.C key e.key ≠ 0) →
      Inserted M c key value (.error .unableToInsert)

/-- **`A3_CACHE_INSERT` (`cache.h:163`)**, every way out. -/
theorem insert_cases (s : Sound M c) (key : K) (value : V) : Inserted M c key value (insert M c key value) := by
  by_cases hfull : (∃ e ∈ c.table.live, M.C key e.key = 0) ∨ c.table.cap ≤ c.table.size
  · have hins := insert_full s key value hfull
    cases hv : victim c with
    | none =>
      rw [hv] at hins
      rw [hins]
      exact .noVictim hfull hv
    | some i =>
      rw [hv] at hins
      obtain ⟨hi, _, hocc⟩ := victim_spec hv
      obtain ⟨_, _, _, _, hperm⟩ := deleteIndex_spec s.wf hi hocc
      have hrest := hins _ hperm
      split at hrest
      · next habs =>
        obtain ⟨c', n, hok, st, hsize⟩ := hrest
        rw [hok]
        exact .replaced hfull hv hperm habs st hsize
      · next hpres =>
        rw [hrest]
        exact .stillStored hv hperm hpres
  · obtain ⟨habs, hroom⟩ := not_or.1 hfull
    simp only [not_exists, not_and] at habs
    obtain ⟨c', hok, st, hsize⟩ := insert_free s value habs (by omega)
    rw [hok]
    exact .room habs (by omega) st hsize

/-! ## CLEAR -/

/-- The callback, if set, was called on the entries `removed` in turn, each still in the table. -/
def HandsOver (set : Bool) (handed : List (Handed K V)) (removed : List (Entry K V)) : Prop :=
  if set then List.Forall₂ (fun h e => h.key = e.key ∧ h.value = e.value ∧ e ∈ h.table.live) handed removed
  else handed = []

omit [Inhabited K] [Inhabited V] in
theorem handsOver_nil (set : Bool) : HandsOver set ([] : List (Handed K V)) [] := by
  cases set with
  | false => rfl
  | true => exact List.Forall₂.nil

theorem HandsOver.cons {set : Bool} {t : HT K V} {i : Nat} (hi : i < t.entries.length) (hocc : (t.entry i).hash ≠ 0)
    {handed : List (Handed K V)} {removed : List (Entry K V)} (h : HandsOver set handed removed) :
    HandsOver set (callback set t i ++ handed) (t.entry i :: removed) := by
  cases set with
  | false => exact h
  | true => exact List.Forall₂.cons ⟨rfl, rfl, entry_mem_live hi hocc⟩ h

/-- **The loop of `A3_CACHE_CLEAR` (`cache.h:177`)** removes some of the entries, handing over just those. -/
theorem clearLoop_spec (set : Bool) : ∀ (n : Nat) {t : HT K V} {i : Nat}, WF M t → i + n = t.cap →
    t.live.length ≤ t.size → ∃ t' handed removed, clearLoop set n t i = .ok (t', handed) ∧ WF M t' ∧
      SameBut { t with size := t.size - removed.length } t' ∧ t.live.Perm (removed ++ t'.live) ∧
      HandsOver set handed removed
  | 0, t, i, w, _, _ => ⟨t, [], [], rfl, w, SameBut.refl t, .refl _, handsOver_nil set⟩
  | n + 1, t, i, w, hi, hge => by
    by_cases h0 : (t.entry i).hash = 0
    · obtain ⟨t', handed, removed, hloop, h⟩ := clearLoop_spec set n (i := i + 1) w (by omega) hge
      exact ⟨t', handed, removed, by rw [clearLoop, if_pos h0, hloop], h⟩
    · have hic : i < t.cap := by omega
      obtain ⟨t1, hdel, hs1, w1, hperm1⟩ := deleteIndex_spec w hic h0
      have hlen := hperm1.length_eq
      have hsize : t1.size = t.size - 1 := by rw [hs1]
      have hcap : t1.cap = t.cap := by rw [hs1]
      simp only [List.length_cons] at hlen
      obtain ⟨t', handed, removed, hloop, w', hs', hperm, hho⟩ :=
        clearLoop_spec set n (i := i + 1) w1 (by omega) (by omega)
      refine ⟨t', callback set t i ++ handed, t.entry i :: removed, ?_, w', ?_, hperm1.trans (hperm.cons _),
        hho.cons (by rw [w.len]; exact hic) h0⟩
      · simp [clearLoop, h0, hdel, returns, bind, Except.bind, hloop, pure, Except.pure]
      · rw [hs1] at hs'
        rw [List.length_cons, Nat.add_comm, ← Nat.sub_sub]
        exact hs'

/-- **`A3_CACHE_CLEAR` (`cache.h:174`)** returns. -/
theorem clear_spec (s : Sound M c) : ∃ c' handed removed, clear c = .ok (c', handed) ∧ Sound M c' ∧ AllClear c' ∧
    c'.evictionCallback = c.evictionCallback ∧
    SameBut { c.table with size := c.table.size - removed.length } c'.table ∧
    c.table.live.Perm (removed ++ c'.table.live) ∧ HandsOver c.evictionCallback handed removed := by
  obtain ⟨t', handed, removed, hloop, w', hs, hperm, hho⟩ :=
    clearLoop_spec c.evictionCallback c.table.cap (i := 0) s.wf (by omega) s.size_ge
  have hlen := hperm.length_eq
  have hge := s.size_ge
  have hle := s.size_le
  simp only [List.length_append] at hlen
  have s' := s.withTable w' hs (by omega) (by omega)
  obtain ⟨hreset, hbm⟩ := reset_spec s'.bitmap.words
  refine ⟨_, handed, removed, ?_, s'.withAccessed hbm, allClear_replicate s'.aligned rfl, rfl, hs, hperm, hho⟩
  simp [clear, hloop, bind, Except.bind, hreset, pure, Except.pure]

/-! ## Steps and runs -/

/-- **Step lemma.** A call that returns keeps the invariant, the capacity and the callback. -/
theorem step_sound {c' : Cache K V} {a : Call K V} (s : Sound M c) (h : Step M c a c') :
    Sound M c' ∧ c'.table.cap = c.table.cap ∧ c'.evictionCallback = c.evictionCallback := by
  obtain ⟨op, found, handed⟩ := a
  cases op with
  | insert key value =>
    have hins := insert_cases s key value
    rw [step_insert h] at hins
    cases hins with
    | room _ _ st _ => exact ⟨st.sound, st.cap, st.callback⟩
    | replaced _ _ _ _ st _ => exact ⟨st.sound, st.cap, st.callback⟩
  | find key =>
    obtain ⟨blocks, hok, hbm⟩ := find_spec s key
    cases hok.symm.trans (step_find h).1
    exact ⟨s.withAccessed hbm, rfl, rfl⟩
  | clear =>
    obtain ⟨c1, handed1, removed, hok, s1, _, hcb, hs, _, _⟩ := clear_spec s
    cases hok.symm.trans (step_clear h)
    exact ⟨s1, by rw [hs], hcb⟩

/-- **Run lemma.** -/
theorem run_sound {c0 : Cache K V} {l : List (Call K V)} (h : Run (Step M) c0 l c) (s : Sound M c0) :
    Sound M c ∧ c.table.cap = c0.table.cap ∧ c.evictionCallback = c0.evictionCallback := by
  refine h.invariant (P := fun c => Sound M c ∧ c.table.cap = c0.table.cap ∧ c.evictionCallback = c0.evictionCallback)
    (fun c1 a c2 hP hs => ?_) ⟨s, rfl, rfl⟩
  obtain ⟨s1, hcap, hcb⟩ := hP
  obtain ⟨s2, hcap', hcb'⟩ := step_sound s1 hs
  exact ⟨s2, hcap'.trans hcap, hcb'.trans hcb⟩

/-- **`A3_CACHE_INIT` (`cache.h:72`)** -/
theorem init_spec (M : Methods K) (rand : Nat → UInt8) {capacity : Nat} (cb : Bool) (hcap : M.initialCap < capacity) :
    ∃ c : Cache K V, init M rand capacity cb = .ok c ∧ c.table.cap = capacity ∧ c.evictionCallback = cb ∧
      c.accessed = List.replicate (capacity / entriesPerBlock) 0#64 ∧ WF M c.table ∧ c.table.live = [] ∧
      c.table.size = 0 ∧ c.table.canGrow = false ∧ c.table.duplicateCb = none ∧ c.evictionIndex = 0 := by
  have w0 := init_wf (V := V) M none rand false
  obtain ⟨t, hre, hs, w, hperm⟩ := resize_spec w0 capacity hcap
  rw [init_live] at hperm
  refine ⟨⟨0, cb, List.replicate (capacity / entriesPerBlock) 0#64, t⟩, ?_, ?_, rfl, rfl, w, hperm.eq_nil, ?_, ?_, ?_, rfl⟩
  · have hpos : 0 < capacity ∧ M.initialCap < capacity := ⟨by omega, hcap⟩
    simp [init, hpos, hre, returns, bind, Except.bind, pure, Except.pure]
  · simp only; rw [hs]
  · simp only; rw [hs]; rfl
  · simp only; rw [hs]; rfl
  · simp only; rw [hs]; rfl

theorem init_sound (M : Methods K) (rand : Nat → UInt8) {capacity : Nat} (cb : Bool) (hcap : M.initialCap < capacity)
    (hdvd : entriesPerBlock ∣ capacity) : ∃ c : Cache K V, init M rand capacity cb = .ok c ∧ Sound M c ∧
      c.table.cap = capacity ∧ c.evictionCallback = cb ∧ c.table.live = [] ∧ c.table.size = 0 := by
  obtain ⟨c, hinit, hc, hcb, hacc, w, hlive, hsize, hgrow, hdup, hidx⟩ := init_spec (V := V) M rand cb hcap
  have hpos := w.cap_pos
  refine ⟨c, hinit, ⟨w, hgrow, hdup, by simp [hlive], by omega, by omega, by rw [hc]; exact hdvd, ⟨?_, ?_⟩⟩,
    hc, hcb, hlive, hsize⟩
  · rw [hacc, hc, List.length_replicate]
  · intro block hblock
    rw [hacc] at hblock
    rw [(List.mem_replicate.1 hblock).2]; decide

/-! ## A cache to evaluate on -/

/-- A cache of 64 slots with keys that are numbers. -/
def cacheOf64 (cb : Bool) (block : BitVec 64) (size : Nat) (entries : List (Entry Nat Nat)) : Cache Nat Nat :=
  ⟨0, cb, [block], ⟨false, size, 64, List.replicate 32 0, none, entries⟩⟩

/-- Keys 1 and 65 in slots 1 and 2, both of them accessed. -/
def bothStored : Cache Nat Nat :=
  cacheOf64 true 6#64 2 (((List.replicate 64 default).set 1 ⟨1, 10, 1⟩).set 2 ⟨65, 650, 65⟩)

/-- Keys 64 and 65 at home, the first of them accessed. -/
def bothAtHome : Cache Nat Nat :=
  cacheOf64 true 1#64 2 ((((List.replicate 64 default).set 1 ⟨65, 650, 65⟩).set 2 ⟨65, 650, 0⟩).set 0 ⟨64, 640, 64⟩)

/-- Keys 1 and 65, which have one home, are inserted and 1 is found. A CLEAR passes over 65, and 64 is inserted. -/
def fewCalls : List (Call Nat Nat) :=
  [⟨.insert 1 10, none, []⟩, ⟨.insert 65 650, none, []⟩, ⟨.find 1, some 10, []⟩,
    ⟨.clear, none, callback true bothStored.table 1⟩, ⟨.insert 64 640, none, []⟩]

theorem few_run : init numbersInTwo (fun _ => 0) 64 true = .ok (cacheOf64 true 0#64 0 (List.replicate 64 default)) ∧
    Run (FreshStep numbersInTwo) (cacheOf64 true 0#64 0 (List.replicate 64 default)) fewCalls bothAtHome := by
  have h1 : FreshStep numbersInTwo (cacheOf64 true 0#64 0 (List.replicate 64 default)) ⟨.insert 1 10, none, []⟩
      (cacheOf64 true 2#64 1 ((List.replicate 64 default).set 1 ⟨1, 10, 1⟩)) := ⟨rfl, rfl⟩
  have h2 : FreshStep numbersInTwo (cacheOf64 true 2#64 1 ((List.replicate 64 default).set 1 ⟨1, 10, 1⟩))
      ⟨.insert 65 650, none, []⟩ bothStored := ⟨rfl, rfl⟩
  have h3 : FreshStep numbersInTwo bothStored ⟨.find 1, some 10, []⟩ bothStored := ⟨trivial, rfl⟩
  have h4 : FreshStep numbersInTwo bothStored ⟨.clear, none, callback true bothStored.table 1⟩
      (cacheOf64 true 0#64 1 (((List.replicate 64 default).set 1 ⟨65, 650, 65⟩).set 2 ⟨65, 650, 0⟩)) := ⟨trivial, rfl⟩
  have h5 : FreshStep numbersInTwo
      (cacheOf64 true 0#64 1 (((List.replicate 64 default).set 1 ⟨65, 650, 65⟩).set 2 ⟨65, 650, 0⟩))
      ⟨.insert 64 640, none, []⟩ bothAtHome := ⟨rfl, rfl⟩
  exact ⟨rfl, .cons h1 (.cons h2 (.cons h3 (.cons h4 (.single h5))))⟩

end A3Cache
