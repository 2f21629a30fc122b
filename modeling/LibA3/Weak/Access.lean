import Mathlib.Logic.Function.Basic
import Mathlib.Order.Lattice

/-!
# Release and acquire

Of each location the memory keeps what has been written, each message at a time of its own. A thread has a view: the times of
the latest writes it knows of. It reads any message that is not before its view, and writes at any free time after
it; a read-modify-write takes the time right behind the message it reads. A message that is released carries the view of its
writer, and whoever acquires it knows what the writer knew. There are no fences, and no thread reads what is written later.

* `Chained.last_of_free` — where there are only read-modify-writes, one reads what was written last
* `Counter.rmw` — a location that is only incremented counts
* `Access.latest` — a thread may always read what was written last, and write behind it
-/

namespace Weak

variable {L α : Type} {V : L → Type}

abbrev View (L : Type) : Type := L → Nat

structure Message (L α : Type) where
  time : Nat
  value : α
  view : View L

abbrev Memory (L : Type) (V : L → Type) : Type := (l : L) → List (Message L (V l))

inductive Order where
  | relaxed
  | acquire
  | release
  | acqRel
deriving DecidableEq, Repr

def Order.acquires : Order → Bool
  | .acquire | .acqRel => true
  | .relaxed | .release => false

def Order.releases : Order → Bool
  | .release | .acqRel => true
  | .relaxed | .acquire => false

/-! ## What was written last -/

def Last (ms : List (Message L α)) (m : Message L α) : Prop := m ∈ ms ∧ ∀ m' ∈ ms, m' ≠ m → m'.time < m.time

variable {ms : List (Message L α)} {m m' : Message L α}

theorem Last.eq_of_le (h : Last ms m) (hm : m' ∈ ms) (hle : m.time ≤ m'.time) : m' = m := by
  by_contra hne
  exact Nat.not_lt.2 hle (h.2 m' hm hne)

theorem Last.unique (h : Last ms m) (h' : Last ms m') : m = m' := by
  rcases Nat.le_total m.time m'.time with hle | hle
  · exact (h.eq_of_le h'.1 hle).symm
  · exact h'.eq_of_le h.1 hle

theorem Last.time_le (h : Last ms m) (hm : m' ∈ ms) : m'.time ≤ m.time := by
  by_cases heq : m' = m
  · rw [heq]
  · exact Nat.le_of_lt (h.2 m' hm heq)

/-- A write behind the last. -/
theorem Last.cons (h : Last ms m) (hlt : m.time < m'.time) : Last (m' :: ms) m' := by
  refine ⟨List.mem_cons_self, fun m'' hm hne => ?_⟩
  rcases List.mem_cons.1 hm with rfl | hm
  · exact absurd rfl hne
  · exact Nat.lt_of_le_of_lt (h.time_le hm) hlt

/-! ## Only read-modify-writes -/

/-- Each message but the last has been read by a read-modify-write. -/
def Chained (ms : List (Message L α)) : Prop := ∀ m ∈ ms, Last ms m ∨ ∃ m' ∈ ms, m'.time = m.time + 1

theorem Chained.last_of_free (h : Chained ms) (hm : m ∈ ms) (hfree : ∀ m' ∈ ms, m'.time ≠ m.time + 1) : Last ms m := by
  rcases h m hm with hlast | ⟨m', hm', htime⟩
  · exact hlast
  · exact absurd htime (hfree m' hm')

theorem Chained.cons (h : Chained ms) (hlast : Last ms m) (htime : m'.time = m.time + 1) : Chained (m' :: ms) := by
  have hlast' : Last (m' :: ms) m' := hlast.cons (by omega)
  intro m'' hm
  rcases List.mem_cons.1 hm with rfl | hm
  · exact Or.inl hlast'
  · rcases h m'' hm with hlast'' | ⟨m3, hm3, htime3⟩
    · exact Or.inr ⟨m', List.mem_cons_self, by rw [htime, hlast''.unique hlast]⟩
    · exact Or.inr ⟨m3, List.mem_cons_of_mem _ hm3, htime3⟩

/-- A location that has been incremented `n` times, and never written otherwise. -/
structure Counter (ms : List (Message L Nat)) (n : Nat) : Prop where
  chained : Chained ms
  le : ∀ m ∈ ms, m.value ≤ n
  last : ∀ m, Last ms m → m.value = n

/-- The message that an increment reads is the last. -/
theorem Counter.rmw {ms : List (Message L Nat)} {m : Message L Nat} {n : Nat} (h : Counter ms n) (m' : Message L Nat)
    (hm : m ∈ ms) (hfree : ∀ m' ∈ ms, m'.time ≠ m.time + 1) (htime : m'.time = m.time + 1) (hvalue : m'.value = m.value + 1) :
    Last ms m ∧ m.value = n ∧ Counter (m' :: ms) (n + 1) := by
  have hlast := h.chained.last_of_free hm hfree
  have hn := h.last m hlast
  have hlast' : Last (m' :: ms) m' := hlast.cons (by omega)
  refine ⟨hlast, hn, h.chained.cons hlast htime, fun m'' hm'' => ?_, fun m'' hlast'' => ?_⟩
  · rcases List.mem_cons.1 hm'' with rfl | hm''
    · omega
    · have := h.le m'' hm''
      omega
  · rw [hlast''.unique hlast', hvalue, hn]

/-! ## Accesses -/

/-- What a thread does to a location. A read-modify-write whose function is undefined at the value it has read only
reads, in the order `fail`: a compare-exchange. -/
inductive Act (α : Type) where
  | load (o : Order)
  | store (v : α) (o : Order)
  | rmw (f : α → Option α) (o fail : Order)

variable [DecidableEq L]

/-- The view, and the write to `l` at time `t`. -/
def know (w : View L) (l : L) (t : Nat) : View L := Function.update w l (max (w l) t)

def afterRead (w : View L) (l : L) (o : Order) (m : Message L α) : View L :=
  if o.acquires then know w l m.time ⊔ m.view else know w l m.time

/-- What a write in order `o` carries of the view of its writer. -/
def carried (w : View L) (o : Order) : View L := if o.releases then w else fun _ => 0

/-- An access to `l` by a thread with view `w`, the value that it gets, and the memory and the view after it. -/
inductive Access (mem : Memory L V) (w : View L) (l : L) : Act (V l) → V l → Memory L V → View L → Prop
  | load (o : Order) (m : Message L (V l)) : m ∈ mem l → w l ≤ m.time → Access mem w l (.load o) m.value mem (afterRead w l o m)
  | store (v : V l) (o : Order) (t : Nat) : w l < t → (∀ m ∈ mem l, m.time ≠ t) →
      Access mem w l (.store v o) v (Function.update mem l (⟨t, v, carried (know w l t) o⟩ :: mem l)) (know w l t)
  | rmw (f : V l → Option (V l)) (o fail : Order) (m : Message L (V l)) (v : V l) :
      m ∈ mem l → w l ≤ m.time → f m.value = some v → (∀ m' ∈ mem l, m'.time ≠ m.time + 1) →
      Access mem w l (.rmw f o fail) m.value
        (Function.update mem l
          (⟨m.time + 1, v, carried (know (afterRead w l o m) l (m.time + 1)) o ⊔ m.view⟩ :: mem l))
        (know (afterRead w l o m) l (m.time + 1))
  | failed (f : V l → Option (V l)) (o fail : Order) (m : Message L (V l)) : m ∈ mem l → w l ≤ m.time → f m.value = none →
      Access mem w l (.rmw f o fail) m.value mem (afterRead w l fail m)

/-! ## Views -/

variable {mem mem' : Memory L V} {w w' : View L} {l : L} {o : Order} {t : Nat}

theorem le_know (w : View L) (l : L) (t : Nat) : w ≤ know w l t := by
  intro l'
  by_cases h : l' = l
  · subst h
    rw [know, Function.update_self]
    exact Nat.le_max_left _ _
  · rw [know, Function.update_of_ne h]

theorem time_le_know (w : View L) (l : L) (t : Nat) : t ≤ know w l t l := by
  rw [know, Function.update_self]
  exact Nat.le_max_right _ _

theorem know_afterRead_le (w : View L) (l : L) (o : Order) (m : Message L α) : know w l m.time ≤ afterRead w l o m := by
  rw [afterRead]
  split
  · exact le_sup_left
  · exact le_refl _

theorem le_afterRead (w : View L) (l : L) (o : Order) (m : Message L α) : w ≤ afterRead w l o m :=
  (le_know w l m.time).trans (know_afterRead_le w l o m)

theorem time_le_afterRead (w : View L) (l : L) (o : Order) (m : Message L α) : m.time ≤ afterRead w l o m l :=
  (time_le_know w l m.time).trans (know_afterRead_le w l o m l)

/-- Who acquires a message knows what it carries. -/
theorem view_le_afterRead (w : View L) (l : L) (ho : o.acquires = true) (m : Message L α) : m.view ≤ afterRead w l o m := by
  rw [afterRead, if_pos ho]
  exact le_sup_right

omit [DecidableEq L] in
theorem carried_of_releases (ho : o.releases = true) : carried w o = w := if_pos ho

theorem Last.update {m m' : Message L (V l)} (h : Last (mem l) m) (hlt : m.time < m'.time) :
    Last (Function.update mem l (m' :: mem l) l) m' := by
  rw [Function.update_self]
  exact h.cons hlt

/-! ## What an access can do -/

theorem Access.of_load {v : V l} (h : Access mem w l (.load o) v mem' w') :
    ∃ m ∈ mem l, w l ≤ m.time ∧ v = m.value ∧ mem' = mem ∧ w' = afterRead w l o m := by
  cases h with
  | load _ m hm hle => exact ⟨m, hm, hle, rfl, rfl, rfl⟩

theorem Access.of_store {u v : V l} (h : Access mem w l (.store u o) v mem' w') :
    ∃ t, w l < t ∧ w' = know w l t ∧ mem' = Function.update mem l (⟨t, u, carried w' o⟩ :: mem l) := by
  cases h with
  | store _ _ t hlt _ => exact ⟨t, hlt, rfl, rfl⟩

/-- The message that is read, and the one that is written behind it if the function is defined there. -/
theorem Access.of_rmw {f : V l → Option (V l)} {fail : Order} {v : V l} (h : Access mem w l (.rmw f o fail) v mem' w') :
    ∃ m ∈ mem l, w l ≤ m.time ∧ v = m.value ∧
      ((∃ u, f m.value = some u ∧ (∀ m' ∈ mem l, m'.time ≠ m.time + 1) ∧ w' = know (afterRead w l o m) l (m.time + 1) ∧
          mem' = Function.update mem l (⟨m.time + 1, u, carried w' o ⊔ m.view⟩ :: mem l)) ∨
        f m.value = none ∧ mem' = mem ∧ w' = afterRead w l fail m) := by
  cases h with
  | rmw _ _ _ m u hm hle hf hfree => exact ⟨m, hm, hle, rfl, Or.inl ⟨u, hf, hfree, rfl, rfl⟩⟩
  | failed _ _ _ m hm hle hf => exact ⟨m, hm, hle, rfl, Or.inr ⟨hf, rfl, rfl⟩⟩

/-- Nothing that was known is forgotten. -/
theorem Access.view_le {act : Act (V l)} {v : V l} (h : Access mem w l act v mem' w') : w ≤ w' := by
  cases h with
  | load => exact le_afterRead _ _ _ _
  | store => exact le_know _ _ _
  | rmw => exact (le_afterRead _ _ _ _).trans (le_know _ _ _)
  | failed => exact le_afterRead _ _ _ _

theorem Access.other {act : Act (V l)} {v : V l} {l' : L} (h : Access mem w l act v mem' w') (hne : l' ≠ l) :
    mem' l' = mem l' := by
  cases h with
  | load | failed => rfl
  | store | rmw => exact Function.update_of_ne hne ..

/-! ## Without old values -/

/-- What an access makes of the value of its location, and the value it gets, if there are no others. -/
def Act.now : Act α → α → α × α
  | .load _, a => (a, a)
  | .store v _, _ => (v, v)
  | .rmw f _ _, a => ((f a).getD a, a)

/-- The view has nothing that has not been written. -/
def Below (mem : Memory L V) (w : View L) : Prop := ∀ l m, Last (mem l) m → w l ≤ m.time

/-- What was written last to each location. -/
structure Latest (mem : Memory L V) (val : (l : L) → V l) : Prop where
  last : ∀ l, ∃ m, Last (mem l) m ∧ m.value = val l
  below : ∀ l, ∀ m ∈ mem l, Below mem m.view

omit [DecidableEq L] in
theorem Below.sup (h : Below mem w) (h' : Below mem w') : Below mem (w ⊔ w') :=
  fun l m hlast => Nat.max_le.2 ⟨h l m hlast, h' l m hlast⟩

theorem Below.know {m : Message L (V l)} (h : Below mem w) (hm : m ∈ mem l) : Below mem (know w l m.time) := by
  intro l' m' hlast
  by_cases hl : l' = l
  · subst hl
    rw [Weak.know, Function.update_self]
    exact Nat.max_le.2 ⟨h l' m' hlast, hlast.time_le hm⟩
  · rw [Weak.know, Function.update_of_ne hl]
    exact h l' m' hlast

theorem Below.afterRead {m : Message L (V l)} (h : Below mem w) (hm : m ∈ mem l) (hview : Below mem m.view) :
    Below mem (afterRead w l o m) := by
  rw [Weak.afterRead]
  split
  · exact (h.know hm).sup hview
  · exact h.know hm

/-- A write behind the last hides nothing. -/
theorem Below.update {m m' : Message L (V l)} (h : Below mem w) (hlast : Last (mem l) m) (hlt : m.time < m'.time) :
    Below (Function.update mem l (m' :: mem l)) w := by
  intro l' m'' hlast''
  by_cases hl : l' = l
  · subst hl
    rw [hlast''.unique (hlast.update hlt)]
    exact (h l' m hlast).trans (Nat.le_of_lt hlt)
  · rw [Function.update_of_ne hl] at hlast''
    exact h l' m'' hlast''

theorem Latest.update {val : (l : L) → V l} {m m' : Message L (V l)} (h : Latest mem val) (hlast : Last (mem l) m)
    (hlt : m.time < m'.time) (hview : Below (Function.update mem l (m' :: mem l)) m'.view) :
    Latest (Function.update mem l (m' :: mem l)) (Function.update val l m'.value) := by
  constructor
  · intro l'
    by_cases hl : l' = l
    · subst hl
      exact ⟨m', hlast.update hlt, (Function.update_self _ _ _).symm⟩
    · obtain ⟨m'', hlast'', hvalue⟩ := h.last l'
      refine ⟨m'', ?_, ?_⟩
      · rwa [Function.update_of_ne hl]
      · rwa [Function.update_of_ne hl]
  · intro l' m'' hm
    by_cases hl : l' = l
    · subst hl
      rw [Function.update_self] at hm
      rcases List.mem_cons.1 hm with rfl | hm
      · exact hview
      · exact (h.below l' m'' hm).update hlast hlt
    · rw [Function.update_of_ne hl] at hm
      exact (h.below l' m'' hm).update hlast hlt

/-- **A thread may always read what was written last**, and write behind it. -/
theorem Access.latest {val : (l : L) → V l} (h : Latest mem val) (hw : Below mem w) (act : Act (V l)) :
    ∃ mem' w', Access mem w l act (act.now (val l)).2 mem' w' ∧ Latest mem' (Function.update val l (act.now (val l)).1) ∧
      Below mem' w' ∧ ∀ u, Below mem u → Below mem' u := by
  obtain ⟨m, hlast, hvalue⟩ := h.last l
  have hle := hw l m hlast
  have hread : ∀ o, Below mem (afterRead w l o m) := fun o => hw.afterRead hlast.1 (h.below l m hlast.1)
  have hfree : ∀ m' ∈ mem l, m'.time ≠ m.time + 1 := fun m' hm => by
    have := hlast.time_le hm
    omega
  have hlt : m.time < m.time + 1 := Nat.lt_succ_self _
  -- what a write behind the last carries
  have hknow : ∀ (u : View L) (m' : Message L (V l)), m'.time = m.time + 1 → Below mem u →
      Below (Function.update mem l (m' :: mem l)) (know u l (m.time + 1)) := by
    intro u m' htime hu
    rw [← htime]
    refine (hu.update hlast (by omega)).know ?_
    rw [Function.update_self]
    exact List.mem_cons_self
  have hcarried : ∀ (mem' : Memory L V) (u : View L) (o : Order), Below mem' u → Below mem' (carried u o) := by
    intro mem' u o hu
    rw [carried]
    split
    · exact hu
    · exact fun _ _ _ => Nat.zero_le _
  cases act with
  | load o =>
    refine ⟨mem, _, ?_, ?_, hread o, fun u hu => hu⟩
    · rw [← hvalue]
      exact .load o m hlast.1 hle
    · rwa [Act.now, Function.update_eq_self]
  | store v o =>
    have hview := hknow w ⟨m.time + 1, v, carried (know w l (m.time + 1)) o⟩ rfl hw
    exact ⟨_, _, .store v o (m.time + 1) (Nat.lt_succ_of_le hle) hfree, h.update hlast hlt (hcarried _ _ _ hview), hview,
      fun u hu => hu.update hlast hlt⟩
  | rmw f o fail =>
    rw [Act.now, ← hvalue]
    cases hf : f m.value with
    | none =>
      refine ⟨mem, _, .failed f o fail m hlast.1 hle hf, ?_, hread fail, fun u hu => hu⟩
      rwa [Option.getD_none, hvalue, Function.update_eq_self]
    | some v =>
      have hview := hknow (afterRead w l o m)
        ⟨m.time + 1, v, carried (know (afterRead w l o m) l (m.time + 1)) o ⊔ m.view⟩ rfl (hread o)
      have hcarries := (hcarried _ _ o hview).sup ((h.below l m hlast.1).update hlast hlt)
      exact ⟨_, _, .rmw f o fail m v hlast.1 hle hf hfree, h.update hlast hlt hcarries, hview,
        fun u hu => hu.update hlast hlt⟩

end Weak
