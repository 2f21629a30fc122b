import Mathlib.Data.Set.Finite.Basic
import Mathlib.Logic.Relation
import Mathlib.Order.WellFoundedSet

/-!
# Objects that own holders of objects

A holder keeps the object it holds alive. Some holders are parts of an object and go when it goes; the others, and what else
keeps objects, stay. `Dies` is what goes once nothing that stays leads to it: an object all of whose holders are parts of
objects that die. Objects that hold each other in a cycle do not die: among finitely many objects, what does not die is what
the holders that stay lead to (`Rooted`) or what a cycle leads to (`dies_iff`).
-/

namespace Ownership

structure Holding (η ω : Type) where
  holds : η → ω → Prop
  owner : η → Option ω
  kept : ω → Prop

namespace Holding
variable {η ω : Type} {G G' : Holding η ω} {h : η} {x : ω}

inductive Dies (G : Holding η ω) : ω → Prop
  | intro {x : ω} (hkept : ¬G.kept x) (hpart : ∀ h, G.holds h x → ∃ y, G.owner h = some y)
      (hdies : ∀ h y, G.holds h x → G.owner h = some y → G.Dies y) : G.Dies x

theorem Dies.not_kept (hx : G.Dies x) : ¬G.kept x := by
  cases hx with
  | intro hkept _ _ => exact hkept

/-- A holder that is a part of an object that dies. -/
def Doomed (G : Holding η ω) (h : η) : Prop := ∃ y, G.owner h = some y ∧ G.Dies y

theorem Dies.of_doomed (hkept : ¬G.kept x) (hdoomed : ∀ h, G.holds h x → G.Doomed h) : G.Dies x := by
  refine .intro hkept (fun h hh => ?_) (fun h y hh hy => ?_)
  · obtain ⟨y, hy, _⟩ := hdoomed h hh
    exact ⟨y, hy⟩
  · obtain ⟨y', hy', hdies⟩ := hdoomed h hh
    obtain rfl : y = y' := Option.some.inj (hy.symm.trans hy')
    exact hdies

/-- What dies when some holders are gone that were doomed themselves, dies. -/
theorem Dies.lift (hkept : ∀ x, G.kept x → G'.kept x)
    (hholds : ∀ h x, G.holds h x → G.Doomed h ∨ G'.holds h x ∧ G'.owner h = G.owner h) (hx : G'.Dies x) : G.Dies x := by
  induction hx with
  | @intro x hnot hpart _ ih =>
    refine .of_doomed (fun hk => hnot (hkept x hk)) fun h hh => ?_
    rcases hholds h x hh with hdoomed | ⟨hh', howner⟩
    · exact hdoomed
    · obtain ⟨y, hy⟩ := hpart h hh'
      exact ⟨y, howner ▸ hy, ih h y hh' hy⟩

/-! ## What leads to an object -/

/-- A part of `y` holds `x`. -/
def Leads (G : Holding η ω) (y x : ω) : Prop := ∃ h, G.holds h x ∧ G.owner h = some y

/-- Something that stays leads to the object. -/
inductive Rooted (G : Holding η ω) : ω → Prop
  | kept {x : ω} : G.kept x → G.Rooted x
  | holder {h : η} {x : ω} : G.holds h x → G.owner h = none → G.Rooted x
  | part {y x : ω} : G.Rooted y → G.Leads y x → G.Rooted x

/-- The object is on a cycle, or a cycle leads to it. -/
def Cyclic (G : Holding η ω) (x : ω) : Prop := ∃ y, Relation.TransGen G.Leads y y ∧ Relation.ReflTransGen G.Leads y x

theorem Dies.not_rooted (hx : G.Dies x) : ¬G.Rooted x := by
  induction hx with
  | intro hkept hpart _ ih =>
    intro hroot
    cases hroot with
    | kept hk => exact hkept hk
    | @holder h _ hh hnone =>
      obtain ⟨y, hy⟩ := hpart h hh
      cases hnone.symm.trans hy
    | part hy hlead =>
      obtain ⟨h, hh, howner⟩ := hlead
      exact ih h _ hh howner hy

theorem Dies.acc (hx : G.Dies x) : Acc G.Leads x := by
  induction hx with
  | intro _ _ _ ih =>
    constructor
    rintro y ⟨h, hh, howner⟩
    exact ih h y hh howner

theorem dies_of_acc (hacc : Acc G.Leads x) (hroot : ¬G.Rooted x) : G.Dies x := by
  induction hacc with
  | intro x _ ih =>
    refine .of_doomed (fun hk => hroot (.kept hk)) fun h hh => ?_
    cases howner : G.owner h with
    | none => exact absurd (.holder hh howner) hroot
    | some y => exact ⟨y, howner, ih y ⟨h, hh, howner⟩ fun hy => hroot (.part hy ⟨h, hh, howner⟩)⟩

/-- What lies on a cycle is not accessible. -/
theorem not_acc_of_cyclic (hx : G.Cyclic x) : ¬Acc G.Leads x := by
  obtain ⟨y, hcycle, hlead⟩ := hx
  intro hacc
  have hy : Acc (Relation.TransGen G.Leads) y := by
    rcases Relation.reflTransGen_iff_eq_or_transGen.1 hlead with rfl | hlead
    · exact hacc.transGen
    · exact hacc.transGen.inv hlead
  induction hy with
  | intro y _ ih => exact ih y hcycle hcycle (.trans hcycle.to_reflTransGen hlead)

/-- Among finitely many objects, only a cycle has no beginning. -/
theorem acc_of_not_cyclic {S : Set ω} (hS : S.Finite) (hlead : ∀ y x, G.Leads y x → y ∈ S) (hx : ¬G.Cyclic x) :
    Acc G.Leads x := by
  -- the objects that lead to `x`, by which of them lead to which
  let r : ω → ω → Prop := fun y z => Relation.TransGen G.Leads y z ∧ Relation.ReflTransGen G.Leads z x
  have : IsStrictOrder ω r :=
    { irrefl := fun y hy => hx ⟨y, hy⟩
      trans := fun _ _ _ hyz hzu => ⟨hyz.1.trans hzu.1, hzu.2⟩ }
  have hacc : ∀ y ∈ S, Relation.ReflTransGen G.Leads y x → Acc G.Leads y := by
    intro y hy
    have hwf : S.WellFoundedOn r := hS.wellFoundedOn
    refine hwf.induction (P := fun y => Relation.ReflTransGen G.Leads y x → Acc G.Leads y) hy ?_
    intro y hy ih hyx
    refine .intro y fun z hz => ?_
    exact ih z (hlead z y hz) ⟨.single hz, hyx⟩ (.head hz hyx)
  exact .intro x fun y hy => hacc y (hlead y x hy) (.single hy)

/-- **What dies among finitely many objects.** -/
theorem dies_iff {S : Set ω} (hS : S.Finite) (hlead : ∀ y x, G.Leads y x → y ∈ S) :
    G.Dies x ↔ ¬(G.Rooted x ∨ G.Cyclic x) := by
  rw [not_or]
  constructor
  · intro hx
    exact ⟨hx.not_rooted, fun hcyclic => not_acc_of_cyclic hcyclic hx.acc⟩
  · rintro ⟨hroot, hcyclic⟩
    exact dies_of_acc (acc_of_not_cyclic hS hlead hcyclic) hroot

end Holding

end Ownership
