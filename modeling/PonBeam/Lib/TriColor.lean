import Mathlib.Logic.Relation

/-!
# Tri-colour marking

The colour discipline of a mark phase over an arbitrary directed graph, with no
mention of how the graph is stored. A marking is **closed** when no black
vertex points to a white one; once no vertex is grey, a closed marking that has
left no root white covers everything reachable (`Closed.reachable_black`).
-/

namespace PonBeam

universe u

/-- The three colours. -/
inductive Color : Type where
  /-- not notified yet -/
  | white
  /-- notified, references not yet -/
  | gray
  /-- notified, references too -/
  | black
  deriving DecidableEq, Repr

namespace TriColor

variable {V : Type u} {edge : V → V → Prop} {root : V → Prop} {color : V → Color}

/-- `v` is reachable from a root. -/
def Reachable (edge : V → V → Prop) (root : V → Prop) (v : V) : Prop :=
  ∃ r, root r ∧ Relation.ReflTransGen edge r v

theorem Reachable.of_root {v : V} (h : root v) : Reachable edge root v :=
  ⟨v, h, Relation.ReflTransGen.refl⟩

theorem Reachable.step {v w : V} (h : Reachable edge root v) (he : edge v w) :
    Reachable edge root w := by
  obtain ⟨r, hr, hrv⟩ := h
  exact ⟨r, hr, hrv.tail he⟩

/-- What every reachable vertex inherits from the roots along edges. -/
theorem Reachable.induct {P : V → Prop} (hroot : ∀ v, root v → P v)
    (hedge : ∀ v w, P v → edge v w → P w) {v : V} (h : Reachable edge root v) : P v := by
  obtain ⟨r, hr, hrv⟩ := h
  induction hrv with
  | refl => exact hroot r hr
  | tail _ he ih => exact hedge _ _ ih he

/-- No black vertex points to a white one. -/
def Closed (edge : V → V → Prop) (color : V → Color) : Prop :=
  ∀ v w, color v = .black → edge v w → color w ≠ .white

/-- **Tri-colour safety**: when the grey set is empty and no root is white, a
closed marking has every reachable vertex black. -/
theorem Closed.reachable_black (hc : Closed edge color) (hgray : ∀ v, color v ≠ .gray)
    (hroot : ∀ v, root v → color v ≠ .white) {v : V} (h : Reachable edge root v) :
    color v = .black := by
  have hblack : ∀ w, color w ≠ .white → color w = .black := by
    intro w hw
    cases hcol : color w with
    | white => exact absurd hcol hw
    | gray => exact absurd hcol (hgray w)
    | black => rfl
  exact h.induct (fun w hw => hblack w (hroot w hw))
    fun u w hu he => hblack w (hc u w hu he)

end TriColor

end PonBeam
