import Mathlib.Data.Finset.Card
import Mathlib.Data.Int.Notation

/-!
# Counting by a property

A component that counts its objects by what they are doing keeps a number for each
property. `tally A P` is what such a number ought to be: how many objects of `A` have
`P`. The rules say how it moves when one object changes.
-/

namespace PonBeam

universe u

variable {α : Type u} {A B : Finset α} {P Q : α → Prop} {a : α}

open Classical in
/-- How many of `A` have `P`. -/
noncomputable def tally (A : Finset α) (P : α → Prop) : ℤ := (A.filter P).card

theorem tally_mono (h : ∀ x ∈ A, P x → Q x) : tally A P ≤ tally A Q := by
  classical
  refine Int.ofNat_le.mpr (Finset.card_le_card fun x hx => ?_)
  obtain ⟨hxA, hxP⟩ := Finset.mem_filter.mp hx
  exact Finset.mem_filter.mpr ⟨hxA, h x hxA hxP⟩

theorem tally_congr (h : ∀ x ∈ A, (P x ↔ Q x)) : tally A P = tally A Q :=
  Int.le_antisymm (tally_mono fun x hx => (h x hx).mp) (tally_mono fun x hx => (h x hx).mpr)

theorem tally_pos (ha : a ∈ A) (h : P a) : 0 < tally A P := by
  classical
  exact Int.natCast_pos.mpr (Finset.card_pos.mpr ⟨a, Finset.mem_filter.mpr ⟨ha, h⟩⟩)

/-- Where the number is zero nothing has the property. -/
theorem not_of_tally_eq_zero (h : tally A P = 0) (ha : a ∈ A) : ¬ P a := fun hP => by
  have hpos := tally_pos ha hP
  rw [h] at hpos
  exact lt_irrefl _ hpos

/-- One more object has the property. -/
theorem tally_gain (ha : a ∈ A) (h : ∀ x, x ≠ a → (Q x ↔ P x)) (hP : ¬ P a) (hQ : Q a) :
    tally A Q = tally A P + 1 := by
  classical
  have hset : A.filter Q = insert a (A.filter P) := by
    ext x
    by_cases hx : x = a
    · subst hx
      simp [ha, hQ]
    · simp [hx, h x hx]
  have hnot : a ∉ A.filter P := fun hm => hP (Finset.mem_filter.mp hm).2
  unfold tally
  rw [hset, Finset.card_insert_of_notMem hnot]
  push_cast
  rfl

/-- One object fewer has the property. -/
theorem tally_lose (ha : a ∈ A) (h : ∀ x, x ≠ a → (Q x ↔ P x)) (hP : P a) (hQ : ¬ Q a) :
    tally A Q = tally A P - 1 := by
  have hgain : tally A P = tally A Q + 1 := tally_gain ha (fun x hx => (h x hx).symm) hQ hP
  omega

/-- The change of one object that does not touch the property. -/
theorem tally_keep (h : ∀ x, x ≠ a → (Q x ↔ P x)) (ha : Q a ↔ P a) : tally A Q = tally A P :=
  tally_congr fun x _ => by
    by_cases hx : x = a
    · rw [hx]
      exact ha
    · exact h x hx

/-- The change of one object, whatever it does to the property. -/
theorem tally_update [Decidable (P a)] [Decidable (Q a)] (ha : a ∈ A)
    (h : ∀ x, x ≠ a → (Q x ↔ P x)) :
    tally A Q = tally A P - (if P a then 1 else 0) + (if Q a then 1 else 0) := by
  by_cases hP : P a <;> by_cases hQ : Q a
  · rw [tally_keep h (iff_of_true hQ hP), if_pos hP, if_pos hQ]
    omega
  · rw [tally_lose ha h hP hQ, if_pos hP, if_neg hQ]
    omega
  · rw [tally_gain ha h hP hQ, if_neg hP, if_pos hQ]
    omega
  · rw [tally_keep h (iff_of_false hQ hP), if_neg hP, if_neg hQ]
    omega

/-- More objects to look at, none of them with the property. -/
theorem tally_grow (hAB : A ⊆ B) (h : ∀ x, P x → x ∈ A) : tally B P = tally A P := by
  classical
  unfold tally
  congr 2
  ext x
  simp only [Finset.mem_filter]
  exact ⟨fun hx => ⟨h x hx.2, hx.2⟩, fun hx => ⟨hAB hx.1, hx.2⟩⟩

/-- Two properties that exclude each other. -/
theorem tally_or (h : ∀ x ∈ A, P x → ¬ Q x) :
    (tally A fun x => P x ∨ Q x) = tally A P + tally A Q := by
  classical
  have hcard : (A.filter fun x => P x ∨ Q x).card = (A.filter P).card + (A.filter Q).card := by
    rw [Finset.filter_or, Finset.card_union_of_disjoint]
    refine Finset.disjoint_left.mpr fun x hP hQ => ?_
    rw [Finset.mem_filter] at hP hQ
    exact h x hP.1 hP.2 hQ.2
  unfold tally
  rw [← Int.natCast_add, ← hcard]
  congr!

end PonBeam
