import Mathlib.Data.Int.Notation
import Mathlib.Data.Int.Order.Basic
import Mathlib.Order.Basic

/-!
# Comparisons that return a number

A comparison returns a negative number, zero or a positive number. `thenCmp r r'` is the
comparison of two things one after the other: the second counts if the first finds no
difference. `Consistent ab bc ac` says that the three comparisons of `a`, `b` and `c` fit a
total preorder; this carries over to what is compared one after the other.
-/

namespace PonBeam

/-- The result `r`, or `r'` if there is no difference. -/
def thenCmp (r r' : ℤ) : ℤ := if r ≠ 0 then r else r'

@[simp] theorem thenCmp_zero (r : ℤ) : thenCmp 0 r = r := if_neg (not_not.2 rfl)

theorem thenCmp_of_ne {r : ℤ} (h : r ≠ 0) (r' : ℤ) : thenCmp r r' = r := if_pos h

theorem thenCmp_nonpos {r r' : ℤ} (h : thenCmp r r' ≤ 0) : r ≤ 0 := by
  by_cases hr : r = 0
  · exact hr.le
  · rwa [thenCmp_of_ne hr] at h

/-- The comparison the other way round has the other sign. -/
def Swaps (r s : ℤ) : Prop := (r < 0 ↔ 0 < s) ∧ (0 < r ↔ s < 0)

theorem Swaps.zero : Swaps 0 0 := ⟨Iff.rfl, Iff.rfl⟩

theorem Swaps.of_neg_pos {r s : ℤ} (hr : r < 0) (hs : 0 < s) : Swaps r s := by
  constructor <;> omega

theorem Swaps.symm {r s : ℤ} (h : Swaps r s) : Swaps s r := ⟨h.2.symm, h.1.symm⟩

theorem Swaps.eq_zero {r : ℤ} (h : Swaps r r) : r = 0 := by
  have hneg := h.1
  have hpos := h.2
  omega

theorem Swaps.thenCmp {r s r' s' : ℤ} (h : Swaps r s) (h' : Swaps r' s') :
    Swaps (thenCmp r r') (thenCmp s s') := by
  by_cases hr : r = 0
  · have hs : s = 0 := by
      have := h.1
      have := h.2
      omega
    rw [hr, hs, thenCmp_zero, thenCmp_zero]
    exact h'
  · have hs : s ≠ 0 := by
      have := h.1
      have := h.2
      omega
    rw [thenCmp_of_ne hr, thenCmp_of_ne hs]
    exact h

/-- The comparisons of `a` with `b`, of `b` with `c` and of `a` with `c` fit together. -/
structure Consistent (ab bc ac : ℤ) : Prop where
  nonpos : ab ≤ 0 → bc ≤ 0 → ac ≤ 0
  nonneg : 0 ≤ ab → 0 ≤ bc → 0 ≤ ac
  neg : ab ≤ 0 → bc ≤ 0 → ab < 0 ∨ bc < 0 → ac < 0
  pos : 0 ≤ ab → 0 ≤ bc → 0 < ab ∨ 0 < bc → 0 < ac

theorem Consistent.zero : Consistent 0 0 0 := by
  constructor <;> omega

theorem Consistent.thenCmp {ab bc ac ab' bc' ac' : ℤ} (h : Consistent ab bc ac)
    (h' : Consistent ab' bc' ac') :
    Consistent (thenCmp ab ab') (thenCmp bc bc') (thenCmp ac ac') := by
  by_cases hab : ab = 0
  · by_cases hbc : bc = 0
    · have hac : ac = 0 := by
        have hle := h.nonpos hab.le hbc.le
        have hge := h.nonneg hab.ge hbc.ge
        omega
      rw [hab, hbc, hac, thenCmp_zero, thenCmp_zero, thenCmp_zero]
      exact h'
    · -- the first difference is between `b` and `c`, and it is that of `a` and `c`
      have hneg := h.neg hab.le
      have hpos := h.pos hab.ge
      have hac : ac ≠ 0 := by omega
      rw [thenCmp_of_ne hbc, thenCmp_of_ne hac]
      constructor <;> omega
  · by_cases hac : ac = 0
    · have hneg := h.neg
      have hpos := h.pos
      have hbc : bc ≠ 0 := by omega
      rw [thenCmp_of_ne hab, thenCmp_of_ne hbc]
      constructor <;> omega
    · have hneg := h.neg
      have hpos := h.pos
      rw [thenCmp_of_ne hab, thenCmp_of_ne hac]
      by_cases hbc : bc = 0
      · rw [hbc, thenCmp_zero]
        rw [hbc] at hneg hpos
        constructor <;> omega
      · rw [thenCmp_of_ne hbc]
        constructor <;> omega

/-- Things of different kinds are compared by the ranks of their kinds. -/
theorem Consistent.of_ranks {a b c : ℕ} {ab bc ac : ℤ} (hne : ¬(a = b ∧ b = c))
    (hab : (a < b → ab < 0) ∧ (b < a → 0 < ab)) (hbc : (b < c → bc < 0) ∧ (c < b → 0 < bc))
    (hac : (a < c → ac < 0) ∧ (c < a → 0 < ac)) : Consistent ab bc ac := by
  constructor <;> omega

end PonBeam
