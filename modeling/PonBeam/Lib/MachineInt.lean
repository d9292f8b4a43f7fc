import Mathlib.Data.Int.Notation
import Mathlib.Data.Nat.Notation

/-!
# 32-bit integers of C

`wrapInt` and `wrapUint` are what an `int` and an `unsigned` keep of a number. Counting up
or down in an `int` keeps what the number counted keeps, so a counter that has wrapped is
compared through `wrapInt` of the number it stands for.
-/

namespace PonBeam

/-- What an `int` keeps of a number. -/
def wrapInt (k : ℤ) : ℤ := (k + 2147483648) % 4294967296 - 2147483648

/-- What an `unsigned` keeps of a number. -/
def wrapUint (k : ℤ) : ℕ := (k % 4294967296).toNat

/-- Counting up wraps as counting does. -/
theorem wrapInt_succ (k : ℤ) : wrapInt (wrapInt k + 1) = wrapInt (k + 1) := by
  simp only [wrapInt]
  omega

/-- And so does counting down. -/
theorem wrapInt_pred (k : ℤ) : wrapInt (wrapInt k - 1) = wrapInt (k - 1) := by
  simp only [wrapInt]
  omega

/-- And taking away a number that wraps itself. -/
theorem wrapInt_sub_wrapInt (k m : ℤ) : wrapInt (wrapInt k - wrapInt m) = wrapInt (k - m) := by
  simp only [wrapInt]
  omega

theorem wrapInt_lt (k : ℤ) : wrapInt k < 2147483648 := by
  simp only [wrapInt]
  omega

/-- An `int` above zero has been counted up to. -/
theorem le_of_wrapInt {k : ℕ} (h : 0 < wrapInt k) : wrapInt k ≤ k := by
  simp only [wrapInt] at h ⊢
  omega

/-- Counting down, an `int` never ends below the number. -/
theorem le_wrapInt {k : ℤ} (h : k ≤ 0) : k ≤ wrapInt k := by
  simp only [wrapInt]
  omega

/-- It ends at the number if that fits. -/
theorem wrapInt_of_nonpos {k : ℤ} (h : k ≤ 0) (hk : -2147483648 ≤ k) : wrapInt k = k := by
  simp only [wrapInt]
  omega

/-- A number that fits is kept. -/
theorem wrapInt_of_lt {k : ℕ} (h : k < 2147483648) : wrapInt k = k := by
  simp only [wrapInt]
  omega

/-- A number below `2 ^ 32` is an `unsigned`. -/
theorem wrapUint_of_lt {k : ℕ} (h : k < 4294967296) : wrapUint k = k := by
  rw [wrapUint]
  omega

end PonBeam
