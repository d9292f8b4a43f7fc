import Mathlib.Algebra.Group.Nat.Defs
import Mathlib.Data.Nat.Notation
import Mathlib.Tactic.SplitIfs

/-!
# Linear hashing

With `n` slots, `half ≤ n ≤ 2 * half`, a hash value belongs to the slot of its last bits, or of
one bit fewer if there is no such slot yet. One slot more takes its hash values from one other
slot, and only when the slots have doubled are there more bits to look at.
-/

namespace PonBeam

variable {half n h : ℕ}

/-- The slot of the hash value `h`. -/
def linearSlot (half n h : ℕ) : ℕ := if h % (2 * half) < n then h % (2 * half) else h % half

theorem mod_two_mul_mod (half h : ℕ) : h % (2 * half) % half = h % half :=
  Nat.mod_mul_left_mod h 2 half

theorem linearSlot_lt (hpos : 0 < half) (hn : half ≤ n) : linearSlot half n h < n := by
  unfold linearSlot
  split_ifs with hlt
  · exact hlt
  · exact Nat.lt_of_lt_of_le (Nat.mod_lt h hpos) hn

/-- The slot that a hash value for the next one is in. -/
theorem linearSlot_of_next (hn : half ≤ n) (hlt : n < 2 * half) (hnext : h % (2 * half) = n) :
    linearSlot half n h = n - half := by
  unfold linearSlot
  rw [if_neg (by omega), ← mod_two_mul_mod, hnext, Nat.mod_eq_sub_mod hn,
    Nat.mod_eq_of_lt (by omega)]

/-- **One slot more.** -/
theorem linearSlot_succ (half n h : ℕ) : linearSlot half (n + 1) h =
    if h % (2 * half) = n then n else linearSlot half n h := by
  unfold linearSlot
  split_ifs <;> omega

/-- The hash values of a slot that is split. -/
theorem linearSlot_split (hpos : 0 < half) (hn : half ≤ n)
    (hslot : linearSlot half n h = n - half) : h % (2 * half) = n - half ∨ h % (2 * half) = n := by
  have hmod := Nat.mod_lt h (show 0 < 2 * half by omega)
  unfold linearSlot at hslot
  split_ifs at hslot with hl
  · exact Or.inl hslot
  · right
    rw [← mod_two_mul_mod, Nat.mod_eq_sub_mod (by omega), Nat.mod_eq_of_lt (by omega)] at hslot
    omega

/-- The slots have doubled. -/
theorem linearSlot_full (hpos : 0 < half) (h : ℕ) :
    linearSlot half (2 * half) h = linearSlot (2 * half) (2 * half) h := by
  have hmod := Nat.mod_lt h (show 0 < 2 * half by omega)
  unfold linearSlot
  rw [if_pos hmod]
  split_ifs with hlt
  · rw [← mod_two_mul_mod, Nat.mod_eq_of_lt hlt]
  · rfl

end PonBeam
