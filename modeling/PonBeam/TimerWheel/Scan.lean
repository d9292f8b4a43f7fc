import PonBeam.TimerWheel.Model
import Mathlib.Algebra.Order.Group.Int
import Mathlib.Tactic.Ring

/-!
# Moving on in a wheel

`scnt_wheel_next` goes to the next slot and on over ranges whose count is zero, around
the end of the wheel and never past the slots that are left. Its result is described by
the number of slots it went on by.
-/

namespace PonBeam.TimerWheel

section

variable {scnt : ℤ → ℤ} {first size slot left : ℤ} {fuel : ℕ}

/-- The slot `k` further on, around the wheel. -/
def cycSlot (first size slot k : ℤ) : ℤ := first + (slot - first + k) % size

theorem cycSlot_zero (hlo : first ≤ slot) (hhi : slot < first + size) :
    cycSlot first size slot 0 = slot := by
  unfold cycSlot
  rw [add_zero, Int.emod_eq_of_lt (by omega) (by omega)]
  omega

theorem cycSlot_add (j k : ℤ) :
    cycSlot first size (cycSlot first size slot j) k = cycSlot first size slot (j + k) := by
  unfold cycSlot
  rw [add_sub_cancel_left, Int.emod_add_emod, add_assoc]

/-- Before the end of the wheel it is the slot `k` further. -/
theorem cycSlot_of_lt {k : ℤ} (hlo : first ≤ slot) (hk : 0 ≤ k) (hhi : slot + k < first + size) :
    cycSlot first size slot k = slot + k := by
  unfold cycSlot
  rw [Int.emod_eq_of_lt (by omega) (by omega)]
  omega

/-- At the end it is the first. -/
theorem cycSlot_end {k : ℤ} (hk : slot + k = first + size) :
    cycSlot first size slot k = first := by
  unfold cycSlot
  rw [show slot - first + k = size by omega, Int.emod_self, add_zero]

/-- What it means to have moved on by `d` slots: the slots in between are in ranges
without timers. -/
structure Moved (scnt : ℤ → ℤ) (first size slot left : ℤ) (d : ℤ) (res : ℤ × ℤ) : Prop where
  /-- the slot -/
  slotEq : res.1 = cycSlot first size slot d
  /-- the slots left -/
  leftEq : res.2 = left - d
  /-- not past the end -/
  nonneg : 0 ≤ res.2
  /-- no range in between has a timer -/
  skipped : ∀ k, 0 ≤ k → k < d → scnt (scntGetIx (cycSlot first size slot k)) = 0

theorem Moved.trans {j d : ℤ} {res : ℤ × ℤ}
    (h : Moved scnt first size (cycSlot first size slot j) (left - j) d res)
    (hj : ∀ k, 0 ≤ k → k < j → scnt (scntGetIx (cycSlot first size slot k)) = 0) :
    Moved scnt first size slot left (j + d) res := by
  refine ⟨by rw [h.slotEq, cycSlot_add], by rw [h.leftEq]; ring, h.nonneg, fun k hk hkd => ?_⟩
  rcases lt_or_ge k j with hlt | hge
  · exact hj k hk hlt
  · have hskip := h.skipped (k - j) (by omega) (by omega)
    rw [cycSlot_add, add_sub_cancel] at hskip
    exact hskip

/-- Up to the end of a range the slots are in it. -/
theorem scntGetIx_of_lt {k : ℤ} (hk : 0 ≤ k) (h : slot + k < (scntGetIx slot + 1) * 512) :
    scntGetIx (slot + k) = scntGetIx slot := by
  unfold scntGetIx scntRange at *
  omega

theorem lt_range_end (slot : ℤ) : slot < (scntGetIx slot + 1) * 512 := by
  unfold scntGetIx scntRange
  omega

/-- The end of a range is not past the end of the wheel. -/
theorem range_end_le (hend : (first + size) % 512 = 0) (hhi : slot < first + size) :
    (scntGetIx slot + 1) * 512 ≤ first + size := by
  unfold scntGetIx scntRange
  omega

/-- **The loop of `scnt_wheel_next`** goes on by some number of slots. -/
theorem scntWheelSkip_moved (scnt : ℤ → ℤ) (fuel : ℕ) (slot left : ℤ)
    (hend : (first + size) % 512 = 0) (hlo : first ≤ slot) (hhi : slot < first + size)
    (hleft : 0 ≤ left) (hfuel : left ≤ fuel) :
    ∃ d, 0 ≤ d ∧ Moved scnt first size slot left d
      (scntWheelSkip scnt first (first + size) fuel slot left) := by
  induction fuel generalizing slot left with
  | zero =>
    refine ⟨0, le_refl 0, (cycSlot_zero hlo hhi).symm, (sub_zero left).symm, hleft, ?_⟩
    intro k hk hk0
    omega
  | succ fuel ih =>
    rw [scntWheelSkip]
    split
    case isFalse =>
      refine ⟨0, le_refl 0, (cycSlot_zero hlo hhi).symm, (sub_zero left).symm, hleft, ?_⟩
      intro k hk hk0
      omega
    case isTrue h =>
      obtain ⟨hz, hpos⟩ := h
      have hrange := lt_range_end slot
      have hle := range_end_le hend hhi
      -- how far this turn goes: to the end of the range, or to the last slot left
      obtain ⟨j, hj, hj0, hjl, hjr⟩ : ∃ j : ℤ,
          j = (if left < (scntGetIx slot + 1) * 512 - slot then left
            else (scntGetIx slot + 1) * 512 - slot) ∧ 0 < j ∧ j ≤ left ∧
          slot + j ≤ (scntGetIx slot + 1) * 512 := by
        refine ⟨_, rfl, ?_⟩
        split <;> omega
      have hskip : ∀ k, 0 ≤ k → k < j → scnt (scntGetIx (cycSlot first size slot k)) = 0 := by
        intro k hk hkj
        rw [cycSlot_of_lt hlo hk (by omega), scntGetIx_of_lt hk (by omega)]
        exact hz
      have hslot : (if left < (scntGetIx slot + 1) * scntRange - slot then slot + left
          else (scntGetIx slot + 1) * scntRange) = slot + j := by
        rw [hj]
        unfold scntRange
        split <;> omega
      have hdiff : (if left < (scntGetIx slot + 1) * scntRange - slot then left
          else (scntGetIx slot + 1) * scntRange - slot) = j := hj.symm
      simp only [hslot, hdiff]
      split
      case isTrue hlt =>
        obtain ⟨d, hd, hm⟩ := ih (slot + j) (left - j) (by omega) hlt (by omega)
          (by push_cast at hfuel; omega)
        refine ⟨j + d, by omega, Moved.trans ?_ hskip⟩
        rw [cycSlot_of_lt hlo (by omega) hlt]
        exact hm
      case isFalse hge =>
        have hjend : slot + j = first + size := by omega
        have hsub : left - (first + size - slot) = left - j := by omega
        obtain ⟨d, hd, hm⟩ := ih first (left - j) (le_refl first) (by omega)
          (by omega) (by push_cast at hfuel; omega)
        refine ⟨j + d, by omega, Moved.trans ?_ hskip⟩
        rw [cycSlot_end hjend, hsub]
        exact hm

/-- **`scnt_wheel_next`** goes on by at least one slot, and the slots after the one it
starts from that it passes are in ranges without timers. -/
theorem scntWheelNext_moved (scnt : ℤ → ℤ) (first size : ℤ)
    (hend : (first + size) % 512 = 0) (hlo : first ≤ slot) (hhi : slot < first + size)
    (hleft : 1 ≤ left) :
    ∃ d, 1 ≤ d ∧ (scntWheelNext slot left scnt first (first + size)).1
        = cycSlot first size slot d ∧
      (scntWheelNext slot left scnt first (first + size)).2 = left - d ∧ d ≤ left ∧
      ∀ k, 1 ≤ k → k < d → scnt (scntGetIx (cycSlot first size slot k)) = 0 := by
  have hstart : (if slot + 1 = first + size then first else slot + 1)
      = cycSlot first size slot 1 := by
    split
    case isTrue he => rw [cycSlot_end he]
    case isFalse hne => rw [cycSlot_of_lt hlo (by omega) (by omega)]
  have hrange : first ≤ cycSlot first size slot 1 ∧
      cycSlot first size slot 1 < first + size := by
    rw [← hstart]
    split <;> omega
  obtain ⟨d, hd, hm⟩ := scntWheelSkip_moved scnt (left - 1).toNat _ (left - 1) hend hrange.1
    hrange.2 (by omega) (by omega)
  have hnonneg := hm.nonneg
  have hl := hm.leftEq
  refine ⟨1 + d, by omega, ?_, ?_, by omega, fun k hk hkd => ?_⟩
  · rw [scntWheelNext, hstart, hm.slotEq, cycSlot_add]
  · rw [scntWheelNext, hstart, hl]
    ring
  · have hskip := hm.skipped (k - 1) (by omega) (by omega)
    rw [cycSlot_add, add_sub_cancel] at hskip
    exact hskip

end

/-- In the soon wheel. -/
theorem scntSoonWheelNext_moved (scnt : ℤ → ℤ) (slot left : ℤ) (hlo : 0 ≤ slot)
    (hhi : slot < 16384) (hleft : 1 ≤ left) :
    ∃ d, 1 ≤ d ∧ scntSoonWheelNext slot left scnt = ((slot + d) % 16384, left - d) ∧ d ≤ left ∧
      ∀ k, 1 ≤ k → k < d → scnt ((slot + k) % 16384 / 512) = 0 := by
  obtain ⟨d, hd, hs, hl, hdl, hskip⟩ := scntWheelNext_moved scnt 0 16384 (by decide) hlo hhi hleft
  simp only [cycSlot, zero_add, sub_zero] at hs hl hskip
  exact ⟨d, hd, Prod.ext hs hl, hdl, hskip⟩

/-- In the later wheel. -/
theorem scntLaterWheelNext_moved (scnt : ℤ → ℤ) (slot left : ℤ) (hlo : 16384 ≤ slot)
    (hhi : slot < 32768) (hleft : 1 ≤ left) :
    ∃ d, 1 ≤ d ∧ scntLaterWheelNext slot left scnt
        = (16384 + (slot - 16384 + d) % 16384, left - d) ∧ d ≤ left ∧
      ∀ k, 1 ≤ k → k < d → scnt ((16384 + (slot - 16384 + k) % 16384) / 512) = 0 := by
  obtain ⟨d, hd, hs, hl, hdl, hskip⟩ :=
    scntWheelNext_moved scnt 16384 16384 (by decide) hlo hhi hleft
  exact ⟨d, hd, Prod.ext hs hl, hdl, hskip⟩

/-! ## Every wheel -/

/-- What `scnt_wheel_next` is given pointers to. -/
structure WheelPlace where
  /-- `*slotp` -/
  slot : ℤ
  /-- `*leftp` -/
  left : ℤ
  /-- `*posp` -/
  pos : ℤ
  /-- `*sixp` -/
  six : ℤ

/-- `scnt_wheel_next` with everything it writes. -/
def WheelPlace.next (p : WheelPlace) (scnt : ℤ → ℤ) (firstSlot endSlot slotSz : ℤ) : WheelPlace :=
  let next := scntWheelNext p.slot p.left scnt firstSlot endSlot
  ⟨next.1, next.2, p.pos + slotSz * (p.left - next.2), scntGetIx next.1⟩

/-- Repeated calls; the counts may change between them. -/
def WheelPlace.run (scnts : ℕ → ℤ → ℤ) (firstSlot endSlot slotSz : ℤ) (p : WheelPlace) :
    ℕ → WheelPlace
  | 0 => p
  | n + 1 => (WheelPlace.run scnts firstSlot endSlot slotSz p n).next (scnts n) firstSlot endSlot slotSz

/-- A call that started at `p` and ended at `q` went on by `d` slots and passed over no timer. -/
structure Advances (holds : ℤ → Prop) (firstSlot endSlot slotSz : ℤ) (p q : WheelPlace) (d : ℤ) :
    Prop where
  /-- it goes on -/
  pos_d : 1 ≤ d
  /-- to the slot that many further, around the wheel -/
  slotEq : q.slot = cycSlot firstSlot (endSlot - firstSlot) p.slot d
  /-- which is one of the wheel -/
  inside : firstSlot ≤ q.slot ∧ q.slot < endSlot
  /-- each slot is one less left -/
  leftEq : q.left = p.left - d
  /-- and one slot further in time -/
  posEq : q.pos = p.pos + slotSz * d
  /-- its range -/
  sixEq : q.six = scntGetIx q.slot
  /-- the slots passed over are empty -/
  passed : ∀ k, 1 ≤ k → k < d → ¬ holds (cycSlot firstSlot (endSlot - firstSlot) p.slot k)
  /-- not past the slots left -/
  bound : -1 ≤ q.left ∧ (1 ≤ p.left → 0 ≤ q.left)

section

variable {firstSlot endSlot slotSz : ℤ} {scnt : ℤ → ℤ} {holds : ℤ → Prop} {p : WheelPlace}

theorem cycSlot_inside {slot : ℤ} (hsize : firstSlot < endSlot) (k : ℤ) :
    firstSlot ≤ cycSlot firstSlot (endSlot - firstSlot) slot k ∧
      cycSlot firstSlot (endSlot - firstSlot) slot k < endSlot := by
  have hlo := Int.emod_nonneg (slot - firstSlot + k) (show endSlot - firstSlot ≠ 0 by omega)
  have hhi := Int.emod_lt_of_pos (slot - firstSlot + k) (show 0 < endSlot - firstSlot by omega)
  unfold cycSlot
  omega

theorem Advances.of_next {d : ℤ} (hd : 1 ≤ d) (hsize : firstSlot < endSlot)
    (hnext : scntWheelNext p.slot p.left scnt firstSlot endSlot =
      (cycSlot firstSlot (endSlot - firstSlot) p.slot d, p.left - d))
    (hpassed : ∀ k, 1 ≤ k → k < d → ¬ holds (cycSlot firstSlot (endSlot - firstSlot) p.slot k))
    (hbound : -1 ≤ p.left - d ∧ (1 ≤ p.left → 0 ≤ p.left - d)) :
    Advances holds firstSlot endSlot slotSz p (p.next scnt firstSlot endSlot slotSz) d := by
  have heq : p.next scnt firstSlot endSlot slotSz =
      ⟨cycSlot firstSlot (endSlot - firstSlot) p.slot d, p.left - d, p.pos + slotSz * d,
        scntGetIx (cycSlot firstSlot (endSlot - firstSlot) p.slot d)⟩ := by
    simp only [WheelPlace.next, hnext, sub_sub_cancel]
  rw [heq]
  exact ⟨hd, rfl, cycSlot_inside hsize d, rfl, rfl, rfl, hpassed, hbound⟩

/-- **One call**, in any wheel. -/
theorem WheelPlace.next_advances (hend : endSlot % scntRange = 0)
    (hin : firstSlot ≤ p.slot ∧ p.slot < endSlot)
    (hscnt : ∀ s, firstSlot ≤ s → s < endSlot → holds s → 0 < scnt (scntGetIx s))
    (hleft : 0 ≤ p.left) :
    ∃ d, Advances holds firstSlot endSlot slotSz p (p.next scnt firstSlot endSlot slotSz) d := by
  have hsize : firstSlot < endSlot := by omega
  have hsum : firstSlot + (endSlot - firstSlot) = endSlot := by omega
  rcases Int.lt_or_eq_of_le hleft with hpos | hzero
  · have hmoved := @scntWheelNext_moved p.slot p.left scnt firstSlot (endSlot - firstSlot)
    rw [hsum] at hmoved
    obtain ⟨d, hd, hslot, hl, hdl, hskip⟩ := hmoved hend hin.1 hin.2 hpos
    refine ⟨d, .of_next hd hsize (Prod.ext hslot hl) (fun k hk hkd hk' => ?_) (by omega)⟩
    have hinside := @cycSlot_inside firstSlot endSlot p.slot hsize k
    have hcount := hscnt _ hinside.1 hinside.2 hk'
    rw [hskip k hk hkd] at hcount
    exact absurd hcount (lt_irrefl 0)
  · -- nothing was left: the next slot, and no range is skipped
    refine ⟨1, .of_next (le_refl 1) hsize ?_ (fun k hk hk1 => ?_) (by omega)⟩
    · rw [scntWheelNext, ← hzero]
      split_ifs with he
      · rw [cycSlot_end (by omega)]
        rfl
      · rw [cycSlot_of_lt hin.1 (by omega) (by omega)]
        rfl
    · omega

/-- Each call leaves fewer slots, until none is left. -/
theorem WheelPlace.run_left (scnts : ℕ → ℤ → ℤ) (hend : endSlot % scntRange = 0)
    (hin : firstSlot ≤ p.slot ∧ p.slot < endSlot) (n : ℕ) :
    (∃ m, (p.run scnts firstSlot endSlot slotSz m).left ≤ 0) ∨
      (firstSlot ≤ (p.run scnts firstSlot endSlot slotSz n).slot ∧
        (p.run scnts firstSlot endSlot slotSz n).slot < endSlot) ∧
      (p.run scnts firstSlot endSlot slotSz n).left ≤ p.left - n := by
  induction n with
  | zero => exact Or.inr ⟨hin, by rw [WheelPlace.run]; omega⟩
  | succ n ih =>
    rcases ih with hdone | ⟨hin', hle⟩
    · exact Or.inl hdone
    · by_cases hleft : (p.run scnts firstSlot endSlot slotSz n).left ≤ 0
      · exact Or.inl ⟨n, hleft⟩
      · have hnone : ∀ s, firstSlot ≤ s → s < endSlot → False → 0 < scnts n (scntGetIx s) :=
          fun _ _ _ h => h.elim
        have hadvances := @WheelPlace.next_advances firstSlot endSlot slotSz (scnts n) _
          (p.run scnts firstSlot endSlot slotSz n) hend hin' hnone (by omega)
        obtain ⟨d, hadv⟩ := hadvances
        have hd := hadv.pos_d
        have hl := hadv.leftEq
        refine Or.inr ⟨hadv.inside, ?_⟩
        rw [WheelPlace.run, hl]
        push_cast
        omega

/-- **`scnt_wheel_next` never skips a timer**, whatever the wheel, and repeated calls come to
the end of the slots that are left. -/
theorem scntWheelNext_never_skips (hend : endSlot % scntRange = 0)
    (hin : firstSlot ≤ p.slot ∧ p.slot < endSlot)
    (hscnt : ∀ s, firstSlot ≤ s → s < endSlot → holds s → 0 < scnt (scntGetIx s))
    (hleft : 0 ≤ p.left) :
    (∃ d, Advances holds firstSlot endSlot slotSz p (p.next scnt firstSlot endSlot slotSz) d) ∧
      ∀ scnts : ℕ → ℤ → ℤ, ∃ n, (p.run scnts firstSlot endSlot slotSz n).left ≤ 0 := by
  refine ⟨WheelPlace.next_advances hend hin hscnt hleft, fun scnts => ?_⟩
  rcases @WheelPlace.run_left _ _ slotSz p scnts hend hin p.left.toNat with hdone | ⟨-, hle⟩
  · exact hdone
  · refine ⟨_, hle.trans ?_⟩
    omega

end

/-- The soon wheel with one timer, in its second range. -/
theorem oneSlot_never_skipped :
    (∃ d, Advances (· = 600) 0 16384 1 ⟨3, 1000, 7, 0⟩
      (WheelPlace.next ⟨3, 1000, 7, 0⟩ (fun i => if i = 1 then 1 else 0) 0 16384 1) d) ∧
      ∀ scnts : ℕ → ℤ → ℤ, ∃ n, (WheelPlace.run scnts 0 16384 1 ⟨3, 1000, 7, 0⟩ n).left ≤ 0 :=
  scntWheelNext_never_skips (by decide) (by decide)
    (fun s _ _ hs => by
      subst hs
      decide)
    (by decide)

end PonBeam.TimerWheel
