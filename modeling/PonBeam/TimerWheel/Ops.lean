import PonBeam.TimerWheel.Invariant

/-!
# Setting and cancelling timers

Both keep the invariant in every stage: a bump that has yielded, or that is in the middle
of a callback, is not disturbed. The fields the bump works with are left alone.
-/

namespace PonBeam.TimerWheel

/-! ## What the operations leave alone -/

/-- The operation keeps the bump's place and the positions of the wheel, and of the timers
touches only `p`. -/
structure Keeps (p : Tmr) (tiw tiw' : Wheel) : Prop where
  pos : tiw'.pos = tiw.pos
  yieldSlot : tiw'.yieldSlot = tiw.yieldSlot
  yieldSlotsLeft : tiw'.yieldSlotsLeft = tiw.yieldSlotsLeft
  slot : ∀ t, t ≠ p → tiw'.slot t = tiw.slot t
  timeoutPos : ∀ t, t ≠ p → tiw'.timeoutPos t = tiw.timeoutPos t

namespace Wheel

variable (tiw : Wheel) (p : Tmr) (i timeoutPos : ℤ) (a : ArmAnswers)

/-- The canary is all that arming it touches. -/
theorem ponTimerWheelArm_eq : ∃ fd d,
    tiw.ponTimerWheelArm a = { tiw with ponFd := fd, ponArmedDeadline := d } := by
  unfold ponTimerWheelArm
  dsimp only
  split_ifs <;> exact ⟨_, _, rfl⟩

@[simp] theorem insertTimerIntoSlot_yieldSlot :
    (tiw.insertTimerIntoSlot i p).yieldSlot = tiw.yieldSlot := by
  unfold insertTimerIntoSlot
  dsimp only
  split_ifs <;> rfl

@[simp] theorem insertTimerIntoSlot_yieldSlotsLeft :
    (tiw.insertTimerIntoSlot i p).yieldSlotsLeft = tiw.yieldSlotsLeft := by
  unfold insertTimerIntoSlot
  dsimp only
  split_ifs <;> rfl

@[simp] theorem insertTimerIntoSlot_nextTimeoutPos :
    (tiw.insertTimerIntoSlot i p).nextTimeoutPos = tiw.nextTimeoutPos := by
  unfold insertTimerIntoSlot
  dsimp only
  split_ifs <;> rfl

@[simp] theorem insertTimerIntoSlot_nextTimeoutTime :
    (tiw.insertTimerIntoSlot i p).nextTimeoutTime = tiw.nextTimeoutTime := by
  unfold insertTimerIntoSlot
  dsimp only
  split_ifs <;> rfl

/-- Noting a timeout takes the earlier one, and touches nothing else but flags and the
canary. -/
theorem noteTimeout_eq : ∃ b pos time fd d,
    tiw.noteTimeout timeoutPos a =
      { tiw with
        trueNextTimeoutTime := b
        nextTimeoutPos := pos
        nextTimeoutTime := time
        ponFd := fd
        ponArmedDeadline := d } ∧
    pos ≤ tiw.nextTimeoutPos ∧ pos ≤ timeoutPos ∧
    (tiw.nextTimeoutTime = clktcksToMonotonic tiw.nextTimeoutPos →
      time = clktcksToMonotonic pos) := by
  unfold noteTimeout
  dsimp only
  split_ifs with hle hlt
  · obtain ⟨fd, d, he⟩ := ponTimerWheelArm_eq
      (setNextTimeout { tiw with trueNextTimeoutTime := true } timeoutPos) a
    exact ⟨true, timeoutPos, clktcksToMonotonic timeoutPos, fd, d, he, hle, le_refl _,
      fun _ => rfl⟩
  · exact ⟨true, _, _, _, _, rfl, le_refl _, by omega, id⟩
  · exact ⟨_, _, _, _, _, rfl, le_refl _, by omega, id⟩

end Wheel

section

variable {A : Finset Tmr} {tiw : Wheel} {st : Stage} {busy : Bool} {pn pb : ℤ} {p : Tmr}
  {timeoutPos : ℤ} {a : ArmAnswers}

/-! ## Setting a timer -/

/-- The timer to be set is one more to be counted. -/
theorem Inv.startTimer (h : Inv A tiw st busy pn pb) (hslot : tiw.slot p = -2) :
    Inv (insert p A) (tiw.startTimer p timeoutPos) st busy (pn + 1) pb := by
  have hold : ∀ t, t ≠ p → (tiw.startTimer p timeoutPos).timeoutPos t = tiw.timeoutPos t :=
    fun t ht => Function.update_of_ne ht ..
  have hmin : (tiw.startTimer p timeoutPos).soonMinTpos ≤ tiw.soonMinTpos := by
    unfold Wheel.startTimer
    dsimp only
    split_ifs <;> omega
  refine ⟨h.lists, ?counts, fun t => ?placed, fun t hsent => ?minima, h.aligned, h.ahead,
    h.rules, fun t => ?staged, fun hst ix => ?due, h.idle, h.running, fun hb t ht => ?calm⟩
  case counts =>
    refine (h.counts.grow p).cast rfl ?_ rfl rfl rfl fun _ => rfl
    unfold Wheel.startTimer
    dsimp only
    omega
  case placed =>
    by_cases ht : t = p
    · have hs : (tiw.startTimer p timeoutPos).slot t = -2 := by
        rw [ht]
        exact hslot
      rw [hs]
      constructor <;> omega
    · rw [hold t ht]
      exact h.placed t
  case minima =>
    by_cases ht : t = p
    · refine MinimaAt.of_inactive ?_
      rw [ht]
      exact hslot
    · rw [hold t ht]
      exact (h.minima t hsent).mono hmin (le_refl _)
  case staged =>
    by_cases ht : t = p
    · have hs : (tiw.startTimer p timeoutPos).slot t = -2 := by
        rw [ht]
        exact hslot
      rw [hs]
      cases st <;> simp only [Stage.At] <;> omega
    · rw [hold t ht]
      exact h.staged t
  case due =>
    have hnot : ∀ t, DueAt tiw.pos (tiw.slot t) (tiw.timeoutPos t) → t ∈ A := fun t ht =>
      h.counts.mem t fun he => by
        unfold DueAt at ht
        omega
    have hgrow := tally_grow (Finset.subset_insert p A)
      (P := fun t => DueAt tiw.pos (tiw.slot t) (tiw.timeoutPos t) ∧ tiw.slot t / 512 = ix)
      fun t ht => hnot t ht.1
    have hkeep := tally_keep (A := insert p A) (a := p)
      (P := fun t => DueAt tiw.pos (tiw.slot t) (tiw.timeoutPos t) ∧ tiw.slot t / 512 = ix)
      (Q := fun t => DueAt tiw.pos (tiw.slot t) ((tiw.startTimer p timeoutPos).timeoutPos t) ∧
        tiw.slot t / 512 = ix)
      (fun t ht => by rw [hold t ht])
      (by
        rw [hslot]
        unfold DueAt
        omega)
    have hle := h.due hst ix
    rw [← hgrow, ← hkeep] at hle
    exact hle
  case calm =>
    have hne : t ≠ p := fun he => h.lists.notMem_of_inactive hslot st.cur (he ▸ ht)
    rw [hold t hne]
    exact h.calm hb t ht

/-- A timer fits in the slot it is set into. -/
theorem fits_targetSlot (tiw : Wheel) (p : Tmr) (timeoutPos : ℤ) :
    Fits tiw.pos (tiw.targetSlot timeoutPos) ((tiw.startTimer p timeoutPos).timeoutPos p) := by
  have htpos : (tiw.startTimer p timeoutPos).timeoutPos p =
      if timeoutPos ≤ tiw.pos then tiw.pos else timeoutPos := Function.update_self ..
  rw [htpos]
  unfold Wheel.targetSlot soonSlot laterSlot slotAtOnce laterWheelFirstSlot laterWheelSlotSize
    laterWheelSize soonWheelSize
  split_ifs with h1 h2
  · exact .atOnce rfl (le_refl _)
  · exact .soon (by omega) (by omega) rfl (by omega) h2
  · exact .later (by omega) rfl (by omega)

/-- **Setting an inactive timer** keeps the invariant. -/
theorem Inv.setTimer (h : Inv A tiw st busy pn pb) (hslot : tiw.slot p = -2) :
    Inv (insert p A) (tiw.setTimer p timeoutPos a) st busy pn pb := by
  have hins := (h.startTimer hslot).insertTimerIntoSlot pn (Finset.mem_insert_self p A) hslot
    (fits_targetSlot tiw p timeoutPos)
  obtain ⟨b, pos, time, fd, d, he, -⟩ := Wheel.noteTimeout_eq ((tiw.startTimer p
    timeoutPos).insertTimerIntoSlot (tiw.targetSlot timeoutPos) p) (tiw.wakeUpPos timeoutPos) a
  unfold Wheel.setTimer
  rw [he]
  exact ⟨hins.lists, hins.counts, hins.placed, hins.minima, hins.aligned, hins.ahead, hins.rules,
    hins.staged, hins.due, hins.idle, hins.running, hins.calm⟩

theorem wakeUpPos_le (tiw : Wheel) (timeoutPos : ℤ) : tiw.wakeUpPos timeoutPos
    ≤ if timeoutPos ≤ tiw.pos then tiw.pos else timeoutPos := by
  unfold Wheel.wakeUpPos laterPosMask laterWheelSlotSize
  split_ifs <;> omega

/-- What else setting a timer does: it becomes active, and the next timeout is not after
it. -/
theorem setTimer_effect (tiw : Wheel) (p : Tmr) (timeoutPos : ℤ) (a : ArmAnswers) :
    Keeps p tiw (tiw.setTimer p timeoutPos a) ∧
    (tiw.setTimer p timeoutPos a).slot p ≠ -2 ∧
    (tiw.setTimer p timeoutPos a).nextTimeoutPos ≤ tiw.nextTimeoutPos ∧
    (tiw.setTimer p timeoutPos a).nextTimeoutPos ≤ (tiw.setTimer p timeoutPos a).timeoutPos p ∧
    (tiw.nextTimeoutTime = clktcksToMonotonic tiw.nextTimeoutPos →
      (tiw.setTimer p timeoutPos a).nextTimeoutTime
        = clktcksToMonotonic (tiw.setTimer p timeoutPos a).nextTimeoutPos) := by
  obtain ⟨b, pos, time, fd, d, he, hpos, hwake, htime⟩ := Wheel.noteTimeout_eq ((tiw.startTimer p
    timeoutPos).insertTimerIntoSlot (tiw.targetSlot timeoutPos) p) (tiw.wakeUpPos timeoutPos) a
  have hle := wakeUpPos_le tiw timeoutPos
  have hfit := (fits_targetSlot tiw p timeoutPos).bounds
  unfold Wheel.setTimer
  rw [he]
  simp only [Wheel.insertTimerIntoSlot_nextTimeoutPos, Wheel.insertTimerIntoSlot_nextTimeoutTime,
    Wheel.insertTimerIntoSlot_slot, Wheel.insertTimerIntoSlot_timeoutPos, Function.update_self]
    at hpos htime ⊢
  refine ⟨⟨?_, ?_, ?_, fun t ht => ?_, fun t ht => ?_⟩, by omega, hpos, ?_, htime⟩
  · simp only [Wheel.insertTimerIntoSlot_pos]
    rfl
  · simp only [Wheel.insertTimerIntoSlot_yieldSlot]
    rfl
  · simp only [Wheel.insertTimerIntoSlot_yieldSlotsLeft]
    rfl
  · exact Function.update_of_ne ht ..
  · exact Function.update_of_ne ht ..
  · have htpos : (tiw.startTimer p timeoutPos).timeoutPos p =
        if timeoutPos ≤ tiw.pos then tiw.pos else timeoutPos := Function.update_self ..
    rw [htpos]
    omega

/-! ## Cancelling a timer -/

/-- What `remove_timer` does to the fields of the bump and of the next timeout: nothing. -/
theorem removeTimer_frame (tiw : Wheel) (p : Tmr) :
    Keeps p tiw (tiw.removeTimer p) ∧ (tiw.removeTimer p).nto = tiw.nto ∧
    (tiw.removeTimer p).bumpScnt = tiw.bumpScnt ∧
    (tiw.removeTimer p).nextTimeoutPos = tiw.nextTimeoutPos ∧
    (tiw.removeTimer p).nextTimeoutTime = tiw.nextTimeoutTime := by
  unfold Wheel.removeTimer
  dsimp only
  split_ifs <;> exact ⟨⟨rfl, rfl, rfl, fun t ht => Function.update_of_ne ht ..,
    fun t ht => rfl⟩, rfl, rfl, rfl, rfl⟩

/-- A timer alone in its slot leaves an empty list; else it is in one of two lists. -/
theorem removeTimer_lists (h : Lists tiw.w tiw.sentinel tiw.slot st.cur) :
    (tiw.removeTimer p).w
      = Function.update tiw.w (tiw.slot p) ((tiw.w (tiw.slot p)).erase p) ∧
    (tiw.removeTimer p).sentinel = tiw.sentinel.erase p := by
  have hw : (if decide (tiw.w (tiw.slot p) = [p]) = true then []
      else (tiw.w (tiw.slot p)).erase p) = (tiw.w (tiw.slot p)).erase p := by
    split_ifs with halone
    · rw [of_decide_eq_true halone, List.erase_cons_head]
    · rfl
  have hsent : (if decide (tiw.w (tiw.slot p) = [p]) = true then tiw.sentinel
      else tiw.sentinel.erase p) = tiw.sentinel.erase p := by
    split_ifs with halone
    · exact (h.sentinel_erase_of_alone (of_decide_eq_true halone)).symm
    · rfl
  rw [← hw, ← hsent]
  unfold Wheel.removeTimer
  dsimp only
  split_ifs <;> exact ⟨rfl, rfl⟩

theorem removeTimer_vacated (tiw : Wheel) (p : Tmr) (h : -1 ≤ tiw.slot p) :
    Vacated tiw p (tiw.removeTimer p) := by
  unfold Wheel.removeTimer
  dsimp only
  by_cases h1 : tiw.slot p = slotAtOnce
  · rw [if_pos h1]
    exact { Vacated.atOnce tiw p h1 with }
  · rw [if_neg h1]
    unfold slotAtOnce at h1
    by_cases h2 : tiw.slot p < laterWheelFirstSlot
    · rw [if_pos h2]
      exact { Vacated.soon tiw p (by omega) h2 with }
    · rw [if_neg h2]
      exact { Vacated.later tiw p (not_lt.mp h2) with }

/-- **Cancelling a timer** keeps the invariant. -/
theorem Inv.cancelTimer (h : Inv A tiw st busy pn pb) :
    Inv A (tiw.cancelTimer p) st busy pn pb := by
  unfold Wheel.cancelTimer slotInactive
  split_ifs with hact
  · have hlo := (h.placed p).lower
    have hv := removeTimer_vacated tiw p (by omega)
    obtain ⟨hw, hsent⟩ := removeTimer_lists (p := p) h.lists
    obtain ⟨-, hnto, hbump, -⟩ := removeTimer_frame tiw p
    have hv' : Vacated tiw p { tiw.removeTimer p with nto := (tiw.removeTimer p).nto - 1 } :=
      { hv with }
    refine h.vacate hv' hact ?_ (fun t ht => ?_) hsent ?_ fun ix => ?_
    · dsimp only
      rw [hw, hsent, hv.slot]
      exact h.lists.remove
    · dsimp only at ht
      rw [hw] at ht
      by_cases hcur : st.cur = tiw.slot p
      · rw [hcur, Function.update_self] at ht
        rw [hcur]
        exact List.mem_of_mem_erase ht
      · rwa [Function.update_of_ne hcur] at ht
    · dsimp only
      rw [hnto]
      omega
    · dsimp only
      rw [hbump]
      split_ifs <;> omega
  · exact h

/-- What else cancelling does: the timer is inactive. -/
theorem cancelTimer_effect (tiw : Wheel) (p : Tmr) :
    Keeps p tiw (tiw.cancelTimer p) ∧ (tiw.cancelTimer p).slot p = -2 ∧
    (tiw.cancelTimer p).nextTimeoutPos = tiw.nextTimeoutPos ∧
    (tiw.cancelTimer p).nextTimeoutTime = tiw.nextTimeoutTime := by
  unfold Wheel.cancelTimer slotInactive
  split_ifs with hact
  · obtain ⟨hkeeps, -, -, hpos, htime⟩ := removeTimer_frame tiw p
    exact ⟨{ hkeeps with }, Function.update_self .., hpos, htime⟩
  · exact ⟨⟨rfl, rfl, rfl, fun _ _ => rfl, fun _ _ => rfl⟩, not_not.mp hact, rfl, rfl⟩

end

end PonBeam.TimerWheel
