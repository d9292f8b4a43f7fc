import PonBeam.TimerWheel.Firing
import PonBeam.TimerWheel.Shelves

/-!
# Bumps with any budget

Calls of `erts_bump_timers` whose callbacks leave the wheel alone, each with a budget of
its own in the place of `ERTS_TWHEEL_BUMP_YIELD_LIMIT`. `State.core` is what such a call
works on: a wheel without the next timeout, the canary and the place a bump yielded at,
local variables without those no longer in use, and of the log the callbacks. A core has
always enough budget left, so that `State.go` is a bump that does not yield, and a call
follows it up to the point where it does.
-/

namespace PonBeam.TimerWheel

/-! ## Calls -/

/-- One step of a bump whose callbacks leave the wheel alone. -/
def State.alone (s : State) (a : Answers) : Option State :=
  match s.pc with
  | .callback home => some (s.callbackDone home)
  | _ => s.runStep a

/-- The call of `erts_bump_timers` with a budget. -/
def State.bumpWith (s : State) (currTime budget : ℤ) : State :=
  let s := s.bumpTimers currTime
  { s with loc := { s.loc with yieldCount := budget } }

/-- Steps of a bump. -/
inductive Runs : State → State → Prop where
  /-- none -/
  | refl (s : State) : Runs s s
  /-- one more -/
  | step {s s₁ s₂ : State} {a : Answers} : s.alone a = some s₁ → Runs s₁ s₂ → Runs s s₂

/-- A whole call. -/
structure Call (currTime budget : ℤ) (s s' : State) : Prop where
  /-- no other call is running -/
  idle : s.pc = .idle
  /-- time does not go back -/
  clock : s.clock ≤ currTime
  /-- its steps -/
  runs : Runs (s.bumpWith currTime budget) s'
  /-- it returned -/
  returned : s'.pc = .idle

/-- Calls at one time with these budgets, one after the other as long as they yield. -/
inductive Bumps (currTime : ℤ) : List ℤ → State → State → Prop where
  /-- the last one does not -/
  | last {budget : ℤ} {s s' : State} : Call currTime budget s s' →
      s'.tiw.yieldSlot = slotInactive → Bumps currTime [budget] s s'
  /-- one that yields -/
  | more {budget : ℤ} {budgets : List ℤ} {s s₁ s' : State} : Call currTime budget s s₁ →
      s₁.tiw.yieldSlot ≠ slotInactive → Bumps currTime budgets s₁ s' →
      Bumps currTime (budget :: budgets) s s'

/-! ## Cores -/

/-- The callbacks of a log, without the times. -/
def fired : List Event → List Event
  | [] => []
  | .fire p _ _ :: log => .fire p 0 0 :: fired log
  | _ :: log => fired log

theorem fired_fired (log : List Event) : fired (fired log) = fired log := by
  induction log with
  | nil => rfl
  | cons e log ih => cases e <;> simp [fired, ih]

/-- The wheel without the next timeout, the canary and the place of a yield. -/
def Wheel.core (tiw : Wheel) : Wheel :=
  { tiw with
    yieldSlot := slotInactive
    yieldSlotsLeft := 0
    trueNextTimeoutTime := false
    nextTimeoutPos := 0
    nextTimeoutTime := 0
    ponFd := 0
    ponArmedDeadline := 0 }

/-- What a bump works on. -/
def State.core (s : State) : State :=
  { tiw := s.tiw.core
    pc := s.pc
    loc :=
      { currTime := s.loc.currTime
        bumpTo := s.loc.bumpTo
        restarted := s.loc.restarted
        yieldCount := 1
        slot := if s.pc.scanning then s.loc.slot else 0
        slots := if s.pc.scanning then s.loc.slots else 0 }
    clock := s.clock
    log := fired s.log }

theorem core_core (s : State) : s.core.core = s.core := by
  unfold State.core
  simp only [fired_fired]
  cases s.pc.scanning <;> rfl

/-- A step of a bump that does not yield, between cores, in no time. -/
def State.go (s : State) : Option State :=
  (s.core.alone ⟨noTimerfd, s.clock⟩).map State.core

/-- The next step is a yield. -/
def State.yields (s : State) : Bool :=
  match s.pc with
  | .next home => s.tiw.sentinel ≠ [] ∧ s.outOfTime home
  | _ => false

/-! ## Steps and cores -/

namespace Wheel

variable (tiw : Wheel) (i : ℤ) (p : Tmr)

theorem core_insert : (tiw.insertTimerIntoSlot i p).core = tiw.core.insertTimerIntoSlot i p := by
  cases tiw
  unfold insertTimerIntoSlot core
  dsimp only
  split_ifs <;> rfl

theorem core_arm (a : ArmAnswers) : (tiw.ponTimerWheelArm a).core = tiw.core := by
  obtain ⟨fd, d, he⟩ := tiw.ponTimerWheelArm_eq a
  rw [he]
  rfl

theorem core_searchSoon (m : ℤ) (fuel : ℕ) : ∀ slot slots tpos,
    tiw.core.searchSoon m fuel slot slots tpos = tiw.searchSoon m fuel slot slots tpos := by
  induction fuel with
  | zero => exact fun _ _ _ => rfl
  | succ fuel ih =>
    intro slot slots tpos
    unfold searchSoon
    simp only [ih]
    rfl

theorem core_found (m : ℤ) (b : Bool) : (tiw.foundTimeout m b).core = tiw.core := rfl

theorem core_findLater : tiw.core.findLaterTimeout.core = tiw.findLaterTimeout.core := by
  cases tiw
  unfold findLaterTimeout core
  dsimp only
  split_ifs <;> rfl

theorem core_findSoon : tiw.core.findSoonTimeout.core = tiw.findSoonTimeout.core := by
  unfold findSoonTimeout
  dsimp only
  rw [core_searchSoon, core_found, core_found]
  rfl

theorem core_find (now : ℤ) :
    (tiw.core.findNextTimeout now).core = (tiw.findNextTimeout now).core := by
  unfold findNextTimeout
  by_cases hnto : tiw.nto = 0
  · have hnto' : tiw.core.nto = 0 := hnto
    rw [if_pos hnto, if_pos hnto']
    rfl
  · have hnto' : ¬ tiw.core.nto = 0 := hnto
    rw [if_neg hnto, if_neg hnto']
    by_cases hsoon : tiw.soonNto = 0
    · have hsoon' : tiw.core.soonNto = 0 := hsoon
      rw [if_pos hsoon, if_pos hsoon']
      exact tiw.core_findLater
    · have hsoon' : ¬ tiw.core.soonNto = 0 := hsoon
      rw [if_neg hsoon, if_neg hsoon']
      exact tiw.core_findSoon

end Wheel

section

variable {s s' : State} {home : Home} {p : Tmr}

/-- Two states have the same core. -/
theorem core_congr (htiw : s.tiw.core = s'.tiw.core) (hpc : s.pc = s'.pc)
    (htime : s.loc.currTime = s'.loc.currTime) (hto : s.loc.bumpTo = s'.loc.bumpTo)
    (hre : s.loc.restarted = s'.loc.restarted)
    (hslot : s'.pc.scanning = true → s.loc.slot = s'.loc.slot)
    (hslots : s'.pc.scanning = true → s.loc.slots = s'.loc.slots)
    (hclock : s.clock = s'.clock) (hlog : fired s.log = fired s'.log) : s.core = s'.core := by
  unfold State.core
  rw [htiw, hpc, htime, hto, hre, hclock, hlog]
  cases hsc : s'.pc.scanning with
  | false => rfl
  | true => rw [hslot hsc, hslots hsc]

theorem core_slot (h : s.pc.scanning = true) :
    s.core.loc.slot = s.loc.slot ∧ s.core.loc.slots = s.loc.slots := ⟨if_pos h, if_pos h⟩

theorem fired_core_log (s : State) : fired s.core.log = fired s.log := fired_fired s.log

/-- What becomes of a timer. -/
theorem core_bumpTimer (s : State) (p : Tmr) (hscan : home ≠ .atOnce → s.pc.scanning = true) :
    (s.core.bumpTimer home p).core = (s.bumpTimer home p).core := by
  cases home with
  | atOnce =>
    refine core_congr rfl rfl rfl rfl rfl (fun hsc => nomatch hsc) (fun hsc => nomatch hsc) rfl ?_
    exact congrArg (Event.fire p 0 0 :: ·) (fired_core_log s)
  | soon =>
    obtain ⟨hslot, hslots⟩ := core_slot (hscan (by decide))
    by_cases hle : s.tiw.timeoutPos p ≤ s.loc.bumpTo
    · have h1 : s.bumpTimer .soon p = _ := if_pos hle
      have h2 : s.core.bumpTimer .soon p = _ := if_pos hle
      rw [h1, h2]
      refine core_congr ?_ rfl rfl rfl rfl (fun _ => hslot) (fun _ => hslots) rfl ?_
      · rw [hslot]
        rfl
      · exact congrArg (Event.fire p 0 0 :: ·) (fired_core_log s)
    · have h1 : s.bumpTimer .soon p = _ := if_neg hle
      have h2 : s.core.bumpTimer .soon p = _ := if_neg hle
      rw [h1, h2]
      refine core_congr ?_ rfl rfl rfl rfl (fun _ => hslot) (fun _ => hslots) rfl
        (fired_core_log s)
      change Wheel.core (Wheel.insertTimerIntoSlot _ _ _) =
        Wheel.core (Wheel.insertTimerIntoSlot _ _ _)
      rw [Wheel.core_insert, Wheel.core_insert, hslot]
      rfl
  | later =>
    obtain ⟨hslot, hslots⟩ := core_slot (hscan (by decide))
    by_cases hkeep : s.tiw.timeoutPos p ≥ s.tiw.laterPos + laterWheelSlotSize
    · have h1 : s.bumpTimer .later p = _ := if_pos hkeep
      have h2 : s.core.bumpTimer .later p = _ := if_pos hkeep
      rw [h1, h2]
      refine core_congr ?_ rfl rfl rfl rfl (fun _ => hslot) (fun _ => hslots) rfl
        (fired_core_log s)
      change Wheel.core (Wheel.insertTimerIntoSlot _ _ _) =
        Wheel.core (Wheel.insertTimerIntoSlot _ _ _)
      rw [Wheel.core_insert, Wheel.core_insert, hslot]
      rfl
    · by_cases hmove : s.tiw.timeoutPos p > s.tiw.pos
      · have h1 : s.bumpTimer .later p = _ := (if_neg hkeep).trans (if_pos hmove)
        have h2 : s.core.bumpTimer .later p = _ := (if_neg hkeep).trans (if_pos hmove)
        rw [h1, h2]
        refine core_congr ?_ rfl rfl rfl rfl (fun _ => hslot) (fun _ => hslots) rfl
          (fired_core_log s)
        change Wheel.core (Wheel.insertTimerIntoSlot _ _ _) =
          Wheel.core (Wheel.insertTimerIntoSlot _ _ _)
        rw [Wheel.core_insert, Wheel.core_insert, hslot]
        rfl
      · have h1 : s.bumpTimer .later p = _ := (if_neg hkeep).trans (if_neg hmove)
        have h2 : s.core.bumpTimer .later p = _ := (if_neg hkeep).trans (if_neg hmove)
        rw [h1, h2]
        refine core_congr ?_ rfl rfl rfl rfl (fun _ => hslot) (fun _ => hslots) rfl ?_
        · rw [hslot]
          rfl
        · exact congrArg (Event.fire p 0 0 :: ·) (fired_core_log s)

/-- The list of a slot is done. -/
theorem core_nextSlot (s : State) (hscan : home ≠ .atOnce → s.pc.scanning = true) :
    (s.core.nextSlot home).core = (s.nextSlot home).core := by
  cases home with
  | atOnce =>
    exact core_congr rfl rfl rfl rfl rfl (fun hsc => nomatch hsc) (fun hsc => nomatch hsc) rfl
      (fired_core_log s)
  | soon =>
    obtain ⟨hslot, hslots⟩ := core_slot (hscan (by decide))
    unfold State.nextSlot
    dsimp only
    rw [hslot, hslots]
    exact core_congr rfl rfl rfl rfl rfl (fun _ => rfl) (fun _ => rfl) rfl (fired_core_log s)
  | later =>
    obtain ⟨hslot, hslots⟩ := core_slot (hscan (by decide))
    unfold State.nextSlot
    dsimp only
    rw [hslot, hslots]
    exact core_congr rfl rfl rfl rfl rfl (fun _ => rfl) (fun _ => rfl) rfl (fired_core_log s)

theorem takeSlot_nil (s : State) (home : Home) {slot : ℤ} (hw : s.tiw.w slot = []) :
    s.takeSlot home slot = s.nextSlot home := by
  unfold State.takeSlot
  rw [hw]

theorem takeSlot_cons (s : State) (home : Home) {slot : ℤ} {rest : List Tmr}
    (hw : s.tiw.w slot = p :: rest) :
    s.takeSlot home slot = (s.withTiw { s.tiw with
      w := Function.update s.tiw.w slot []
      sentinel := if rest = [] then s.tiw.sentinel else rest }).bumpTimer home p := by
  unfold State.takeSlot
  rw [hw]

/-- A list is taken. -/
theorem core_takeSlot (s : State) (slot : ℤ) (hscan : home ≠ .atOnce → s.pc.scanning = true) :
    (s.core.takeSlot home slot).core = (s.takeSlot home slot).core := by
  cases hw : s.tiw.w slot with
  | nil =>
    rw [takeSlot_nil s home hw, takeSlot_nil s.core home hw]
    exact core_nextSlot s hscan
  | cons p rest =>
    rw [takeSlot_cons s home hw, takeSlot_cons s.core home hw]
    exact core_bumpTimer (s.withTiw { s.tiw with
      w := Function.update s.tiw.w slot []
      sentinel := if rest = [] then s.tiw.sentinel else rest }) p hscan

theorem core_pay_takeSlot (s : State) (cost slot : ℤ) (hscan : s.pc.scanning = true) :
    ((s.core.pay cost).takeSlot home slot).core = ((s.pay cost).takeSlot home slot).core := by
  rw [← core_takeSlot (s.core.pay cost) slot (fun _ => hscan),
    ← core_takeSlot (s.pay cost) slot (fun _ => hscan)]
  exact congrArg (fun t : State => (t.takeSlot home slot).core) (core_core s)

theorem core_emptyWheel (s : State) (a b : ArmAnswers) :
    (s.core.emptyWheel a).core = (s.emptyWheel b).core := by
  refine core_congr ?_ rfl rfl rfl rfl (fun hsc => nomatch hsc) (fun hsc => nomatch hsc) rfl
    (fired_core_log s)
  change Wheel.core (Wheel.ponTimerWheelArm _ _) = Wheel.core (Wheel.ponTimerWheelArm _ _)
  rw [Wheel.core_arm, Wheel.core_arm]
  rfl

theorem core_finish (s : State) (a b : ArmAnswers) (now : ℤ) :
    (s.core.finish ⟨a, now⟩).core = (s.finish ⟨b, now⟩).core := by
  refine core_congr ?_ rfl rfl rfl rfl (fun hsc => nomatch hsc) (fun hsc => nomatch hsc) rfl
    (fired_core_log s)
  change Wheel.core (Wheel.ponTimerWheelArm _ _) = Wheel.core (Wheel.ponTimerWheelArm _ _)
  rw [Wheel.core_arm, Wheel.core_arm]
  exact Wheel.core_find { s.tiw with trueNextTimeoutTime := false } now

theorem core_atOnceDone (s : State) (a b : ArmAnswers) :
    (s.core.atOnceDone a).core = (s.atOnceDone b).core := by
  unfold State.atOnceDone
  by_cases h1 : s.tiw.pos ≥ s.loc.bumpTo
  · rw [if_pos h1, if_pos (show s.core.tiw.pos ≥ s.core.loc.bumpTo from h1)]
    by_cases h2 : s.tiw.atOnceNto ≠ 0
    · rw [if_pos h2, if_pos (show s.core.tiw.atOnceNto ≠ 0 from h2)]
      exact core_congr rfl rfl rfl rfl rfl (fun hsc => nomatch hsc) (fun hsc => nomatch hsc) rfl
        (fired_core_log s)
    · rw [if_neg h2, if_neg (show ¬ s.core.tiw.atOnceNto ≠ 0 from h2)]
      exact core_congr rfl rfl rfl rfl rfl (fun hsc => nomatch hsc) (fun hsc => nomatch hsc) rfl
        (fired_core_log s)
  · rw [if_neg h1, if_neg (show ¬ s.core.tiw.pos ≥ s.core.loc.bumpTo from h1)]
    by_cases h2 : s.tiw.nto = 0
    · rw [if_pos h2, if_pos (show s.core.tiw.nto = 0 from h2)]
      exact core_emptyWheel s a b
    · rw [if_neg h2, if_neg (show ¬ s.core.tiw.nto = 0 from h2)]
      exact core_congr rfl rfl rfl rfl rfl (fun _ => rfl) (fun _ => rfl) rfl (fired_core_log s)

theorem core_enterLater (s : State) : s.core.enterLater.core = s.enterLater.core := by
  unfold State.enterLater
  dsimp only
  by_cases h : laterPosMask s.tiw.laterMinTpos > s.tiw.laterPos ∧
      laterPosMask s.tiw.laterMinTpos > State.endLaterPos s.tiw
  · rw [if_pos h]
    refine Eq.trans (congrArg State.core (if_pos h)) ?_
    exact core_congr rfl rfl rfl rfl rfl (fun hsc => nomatch hsc) (fun hsc => nomatch hsc) rfl
      (fired_core_log s)
  · rw [if_neg h]
    refine Eq.trans (congrArg State.core (if_neg h)) ?_
    exact core_congr rfl rfl rfl rfl rfl (fun _ => rfl) (fun _ => rfl) rfl (fired_core_log s)

theorem core_callbackDone (s : State) (hpc : s.pc = .callback home) :
    (s.core.callbackDone home).core = (s.callbackDone home).core := by
  cases home with
  | atOnce =>
    exact core_congr rfl rfl rfl rfl rfl (fun hsc => nomatch hsc) (fun hsc => nomatch hsc) rfl
      (fired_core_log s)
  | soon =>
    obtain ⟨hslot, hslots⟩ := core_slot (s := s) (by rw [hpc]; rfl)
    refine core_congr ?_ rfl rfl rfl rfl (fun _ => hslot) (fun _ => hslots) rfl (fired_core_log s)
    unfold State.callbackDone
    dsimp only [State.goto, State.pay, State.withTiw]
    rw [hslot]
    rfl
  | later =>
    obtain ⟨hslot, hslots⟩ := core_slot (s := s) (by rw [hpc]; rfl)
    exact core_congr rfl rfl rfl rfl rfl (fun _ => hslot) (fun _ => hslots) rfl (fired_core_log s)

theorem nextTimer_nil (hs : s.tiw.sentinel = []) : s.nextTimer home = s.nextSlot home := by
  unfold State.nextTimer
  rw [hs]

theorem nextTimer_cons {rest : List Tmr} (hs : s.tiw.sentinel = p :: rest)
    (hout : s.outOfTime home = false) :
    s.nextTimer home = (s.withTiw { s.tiw with sentinel := rest }).bumpTimer home p := by
  unfold State.nextTimer
  rw [hs]
  exact if_neg (by rw [hout]; exact Bool.false_ne_true)

theorem core_outOfTime (s : State) (home : Home) : s.core.outOfTime home = false := by
  cases home <;> rfl

/-- The next timer of the list, if there is no yield. -/
theorem core_nextTimer (s : State) (hpc : s.pc = .next home)
    (hout : s.tiw.sentinel ≠ [] → s.outOfTime home = false) :
    (s.core.nextTimer home).core = (s.nextTimer home).core := by
  have hscan : home ≠ .atOnce → s.pc.scanning = true := by
    intro hne
    rw [hpc]
    cases home with
    | atOnce => exact absurd rfl hne
    | soon => rfl
    | later => rfl
  cases hs : s.tiw.sentinel with
  | nil =>
    rw [nextTimer_nil hs, nextTimer_nil (show s.core.tiw.sentinel = [] from hs)]
    exact core_nextSlot s hscan
  | cons p rest =>
    have hne : s.tiw.sentinel ≠ [] := by rw [hs]; exact List.cons_ne_nil p rest
    rw [nextTimer_cons hs (hout hne),
      nextTimer_cons (show s.core.tiw.sentinel = p :: rest from hs) (core_outOfTime s home)]
    exact core_bumpTimer (s.withTiw { s.tiw with sentinel := rest }) p hscan

/-- **A step that neither yields nor ends the bump** is one of `State.go`. -/
theorem go_of_alone {a : Answers} (hs : s.alone a = some s') (hy : s.yields = false)
    (hne : s.pc = .passDone → s.loc.restarted = true) : s.go = some s'.core := by
  unfold State.alone State.runStep at hs
  cases hpc : s.pc with
  | idle =>
    rw [hpc] at hs
    cases hs
  | callback home =>
    rw [hpc] at hs
    obtain rfl := Option.some.inj hs
    rw [← core_callbackDone s hpc, State.go, State.alone, show s.core.pc = .callback home from hpc]
    rfl
  | pass =>
    rw [hpc] at hs
    obtain rfl := Option.some.inj hs
    rw [State.go, State.alone, State.runStep, show s.core.pc = .pass from hpc]
    refine congrArg some ?_
    exact core_congr rfl rfl rfl rfl rfl (fun hsc => by cases hsc) (fun hsc => by cases hsc) rfl
      (fired_core_log s)
  | top =>
    rw [hpc] at hs
    obtain rfl := Option.some.inj hs
    rw [State.go, State.alone, State.runStep, show s.core.pc = .top from hpc]
    refine congrArg some ?_
    by_cases hnto : s.tiw.nto = 0
    · rw [if_pos hnto]
      refine Eq.trans (congrArg State.core (if_pos hnto)) ?_
      exact core_emptyWheel s noTimerfd a.arm
    · rw [if_neg hnto]
      refine Eq.trans (congrArg State.core (if_neg hnto)) ?_
      exact core_takeSlot s slotAtOnce (fun hne => absurd rfl hne)
  | atOnceDone =>
    rw [hpc] at hs
    obtain rfl := Option.some.inj hs
    rw [State.go, State.alone, State.runStep, show s.core.pc = .atOnceDone from hpc]
    exact congrArg some (core_atOnceDone s noTimerfd a.arm)
  | soon =>
    have hsc : s.pc.scanning = true := by rw [hpc]; rfl
    obtain ⟨hslot, hslots⟩ := core_slot hsc
    rw [hpc] at hs
    obtain rfl := Option.some.inj hs
    rw [State.go, State.alone, State.runStep, show s.core.pc = .soon from hpc]
    refine congrArg some ?_
    rw [hslot, hslots]
    by_cases h0 : 0 < s.loc.slots
    · rw [if_pos h0, if_pos h0]
      exact core_pay_takeSlot s costSlot s.loc.slot hsc
    · rw [if_neg h0, if_neg h0]
      by_cases h1 : s.tiw.pos + laterWheelSlotSize ≥ s.tiw.laterPos
      · rw [if_pos h1]
        refine Eq.trans (congrArg State.core (if_pos h1)) ?_
        exact core_congr rfl rfl rfl rfl rfl (fun _ => hslot) (fun _ => hslots) rfl
          (fired_core_log s)
      · rw [if_neg h1]
        refine Eq.trans (congrArg State.core (if_neg h1)) ?_
        exact core_congr rfl rfl rfl rfl rfl (fun hsc => by cases hsc) (fun hsc => by cases hsc) rfl
          (fired_core_log s)
  | enterLater =>
    rw [hpc] at hs
    obtain rfl := Option.some.inj hs
    rw [State.go, State.alone, State.runStep, show s.core.pc = .enterLater from hpc]
    exact congrArg some (core_enterLater s)
  | later =>
    have hsc : s.pc.scanning = true := by rw [hpc]; rfl
    obtain ⟨hslot, hslots⟩ := core_slot hsc
    rw [hpc] at hs
    obtain rfl := Option.some.inj hs
    rw [State.go, State.alone, State.runStep, show s.core.pc = .later from hpc]
    refine congrArg some ?_
    rw [hslot, hslots]
    by_cases h0 : 0 < s.loc.slots
    · rw [if_pos h0, if_pos h0]
      exact core_pay_takeSlot s costSlot s.loc.slot hsc
    · rw [if_neg h0, if_neg h0]
      exact core_congr rfl rfl rfl rfl rfl (fun hsc => by cases hsc) (fun hsc => by cases hsc) rfl
        (fired_core_log s)
  | passDone =>
    rw [hpc] at hs
    dsimp only at hs
    rw [if_pos (hne hpc)] at hs
    obtain rfl := Option.some.inj hs
    rw [State.go, State.alone, State.runStep, show s.core.pc = .passDone from hpc]
    dsimp only
    rw [if_pos (show s.core.loc.restarted = true from hne hpc)]
    refine congrArg some ?_
    exact core_congr rfl rfl rfl rfl rfl (fun hsc => by cases hsc) (fun hsc => by cases hsc) rfl
      (fired_core_log s)
  | next home =>
    rw [hpc] at hs
    obtain rfl := Option.some.inj hs
    rw [State.go, State.alone, State.runStep, show s.core.pc = .next home from hpc]
    refine congrArg some (core_nextTimer s hpc ?_)
    intro hsent
    unfold State.yields at hy
    rw [hpc] at hy
    simpa [hsent] using hy

end

end PonBeam.TimerWheel
