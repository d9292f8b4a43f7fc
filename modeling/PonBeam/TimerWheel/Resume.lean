import PonBeam.TimerWheel.Course

/-!
# Resuming a bump

`Ends` is the end of a bump that does not yield, with the number of timers it comes to in
the middle of a list. A call that goes on after a yield is marked `restarted` and goes only
up to the position, but makes up for that by another pass: it comes to the same end.
-/

namespace PonBeam.TimerWheel

/-! ## The end of a bump -/

/-- Does the step come to a timer in the middle of a list? -/
def State.handles (s : State) : ℕ :=
  match s.pc with
  | .next _ => if s.tiw.sentinel = [] then 0 else 1
  | _ => 0

/-- The bump ends with this wheel and log, after so many timers. -/
inductive Ends : State → ℕ → Wheel × List Event → Prop where
  /-- it has ended -/
  | done {s : State} : s.pc = .idle → Ends s 0 (s.tiw, s.log)
  /-- it goes on -/
  | step {s s' : State} {m : ℕ} {r : Wheel × List Event} : s.go = some s' → Ends s' m r →
      Ends s (m + s.handles) r

section

variable {currTime : ℤ} {s s' : State} {home : Home} {m : ℕ} {r : Wheel × List Event}

theorem go_idle (hpc : s.pc = .idle) : s.go = none := by
  unfold State.go State.alone State.runStep
  rw [show s.core.pc = .idle from hpc]
  rfl

theorem Ends.of_idle (h : Ends s m r) (hpc : s.pc = .idle) : r = (s.tiw, s.log) := by
  cases h with
  | done _ => rfl
  | step hgo _ =>
    rw [go_idle hpc] at hgo
    cases hgo

theorem Ends.of_go (h : Ends s m r) (hgo : s.go = some s') :
    ∃ n, m = n + s.handles ∧ Ends s' n r := by
  cases h with
  | done hpc =>
    rw [go_idle hpc] at hgo
    cases hgo
  | step hgo' hends =>
    rw [hgo] at hgo'
    obtain rfl := Option.some.inj hgo'
    exact ⟨_, rfl, hends⟩

/-- What is left of an ended bump is its wheel and its log. -/
theorem Ends.idle (h : Ends s m r) (hpc : s.pc = .idle) (hpc' : s'.pc = .idle)
    (htiw : s'.tiw = s.tiw) (hlog : s'.log = s.log) : Ends s' m r := by
  cases h with
  | done _ =>
    rw [← htiw, ← hlog]
    exact .done hpc'
  | step hgo _ =>
    rw [go_idle hpc] at hgo
    cases hgo

theorem go_core (s : State) : s.core.go = s.go := by
  unfold State.go
  rw [core_core]
  rfl

/-- **A step in no time** is one of `State.go`, also the last one. -/
theorem go_of_alone_now {a : Answers} (hs : s.alone a = some s') (hy : s.yields = false)
    (hnow : a.now = s.clock) : s.go = some s'.core := by
  by_cases hend : s.pc = .passDone ∧ s.loc.restarted = false
  · obtain ⟨hpc, hre⟩ := hend
    unfold State.alone State.runStep at hs
    rw [hpc] at hs
    dsimp only at hs
    rw [hre, if_neg Bool.false_ne_true, if_pos hnow.ge] at hs
    obtain rfl := Option.some.inj hs
    unfold State.go State.alone State.runStep
    rw [show s.core.pc = .passDone from hpc]
    dsimp only
    rw [if_neg (by rw [show s.core.loc.restarted = false from hre]; exact Bool.false_ne_true),
      if_pos (show s.core.clock ≤ s.clock from le_refl s.clock)]
    obtain ⟨arm, now⟩ := a
    obtain rfl : now = s.clock := hnow
    exact congrArg some (core_finish s noTimerfd arm s.clock)
  · refine go_of_alone hs hy fun hpc => ?_
    cases hre : s.loc.restarted with
    | true => rfl
    | false => exact absurd ⟨hpc, hre⟩ hend

/-- The steps of `State.go` stay on course. -/
theorem OnCourse.go (h : OnCourse currTime s) : ∃ t, s.core.alone ⟨noTimerfd, s.clock⟩ = some t ∧
    s.go = some t.core ∧ (t.pc ≠ .idle → OnCourse currTime t ∧ Moves s.core t) := by
  obtain ⟨t, ht⟩ := alone_isSome (s := s.core) h.running ⟨noTimerfd, s.clock⟩ (le_refl s.clock)
  refine ⟨t, ht, ?_, fun hne => ⟨h.core.alone ht hne, moves_of_alone h.core.shelved ht hne⟩⟩
  unfold State.go
  rw [ht]
  rfl

/-- **Every bump ends**, if it does not yield. -/
theorem OnCourse.ends (h : OnCourse currTime s) : ∃ m r, Ends s.core m r := by
  induction s using State.nearer_wf.induction with
  | h s ih =>
    obtain ⟨t, ht, hgo, hon⟩ := h.go
    rw [← go_core] at hgo
    by_cases hpc : t.pc = .idle
    · exact ⟨_, _, .step hgo (.done hpc)⟩
    · obtain ⟨hont, hmoves⟩ := hon hpc
      obtain ⟨m, r, hends⟩ := ih t (nearer_of_core (h.core.nearer hmoves)) hont
      exact ⟨_, r, .step hgo hends⟩

/-! ## A resumed bump -/

/-- Overwrite `bump_to` and `restarted`. -/
def State.mark (s : State) (bumpTo : ℤ) (restarted : Bool) : State :=
  { s with loc := { s.loc with bumpTo := bumpTo, restarted := restarted } }

/-- Where a step does not depend on `restarted`. -/
def Pc.steady : Pc → Bool
  | .top | .soon | .enterLater | .later | .next _ | .callback _ => true
  | _ => false

theorem bumpTimer_mark (s : State) (home : Home) (p : Tmr) (upTo : ℤ) (re : Bool)
    (hup : home ≠ .atOnce → upTo = s.loc.bumpTo) :
    ((s.mark upTo re).bumpTimer home p).core = ((s.bumpTimer home p).mark upTo re).core := by
  cases home with
  | atOnce => rfl
  | soon =>
    obtain rfl := hup (by decide)
    by_cases hle : s.tiw.timeoutPos p ≤ s.loc.bumpTo
    · have h1 : s.bumpTimer .soon p = _ := if_pos hle
      have h2 : (s.mark s.loc.bumpTo re).bumpTimer .soon p = _ := if_pos hle
      rw [h1, h2]
      rfl
    · have h1 : s.bumpTimer .soon p = _ := if_neg hle
      have h2 : (s.mark s.loc.bumpTo re).bumpTimer .soon p = _ := if_neg hle
      rw [h1, h2]
      rfl
  | later =>
    obtain rfl := hup (by decide)
    by_cases hkeep : s.tiw.timeoutPos p ≥ s.tiw.laterPos + laterWheelSlotSize
    · have h1 : s.bumpTimer .later p = _ := if_pos hkeep
      have h2 : (s.mark s.loc.bumpTo re).bumpTimer .later p = _ := if_pos hkeep
      rw [h1, h2]
      rfl
    · by_cases hmove : s.tiw.timeoutPos p > s.tiw.pos
      · have h1 : s.bumpTimer .later p = _ := (if_neg hkeep).trans (if_pos hmove)
        have h2 : (s.mark s.loc.bumpTo re).bumpTimer .later p = _ :=
          (if_neg hkeep).trans (if_pos hmove)
        rw [h1, h2]
        rfl
      · have h1 : s.bumpTimer .later p = _ := (if_neg hkeep).trans (if_neg hmove)
        have h2 : (s.mark s.loc.bumpTo re).bumpTimer .later p = _ :=
          (if_neg hkeep).trans (if_neg hmove)
        rw [h1, h2]
        rfl

theorem takeSlot_mark (s : State) (home : Home) (slot upTo : ℤ) (re : Bool)
    (hup : home ≠ .atOnce → upTo = s.loc.bumpTo) :
    ((s.mark upTo re).takeSlot home slot).core = ((s.takeSlot home slot).mark upTo re).core := by
  cases hw : s.tiw.w slot with
  | nil =>
    rw [takeSlot_nil s home hw, takeSlot_nil (s.mark upTo re) home hw]
    cases home <;> rfl
  | cons p rest =>
    rw [takeSlot_cons s home hw, takeSlot_cons (s.mark upTo re) home hw]
    exact bumpTimer_mark (s.withTiw { s.tiw with
      w := Function.update s.tiw.w slot []
      sentinel := if rest = [] then s.tiw.sentinel else rest }) home p upTo re hup

theorem nextTimer_mark (s : State) (home : Home) (upTo : ℤ) (re : Bool)
    (hup : home ≠ .atOnce → upTo = s.loc.bumpTo) (hout : s.outOfTime home = false) :
    ((s.mark upTo re).nextTimer home).core = ((s.nextTimer home).mark upTo re).core := by
  have hout' : (s.mark upTo re).outOfTime home = false := by
    rw [← hout]
    cases home <;> rfl
  cases hs : s.tiw.sentinel with
  | nil =>
    rw [nextTimer_nil hs, nextTimer_nil (show (s.mark upTo re).tiw.sentinel = [] from hs)]
    cases home <;> rfl
  | cons p rest =>
    rw [nextTimer_cons hs hout,
      nextTimer_cons (show (s.mark upTo re).tiw.sentinel = p :: rest from hs) hout']
    exact bumpTimer_mark (s.withTiw { s.tiw with sentinel := rest }) home p upTo re hup

/-- **A step does not depend on the mark**, in the scan of a wheel not on `restarted`. -/
theorem go_mark (upTo : ℤ) (re : Bool) (hpc : s.pc.steady = true)
    (hup : s.pc.scanning = true ∨ s.pc = .top → upTo = s.loc.bumpTo) :
    (s.mark upTo re).go = s.go.map (State.mark · upTo re) := by
  have hcore : ∀ t : State, (t.mark upTo re).core = t.core.mark upTo re := fun _ => rfl
  unfold State.go State.alone State.runStep
  rw [hcore]
  cases hpc' : s.pc with
  | idle => rw [hpc'] at hpc; cases hpc
  | pass => rw [hpc'] at hpc; cases hpc
  | atOnceDone => rw [hpc'] at hpc; cases hpc
  | passDone => rw [hpc'] at hpc; cases hpc
  | top =>
    rw [hpc'] at hup
    obtain rfl := hup (Or.inr rfl)
    rw [show s.core.pc = .top from hpc', show (s.core.mark s.loc.bumpTo re).pc = .top from hpc']
    refine congrArg some ?_
    rw [← hcore]
    by_cases hnto : s.tiw.nto = 0
    · rw [if_pos (show s.core.tiw.nto = 0 from hnto)]
      refine Eq.trans (congrArg State.core (if_pos hnto)) ?_
      rfl
    · rw [if_neg (show ¬ s.core.tiw.nto = 0 from hnto)]
      refine Eq.trans (congrArg State.core (if_neg hnto)) ?_
      exact takeSlot_mark s.core .atOnce slotAtOnce _ re (fun hne => absurd rfl hne)
  | soon =>
    rw [hpc'] at hup
    obtain rfl := hup (Or.inl rfl)
    rw [show s.core.pc = .soon from hpc', show (s.core.mark s.loc.bumpTo re).pc = .soon from hpc']
    refine congrArg some ?_
    rw [← hcore]
    by_cases h0 : 0 < s.core.loc.slots
    · rw [if_pos h0]
      refine Eq.trans (congrArg State.core (if_pos h0)) ?_
      exact takeSlot_mark (s.core.pay costSlot) .soon _ _ re (fun _ => rfl)
    · rw [if_neg h0]
      refine Eq.trans (congrArg State.core (if_neg h0)) ?_
      by_cases h1 : s.core.tiw.pos + laterWheelSlotSize ≥ s.core.tiw.laterPos
      · rw [if_pos h1]
        exact congrArg State.core (if_pos h1)
      · rw [if_neg h1]
        exact congrArg State.core (if_neg h1)
  | enterLater =>
    rw [hpc'] at hup
    obtain rfl := hup (Or.inl rfl)
    rw [show s.core.pc = .enterLater from hpc',
      show (s.core.mark s.loc.bumpTo re).pc = .enterLater from hpc']
    refine congrArg some ?_
    rw [← hcore]
    by_cases h : laterPosMask s.tiw.laterMinTpos > s.tiw.laterPos ∧
        laterPosMask s.tiw.laterMinTpos > State.endLaterPos s.tiw
    · have h1 : s.core.enterLater = _ := if_pos h
      have h2 : (s.mark s.loc.bumpTo re).core.enterLater = _ := if_pos h
      rw [h1, h2]
      rfl
    · have h1 : s.core.enterLater = _ := if_neg h
      have h2 : (s.mark s.loc.bumpTo re).core.enterLater = _ := if_neg h
      rw [h1, h2]
      rfl
  | later =>
    rw [hpc'] at hup
    obtain rfl := hup (Or.inl rfl)
    rw [show s.core.pc = .later from hpc', show (s.core.mark s.loc.bumpTo re).pc = .later from hpc']
    refine congrArg some ?_
    rw [← hcore]
    by_cases h0 : 0 < s.core.loc.slots
    · rw [if_pos h0]
      refine Eq.trans (congrArg State.core (if_pos h0)) ?_
      exact takeSlot_mark (s.core.pay costSlot) .later _ _ re (fun _ => rfl)
    · rw [if_neg h0]
      exact congrArg State.core (if_neg h0)
  | next home =>
    rw [show s.core.pc = .next home from hpc', show (s.core.mark upTo re).pc = .next home from hpc']
    refine congrArg some ?_
    rw [← hcore]
    refine nextTimer_mark s.core home upTo re (fun hne => ?_) (core_outOfTime s home)
    refine hup (Or.inl ?_)
    rw [hpc']
    cases home with
    | atOnce => exact absurd rfl hne
    | soon => rfl
    | later => rfl
  | callback home =>
    rw [show s.core.pc = .callback home from hpc',
      show (s.core.mark upTo re).pc = .callback home from hpc']
    refine congrArg some ?_
    rw [← hcore]
    cases home <;> rfl

/-- Steps that do not depend on `restarted` lead to such steps, and to the end of the at-once
slot. -/
theorem Moves.of_steady (h : Moves s s') (hpc : s.pc.steady = true) :
    Kin s s' ∧ (s'.pc.steady = true ∨ s'.pc = .atOnceDone) ∧
    (s'.pc = .top → s.pc.scanning = true) := by
  cases h with
  | pass hpc' =>
    rw [hpc'] at hpc
    cases hpc
  | scan hpc' =>
    rw [hpc'] at hpc
    cases hpc
  | edge hedge hstill =>
    refine ⟨hstill.toKin, ?_⟩
    generalize s'.pc = pc' at hedge
    cases hedge with
    | again hpc' => rw [hpc'] at hpc; cases hpc
    | allDone hpc' => rw [hpc'] at hpc; cases hpc
    | restart hpc' => rw [hpc'] at hpc; cases hpc
    | toLater _ => exact ⟨Or.inl rfl, fun he => nomatch he⟩
    | intoLater _ => exact ⟨Or.inl rfl, fun he => nomatch he⟩
    | soonTop hpc' => exact ⟨Or.inl rfl, fun _ => by rw [hpc']; rfl⟩
    | skipLater hpc' => exact ⟨Or.inl rfl, fun _ => by rw [hpc']; rfl⟩
    | laterTop hpc' => exact ⟨Or.inl rfl, fun _ => by rw [hpc']; rfl⟩
  | take home _ hdealt _ _ _ hkin =>
    rcases hdealt with hpc' | ⟨hpc', -⟩
    · rw [hpc']
      exact ⟨hkin, Or.inl rfl, fun he => nomatch he⟩
    · rw [hpc']
      exact ⟨hkin, Or.inl rfl, fun he => nomatch he⟩
  | skip home _ hpc' _ hstill =>
    rw [hpc']
    cases home with
    | atOnce => exact ⟨hstill.toKin, Or.inr rfl, fun he => nomatch he⟩
    | soon => exact ⟨hstill.toKin, Or.inl rfl, fun he => nomatch he⟩
    | later => exact ⟨hstill.toKin, Or.inl rfl, fun he => nomatch he⟩
  | timer home _ hdealt _ _ _ hkin =>
    rcases hdealt with hpc' | ⟨hpc', -⟩
    · rw [hpc']
      exact ⟨hkin, Or.inl rfl, fun he => nomatch he⟩
    · rw [hpc']
      exact ⟨hkin, Or.inl rfl, fun he => nomatch he⟩
  | ret home _ hpc' _ _ _ hkin =>
    rw [hpc']
    exact ⟨hkin, Or.inl rfl, fun he => nomatch he⟩

/-- What a call that goes on after a yield starts from. -/
def State.resumed (s : State) : State := s.mark s.tiw.pos true

/-- A step that does not come to a timer in the middle of a list. -/
theorem Ends.step_zero (h : Ends s' m r) (hgo : s.go = some s') (hh : s.handles = 0) :
    Ends s m r := by
  have hstep := Ends.step hgo h
  rw [hh] at hstep
  exact hstep

theorem Ends.of_go_zero (h : Ends s m r) (hgo : s.go = some s') (hh : s.handles = 0) :
    Ends s' m r := by
  obtain ⟨n, hm, hends⟩ := h.of_go hgo
  rw [hh] at hm
  rw [hm]
  exact hends

theorem handles_zero (hpc : ∀ home, s.pc ≠ .next home) : s.handles = 0 := by
  unfold State.handles
  cases hp : s.pc with
  | next home => exact absurd hp (hpc home)
  | _ => rfl

theorem go_top (hpc : s.pc = .top) : s.go = some (if s.tiw.nto = 0 then
    s.core.emptyWheel noTimerfd else s.core.takeSlot .atOnce slotAtOnce).core := by
  unfold State.go State.alone State.runStep
  rw [show s.core.pc = .top from hpc]
  rfl

theorem go_atOnceDone (hpc : s.pc = .atOnceDone) :
    s.go = some (s.core.atOnceDone noTimerfd).core := by
  unfold State.go State.alone State.runStep
  rw [show s.core.pc = .atOnceDone from hpc]
  rfl

theorem go_pass (hpc : s.pc = .pass) : s.go = some s.core.startPass.core := by
  unfold State.go State.alone State.runStep
  rw [show s.core.pc = .pass from hpc]
  rfl

theorem go_passDone (hpc : s.pc = .passDone) : s.go = some (if s.loc.restarted then
    s.core.goto .pass else s.core.finish ⟨noTimerfd, s.clock⟩).core := by
  unfold State.go State.alone State.runStep
  rw [show s.core.pc = .passDone from hpc]
  dsimp only
  cases hre : s.loc.restarted with
  | true =>
    rw [if_pos (show s.core.loc.restarted = true from hre)]
    rfl
  | false =>
    rw [if_neg (by rw [show s.core.loc.restarted = false from hre]; exact Bool.false_ne_true),
      if_pos (show s.core.clock ≤ s.clock from le_refl s.clock)]
    rfl

/-- `find_next_timeout` and `empty_wheel` place an empty wheel alike, at one time. -/
theorem finish_core_tiw (s : State) {now : ℤ} (hnto : s.tiw.nto = 0)
    (hup : s.loc.bumpTo = monotonicToClktcks now) (a b : ArmAnswers) :
    (s.finish ⟨a, now⟩).tiw.core = (s.emptyWheel b).tiw.core := by
  change Wheel.core (Wheel.ponTimerWheelArm _ _) = Wheel.core (Wheel.ponTimerWheelArm _ _)
  rw [Wheel.core_arm, Wheel.core_arm]
  have hfind : Wheel.findNextTimeout { s.tiw with trueNextTimeoutTime := false } now = _ :=
    if_pos hnto
  rw [hfind, hup]
  rfl

/-- **The at-once slot is done**: a pass that starts again gets here, or ends as this one does. -/
theorem Ends.goto_top (hx : s.core = s) (h : OnCourse currTime s) (hpc : s.pc = .atOnceDone)
    (hre : s.loc.restarted = false) (hends : Ends s m r) : Ends (s.goto .top) m r := by
  have htop := go_top (s := s.goto .top) rfl
  have hhere := go_atOnceDone hpc
  have hup := h.fresh hre (by rw [hpc]; decide)
  have hempty := h.emptied hre (by rw [hpc]; rfl)
  have hzero : s.handles = 0 := handles_zero (by rw [hpc]; exact fun _ he => nomatch he)
  have hcount : s.tiw.atOnceNto = 0 := by
    have hlen := h.shelved.atOnce
    rw [State.taken, hpc, hempty] at hlen
    exact hlen
  by_cases hnto : s.tiw.nto = 0
  · -- the pass that starts again ends in `empty_wheel`
    rw [if_pos (show (s.goto .top).tiw.nto = 0 from hnto)] at htop
    refine Ends.step_zero ?_ htop rfl
    by_cases hpos : s.tiw.pos ≥ s.loc.bumpTo
    · have hover : s.core.atOnceDone noTimerfd = s.core.goto .passDone :=
        (if_pos hpos).trans (if_neg (not_not_intro hcount))
      rw [hover] at hhere
      have hlast := go_passDone (s := (s.core.goto .passDone).core) rfl
      rw [if_neg (by rw [show (s.core.goto .passDone).core.loc.restarted = false from hre]; decide)]
        at hlast
      refine ((hends.of_go_zero hhere hzero).of_go_zero hlast rfl).idle rfl rfl ?_ ?_
      · refine (finish_core_tiw (s.core.goto .passDone).core.core hnto ?_ noTimerfd noTimerfd).symm
        exact hup.trans (congrArg monotonicToClktcks h.clock.symm)
      · change fired (fired s.log) = fired (fired (fired (fired s.log)))
        simp only [fired_fired]
    · have hleave : s.core.atOnceDone noTimerfd = s.core.emptyWheel noTimerfd :=
        (if_neg hpos).trans (if_pos hnto)
      rw [hleave] at hhere
      exact (hends.of_go_zero hhere hzero).idle rfl rfl rfl rfl
  · -- and else finds the at-once slot empty
    rw [if_neg (show ¬ (s.goto .top).tiw.nto = 0 from hnto),
      takeSlot_nil (s.goto .top).core .atOnce
        (show (s.goto .top).core.tiw.w slotAtOnce = [] from hempty)] at htop
    have hback : ((s.goto .top).core.nextSlot .atOnce).core = s := by
      refine Eq.trans ?_ hx
      refine core_congr rfl hpc.symm rfl rfl rfl ?_ ?_ rfl (fired_core_log s)
      · rw [hpc]
        intro hsc
        cases hsc
      · rw [hpc]
        intro hsc
        cases hsc
    rw [hback] at htop
    exact hends.step_zero htop rfl

theorem core_goto {pc : Pc} (hx : s.core = s) (hs : s.pc.scanning = false)
    (hpc : pc.scanning = false) : (s.goto pc).core = s.goto pc := by
  nth_rewrite 2 [← hx]
  unfold State.core State.goto
  rw [hs, hpc]

/-- A resumed bump is done with the at-once slot: it starts another pass. -/
theorem Ends.resumed_atOnceDone (hx : s.core = s) (h : OnCourse currTime s)
    (hpc : s.pc = .atOnceDone) (hre : s.loc.restarted = false) (hends : Ends s m r) :
    Ends s.resumed m r := by
  have hup := h.fresh hre (by rw [hpc]; decide)
  have hempty := h.emptied hre (by rw [hpc]; rfl)
  have hcount : s.tiw.atOnceNto = 0 := by
    have hlen := h.shelved.atOnce
    rw [State.taken, hpc, hempty] at hlen
    exact hlen
  have hzero : s.resumed.handles = 0 :=
    handles_zero (s := s.resumed) (by rw [show s.resumed.pc = .atOnceDone from hpc]; simp)
  have hxr : s.resumed.core = s.resumed := congrArg State.resumed hx
  have hflat : s.resumed.pc.scanning = false := by
    rw [show s.resumed.pc = .atOnceDone from hpc]
    rfl
  have h1 : s.resumed.go = some (s.resumed.goto .passDone) := by
    have hover : s.resumed.atOnceDone noTimerfd = s.resumed.goto .passDone :=
      (if_pos (le_refl s.tiw.pos)).trans (if_neg (not_not_intro hcount))
    rw [go_atOnceDone (show s.resumed.pc = .atOnceDone from hpc), hxr, hover,
      core_goto hxr hflat rfl]
  have h2 : (s.resumed.goto .passDone).go = some (s.resumed.goto .pass) := by
    rw [go_passDone rfl, core_goto hxr hflat rfl,
      if_pos (show (s.resumed.goto .passDone).loc.restarted = true from rfl)]
    exact congrArg some (core_goto (s := s.resumed) hxr hflat rfl)
  have h3 : (s.resumed.goto .pass).go = some (s.goto .top) := by
    rw [go_pass rfl, core_goto hxr hflat rfl]
    refine congrArg some ?_
    rw [← core_goto (s := s) hx hflat rfl]
    refine core_congr rfl rfl rfl ?_ hre.symm (fun hsc => by cases hsc)
      (fun hsc => by cases hsc) rfl
      rfl
    exact (congrArg monotonicToClktcks h.time).trans hup.symm
  exact (((hends.goto_top hx h hpc hre).step_zero h3 rfl).step_zero h2 rfl).step_zero h1 hzero

/-- **A bump resumed** in the middle of a list ends as one that went on. -/
theorem Ends.resumed (hx : s.core = s) (h : OnCourse currTime s) (hre : s.loc.restarted = false)
    (hpc : s.pc.steady = true ∨ s.pc = .atOnceDone) (htop : s.pc = .top → s.loc.bumpTo = s.tiw.pos)
    (hends : Ends s m r) : Ends s.resumed m r := by
  induction hends with
  | done hidle => exact absurd hidle h.running
  | @step s s' m r hgo hends ih =>
    rcases hpc with hsteady | hdone
    · have hgo' := go_mark s.tiw.pos true hsteady (fun hsc => hsc.elim
        (fun hsc => (h.scanning hsc).symm) (fun ht => (htop ht).symm))
      rw [hgo] at hgo'
      have hstep : s.resumed.go = some (s'.mark s.tiw.pos true) := hgo'
      obtain ⟨t, ht, hgot, hon⟩ := h.go
      rw [hgo] at hgot
      obtain rfl := Option.some.inj hgot
      by_cases hidle : t.pc = .idle
      · exact .step hstep (hends.idle hidle hidle rfl rfl)
      · obtain ⟨hont, hmoves⟩ := hon hidle
        obtain ⟨hkin, hnext, hscan⟩ := hmoves.of_steady hsteady
        have hends' := ih (core_core t) hont.core (hkin.restarted.trans hre) hnext fun ht => by
          refine hkin.bumpTo.trans ((h.scanning (hscan ht)).trans hkin.pos.symm)
        have hres : t.core.resumed = t.core.mark s.tiw.pos true :=
          congrArg (t.core.mark · true) hkin.pos
        rw [hres] at hends'
        exact .step hstep hends'
    · exact Ends.resumed_atOnceDone hx h hdone hre (.step hgo hends)

/-! ## Calls -/

theorem onCourse_bumpWith (h : Shelved s) (hpc : s.pc = .idle) (currTime budget : ℤ) :
    OnCourse currTime (s.bumpWith currTime budget) := by
  have hshelved := h.bumpTimers hpc currTime
  have hpcs := h.bumpTimers_cases hpc currTime
  refine ⟨⟨hshelved.lists, hshelved.rest, hshelved.atOnce, hshelved.inWheel⟩, ?_, rfl, rfl, rfl,
    fun _ => rfl, fun _ => rfl, ?_, ?_, ?_⟩
  · rcases hpcs with ⟨-, hp⟩ | ⟨home, -, hp, -⟩
    · exact fun he => nomatch hp.symm.trans he
    · exact fun he => nomatch hp.symm.trans he
  · intro hre hne
    rcases hpcs with ⟨-, hp⟩ | ⟨home, hy, -⟩
    · exact absurd hp hne
    · exact absurd hy (of_decide_eq_false hre)
  · intro hre hl
    rcases hpcs with ⟨-, hp⟩ | ⟨home, hy, -⟩
    · rw [show (s.bumpWith currTime budget).pc = .pass from hp] at hl
      cases hl
    · exact absurd hy (of_decide_eq_false hre)
  · intro hover
    rcases hpcs with ⟨-, hp⟩ | ⟨home, -, hp, -⟩
    · exact nomatch hp.symm.trans hover
    · exact nomatch hp.symm.trans hover

/-- **The call after a yield** goes on where the bump stopped. -/
theorem core_bumpWith_yieldIn (h : OnCourse currTime s) (hpc : s.pc = .next home) (budget : ℤ) :
    ((s.yieldIn home).bumpWith currTime budget).core = s.core.resumed := by
  obtain ⟨hhas, -⟩ := inWheel_next h.shelved hpc
  change _ = s.resumed.core
  cases home with
  | atOnce =>
    refine core_congr rfl hpc.symm h.time.symm rfl rfl ?_ ?_ h.clock.symm rfl
    · rw [show s.resumed.pc = .next .atOnce from hpc]
      exact fun hsc => nomatch hsc
    · rw [show s.resumed.pc = .next .atOnce from hpc]
      exact fun hsc => nomatch hsc
  | soon =>
    obtain ⟨h0, h1⟩ : 0 ≤ s.loc.slot ∧ s.loc.slot < 16384 := hhas
    have hne : s.loc.slot ≠ -2 := by omega
    refine core_congr rfl ?_ h.time.symm rfl ?_ (fun _ => rfl) (fun _ => rfl) h.clock.symm rfl
    · rw [show s.resumed.pc = .next .soon from hpc]
      exact (if_neg hne).trans ((if_neg (not_le.2 h1)).trans
        (if_neg (by change s.loc.slot ≠ -1; omega)))
    · exact decide_eq_true hne
  | later =>
    obtain ⟨h0, h1⟩ : 16384 ≤ s.loc.slot ∧ s.loc.slot < 32768 := hhas
    have hne : s.loc.slot ≠ -2 := by omega
    refine core_congr rfl ?_ h.time.symm rfl ?_ (fun _ => rfl) (fun _ => rfl) h.clock.symm rfl
    · rw [show s.resumed.pc = .next .later from hpc]
      exact (if_neg hne).trans (if_pos h0)
    · exact decide_eq_true hne

/-- A bump that stopped at a timer ends as it would have without stopping. -/
theorem Ends.after_yield (h : OnCourse currTime s) (hpc : s.pc = .next home) (budget : ℤ)
    (hends : Ends s.core m r) : Ends ((s.yieldIn home).bumpWith currTime budget).core m r := by
  rw [core_bumpWith_yieldIn h hpc budget]
  cases hre : s.loc.restarted with
  | true =>
    have heq : s.core.resumed = s.core := by
      unfold State.resumed State.mark
      rw [← show s.core.loc.bumpTo = s.core.tiw.pos from h.restarted hre,
        ← show s.core.loc.restarted = true from hre]
    rw [heq]
    exact hends
  | false =>
    refine hends.resumed (core_core s) h.core hre ?_ ?_
    · rw [show s.core.pc = .next home from hpc]
      exact Or.inl rfl
    · rw [show s.core.pc = .next home from hpc]
      exact fun he => nomatch he

end

end PonBeam.TimerWheel
