import PonBeam.TimerWheel.Firing

/-!
# The canary of the wheel (`pon_timer_wheel_arm`, `pon_timer_wheel_can_skip_scan`)

The timerfd of the wheel as the kernel has it, beside the wheel that asks for it. The
kernel's clock and the monotonic time of the wheel are one clock; every call of the kernel
may fail. The canary is pending while the instant it is armed for is still to come, and
that instant should not be after the deadline in the cache, `next_timeout_time`.

Three calls can put it there. `erts_twheel_set_timer` writes an earlier deadline before it
asks for the new instant, and the old one stays when the kernel refuses.
`erts_check_next_timeout_time` searches when the kernel does not answer, and does not arm
the canary again. A bump before the deadline writes its own time as the deadline.
-/

namespace PonBeam.TimerWheel

/-- The timerfd in the kernel. -/
structure Canary where
  /-- the instant it is armed for, if it is -/
  armed : Option ℤ
  /-- the present -/
  now : ℤ

/-- What `timerfd_gettime` answers at the time `t`, if it does. -/
def Canary.remaining (c : Canary) (t : ℤ) : ℤ :=
  match c.armed with
  | none => 0
  | some x => max (x - t) 0

/-- `spec.it_value`, in nanoseconds -/
def itValue (deadlineUs : ℤ) : ℤ :=
  deadlineUs / 1000000 * 1000000000 + deadlineUs % 1000000 * 1000

/-- The instant after a call of `pon_timer_wheel_arm` by the wheel `tiw`. -/
def armTimerfd (tiw : Wheel) (a : ArmAnswers) (armed : Option ℤ) : Option ℤ :=
  let fd := if tiw.ponFd = -1 then a.created else tiw.ponFd
  if fd = -1 then armed
  else if tiw.nextTimeoutTime = tiw.ponArmedDeadline then armed
  else if monotonicToUsec tiw.nextTimeoutTime - monotonicToUsec a.now < 1000 then
    if tiw.ponArmedDeadline ≠ -1 ∧ a.settime then none else armed
  else if a.settime then some (itValue (monotonicToUsec tiw.nextTimeoutTime))
  else armed

/-- The instant after a step from `s`: `pon_timer_wheel_arm` is called by
`erts_twheel_set_timer` for an earlier timeout and at the two ends of `erts_bump_timers`. -/
def State.timerfdStep (s : State) (armed : Option ℤ) : Label → Option ℤ
  | .set p timeoutPos a =>
    let tiw := (s.tiw.startTimer p timeoutPos).insertTimerIntoSlot (s.tiw.targetSlot timeoutPos) p
    if s.tiw.wakeUpPos timeoutPos < tiw.nextTimeoutPos then
      armTimerfd (tiw.setNextTimeout (s.tiw.wakeUpPos timeoutPos)) a armed
    else armed
  | .run a =>
    match s.pc with
    | .top =>
      if s.tiw.nto = 0 then
        armTimerfd (s.tiw.setNextTimeout (s.loc.bumpTo + clktcksWeek)) a.arm armed
      else armed
    | .atOnceDone =>
      if s.tiw.pos < s.loc.bumpTo ∧ s.tiw.nto = 0 then
        armTimerfd (s.tiw.setNextTimeout (s.loc.bumpTo + clktcksWeek)) a.arm armed
      else armed
    | .passDone =>
      if s.loc.restarted then armed
      else
        armTimerfd (Wheel.findNextTimeout { s.tiw with trueNextTimeoutTime := false } a.now) a.arm
          armed
    | _ => armed
  | _ => armed

/-- What is read during a step from `c` to `c'`. -/
def Label.Timed (c c' : Canary) : Label → Prop
  | .set _ _ a => c.now ≤ a.now ∧ a.now ≤ c'.now
  | .check remain now =>
    (remain = none ∨ ∃ t, c.now ≤ t ∧ t ≤ c'.now ∧ remain = some (c.remaining t)) ∧
      c.now ≤ now ∧ now ≤ c'.now
  | .bump currTime => currTime ≤ c'.now
  | .run a => c.now ≤ a.arm.now ∧ a.arm.now ≤ c'.now ∧ c.now ≤ a.now ∧ a.now ≤ c'.now
  | _ => True

/-- The wheel and its timerfd, from `erts_create_timer_wheel` on. The clock starts at 0. -/
def canarySystem : System (State × Canary) Label where
  init x := x.1.pc = .idle ∧ x.1.log = [] ∧ 0 ≤ x.1.clock ∧
    ∃ a bumpScnt left timeoutPos, x.1.tiw = .create x.1.clock a bumpScnt left timeoutPos ∧
      x.1.clock ≤ a.now ∧ a.now ≤ x.2.now ∧
      x.2.armed = armTimerfd { x.1.tiw with ponFd := -1, ponArmedDeadline := -1 } a none
  step x l x' := wheelSystem.step x.1 l x'.1 ∧ x.2.now ≤ x'.2.now ∧ l.Timed x.2 x'.2 ∧
    x'.2.armed = x.1.timerfdStep x.2.armed l

/-- The canary is pending. -/
def Canary.Pending (c : Canary) (x : ℤ) : Prop := c.armed = some x ∧ c.now < x

/-- A step that does not leave a pending canary behind: the kernel arms or disarms it when an
earlier timer is set, it answers when it is asked, and the wheel is bumped at its deadline, as the
callers of `erts_bump_timers` see to. -/
def Answered (s : State) (c : Canary) : Label → Prop
  | .set _ timeoutPos a => ∀ x, c.Pending x →
      clktcksToMonotonic (s.tiw.wakeUpPos timeoutPos) < x → a.settime = true
  | .check remain _ => s.tiw.trueNextTimeoutTime = false →
      s.tiw.nextTimeoutPos ≤ s.tiw.pos + soonWheelSize → (∃ x, c.Pending x) → remain ≠ none
  | .bump currTime => s.tiw.nextTimeoutTime ≤ currTime
  | _ => True

/-! ## Arming -/

/-- The wheel knows what the kernel has. -/
structure InSync (tiw : Wheel) (armed : Option ℤ) : Prop where
  /-- without a timerfd nothing is armed -/
  noFd : tiw.ponFd = -1 → tiw.ponArmedDeadline = -1
  /-- `pon_armed_deadline` -/
  eq : armed = if tiw.ponArmedDeadline = -1 then none
    else some (itValue (monotonicToUsec tiw.ponArmedDeadline))

section

variable {tiw tiw' : Wheel} {armed : Option ℤ} {a : ArmAnswers}

theorem itValue_le (d : ℤ) : itValue (monotonicToUsec d) ≤ d := by
  unfold itValue monotonicToUsec
  omega

theorem InSync.eq_none (h : InSync tiw armed) (hd : tiw.ponArmedDeadline = -1) :
    armed = none := by
  rw [h.eq, if_pos hd]

theorem InSync.eq_some (h : InSync tiw armed) (hd : tiw.ponArmedDeadline ≠ -1) :
    armed = some (itValue (monotonicToUsec tiw.ponArmedDeadline)) := by
  rw [h.eq, if_neg hd]

/-- The timerfd that `pon_timer_wheel_arm` goes on with. -/
theorem InSync.fd_none (h : InSync tiw armed)
    (hfd : (if tiw.ponFd = -1 then a.created else tiw.ponFd) = -1) :
    tiw.ponArmedDeadline = -1 := by
  by_cases hno : tiw.ponFd = -1
  · exact h.noFd hno
  · rw [if_neg hno] at hfd
    exact absurd hfd hno

/-- **Arming the canary** keeps both sides together. -/
theorem InSync.arm (h : InSync tiw armed) (ha : 0 ≤ a.now) :
    InSync (tiw.ponTimerWheelArm a) (armTimerfd tiw a armed) := by
  have hfdnone := h.fd_none (a := a)
  unfold Wheel.ponTimerWheelArm armTimerfd
  dsimp only
  generalize (if tiw.ponFd = -1 then a.created else tiw.ponFd) = fd at hfdnone ⊢
  by_cases hfd : fd = -1
  · rw [if_pos hfd, if_pos hfd]
    exact ⟨fun _ => rfl, (h.eq_none (hfdnone hfd)).trans (if_pos rfl).symm⟩
  rw [if_neg hfd, if_neg hfd]
  by_cases hsame : tiw.nextTimeoutTime = tiw.ponArmedDeadline
  · rw [if_pos hsame, if_pos hsame]
    exact ⟨fun hno => absurd hno hfd, h.eq⟩
  rw [if_neg hsame, if_neg hsame]
  by_cases hsub : monotonicToUsec tiw.nextTimeoutTime - monotonicToUsec a.now < 1000
  · rw [if_pos hsub, if_pos hsub]
    split_ifs with hdis
    · exact ⟨fun _ => rfl, (if_pos rfl).symm⟩
    · exact ⟨fun hno => absurd hno hfd, h.eq⟩
  · rw [if_neg hsub, if_neg hsub]
    split_ifs with hset
    · refine ⟨fun hno => absurd hno hfd, (if_neg ?_).symm⟩
      unfold monotonicToUsec at hsub
      dsimp only
      omega
    · exact ⟨fun hno => absurd hno hfd, h.eq⟩

/-- What can come of it: nothing is armed, the old instant stays, or the canary is armed for a
deadline that is still to come. -/
theorem InSync.arm_cases (h : InSync tiw armed) (a : ArmAnswers) :
    armTimerfd tiw a armed = none ∨
    (armTimerfd tiw a armed = armed ∧
      (a.settime = false ∨ ∀ x, armed = some x → x ≤ tiw.nextTimeoutTime)) ∨
    ∃ x, armTimerfd tiw a armed = some x ∧ x ≤ tiw.nextTimeoutTime ∧
      a.now < tiw.nextTimeoutTime := by
  have hfdnone := h.fd_none (a := a)
  unfold armTimerfd
  dsimp only
  generalize (if tiw.ponFd = -1 then a.created else tiw.ponFd) = fd at hfdnone ⊢
  split_ifs with hfd hsame hsub hdis hset
  · exact Or.inl (h.eq_none (hfdnone hfd))
  · refine Or.inr (Or.inl ⟨rfl, Or.inr fun x hx => ?_⟩)
    by_cases hd : tiw.ponArmedDeadline = -1
    · rw [h.eq_none hd] at hx
      cases hx
    · rw [h.eq_some hd] at hx
      rw [← Option.some.inj hx, hsame]
      exact itValue_le _
  · exact Or.inl rfl
  · by_cases hd : tiw.ponArmedDeadline = -1
    · exact Or.inl (h.eq_none hd)
    · exact Or.inr (Or.inl ⟨rfl, Or.inl (Bool.eq_false_iff.mpr fun hs => hdis ⟨hd, hs⟩)⟩)
  · refine Or.inr (Or.inr ⟨_, rfl, itValue_le _, ?_⟩)
    unfold monotonicToUsec at hsub
    omega
  · exact Or.inr (Or.inl ⟨rfl, Or.inl (Bool.eq_false_iff.mpr hset)⟩)

/-- The canary is armed for no instant after the deadline, if the old instant is not and the
kernel does as it is asked. -/
theorem InSync.arm_le (h : InSync tiw armed) {t : ℤ}
    (hold : ∀ x, armed = some x → t < x → tiw.nextTimeoutTime < x → a.settime = true) (x : ℤ)
    (hx : armTimerfd tiw a armed = some x) (ht : t < x) : x ≤ tiw.nextTimeoutTime := by
  rcases h.arm_cases a with hn | ⟨hk, hs⟩ | ⟨y, hy, hle, -⟩
  · rw [hn] at hx
    cases hx
  · rw [hk] at hx
    rcases hs with hs | hs
    · by_contra hlt
      have hset := hold x hx ht (not_le.mp hlt)
      rw [hs] at hset
      cases hset
    · exact hs x hx
  · rw [hy] at hx
    rw [← Option.some.inj hx]
    exact hle

/-! ## The invariant -/

/-- The fields the canary depends on are left alone. -/
structure Quiet (tiw tiw' : Wheel) : Prop where
  pos : tiw'.pos = tiw.pos
  nextTimeoutPos : tiw'.nextTimeoutPos = tiw.nextTimeoutPos
  nextTimeoutTime : tiw'.nextTimeoutTime = tiw.nextTimeoutTime
  ponFd : tiw'.ponFd = tiw.ponFd
  ponArmedDeadline : tiw'.ponArmedDeadline = tiw.ponArmedDeadline

theorem Quiet.trans {tiw'' : Wheel} (h : Quiet tiw tiw') (h' : Quiet tiw' tiw'') :
    Quiet tiw tiw'' :=
  ⟨h'.pos.trans h.pos, h'.nextTimeoutPos.trans h.nextTimeoutPos,
    h'.nextTimeoutTime.trans h.nextTimeoutTime, h'.ponFd.trans h.ponFd,
    h'.ponArmedDeadline.trans h.ponArmedDeadline⟩

theorem Quiet.insertTimerIntoSlot (h : Quiet tiw tiw') (i : ℤ) (p : Tmr) :
    Quiet tiw (tiw'.insertTimerIntoSlot i p) := by
  refine h.trans ?_
  unfold Wheel.insertTimerIntoSlot
  dsimp only
  split_ifs <;> exact ⟨rfl, rfl, rfl, rfl, rfl⟩

theorem cancelTimer_quiet (tiw : Wheel) (p : Tmr) : Quiet tiw (tiw.cancelTimer p) := by
  unfold Wheel.cancelTimer Wheel.removeTimer
  dsimp only
  split_ifs <;> exact ⟨rfl, rfl, rfl, rfl, rfl⟩

theorem InSync.quiet (h : InSync tiw armed) (hq : Quiet tiw tiw') : InSync tiw' armed := by
  refine ⟨fun hfd => ?_, ?_⟩
  · rw [hq.ponFd] at hfd
    rw [hq.ponArmedDeadline]
    exact h.noFd hfd
  · rw [hq.ponArmedDeadline]
    exact h.eq

end

/-- What holds of the wheel and its canary. -/
structure Kept (s : State) (c : Canary) : Prop where
  /-- both sides agree -/
  inSync : InSync s.tiw c.armed
  /-- the clock -/
  start : 0 ≤ c.now
  /-- the wheel is not ahead of it -/
  pos : clktcksToMonotonic s.tiw.pos ≤ c.now
  /-- the next timeout in both units -/
  time : s.tiw.nextTimeoutTime = clktcksToMonotonic s.tiw.nextTimeoutPos
  /-- a pending canary is not late -/
  notLate : ∀ x, c.armed = some x → c.now < x → x ≤ s.tiw.nextTimeoutTime
  /-- while the wheel is bumped its times have come, and no canary is pending -/
  bumping : s.pc ≠ .idle → s.tiw.nextTimeoutTime ≤ c.now ∧
    clktcksToMonotonic s.loc.bumpTo ≤ c.now ∧ s.loc.currTime ≤ c.now ∧
    ∀ x, c.armed = some x → x ≤ c.now

section

variable {s s' : State} {c c' : Canary}

/-- The step leaves the canary alone. -/
structure QuietStep (s s' : State) : Prop where
  tiw : Quiet s.tiw s'.tiw
  bumpTo : s'.loc.bumpTo = s.loc.bumpTo
  currTime : s'.loc.currTime = s.loc.currTime

theorem QuietStep.trans {s'' : State} (h : QuietStep s s') (h' : QuietStep s' s'') :
    QuietStep s s'' :=
  ⟨h.tiw.trans h'.tiw, h'.bumpTo.trans h.bumpTo, h'.currTime.trans h.currTime⟩

/-- **A step that leaves the canary alone.** -/
theorem Kept.quiet (h : Kept s c) (hq : QuietStep s s') (hpc : s.pc = .idle → s'.pc = .idle)
    (hnow : c.now ≤ c'.now) (harmed : c'.armed = c.armed) : Kept s' c' := by
  refine ⟨?_, h.start.trans hnow, ?_, ?_, fun x hx hlt => ?_, fun hne => ?_⟩
  · rw [harmed]
    exact h.inSync.quiet hq.tiw
  · rw [hq.tiw.pos]
    exact h.pos.trans hnow
  · rw [hq.tiw.nextTimeoutTime, hq.tiw.nextTimeoutPos]
    exact h.time
  · rw [harmed] at hx
    rw [hq.tiw.nextTimeoutTime]
    exact h.notLate x hx (lt_of_le_of_lt hnow hlt)
  · obtain ⟨h1, h2, h3, h4⟩ := h.bumping fun hi => hne (hpc hi)
    rw [hq.tiw.nextTimeoutTime, hq.bumpTo, hq.currTime, harmed]
    exact ⟨h1.trans hnow, h2.trans hnow, h3.trans hnow, fun x hx => (h4 x hx).trans hnow⟩

theorem Kept.quiet_of_ne (h : Kept s c) (hne : s.pc ≠ .idle) (hq : QuietStep s s')
    (hnow : c.now ≤ c'.now) (harmed : c'.armed = c.armed) : Kept s' c' :=
  h.quiet hq (fun hi => absurd hi hne) hnow harmed

theorem goto_quiet (s : State) (pc : Pc) : QuietStep s (s.goto pc) :=
  ⟨⟨rfl, rfl, rfl, rfl, rfl⟩, rfl, rfl⟩

theorem bumpTimer_quiet (s : State) (home : Home) (p : Tmr) : QuietStep s (s.bumpTimer home p) := by
  cases home with
  | atOnce => exact ⟨⟨rfl, rfl, rfl, rfl, rfl⟩, rfl, rfl⟩
  | soon =>
    unfold State.bumpTimer State.bumpSoon
    dsimp only
    split_ifs
    · exact ⟨⟨rfl, rfl, rfl, rfl, rfl⟩, rfl, rfl⟩
    · refine ⟨?_, rfl, rfl⟩
      apply Quiet.insertTimerIntoSlot
      exact ⟨rfl, rfl, rfl, rfl, rfl⟩
  | later =>
    unfold State.bumpTimer State.bumpLater
    dsimp only
    split_ifs
    · refine ⟨?_, rfl, rfl⟩
      apply Quiet.insertTimerIntoSlot
      exact ⟨rfl, rfl, rfl, rfl, rfl⟩
    · refine ⟨?_, rfl, rfl⟩
      apply Quiet.insertTimerIntoSlot
      exact ⟨rfl, rfl, rfl, rfl, rfl⟩
    · exact ⟨⟨rfl, rfl, rfl, rfl, rfl⟩, rfl, rfl⟩

theorem nextSlot_quiet (s : State) (home : Home) : QuietStep s (s.nextSlot home) := by
  cases home <;> exact ⟨⟨rfl, rfl, rfl, rfl, rfl⟩, rfl, rfl⟩

theorem takeSlot_quiet (s : State) (home : Home) (slot : ℤ) :
    QuietStep s (s.takeSlot home slot) := by
  unfold State.takeSlot
  cases s.tiw.w slot with
  | nil => exact nextSlot_quiet s home
  | cons p rest =>
    refine QuietStep.trans ?_ (bumpTimer_quiet _ home p)
    exact ⟨⟨rfl, rfl, rfl, rfl, rfl⟩, rfl, rfl⟩

theorem takeSlot_pay_quiet (s : State) (home : Home) (slot : ℤ) :
    QuietStep s ((s.pay costSlot).takeSlot home slot) := by
  refine QuietStep.trans ?_ (takeSlot_quiet _ home slot)
  exact ⟨⟨rfl, rfl, rfl, rfl, rfl⟩, rfl, rfl⟩

theorem nextTimer_quiet (s : State) (home : Home) : QuietStep s (s.nextTimer home) := by
  unfold State.nextTimer
  cases s.tiw.sentinel with
  | nil => exact nextSlot_quiet s home
  | cons p rest =>
    dsimp only
    split_ifs
    · cases home <;> exact ⟨⟨rfl, rfl, rfl, rfl, rfl⟩, rfl, rfl⟩
    · refine QuietStep.trans ?_ (bumpTimer_quiet _ home p)
      exact ⟨⟨rfl, rfl, rfl, rfl, rfl⟩, rfl, rfl⟩

/-! ## Steps that arm the canary -/

/-- The two ends of a bump: the canary is armed for a new deadline, the wheel having come to a
position that is past. -/
theorem Kept.leave (h : Kept s c) (hne : s.pc ≠ .idle) (tiw : Wheel) {a : ArmAnswers}
    (ha : c.now ≤ a.now) (hnow : c.now ≤ c'.now)
    (harmed : c'.armed = armTimerfd tiw a c.armed) (hidle : s'.pc = .idle)
    (htiw : s'.tiw = tiw.ponTimerWheelArm a) (hfd : tiw.ponFd = s.tiw.ponFd)
    (hd : tiw.ponArmedDeadline = s.tiw.ponArmedDeadline)
    (hpos : clktcksToMonotonic tiw.pos ≤ c'.now)
    (htime : tiw.nextTimeoutTime = clktcksToMonotonic tiw.nextTimeoutPos) : Kept s' c' := by
  have hsync : InSync tiw c.armed := by
    refine ⟨fun hno => ?_, ?_⟩
    · rw [hd]
      exact h.inSync.noFd (hfd ▸ hno)
    · rw [hd]
      exact h.inSync.eq
  obtain ⟨fd, d, he⟩ := tiw.ponTimerWheelArm_eq a
  have hsync' := hsync.arm (h.start.trans ha)
  rw [← htiw, ← harmed] at hsync'
  rw [he] at htiw
  refine ⟨hsync', h.start.trans hnow, ?_, ?_, fun x hx hlt => ?_, fun hno => absurd hidle hno⟩
  · rw [htiw]
    exact hpos
  · rw [htiw]
    exact htime
  · rw [harmed] at hx
    rw [htiw]
    refine hsync.arm_le (fun y hy hpend => ?_) x hx hlt
    -- an old instant is past, whatever the kernel answered
    exact absurd ((h.bumping hne).2.2.2 y hy) (not_le.mpr (lt_of_le_of_lt hnow hpend))

theorem findNextTimeout_canary (tiw : Wheel) (currTime : ℤ) :
    (tiw.findNextTimeout currTime).ponFd = tiw.ponFd ∧
      (tiw.findNextTimeout currTime).ponArmedDeadline = tiw.ponArmedDeadline := by
  unfold Wheel.findNextTimeout Wheel.findLaterTimeout Wheel.findSoonTimeout
  dsimp only
  split_ifs <;> exact ⟨rfl, rfl⟩

/-- `empty_wheel:` -/
theorem Kept.emptyWheel (h : Kept s c) (hne : s.pc ≠ .idle) {a : ArmAnswers} (ha : c.now ≤ a.now)
    (hnow : c.now ≤ c'.now) (harmed : c'.armed
      = armTimerfd (s.tiw.setNextTimeout (s.loc.bumpTo + clktcksWeek)) a c.armed) :
    Kept (s.emptyWheel a) c' := by
  refine h.leave hne { s.tiw.setNextTimeout (s.loc.bumpTo + clktcksWeek) with
    trueNextTimeoutTime := false
    pos := s.loc.bumpTo
    laterPos := laterPosMask (s.loc.bumpTo + soonWheelSize)
    yieldSlot := slotInactive } ha hnow harmed rfl rfl rfl rfl ?_ rfl
  exact (h.bumping hne).2.1.trans hnow

/-- The end of `erts_bump_timers`. -/
theorem Kept.finish (h : Kept s c) (hne : s.pc ≠ .idle) {a : Answers} (ha : c.now ≤ a.arm.now)
    (hnow : c.now ≤ c'.now) (hread : a.now ≤ c'.now) (harmed : c'.armed = armTimerfd
      (Wheel.findNextTimeout { s.tiw with trueNextTimeoutTime := false } a.now) a.arm c.armed) :
    Kept (s.finish a) c' := by
  obtain ⟨hfd, hd⟩ := findNextTimeout_canary { s.tiw with trueNextTimeoutTime := false } a.now
  have hs := Wheel.findNextTimeout_searched { s.tiw with trueNextTimeoutTime := false } a.now
  refine h.leave hne _ ha hnow harmed rfl rfl hfd hd ?_ hs.time
  rcases hs.pos with hp | hp
  · rw [hp]
    exact h.pos.trans hnow
  · rw [hp]
    exact (clktcksToMonotonic_le a.now).trans hread

/-- A bump writes a deadline that has come. -/
theorem Kept.writeDeadline (h : Kept s c) (hne : s.pc ≠ .idle) (hnow : c.now ≤ c'.now)
    (harmed : c'.armed = c.armed) {pos : ℤ} (hpos : clktcksToMonotonic pos ≤ c.now)
    (hfd : s'.tiw.ponFd = s.tiw.ponFd) (hd : s'.tiw.ponArmedDeadline = s.tiw.ponArmedDeadline)
    (htpos : clktcksToMonotonic s'.tiw.pos ≤ c.now) (hnext : s'.tiw.nextTimeoutPos = pos)
    (htime : s'.tiw.nextTimeoutTime = clktcksToMonotonic pos) (hto : s'.loc.bumpTo = pos)
    (hcurr : s'.loc.currTime = s.loc.currTime) : Kept s' c' := by
  obtain ⟨-, -, hcurr', hx⟩ := h.bumping hne
  refine ⟨?_, h.start.trans hnow, htpos.trans hnow, ?_, fun x hxa hlt => ?_, fun _ => ?_⟩
  · rw [harmed]
    refine ⟨fun hno => ?_, ?_⟩
    · rw [hd]
      exact h.inSync.noFd (hfd ▸ hno)
    · rw [hd]
      exact h.inSync.eq
  · rw [htime, hnext]
  · rw [harmed] at hxa
    exact absurd (hx x hxa) (not_le.mpr (lt_of_le_of_lt hnow hlt))
  · rw [htime, hto, hcurr, harmed]
    exact ⟨hpos.trans hnow, hpos.trans hnow, hcurr'.trans hnow, fun x hxa => (hx x hxa).trans hnow⟩

/-- **One step of a bump.** -/
theorem Kept.runStep (h : Kept s c) {a : Answers} (hs : s.runStep a = some s')
    (hnow : c.now ≤ c'.now) (ht : (Label.run a).Timed c c')
    (harmed : c'.armed = s.timerfdStep c.armed (.run a)) : Kept s' c' := by
  obtain ⟨ha, -, -, hread⟩ := ht
  unfold State.runStep at hs
  unfold State.timerfdStep at harmed
  cases hpc : s.pc with
  | idle =>
    rw [hpc] at hs
    cases hs
  | callback home =>
    rw [hpc] at hs
    cases hs
  | pass =>
    rw [hpc] at hs harmed
    obtain rfl := Option.some.inj hs
    have hne : s.pc ≠ .idle := by simp [hpc]
    obtain ⟨-, -, hcurr, -⟩ := h.bumping hne
    have hto := (clktcksToMonotonic_le s.loc.currTime).trans hcurr
    exact h.writeDeadline hne hnow harmed hto rfl rfl h.pos rfl rfl rfl rfl
  | top =>
    rw [hpc] at hs harmed
    obtain rfl := Option.some.inj hs
    have hne : s.pc ≠ .idle := by simp [hpc]
    dsimp only at harmed
    split_ifs at harmed ⊢
    · exact h.emptyWheel hne ha hnow harmed
    · exact h.quiet_of_ne hne (takeSlot_quiet s .atOnce slotAtOnce) hnow harmed
  | atOnceDone =>
    rw [hpc] at hs harmed
    obtain rfl := Option.some.inj hs
    have hne : s.pc ≠ .idle := by simp [hpc]
    unfold State.atOnceDone
    dsimp only at harmed
    by_cases hpos : s.tiw.pos ≥ s.loc.bumpTo
    · rw [if_neg fun hlt => not_lt.mpr hpos hlt.1] at harmed
      rw [if_pos hpos]
      split_ifs
      · exact h.quiet_of_ne hne (goto_quiet s .top) hnow harmed
      · exact h.quiet_of_ne hne (goto_quiet s .passDone) hnow harmed
    · rw [if_neg hpos]
      by_cases hnto : s.tiw.nto = 0
      · rw [if_pos ⟨not_le.mp hpos, hnto⟩] at harmed
        rw [if_pos hnto]
        exact h.emptyWheel hne ha hnow harmed
      · rw [if_neg fun hlt => hnto hlt.2] at harmed
        rw [if_neg hnto]
        obtain ⟨-, hto, -⟩ := h.bumping hne
        exact h.writeDeadline hne hnow harmed hto rfl rfl hto rfl rfl rfl rfl
  | soon =>
    rw [hpc] at hs harmed
    obtain rfl := Option.some.inj hs
    have hne : s.pc ≠ .idle := by simp [hpc]
    split_ifs
    · exact h.quiet_of_ne hne (takeSlot_pay_quiet s .soon s.loc.slot) hnow harmed
    · exact h.quiet_of_ne hne (goto_quiet s .enterLater) hnow harmed
    · exact h.quiet_of_ne hne (goto_quiet s .top) hnow harmed
  | enterLater =>
    rw [hpc] at hs harmed
    obtain rfl := Option.some.inj hs
    have hne : s.pc ≠ .idle := by simp [hpc]
    refine h.quiet_of_ne hne ?_ hnow harmed
    unfold State.enterLater
    dsimp only
    split_ifs <;> exact ⟨⟨rfl, rfl, rfl, rfl, rfl⟩, rfl, rfl⟩
  | later =>
    rw [hpc] at hs harmed
    obtain rfl := Option.some.inj hs
    have hne : s.pc ≠ .idle := by simp [hpc]
    split_ifs
    · exact h.quiet_of_ne hne (takeSlot_pay_quiet s .later s.loc.slot) hnow harmed
    · exact h.quiet_of_ne hne (goto_quiet s .top) hnow harmed
  | passDone =>
    rw [hpc] at hs harmed
    have hne : s.pc ≠ .idle := by simp [hpc]
    dsimp only at hs harmed
    split_ifs at hs harmed
    · obtain rfl := Option.some.inj hs
      exact h.quiet_of_ne hne (goto_quiet s .pass) hnow harmed
    · obtain rfl := Option.some.inj hs
      exact h.finish hne ha hnow hread harmed
  | next home =>
    rw [hpc] at hs harmed
    obtain rfl := Option.some.inj hs
    have hne : s.pc ≠ .idle := by simp [hpc]
    exact h.quiet_of_ne hne (nextTimer_quiet s home) hnow harmed

theorem noteTimeout_quiet {tiw : Wheel} {pos : ℤ} (h : ¬ pos < tiw.nextTimeoutPos)
    (a : ArmAnswers) : Quiet tiw (tiw.noteTimeout pos a) := by
  unfold Wheel.noteTimeout
  dsimp only
  split_ifs <;> exact ⟨rfl, rfl, rfl, rfl, rfl⟩

theorem noteTimeout_arms {tiw : Wheel} {pos : ℤ} (h : pos < tiw.nextTimeoutPos) (a : ArmAnswers) :
    tiw.noteTimeout pos a
      = (Wheel.setNextTimeout { tiw with trueNextTimeoutTime := true } pos).ponTimerWheelArm a := by
  unfold Wheel.noteTimeout
  dsimp only
  rw [if_pos (le_of_lt h), if_pos h]

/-- An earlier deadline is written and the canary armed for it. -/
theorem Kept.noteTimeout (h : Kept s c) {tiw : Wheel} (hq : Quiet s.tiw tiw) {pos : ℤ}
    {a : ArmAnswers} (hpos : pos < tiw.nextTimeoutPos)
    (hok : ∀ x, c.Pending x → clktcksToMonotonic pos < x → a.settime = true)
    (hnow : c.now ≤ c'.now) (ha : c.now ≤ a.now)
    (harmed : c'.armed = armTimerfd (tiw.setNextTimeout pos) a c.armed) (e : Event) :
    Kept ((s.withTiw (tiw.noteTimeout pos a)).record e) c' := by
  have hsync : InSync (Wheel.setNextTimeout { tiw with trueNextTimeoutTime := true } pos) c.armed :=
    ⟨(h.inSync.quiet hq).noFd, (h.inSync.quiet hq).eq⟩
  obtain ⟨fd, d, he⟩ := Wheel.ponTimerWheelArm_eq
    (Wheel.setNextTimeout { tiw with trueNextTimeoutTime := true } pos) a
  have hle : clktcksToMonotonic pos ≤ s.tiw.nextTimeoutTime := by
    rw [hq.nextTimeoutPos] at hpos
    rw [h.time]
    unfold clktcksToMonotonic clktckUnit
    omega
  have hsync' := hsync.arm (h.start.trans ha)
  have hcases := hsync.arm_cases a
  rw [noteTimeout_arms hpos]
  rw [he] at hsync' ⊢
  refine ⟨?_, h.start.trans hnow, ?_, rfl, fun x hx hlt => ?_, fun hne => ?_⟩
  · rw [harmed]
    exact hsync'
  · refine le_trans ?_ (h.pos.trans hnow)
    exact le_of_eq (congrArg clktcksToMonotonic hq.pos)
  · rw [harmed] at hx
    exact hsync.arm_le (fun y hy hpend => hok y ⟨hy, lt_of_le_of_lt hnow hpend⟩) x hx hlt
  · obtain ⟨hnext, hto, hcurr, hold⟩ := h.bumping hne
    refine ⟨hle.trans (hnext.trans hnow), hto.trans hnow, hcurr.trans hnow, fun x hx => ?_⟩
    rw [harmed] at hx
    rcases hcases with hn | ⟨hk, -⟩ | ⟨y, -, -, hlt⟩
    · exact nomatch hn.symm.trans hx
    · exact (hold x (hk.symm.trans hx)).trans hnow
    · -- a deadline of a running bump has come, so the canary is not armed for it
      exact absurd (hle.trans (hnext.trans ha)) (not_le.mpr hlt)

/-- **Setting a timer.** -/
theorem Kept.set (h : Kept s c) {p : Tmr} {timeoutPos : ℤ} {a : ArmAnswers}
    (hok : Answered s c (.set p timeoutPos a)) (hnow : c.now ≤ c'.now)
    (ht : (Label.set p timeoutPos a).Timed c c')
    (harmed : c'.armed = s.timerfdStep c.armed (.set p timeoutPos a)) :
    Kept ((s.withTiw (s.tiw.setTimer p timeoutPos a)).record
      (.set p ((s.tiw.setTimer p timeoutPos a).timeoutPos p))) c' := by
  have hq : Quiet s.tiw ((s.tiw.startTimer p timeoutPos).insertTimerIntoSlot
      (s.tiw.targetSlot timeoutPos) p) := by
    apply Quiet.insertTimerIntoSlot
    exact ⟨rfl, rfl, rfl, rfl, rfl⟩
  unfold State.timerfdStep at harmed
  dsimp only at harmed
  split_ifs at harmed with hpos
  · exact h.noteTimeout hq hpos hok hnow ht.1 harmed _
  · refine h.quiet ⟨hq.trans (noteTimeout_quiet hpos a), rfl, rfl⟩ id hnow harmed

/-- A search asks for the kernel's answer, and finds that no canary is pending. -/
theorem Kept.not_pending (h : Kept s c) {remain : Option ℤ} {now : ℤ}
    (hok : Answered s c (.check remain now)) (hnow : c.now ≤ c'.now)
    (ht : (Label.check remain now).Timed c c') (hsearch : s.tiw.Searches remain) {x : ℤ}
    (hx : c.armed = some x) : x ≤ c'.now := by
  obtain ⟨htrue, hnext, hskip⟩ := hsearch
  have hd : s.tiw.ponArmedDeadline ≠ -1 := fun hd => by
    rw [h.inSync.eq_none hd] at hx
    cases hx
  have hfd : s.tiw.ponFd ≠ -1 := fun hfd => hd (h.inSync.noFd hfd)
  by_contra hlt
  rw [not_le] at hlt
  rcases ht.1 with hr | ⟨t, -, hle, hr⟩
  · exact hok htrue hnext ⟨x, hx, lt_of_le_of_lt hnow hlt⟩ hr
  · have hleft : c.remaining t ≠ 0 := by
      unfold Canary.remaining
      rw [hx]
      dsimp only
      omega
    refine absurd hskip (Bool.not_eq_false _ ▸ ?_)
    exact decide_eq_true ⟨hfd, hd, hr ▸ Option.some_ne_none _,
      fun he => hleft (Option.some.inj (hr.symm.trans he))⟩

/-- **Checking the next timeout.** -/
theorem Kept.check (h : Kept s c) (hpc : s.pc = .idle) {remain : Option ℤ} {now : ℤ}
    (hok : Answered s c (.check remain now)) (hnow : c.now ≤ c'.now)
    (ht : (Label.check remain now).Timed c c') (harmed : c'.armed = c.armed) :
    Kept { (s.withTiw (s.tiw.checkNextTimeoutTime remain now)).record
      (.checked (s.tiw.checkNextTimeoutTime remain now).nextTimeoutTime) with clock := now } c' := by
  rcases checkNextTimeoutTime_cases s.tiw remain now with he | ⟨hsearch, he⟩
  · rw [he]
    exact h.quiet ⟨⟨rfl, rfl, rfl, rfl, rfl⟩, rfl, rfl⟩ id hnow harmed
  · rw [he]
    obtain ⟨hfd, hd⟩ := findNextTimeout_canary s.tiw now
    have hs := s.tiw.findNextTimeout_searched now
    refine ⟨⟨fun hno => ?_, ?_⟩, h.start.trans hnow, ?_, hs.time, fun x hx hlt => ?_,
      fun hne => absurd hpc hne⟩
    · change (s.tiw.findNextTimeout now).ponArmedDeadline = -1
      rw [hd]
      exact h.inSync.noFd (hfd ▸ hno)
    · change c'.armed = if (s.tiw.findNextTimeout now).ponArmedDeadline = -1 then none else
        some (itValue (monotonicToUsec (s.tiw.findNextTimeout now).ponArmedDeadline))
      rw [harmed, hd]
      exact h.inSync.eq
    · change clktcksToMonotonic (s.tiw.findNextTimeout now).pos ≤ c'.now
      rcases hs.pos with hp | hp
      · rw [hp]
        exact h.pos.trans hnow
      · rw [hp]
        exact (clktcksToMonotonic_le now).trans ht.2.2
    · rw [harmed] at hx
      exact absurd (h.not_pending hok hnow ht hsearch hx) (not_le.mpr hlt)

/-- **The call of `erts_bump_timers`**, at its deadline. -/
theorem Kept.bumpTimers (h : Kept s c) {currTime : ℤ}
    (hok : s.tiw.nextTimeoutTime ≤ currTime) (hnow : c.now ≤ c'.now)
    (ht : currTime ≤ c'.now) (harmed : c'.armed = c.armed) : Kept (s.bumpTimers currTime) c' := by
  have hnext : s.tiw.nextTimeoutTime ≤ c'.now := hok.trans ht
  have hold : ∀ x, c.armed = some x → x ≤ c'.now := by
    intro x hx
    by_cases hlt : c.now < x
    · exact (h.notLate x hx hlt).trans hnext
    · exact (not_lt.mp hlt).trans hnow
  refine ⟨?_, h.start.trans hnow, h.pos.trans hnow, h.time, fun x hx hlt => ?_, fun _ => ?_⟩
  · rw [harmed]
    exact ⟨h.inSync.noFd, h.inSync.eq⟩
  · rw [harmed] at hx
    exact absurd (hold x hx) (not_le.mpr hlt)
  · rw [harmed]
    exact ⟨hnext, h.pos.trans hnow, ht, hold⟩

/-- **Every step** that meets the condition. -/
theorem Kept.step (h : Kept s c) {l : Label} (hok : Answered s c l)
    (hs : canarySystem.step (s, c) l (s', c')) : Kept s' c' := by
  obtain ⟨hs, hnow, ht, harmed⟩ := hs
  change s.step l = some s' at hs
  cases l with
  | set p timeoutPos a =>
    simp only [State.step] at hs
    split_ifs at hs
    obtain rfl := Option.some.inj hs
    exact h.set hok hnow ht harmed
  | cancel p =>
    simp only [State.step] at hs
    split_ifs at hs
    obtain rfl := Option.some.inj hs
    exact h.quiet ⟨cancelTimer_quiet s.tiw p, rfl, rfl⟩ id hnow harmed
  | check remain now =>
    simp only [State.step] at hs
    split_ifs at hs with hidle
    obtain rfl := Option.some.inj hs
    exact h.check hidle.1 hok hnow ht harmed
  | bump currTime =>
    simp only [State.step] at hs
    split_ifs at hs
    obtain rfl := Option.some.inj hs
    exact h.bumpTimers hok hnow ht harmed
  | run a => exact h.runStep hs hnow ht harmed
  | ret =>
    simp only [State.step] at hs
    split at hs
    case h_1 home hpc =>
      obtain rfl := Option.some.inj hs
      refine h.quiet_of_ne (by simp [hpc]) ?_ hnow harmed
      cases home <;> exact ⟨⟨rfl, rfl, rfl, rfl, rfl⟩, rfl, rfl⟩
    case h_2 => cases hs

/-- A new wheel. -/
theorem kept_of_init {x : State × Canary} (h : canarySystem.init x) : Kept x.1 x.2 := by
  obtain ⟨hpc, -, hstart, a, bumpScnt, left, timeoutPos, htiw, hlo, hhi, harmed⟩ := h
  obtain ⟨tiw, htiw, hfd, hd, hpos, htime⟩ : ∃ tiw : Wheel, x.1.tiw = tiw.ponTimerWheelArm a ∧
      tiw.ponFd = -1 ∧ tiw.ponArmedDeadline = -1 ∧ tiw.pos = monotonicToClktcks x.1.clock ∧
      tiw.nextTimeoutTime = clktcksToMonotonic tiw.nextTimeoutPos :=
    ⟨_, htiw, rfl, rfl, rfl, rfl⟩
  have hsync : InSync tiw none := ⟨fun _ => hd, (if_pos hd).symm⟩
  obtain ⟨fd, d, he⟩ := tiw.ponTimerWheelArm_eq a
  have hsame : { x.1.tiw with ponFd := -1, ponArmedDeadline := -1 } = tiw := by
    rw [htiw, he]
    cases tiw
    subst hfd hd
    rfl
  rw [hsame] at harmed
  have hnow : x.1.clock ≤ x.2.now := hlo.trans hhi
  have hsync' := hsync.arm (hstart.trans hlo)
  rw [← htiw, ← harmed] at hsync'
  rw [he] at htiw
  refine ⟨hsync', hstart.trans hnow, ?_, ?_, fun y hy hlt => ?_, fun hne => absurd hpc hne⟩
  · rw [htiw]
    change clktcksToMonotonic tiw.pos ≤ x.2.now
    rw [hpos]
    exact (clktcksToMonotonic_le _).trans hnow
  · rw [htiw]
    exact htime
  · rw [htiw]
    rw [harmed] at hy
    exact hsync.arm_le (fun z hz => nomatch hz) y hy hlt

end

/-- **A pending canary is not late.** In every run whose steps meet the condition, whenever
`pon_timer_wheel_can_skip_scan` answers 1 the instant the timerfd is armed for is still to come
and not after the deadline in the cache. -/
theorem canary_not_late {s : State} {c : Canary}
    (h : (canarySystem.restrict fun x l => Answered x.1 x.2 l).Reach (s, c)) {t : ℤ}
    (ht : c.now ≤ t) (hskip : s.tiw.ponTimerWheelCanSkipScan (some (c.remaining t)) = true) :
    ∃ x, c.armed = some x ∧ t < x ∧ x ≤ s.tiw.nextTimeoutTime := by
  have hkept : Kept s c := System.Reach.invariant
    (S := canarySystem.restrict fun x l => Answered x.1 x.2 l) (I := fun x => Kept x.1 x.2)
    (fun x hx => kept_of_init hx) (fun x l x' hx hs => hx.step hs.1 hs.2) h
  obtain ⟨-, -, -, hleft⟩ := of_decide_eq_true hskip
  unfold Canary.remaining at hleft
  cases harmed : c.armed with
  | none =>
    rw [harmed] at hleft
    exact absurd rfl hleft
  | some x =>
    rw [harmed] at hleft
    have hlt : t < x := by
      by_contra hle
      refine hleft (congrArg some ?_)
      dsimp only
      omega
    exact ⟨x, rfl, hlt, hkept.notLate x harmed (lt_of_le_of_lt ht hlt)⟩

/-! ## Runs -/

/-- The kernel gives out a timerfd and arms it, at the time 0. -/
def granted : ArmAnswers := ⟨3, 0, true⟩

/-- The kernel does not arm the timerfd. -/
def refused : ArmAnswers := ⟨3, 0, false⟩

/-- A new wheel, its canary armed for a week ahead. -/
def watched : State :=
  ⟨.create 0 granted (fun _ => 0) 0 fun _ => 0, .idle, ⟨0, 0, false, 0, 0, 0⟩, 0, []⟩

/-- The canary of it. -/
def weekAhead : Canary := ⟨some 604800000000000, 0⟩

theorem watched_init : canarySystem.init (watched, weekAhead) :=
  ⟨rfl, rfl, le_refl _, granted, fun _ => 0, 0, fun _ => 0, rfl, le_refl _, le_refl _, rfl⟩

/-- A timer is set for tick 5000. -/
def timed (a : ArmAnswers) : State :=
  (watched.withTiw (watched.tiw.setTimer 0 5000 a)).record (.set 0 5000)

/-- The kernel arms the canary for it. -/
theorem granted_not_late :
    ∃ x, (⟨some 5000000000, 0⟩ : Canary).armed = some x ∧ 0 < x ∧
      x ≤ (timed granted).tiw.nextTimeoutTime := by
  have hreach : (canarySystem.restrict fun x l => Answered x.1 x.2 l).Reach
      (timed granted, ⟨some 5000000000, 0⟩) := by
    refine System.Reach.next (a := .set 0 5000 granted) (.start watched_init) ⟨?_, rfl, ?_⟩
    · intro x _ _
      rfl
    · exact ⟨le_refl _, ⟨le_refl _, le_refl _⟩, rfl⟩
  exact canary_not_late hreach (le_refl _) (by decide)

/-- **A late canary.** The kernel refuses, and the canary stays armed for a week ahead while the
deadline is in five seconds. -/
theorem refused_late :
    canarySystem.Reach (timed refused, weekAhead) ∧
      (timed refused).tiw.ponTimerWheelCanSkipScan (some (weekAhead.remaining 0)) = true ∧
      ¬ ∃ x, weekAhead.armed = some x ∧ x ≤ (timed refused).tiw.nextTimeoutTime := by
  refine ⟨?_, by decide, ?_⟩
  · refine System.Reach.next (a := .set 0 5000 refused) (.start watched_init) ⟨rfl, ?_⟩
    exact ⟨le_refl _, ⟨le_refl _, le_refl _⟩, rfl⟩
  · rintro ⟨x, hx, hle⟩
    obtain rfl := Option.some.inj hx
    exact absurd hle (by decide)

end PonBeam.TimerWheel
