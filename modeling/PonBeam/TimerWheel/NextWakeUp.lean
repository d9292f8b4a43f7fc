import PonBeam.TimerWheel.Firing

/-!
# No late wake-up

The scheduler sleeps until the time that `erts_check_next_timeout_time` answers. While no
bump has yielded, that time is not after any timer that is pending. A bump that yielded
leaves timers behind that were due before `next_timeout_pos`, but that is the tick it was
called at, so it is to be resumed at once.

This holds in runs that meet three assertions of `time.c`: the one of `bump_later_wheel`
(see `TimerWheel.Firing`), and the ones of `find_next_timeout` that the at-once slot is
empty and that no bump has yielded. The last part has runs that do not meet them.
-/

namespace PonBeam.TimerWheel

/-- The runs that meet the assertions. -/
def regularSystem : System State Label := wheelSystem.restrict Regular

/-- `next_timeout_pos` is not after any work to be done. -/
structure Wheel.InTime (tiw : Wheel) : Prop where
  /-- timers of the at-once slot, the soon wheel and the list being bumped -/
  near : ∀ t, tiw.slot t ≠ slotInactive → tiw.slot t < laterWheelFirstSlot ∨ t ∈ tiw.sentinel →
    tiw.nextTimeoutPos ≤ tiw.timeoutPos t
  /-- timers of the later wheel, which may be moved to the soon wheel first -/
  later : ∀ t, laterWheelFirstSlot ≤ tiw.slot t →
    tiw.nextTimeoutPos ≤ laterPosMask (tiw.timeoutPos t) - laterWheelSlotSize ∨
      tiw.nextTimeoutPos ≤ tiw.timeoutPos t

/-- **A scheduler of the system `S` wakes up in time.** -/
structure WakesInTime (S : System State Label) (s : State) : Prop where
  /-- the cached position is a lower bound -/
  cached : s.tiw.InTime
  /-- and the answer is not after the earliest pending timeout -/
  answer : ∀ remain now s', S.step s (.check remain now) s' →
    ∃ time, s'.log = .checked time :: s.log ∧
      ∀ p v, pending s.log p = some v → time ≤ clktcksToMonotonic v

/-- Every state of a regular run has the invariant. -/
theorem good_of_regular {s : State} (h : regularSystem.Reach s) : Good True s :=
  System.Reach.invariant (S := regularSystem) (fun _ hs => good_of_init hs)
    (fun _ _ _ hg hstep => hg.step (fun _ he => by subst he; exact hstep.1) (fun _ => hstep.1)
      hstep.2) h

theorem clktcksToMonotonic_mono {a b : ℤ} (h : a ≤ b) :
    clktcksToMonotonic a ≤ clktcksToMonotonic b := by
  unfold clktcksToMonotonic clktckUnit
  omega

section

variable {s s' : State}

/-- A check answers the next timeout it leaves, and does not touch `yield_slot`. -/
theorem check_cases {remain : Option ℤ} {now : ℤ}
    (h : regularSystem.step s (.check remain now) s') :
    s'.pc = .idle ∧ s'.loc = s.loc ∧ s'.tiw.yieldSlot = s.tiw.yieldSlot ∧
      s'.log = .checked s'.tiw.nextTimeoutTime :: s.log := by
  obtain ⟨-, hs⟩ := h
  simp only [wheelSystem, State.step] at hs
  split_ifs at hs with hok
  obtain rfl := Option.some.inj hs
  refine ⟨hok.1, rfl, ?_, rfl⟩
  change (s.tiw.checkNextTimeoutTime remain now).yieldSlot = _
  rcases checkNextTimeoutTime_cases s.tiw remain now with he | ⟨-, he⟩
  · rw [he]
  · rw [he, (s.tiw.findNextTimeout_searched now).yieldSlot]

theorem Good.le_pending (h : Good True s) (hpc : s.pc = .idle)
    (hy : s.tiw.yieldSlot = slotInactive) {p : Tmr} {v : ℤ} (hv : pending s.log p = some v) :
    s.tiw.nextTimeoutTime ≤ clktcksToMonotonic v := by
  rw [h.logged p, Wheel.active] at hv
  split_ifs at hv with hslot
  obtain rfl := Option.some.inj hv
  rw [h.times.time]
  exact clktcksToMonotonic_mono (h.times.rest trivial hpc hy p hslot)

/-- The cache of a wheel at rest. -/
theorem Good.inTime (h : Good True s) (hpc : s.pc = .idle) (hy : s.tiw.yieldSlot = slotInactive) :
    s.tiw.InTime := by
  have hrest := h.times.rest trivial hpc hy
  refine ⟨fun t ht _ => hrest t ht, fun t ht => Or.inr (hrest t ?_)⟩
  unfold laterWheelFirstSlot soonWheelSize at ht
  omega

/-- **No late wake-up.** Between two calls the next timeout is not after any work to be done,
and neither is the answer of a check; if a bump has yielded, they are not after the time it
was called at. -/
theorem wakes_in_time (h : regularSystem.Reach s) (hpc : s.pc = .idle) :
    (s.tiw.yieldSlot = slotInactive → WakesInTime regularSystem s) ∧
      (s.tiw.yieldSlot ≠ slotInactive →
        s.tiw.nextTimeoutPos ≤ monotonicToClktcks s.loc.currTime ∧ s.loc.currTime ≤ s.clock ∧
        ∀ remain now s', regularSystem.step s (.check remain now) s' →
          ∃ time, s'.log = .checked time :: s.log ∧ time ≤ s.loc.currTime) := by
  have hgood := good_of_regular h
  refine ⟨fun hy => ⟨hgood.inTime hpc hy, fun remain now s' hs => ?_⟩, fun hy => ?_⟩
  · obtain ⟨hpc', -, hy', hlog⟩ := check_cases hs
    refine ⟨_, hlog, fun p v hv => ?_⟩
    refine (good_of_regular (h.next hs)).le_pending hpc' (hy'.trans hy) (p := p) ?_
    rw [hlog]
    exact hv
  · obtain ⟨hcurr, hnext⟩ := hgood.times.yielded hpc hy
    refine ⟨hnext trivial, hcurr, fun remain now s' hs => ?_⟩
    obtain ⟨hpc', hloc, hy', hlog⟩ := check_cases hs
    have htimes := (good_of_regular (h.next hs)).times
    obtain ⟨-, hnext'⟩ := htimes.yielded hpc' (by rw [hy']; exact hy)
    refine ⟨_, hlog, ?_⟩
    calc s'.tiw.nextTimeoutTime = clktcksToMonotonic s'.tiw.nextTimeoutPos := htimes.time
      _ ≤ clktcksToMonotonic (monotonicToClktcks s'.loc.currTime) :=
        clktcksToMonotonic_mono (hnext' trivial)
      _ ≤ s'.loc.currTime := clktcksToMonotonic_le _
      _ = s.loc.currTime := by rw [hloc]

end

/-! ## Runs -/

/-- Is no timer of the later wheel being taken? -/
def State.quiet (s : State) : Bool := s.laterTimer.isNone

theorem regular_of_quiet {s : State} {l : Label} (h : s.quiet = true) (hl : l.isCheck = false) :
    Regular s l := by
  cases l with
  | run a =>
    intro p hp
    rw [Option.isNone_iff_eq_none.mp h] at hp
    cases hp
  | set p timeoutPos a => trivial
  | cancel p => trivial
  | check remain now => cases hl
  | bump currTime => trivial
  | ret => trivial

theorem regular_steps {s s' : State} (ls : List Label) (h : regularSystem.Reach s)
    (hs : s.steps State.quiet ls = some s') : regularSystem.Reach s' :=
  reach_steps (fun _ _ _ hq hl hstep => ⟨regular_of_quiet hq hl, hstep⟩) h hs

/-- A timer set for tick 5: the scheduler may sleep until then. -/
theorem setTimer_wakes_in_time :
    ∃ s, regularSystem.Reach s ∧ s.pc = .idle ∧ s.tiw.yieldSlot = slotInactive ∧
      pending s.log 0 = some 5 ∧ s.tiw.nextTimeoutPos = 5 ∧ WakesInTime regularSystem s := by
  have hreach := regular_steps [.set 0 5 noTimerfd] (.start fresh_init) rfl
  exact ⟨_, hreach, rfl, rfl, rfl, rfl, (wakes_in_time hreach rfl).1 rfl⟩

/-! ## A bump that yields -/

namespace Yield

/-- A timer set at once while another one is waiting. -/
def setAtOnce (s : State) (p : Tmr) : State :=
  { s with
    tiw := { s.tiw with
      nto := s.tiw.nto + 1
      atOnceNto := s.tiw.atOnceNto + 1
      timeoutPos := Function.update s.tiw.timeoutPos p s.tiw.pos
      slot := Function.update s.tiw.slot p (-1)
      w := Function.update s.tiw.w (-1) (s.tiw.w (-1) ++ [p]) }
    log := .set p s.tiw.pos :: s.log }

theorem setAtOnce_step {s : State} {p : Tmr} (hpc : s.pc = .idle) (hslot : s.tiw.slot p = -2)
    (hnext : s.tiw.nextTimeoutPos = s.tiw.pos) (htrue : s.tiw.trueNextTimeoutTime = true) :
    s.step (.set p s.tiw.pos noTimerfd) = some (setAtOnce s p) := by
  have hset : s.tiw.setTimer p s.tiw.pos noTimerfd = (setAtOnce s p).tiw := by
    simp [Wheel.setTimer, Wheel.startTimer, Wheel.targetSlot, Wheel.wakeUpPos,
      Wheel.insertTimerIntoSlot, Wheel.noteTimeout, slotAtOnce, setAtOnce, hnext, htrue]
  simp only [State.step]
  rw [if_pos ⟨by simp [State.accepts, hpc], hslot⟩, hset]
  simp [setAtOnce, State.withTiw, State.record]

/-- Timers set at once, one after the other. -/
theorem setAtOnce_reach {ps : List Tmr} {s : State} (h : regularSystem.Reach s)
    (hpc : s.pc = .idle) (hslot : ∀ p ∈ ps, s.tiw.slot p = -2) (hnodup : ps.Nodup)
    (hnext : s.tiw.nextTimeoutPos = s.tiw.pos) (htrue : s.tiw.trueNextTimeoutTime = true) :
    ∃ timeoutPos slot log,
      regularSystem.Reach { s with
        tiw := { s.tiw with
          nto := s.tiw.nto + ps.length
          atOnceNto := s.tiw.atOnceNto + ps.length
          timeoutPos := timeoutPos
          slot := slot
          w := Function.update s.tiw.w (-1) (s.tiw.w (-1) ++ ps) }
        log := log } ∧
      (∀ p ∈ ps, timeoutPos p = s.tiw.pos ∧ slot p = -1 ∧ pending log p = some s.tiw.pos) ∧
      ∀ p ∉ ps, timeoutPos p = s.tiw.timeoutPos p ∧ slot p = s.tiw.slot p ∧
        pending log p = pending s.log p := by
  induction ps generalizing s with
  | nil =>
    refine ⟨s.tiw.timeoutPos, s.tiw.slot, s.log, ?_, fun _ hp => absurd hp List.not_mem_nil,
      fun _ _ => ⟨rfl, rfl, rfl⟩⟩
    simpa using h
  | cons p ps ih =>
    obtain ⟨hp, hnodup⟩ := List.nodup_cons.mp hnodup
    have hstep : regularSystem.Reach (setAtOnce s p) :=
      h.next (a := .set p s.tiw.pos noTimerfd)
        ⟨trivial, setAtOnce_step hpc (hslot p List.mem_cons_self) hnext htrue⟩
    have hrest : ∀ q ∈ ps, (setAtOnce s p).tiw.slot q = -2 := fun q hq => by
      have hqp : q ≠ p := fun he => hp (he ▸ hq)
      rw [← hslot q (List.mem_cons_of_mem p hq)]
      exact Function.update_of_ne hqp ..
    obtain ⟨timeoutPos, slot, log, hreach, hin, hout⟩ := ih hstep hpc hrest hnodup hnext htrue
    refine ⟨timeoutPos, slot, log, ?_, fun q hq => ?_, fun q hq => ?_⟩
    · have hlen : ∀ n : ℤ, n + 1 + ps.length = n + (ps.length + 1) := fun n => by omega
      simpa [setAtOnce, hlen] using hreach
    · rcases List.mem_cons.mp hq with rfl | hq
      · obtain ⟨h1, h2, h3⟩ := hout q hp
        rw [h1, h2, h3]
        simp [setAtOnce, pending]
      · exact hin q hq
    · have hqp : q ≠ p := List.ne_of_not_mem_cons hq
      have hq : q ∉ ps := List.not_mem_of_not_mem_cons hq
      obtain ⟨h1, h2, h3⟩ := hout q hq
      rw [h1, h2, h3]
      simp [setAtOnce, pending, hqp]

/-- The callback of the next timer of the at-once slot. -/
def nextCallback (s : State) (p : Tmr) (rest : List Tmr) : State :=
  { s with
    tiw := { s.tiw with
      nto := s.tiw.nto - 1
      atOnceNto := s.tiw.atOnceNto - 1
      sentinel := rest
      slot := Function.update s.tiw.slot p (-2) }
    loc := { s.loc with yieldCount := s.loc.yieldCount - 100 }
    log := .fire p s.loc.bumpTo s.loc.currTime :: s.log }

theorem nextCallback_steps {s : State} {p : Tmr} {rest : List Tmr}
    (hpc : s.pc = .callback .atOnce) (hsent : s.tiw.sentinel = p :: rest)
    (hcount : 100 < s.loc.yieldCount) :
    s.steps State.quiet [.ret, goOn 0] = some (nextCallback s p rest) := by
  have htime : ¬ s.loc.yieldCount ≤ 100 := not_le.mpr hcount
  simp [State.steps, State.quiet, State.laterTimer, State.step, State.runStep, hpc, goOn,
    Label.isCheck, State.callbackDone, State.nextTimer, State.withTiw, State.pay, State.goto,
    hsent, State.outOfTime, costTimeout, htime, State.bumpTimer, State.bumpAtOnce,
    State.timeoutTimer, State.record, slotInactive, nextCallback]

/-- Callbacks that do nothing, one after the other. -/
theorem nextCallback_reach {ps : List Tmr} {q : Tmr} {s : State} (h : regularSystem.Reach s)
    (hpc : s.pc = .callback .atOnce) (hsent : s.tiw.sentinel = ps ++ [q]) (hq : q ∉ ps)
    (hcount : 100 * ps.length < s.loc.yieldCount) :
    ∃ slot log,
      regularSystem.Reach { s with
        tiw := { s.tiw with
          nto := s.tiw.nto - ps.length
          atOnceNto := s.tiw.atOnceNto - ps.length
          sentinel := [q]
          slot := slot }
        loc := { s.loc with yieldCount := s.loc.yieldCount - 100 * ps.length }
        log := log } ∧
      slot q = s.tiw.slot q ∧ pending log q = pending s.log q := by
  induction ps generalizing s with
  | nil =>
    refine ⟨s.tiw.slot, s.log, ?_, rfl, rfl⟩
    rw [List.nil_append] at hsent
    simpa only [← hsent, List.length_nil, Nat.cast_zero, mul_zero, sub_zero] using h
  | cons p ps ih =>
    have hqp : q ≠ p := List.ne_of_not_mem_cons hq
    have hq : q ∉ ps := List.not_mem_of_not_mem_cons hq
    rw [List.length_cons] at hcount
    have hsteps := nextCallback_steps hpc hsent (by push_cast at hcount; omega)
    obtain ⟨slot, log, hreach, hslot, hlog⟩ := ih (regular_steps _ h hsteps) hpc rfl hq (by
      change _ < s.loc.yieldCount - 100
      push_cast at hcount
      omega)
    refine ⟨slot, log, ?_, hslot.trans (Function.update_of_ne hqp ..), hlog.trans ?_⟩
    · have hlen : ∀ n : ℤ, n - 1 - ps.length = n - (ps.length + 1) := fun n => by omega
      have hcost : s.loc.yieldCount - 100 - 100 * ps.length =
        s.loc.yieldCount - 100 * (ps.length + 1) := by omega
      simpa [nextCallback, hlen, hcost] using hreach
    · rw [nextCallback, pending, if_neg hqp]

/-- Timer 0 is set at once. -/
def start : State :=
  { fresh with
    tiw := { freshWheel with
      nto := 1
      atOnceNto := 1
      slot := Function.update freshWheel.slot 0 (-1)
      w := Function.update freshWheel.w (-1) [0]
      timeoutPos := Function.update freshWheel.timeoutPos 0 0
      trueNextTimeoutTime := true
      nextTimeoutPos := 0
      nextTimeoutTime := 0 }
    log := [.set 0 0] }

theorem start_run : fresh.steps State.quiet [.set 0 0 noTimerfd] = some start := rfl

/-- The callback of timer 0 in a bump to tick 5, with 100 more timers to come. -/
def firstCallback (timeoutPos slot : Tmr → ℤ) (log : List Event) : State :=
  { start with
    tiw := { start.tiw with
      nto := 100
      atOnceNto := 100
      timeoutPos := timeoutPos
      slot := Function.update slot 0 (-2)
      w := Function.update (Function.update start.tiw.w (-1) (0 :: List.range' 1 100)) (-1) []
      sentinel := List.range' 1 100
      nextTimeoutPos := 5
      nextTimeoutTime := 5000000 }
    pc := .callback .atOnce
    loc := ⟨5000000, 5, false, 10000, -2, 0⟩
    clock := 5000000
    log := .fire 0 5 5000000 :: log }

theorem firstCallback_reach : ∃ timeoutPos slot log,
    regularSystem.Reach (firstCallback timeoutPos slot log) ∧ timeoutPos 100 = 0 ∧
      slot 100 = -1 ∧ pending log 100 = some 0 := by
  have hslot : ∀ p ∈ List.range' 1 100, start.tiw.slot p = -2 := fun p hp => by
    have hp0 : p ≠ 0 := by
      have := List.mem_range'_1.mp hp
      omega
    exact Function.update_of_ne hp0 ..
  obtain ⟨timeoutPos, slot, log, hreach, hin, -⟩ :=
    setAtOnce_reach (regular_steps _ (.start fresh_init) start_run) rfl hslot List.nodup_range'
      rfl rfl
  obtain ⟨h1, h2, h3⟩ := hin 100 (by simp)
  exact ⟨timeoutPos, slot, log,
    regular_steps [.bump 5000000, goOn 0, goOn 0] hreach rfl, h1, h2, h3⟩

/-- The bump has yielded with timer 100 still to come. -/
def yielded (s : State) (slot : Tmr → ℤ) (log : List Event) : State :=
  { s with
    tiw := { s.tiw with
      nto := 1
      atOnceNto := 1
      sentinel := [100]
      slot := slot
      yieldSlot := -1 }
    pc := .idle
    loc := ⟨5000000, 5, false, 0, -2, 0⟩
    log := .bumped 5000000 true :: log }

theorem yielded_reach {s : State} (h : regularSystem.Reach s) (hpc : s.pc = .callback .atOnce)
    (hsent : s.tiw.sentinel = List.range' 1 100) (hloc : s.loc = ⟨5000000, 5, false, 10000, -2, 0⟩)
    (hnto : s.tiw.nto = 100) (hat : s.tiw.atOnceNto = 100) :
    ∃ slot log, regularSystem.Reach (yielded s slot log) ∧ slot 100 = s.tiw.slot 100 ∧
      pending log 100 = pending s.log 100 := by
  have hsplit : s.tiw.sentinel = List.range' 1 99 ++ [100] := hsent
  obtain ⟨slot, log, hreach, hslot, hlog⟩ :=
    nextCallback_reach h hpc hsplit (by simp) (by rw [hloc]; decide)
  refine ⟨slot, log, regular_steps [.ret, goOn 0] hreach ?_, hslot, hlog⟩
  simp [State.steps, State.quiet, State.laterTimer, State.step, State.runStep, hpc, goOn,
    Label.isCheck, State.callbackDone, State.nextTimer, State.withTiw, State.pay, State.goto,
    State.outOfTime, costTimeout, State.yieldIn, State.leave, State.record, slotAtOnce, hloc,
    hnto, hat, yielded]

end Yield

/-- **A bump that yielded.** Timer 100 was due at tick 0, and `next_timeout_pos` is the tick 5 of
the bump; so is the answer of a check. -/
theorem yielded_not_in_time :
    ∃ s, regularSystem.Reach s ∧ s.pc = .idle ∧ ¬ s.tiw.InTime ∧
      ∃ s', regularSystem.step s (.check none s.clock) s' ∧
        s'.log = .checked (clktcksToMonotonic 5) :: s.log ∧ pending s.log 100 = some 0 := by
  obtain ⟨timeoutPos, slot₀, log₀, h₀, htpos, hslot₀, hlog₀⟩ := Yield.firstCallback_reach
  obtain ⟨slot, log, hreach, hslot, hlog⟩ := Yield.yielded_reach h₀ rfl rfl rfl rfl rfl
  refine ⟨_, hreach, rfl, fun hin => ?_, _, ⟨(fun hs => nomatch hs.1), rfl⟩, rfl,
    hlog.trans hlog₀⟩
  have hact : slot 100 = -1 := hslot.trans hslot₀
  have hle : (5 : ℤ) ≤ timeoutPos 100 := by
    refine hin.near 100 ?_ (Or.inr List.mem_cons_self)
    change slot 100 ≠ -2
    rw [hact]
    decide
  rw [htpos] at hle
  exact absurd hle (by decide)

/-! ## Checks that do not meet the assertions -/

/-- **A late wake-up.** The callback of timer 0 sets and cancels it, which clears
`true_next_timeout_time`; the bump yields, and a check then looks for timers in the wheels only.
It answers a time in a week, and timer 100 was due at tick 0. -/
theorem check_forgets_yielded_bump :
    ∃ s s', regularSystem.Reach s ∧ wheelSystem.step s (.check none s.clock) s' ∧
      s'.log = .checked (clktcksToMonotonic clktcksWeek) :: s.log ∧
      pending s.log 100 = some 0 := by
  obtain ⟨timeoutPos, slot₀, log₀, h₀, htpos, hslot₀, hlog₀⟩ := Yield.firstCallback_reach
  have h₁ := regular_steps [.set 0 5 noTimerfd, .cancel 0] h₀ rfl
  obtain ⟨slot, log, hreach, hslot, hlog⟩ := Yield.yielded_reach h₁ rfl rfl rfl rfl rfl
  exact ⟨_, _, hreach, rfl, rfl, hlog.trans hlog₀⟩

/-- Timers 0, 1 and 2 in the later wheel, timer 1 one revolution after timer 0 and in the same
slot. A bump to tick 8192 moves timer 0 to the soon wheel, and `later.min_tpos` stays where it
is. Then timer 3 is set at once and timer 1 is cancelled. -/
def staleMinimum : List Label :=
  [.set 0 16384 noTimerfd, .set 1 134234112 noTimerfd, .set 2 32768 noTimerfd,
    .bump 8192000000] ++ List.replicate 13 (goOn 8192000000) ++ [.set 3 8192 noTimerfd, .cancel 1]

/-- **Another late wake-up.** Cancelling timer 1 clears `true_next_timeout_time`, as the next
timeout is the tick that `later.min_tpos` stands for; but it is the tick of timer 3. A check then
looks for timers in the wheels only, and answers the tick of timer 0. -/
theorem check_forgets_at_once :
    ∃ s s', wheelSystem.Reach s ∧ s.tiw.yieldSlot = slotInactive ∧
      wheelSystem.step s (.check none s.clock) s' ∧
      s'.log = .checked (clktcksToMonotonic 16384) :: s.log ∧ pending s.log 3 = some 8192 := by
  have hrun : (fresh.steps (fun _ => true) staleMinimum).map (fun s => (s.pc, s.tiw.yieldSlot,
      (s.tiw.checkNextTimeoutTime none s.clock).nextTimeoutTime, pending s.log 3)) =
      some (.idle, slotInactive, clktcksToMonotonic 16384, some 8192) := rfl
  obtain ⟨s, hs, he⟩ := Option.map_eq_some_iff.mp hrun
  obtain ⟨hpc, hy, htime, hpending⟩ : s.pc = .idle ∧ s.tiw.yieldSlot = slotInactive ∧
      (s.tiw.checkNextTimeoutTime none s.clock).nextTimeoutTime = clktcksToMonotonic 16384 ∧
      pending s.log 3 = some 8192 := by simpa using he
  refine ⟨s, _, reach_steps (fun _ _ _ _ _ h => h) (.start fresh_init) hs, hy,
    if_pos ⟨hpc, le_refl _⟩, ?_, hpending⟩
  rw [← htime]
  rfl

end PonBeam.TimerWheel
