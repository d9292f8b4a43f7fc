import PonBeam.TimerWheel.BumpSteps

/-!
# Timers fire once, not early, and not never

Runs of `erts_twheel_set_timer`, `erts_twheel_cancel_timer` and `erts_bump_timers`, with
bumps that yield and callbacks that set and cancel timers. In a run in which every timer
that `bump_later_wheel` takes out of the later wheel meets its assertion
`tpos < cpos + ERTS_TW_SOON_WHEEL_SIZE`, the log is what a user of the wheel expects.

The assertion can fail. A bump one revolution late looks at all slots of the later wheel,
and so at the one that starts at `end_later_pos`. A timer set into it by a callback was not
there when the counts were copied, but leaves them when it is moved: a range that still has
a due timer then counts zero and is passed over.
-/

namespace PonBeam.TimerWheel

/-- Is it a call of `erts_check_next_timeout_time`? -/
def Label.isCheck : Label → Bool
  | .check _ _ => true
  | _ => false

/-- The wheel without `erts_check_next_timeout_time`. -/
def firingSystem : System State Label := wheelSystem.restrict fun _ l => l.isCheck = false

/-- The steps of a bump meet the assertion of `bump_later_wheel`. -/
def InRange (s : State) : Label → Prop
  | .run _ => s.LeavesInRange
  | _ => True

/-- **What a user expects of the log**, newest event first. -/
structure Firing (log : List Event) : Prop where
  /-- an activation is triggered at most once: between two callbacks the timer was set -/
  once : ∀ a p t c b t' c' d, log = a ++ .fire p t c :: (b ++ .fire p t' c' :: d) →
    ∃ v, Event.set p v ∈ b
  /-- and not after it was cancelled -/
  notCancelled : ∀ a p t c b d, log = a ++ .fire p t c :: (b ++ .cancel p :: d) →
    ∃ v, Event.set p v ∈ b
  /-- the callback runs for an activation that is pending, and not before its time -/
  notEarly : ∀ a p t c b, log = a ++ .fire p t c :: b →
    ∃ v, pending b p = some v ∧ v ≤ t ∧ t ≤ monotonicToClktcks c
  /-- a bump that does not yield leaves nothing behind -/
  caughtUp : ∀ a c b, log = a ++ .bumped c false :: b →
    ∀ p v, pending b p = some v → monotonicToClktcks c < v

theorem Sound.firing {log : List Event} (h : Sound log) : Firing log :=
  ⟨fun _ _ _ _ _ _ _ _ hlog => h.fire_once hlog,
    fun _ _ _ _ _ _ hlog => h.fire_not_cancelled hlog,
    fun _ _ _ _ _ hlog => h _ _ _ hlog, fun _ _ _ hlog => h _ _ _ hlog⟩

/-- Every state of such a run has the invariant. -/
theorem good_of_firing {s : State} (h : (firingSystem.restrict InRange).Reach s) :
    Good True s := by
  refine System.Reach.invariant (S := firingSystem.restrict InRange)
    (fun s hs => good_of_init hs) (fun s l s' hg hstep => ?_) h
  obtain ⟨hrange, hno, hs⟩ := hstep
  refine hg.step ?_ (fun _ => ?_) hs
  · rintro a rfl
    exact hrange
  · cases l with
    | check remain now => cases hno
    | run a => exact hrange
    | set p timeoutPos a => trivial
    | cancel p => trivial
    | bump currTime => trivial
    | ret => trivial

/-- **Firing.** In every run that meets the assertion the log is as expected. -/
theorem firing_of_reach {s : State} (h : (firingSystem.restrict InRange).Reach s) :
    Firing s.log :=
  (good_of_firing h).sound.firing

/-! ## Runs -/

/-- The steps `ls`, one after the other, from states that meet `ok`; no step is a check. -/
def State.steps (ok : State → Bool) (s : State) : List Label → Option State
  | [] => some s
  | l :: ls =>
    if ok s ∧ l.isCheck = false then (s.step l).bind fun s' => s'.steps ok ls else none

theorem reach_steps {S : System State Label} {ok : State → Bool} {s s' : State}
    {ls : List Label}
    (hstep : ∀ s l s', ok s = true → l.isCheck = false → s.step l = some s' → S.step s l s')
    (h : S.Reach s) (hs : s.steps ok ls = some s') : S.Reach s' := by
  induction ls generalizing s with
  | nil =>
    obtain rfl := Option.some.inj hs
    exact h
  | cons l ls ih =>
    rw [State.steps] at hs
    split_ifs at hs with hok
    obtain ⟨s₁, h₁, hs⟩ := Option.bind_eq_some_iff.mp hs
    exact ih (h.next (hstep s l s₁ hok.1 hok.2 h₁)) hs

/-- No timerfd. -/
def noTimerfd : ArmAnswers := ⟨-1, 0, false⟩

/-- A bump goes on, the clock standing at `now`. -/
def goOn (now : ℤ) : Label := .run ⟨noTimerfd, now⟩

/-- A new wheel at the time 0. -/
def freshWheel : Wheel := .create 0 noTimerfd (fun _ => 0) 0 fun _ => 0

/-- A new wheel at the time 0. -/
def fresh : State := ⟨freshWheel, .idle, ⟨0, 0, false, 0, 0, 0⟩, 0, []⟩

theorem fresh_init : wheelSystem.init fresh :=
  ⟨rfl, rfl, noTimerfd, fun _ => 0, 0, fun _ => 0, rfl⟩

/-- The next timer of the later wheel, if there is one, meets the assertion. -/
def State.inRange (s : State) : Bool :=
  s.laterTimer.all fun p => decide (s.tiw.timeoutPos p < s.tiw.laterPos + laterWheelSlotSize →
    s.tiw.timeoutPos p < s.tiw.pos + soonWheelSize)

theorem inRange_of_checked {s : State} (h : s.inRange = true) (l : Label) : InRange s l := by
  cases l with
  | run a =>
    intro p hp
    rw [State.inRange, hp] at h
    exact of_decide_eq_true h
  | set p timeoutPos a => trivial
  | cancel p => trivial
  | check remain now => trivial
  | bump currTime => trivial
  | ret => trivial

/-- A timer set for tick 16384, which is in the later wheel, and bumps at the ticks 8192 and
16384. The first one moves the timer to the soon wheel. -/
def oneTimer : List Label :=
  [.set 0 16384 noTimerfd, .bump 8192000000] ++ List.replicate 12 (goOn 8192000000) ++
    [.bump 16384000000] ++ List.replicate 4 (goOn 16384000000) ++ [.ret] ++
    List.replicate 4 (goOn 16384000000)

/-- The second bump triggers the timer, and both are caught up. -/
theorem oneTimer_firing :
    ∃ s, (firingSystem.restrict InRange).Reach s ∧
      s.log = [.bumped 16384000000 false, .fire 0 16384 16384000000, .bumped 8192000000 false,
        .set 0 16384] ∧ Firing s.log := by
  have hlog : (fresh.steps State.inRange oneTimer).map State.log =
      some [.bumped 16384000000 false, .fire 0 16384 16384000000, .bumped 8192000000 false,
        .set 0 16384] := rfl
  obtain ⟨s, hs, hslog⟩ := Option.map_eq_some_iff.mp hlog
  have hreach : (firingSystem.restrict InRange).Reach s :=
    reach_steps (fun s l s' hok hno hstep => ⟨inRange_of_checked hok l, hno, hstep⟩)
      (.start fresh_init) hs
  exact ⟨s, hreach, hslog, firing_of_reach hreach⟩

/-! ## A lost timer -/

namespace Lost

/-- One revolution and one later slot. -/
def target : ℤ := 134225920

/-- The time of it. -/
def now : ℤ := 134225920000000

/-- Timer 0 is set. -/
def set0 : State :=
  { fresh with
    tiw := { freshWheel with
      nto := 1
      timeoutPos := Function.update freshWheel.timeoutPos 0 16384
      slot := Function.update freshWheel.slot 0 16386
      w := Function.update freshWheel.w 16386 [0]
      laterNto := 1
      laterMinTpos := 16384
      laterMinTposSlot := 16386
      scnt := Function.update freshWheel.scnt 32 1
      trueNextTimeoutTime := true
      nextTimeoutPos := 8192
      nextTimeoutTime := 8192000000 }
    log := [.set 0 16384] }

/-- Timer 1 is set, two slots after it. -/
def set1 : State :=
  { set0 with
    tiw := { set0.tiw with
      nto := 2
      timeoutPos := Function.update set0.tiw.timeoutPos 1 32768
      slot := Function.update set0.tiw.slot 1 16388
      w := Function.update set0.tiw.w 16388 [1]
      laterNto := 2
      scnt := Function.update set0.tiw.scnt 32 2 }
    log := .set 1 32768 :: set0.log }

/-- The wheel is bumped. -/
def called : State :=
  { set1 with
    pc := .pass
    loc := ⟨now, 0, false, 10000, -2, 0⟩
    clock := now }

/-- The pass starts. -/
def atTop : State :=
  { called with
    tiw := { called.tiw with
      nextTimeoutPos := target
      nextTimeoutTime := now }
    pc := .top
    loc := { called.loc with bumpTo := target } }

/-- Nothing in the soon wheel. -/
def soonDone : State :=
  { atTop with
    tiw := { atTop.tiw with
      bumpScnt := atTop.tiw.scnt
      pos := target }
    pc := .enterLater
    loc := ⟨now, target, false, 9999, 8193, 0⟩ }

/-- All slots of the later wheel are to be looked at. -/
def laterStart : State :=
  { soonDone with
    tiw := { soonDone.tiw with laterPos := 134242304 }
    pc := .later
    loc := ⟨now, target, false, 9999, 16386, 16384⟩ }

/-- The callback of timer 0 runs. -/
def fired0 : State :=
  { laterStart with
    tiw := { laterStart.tiw with
      w := Function.update laterStart.tiw.w 16386 []
      laterNto := 1
      scnt := Function.update laterStart.tiw.scnt 32 1
      bumpScnt := Function.update laterStart.tiw.bumpScnt 32 1
      slot := Function.update laterStart.tiw.slot 0 (-2) }
    pc := .callback .later
    loc := ⟨now, target, false, 9998, 16386, 16384⟩
    log := .fire 0 target now :: laterStart.log }

/-- It sets timer 2 into the slot in between, which is the one `later.pos` is at now. -/
def set2 : State :=
  { fired0 with
    tiw := { fired0.tiw with
      nto := 3
      timeoutPos := Function.update fired0.tiw.timeoutPos 2 134242304
      slot := Function.update fired0.tiw.slot 2 16387
      w := Function.update fired0.tiw.w 16387 [2]
      laterNto := 2
      scnt := Function.update fired0.tiw.scnt 32 2 }
    log := .set 2 134242304 :: fired0.log }

/-- The scan goes on to that slot. -/
def inBetween : State :=
  { set2 with
    tiw := { set2.tiw with nto := 2 }
    pc := .later
    loc := ⟨now, target, false, 9898, 16387, 16383⟩ }

/-- Timer 2 is moved to the soon wheel, and the range of timer 1 counts nothing. -/
def moved2 : State :=
  { inBetween with
    tiw := { inBetween.tiw with
      w := Function.update (Function.update inBetween.tiw.w 16387 []) 8192 [2]
      laterNto := 1
      scnt := Function.update (Function.update inBetween.tiw.scnt 32 1) 16 1
      bumpScnt := Function.update inBetween.tiw.bumpScnt 32 0
      slot := Function.update inBetween.tiw.slot 2 8192
      soonNto := 1
      soonMinTpos := 134242304 }
    pc := .next .later
    loc := ⟨now, target, false, 9892, 16387, 16383⟩ }

/-- The bump returns. -/
def returned : State :=
  { moved2 with
    tiw := { moved2.tiw with
      nextTimeoutPos := 134242304
      nextTimeoutTime := 134242304000000 }
    pc := .idle
    loc := ⟨now, target, false, 9892, 16386, 0⟩
    log := .bumped now false :: moved2.log }

theorem set0_run : fresh.steps (fun _ => true) [.set 0 16384 noTimerfd] = some set0 := rfl

theorem set1_run : set0.steps (fun _ => true) [.set 1 32768 noTimerfd] = some set1 := rfl

theorem called_run : set1.steps (fun _ => true) [.bump now, goOn now] = some atTop := rfl

theorem soonDone_run :
    atTop.steps (fun _ => true) [goOn now, goOn now, goOn now, goOn now] = some soonDone := rfl

theorem fired0_run : soonDone.steps (fun _ => true) [goOn now, goOn now] = some fired0 := rfl

theorem set2_run : fired0.steps (fun _ => true) [.set 2 134242304 noTimerfd] = some set2 := rfl

theorem inBetween_run : set2.steps (fun _ => true) [.ret, goOn now] = some inBetween := rfl

theorem moved2_run : inBetween.steps (fun _ => true) [goOn now] = some moved2 := rfl

theorem returned_run : moved2.steps (fun _ => true)
    [goOn now, goOn now, goOn now, goOn now, goOn now] = some returned := rfl

theorem returned_reach : firingSystem.Reach returned := by
  have hstep : ∀ s l s', (fun _ : State => true) s = true → l.isCheck = false →
      s.step l = some s' → firingSystem.step s l s' := fun s l s' _ hno hs => ⟨hno, hs⟩
  have h1 := reach_steps hstep (reach_steps hstep (.start fresh_init) set0_run) set1_run
  have h2 := reach_steps hstep (reach_steps hstep h1 called_run) soonDone_run
  have h3 := reach_steps hstep (reach_steps hstep h2 fired0_run) set2_run
  have h4 := reach_steps hstep (reach_steps hstep h3 inBetween_run) moved2_run
  exact reach_steps hstep h4 returned_run

end Lost

/-- **A lost timer.** The bump to a tick after timer 1 returned without yielding, and timer 1
is still pending. -/
theorem bump_loses_timer :
    firingSystem.Reach Lost.returned ∧ ¬ Firing Lost.returned.log := by
  refine ⟨Lost.returned_reach, fun h => ?_⟩
  have hlate := h.caughtUp [] Lost.now Lost.moved2.log rfl 1 32768 rfl
  exact absurd hlate (by decide)

end PonBeam.TimerWheel
