import PonBeam.Lib.System
import PonBeam.TimerWheel.Model

/-!
# Bumping the wheel (`erts_bump_timers`, `bump_later_wheel`)

A timeout callback may set and cancel timers, so the two functions run as a machine: a
`Pc` for each place between two steps, the local variables in `Locals`. A step runs from
one place to the next. Between `callback` and its return, and between two calls, timers
are set and cancelled in any way.

`log` records what a user of the wheel sees, newest first; `clock` is the latest reading
of the clock, which never goes back.
-/

namespace PonBeam.TimerWheel

/-- Where a list of timers being bumped comes from. -/
inductive Home : Type where
  /-- the at-once slot -/
  | atOnce
  /-- a slot of the soon wheel -/
  | soon
  /-- a slot of the later wheel -/
  | later
  deriving DecidableEq, Repr

/-- The next thing to do. -/
inductive Pc : Type where
  /-- no call is running -/
  | idle
  /-- `do {` -/
  | pass
  /-- `while (1) {` -/
  | top
  /-- the at-once slot is done -/
  | atOnceDone
  /-- `while (slots > 0)` of the soon wheel -/
  | soon
  /-- the call of `bump_later_wheel` -/
  | enterLater
  /-- `while (slots > 0)` of the later wheel -/
  | later
  /-- `} while (restarted)` -/
  | passDone
  /-- `restart_yielded_...`: on to the next timer of the list -/
  | next (home : Home)
  /-- a timeout callback is running -/
  | callback (home : Home)
  deriving DecidableEq, Repr

/-- The local variables of `erts_bump_timers`; `bump_later_wheel` has the same and calls
`slot` `fslot`. `scnt_ix` is `scnt_get_ix(slot)` throughout. -/
structure Locals where
  /-- `curr_time` -/
  currTime : ℤ
  /-- `bump_to` -/
  bumpTo : ℤ
  /-- `restarted` -/
  restarted : Bool
  /-- `yield_count` -/
  yieldCount : ℤ
  /-- `slot` -/
  slot : ℤ
  /-- `slots` -/
  slots : ℤ

/-- What a user of the wheel sees. -/
inductive Event : Type where
  /-- a timer is set, with its `timeout_pos` -/
  | set (p : Tmr) (timeoutPos : ℤ)
  /-- a timer is cancelled -/
  | cancel (p : Tmr)
  /-- its callback is called by a bump to `bumpTo`, at the time `currTime` -/
  | fire (p : Tmr) (bumpTo currTime : ℤ)
  /-- a bump at the time `currTime` returns -/
  | bumped (currTime : ℤ) (yielded : Bool)
  /-- `erts_check_next_timeout_time` answers -/
  | checked (time : ℤ)

/-- The wheel at work. -/
structure State where
  /-- the wheel -/
  tiw : Wheel
  /-- the next thing to do -/
  pc : Pc
  /-- local variables -/
  loc : Locals
  /-- the latest reading of the clock -/
  clock : ℤ
  /-- what happened, newest first -/
  log : List Event

/-- What the world answers to a step. -/
structure Answers where
  /-- the canary -/
  arm : ArmAnswers
  /-- the clock, if `find_next_timeout` reads it -/
  now : ℤ

/-- A step. -/
inductive Label : Type where
  /-- `erts_twheel_set_timer` -/
  | set (p : Tmr) (timeoutPos : ℤ) (a : ArmAnswers)
  /-- `erts_twheel_cancel_timer` -/
  | cancel (p : Tmr)
  /-- `erts_check_next_timeout_time` -/
  | check (remain : Option ℤ) (now : ℤ)
  /-- the call of `erts_bump_timers` -/
  | bump (currTime : ℤ)
  /-- the bump goes on -/
  | run (a : Answers)
  /-- a timeout callback returns -/
  | ret

namespace State

/-- Overwrite the wheel. -/
def withTiw (s : State) (tiw : Wheel) : State := { s with tiw := tiw }

/-- Go on at `pc`. -/
def goto (s : State) (pc : Pc) : State := { s with pc := pc }

/-- Overwrite `slot` and `slots`. -/
def withSlot (s : State) (next : ℤ × ℤ) : State :=
  { s with loc := { s.loc with slot := next.1, slots := next.2 } }

/-- `yield_count -= cost` -/
def pay (s : State) (cost : ℤ) : State :=
  { s with loc := { s.loc with yieldCount := s.loc.yieldCount - cost } }

/-- Record an event. -/
def record (s : State) (e : Event) : State := { s with log := e :: s.log }

/-- `return` -/
def leave (s : State) (yielded : Bool) : State :=
  (s.record (.bumped s.loc.currTime yielded)).goto .idle

/-- `timeout_timer`, up to the callback. -/
def timeoutTimer (s : State) (home : Home) (p : Tmr) : State :=
  let tiw := { s.tiw with slot := Function.update s.tiw.slot p slotInactive }
  ((s.withTiw tiw).record (.fire p s.loc.bumpTo s.loc.currTime)).goto (.callback home)

/-- One timer of the at-once slot. -/
def bumpAtOnce (s : State) (p : Tmr) : State :=
  let tiw := { s.tiw with nto := s.tiw.nto - 1, atOnceNto := s.tiw.atOnceNto - 1 }
  (s.withTiw tiw).timeoutTimer .atOnce p

/-- One timer of a slot of the soon wheel. -/
def bumpSoon (s : State) (p : Tmr) : State :=
  let slot := s.loc.slot
  let tiw := s.tiw.decSoonNto
  let tiw := { tiw with scnt := scntAdd tiw.scnt (scntGetIx slot) (-1) }
  if tiw.timeoutPos p ≤ s.loc.bumpTo then (s.withTiw tiw).timeoutTimer .soon p
  else ((s.withTiw (tiw.insertTimerIntoSlot slot p)).pay costSlotMove).goto (.next .soon)

/-- One timer of a slot of the later wheel; `cpos` is `tiw->pos`, which nothing writes
during `bump_later_wheel`. -/
def bumpLater (s : State) (p : Tmr) : State :=
  let slot := s.loc.slot
  let tpos := s.tiw.timeoutPos p
  let tiw := s.tiw.decLaterNto
  let tiw := { tiw with scnt := scntAdd tiw.scnt (scntGetIx slot) (-1) }
  if tpos ≥ tiw.laterPos + laterWheelSlotSize then
    ((s.withTiw (tiw.insertTimerIntoSlot slot p)).pay costSlotMove).goto (.next .later)
  else
    let tiw := { tiw with bumpScnt := scntAdd tiw.bumpScnt (scntGetIx slot) (-1) }
    if tpos > tiw.pos then
      ((s.withTiw (tiw.insertTimerIntoSlot (soonSlot tpos) p)).pay costSlotMove).goto
        (.next .later)
    else (s.withTiw tiw).timeoutTimer .later p

/-- One timer of the list being bumped. -/
def bumpTimer (s : State) : Home → Tmr → State
  | .atOnce => s.bumpAtOnce
  | .soon => s.bumpSoon
  | .later => s.bumpLater

/-- On to the next slot, the list of this one being done. -/
def nextSlot (s : State) : Home → State
  | .atOnce => s.goto .atOnceDone
  | .soon =>
    (s.withSlot (scntSoonWheelNext s.loc.slot s.loc.slots s.tiw.bumpScnt)).goto .soon
  | .later =>
    (s.withSlot (scntLaterWheelNext s.loc.slot s.loc.slots s.tiw.bumpScnt)).goto .later

/-- Take the list of `slot` and start on it. -/
def takeSlot (s : State) (home : Home) (slot : ℤ) : State :=
  match s.tiw.w slot with
  | [] => s.nextSlot home
  | p :: rest =>
    let tiw := { s.tiw with
      w := Function.update s.tiw.w slot []
      sentinel := if rest = [] then s.tiw.sentinel else rest }
    (s.withTiw tiw).bumpTimer home p

/-- Is it time to yield? -/
def outOfTime (s : State) : Home → Bool
  | .atOnce => s.loc.yieldCount ≤ 0
  | .soon => s.loc.yieldCount ≤ 0
  | .later => s.loc.yieldCount < 0

/-- `return; /* Yield! */` -/
def yieldIn (s : State) : Home → State
  | .atOnce => (s.withTiw { s.tiw with yieldSlot := slotAtOnce }).leave true
  | .soon | .later =>
    let tiw := { s.tiw with yieldSlot := s.loc.slot, yieldSlotsLeft := s.loc.slots }
    (s.withTiw tiw).leave true

/-- The next timer of the list. -/
def nextTimer (s : State) (home : Home) : State :=
  match s.tiw.sentinel with
  | [] => s.nextSlot home
  | p :: rest =>
    if s.outOfTime home then s.yieldIn home
    else (s.withTiw { s.tiw with sentinel := rest }).bumpTimer home p

/-- A timeout callback returned. -/
def callbackDone (s : State) (home : Home) : State :=
  let tiw :=
    match home with
    | .atOnce => s.tiw
    | .soon =>
      { s.tiw with
        nto := s.tiw.nto - 1
        bumpScnt := scntAdd s.tiw.bumpScnt (scntGetIx s.loc.slot) (-1) }
    | .later => { s.tiw with nto := s.tiw.nto - 1 }
  ((s.withTiw tiw).pay costTimeout).goto (.next home)

/-- `empty_wheel:` -/
def emptyWheel (s : State) (a : ArmAnswers) : State :=
  let bumpTo := s.loc.bumpTo
  let tiw := s.tiw.setNextTimeout (bumpTo + clktcksWeek)
  let tiw := { tiw with
    trueNextTimeoutTime := false
    pos := bumpTo
    laterPos := laterPosMask (bumpTo + soonWheelSize)
    yieldSlot := slotInactive }
  (s.withTiw (tiw.ponTimerWheelArm a)).leave false

/-- `do {` -/
def startPass (s : State) : State :=
  let bumpTo := monotonicToClktcks s.loc.currTime
  let tiw := { s.tiw.setNextTimeout bumpTo with trueNextTimeoutTime := true }
  { s with tiw := tiw, pc := .top, loc := { s.loc with restarted := false, bumpTo := bumpTo } }

/-- Where the scan of the soon wheel can start: no timer is due up to here. -/
def skipUntilPos (s : State) : ℤ :=
  let tiw := s.tiw
  if tiw.soonMinTpos > tiw.pos then
    let skip := (if tiw.soonMinTpos > s.loc.bumpTo then s.loc.bumpTo else tiw.soonMinTpos) - 1
    if skip > tiw.pos then skip else tiw.pos
  else tiw.pos

/-- The scan of the soon wheel starts. -/
def enterSoon (s : State) : State :=
  let bumpTo := s.loc.bumpTo
  let pos := s.skipUntilPos
  let slots := if bumpTo - pos < soonWheelSize then bumpTo - pos else soonWheelSize
  let tiw := { s.tiw.setNextTimeout bumpTo with bumpScnt := s.tiw.scnt, pos := bumpTo }
  ((s.withTiw tiw).withSlot (soonSlot (pos + 1), slots)).goto .soon

/-- After the at-once slot. -/
def atOnceDone (s : State) (a : ArmAnswers) : State :=
  if s.tiw.pos ≥ s.loc.bumpTo then
    if s.tiw.atOnceNto ≠ 0 then s.goto .top else s.goto .passDone
  else if s.tiw.nto = 0 then s.emptyWheel a
  else s.enterSoon

/-- `end_later_pos` -/
def endLaterPos (tiw : Wheel) : ℤ := laterPosMask (tiw.pos + soonWheelSize)

/-- `later_pos`, known empty slots skipped. -/
def startLaterPos (tiw : Wheel) : ℤ :=
  let minTpos := laterPosMask tiw.laterMinTpos
  if minTpos > tiw.laterPos then minTpos else tiw.laterPos

/-- The scan of the later wheel starts. -/
def enterLater (s : State) : State :=
  let endPos := endLaterPos s.tiw
  let laterPos := startLaterPos s.tiw
  let minTpos := laterPosMask s.tiw.laterMinTpos
  let tiw := { s.tiw with laterPos := endPos }
  if minTpos > s.tiw.laterPos ∧ minTpos > endPos then (s.withTiw tiw).goto .top
  else
    let tmpSlots := (endPos - laterPos) / laterWheelSlotSize
    let slots := if tmpSlots < laterWheelSize then tmpSlots else laterWheelSize
    ((s.withTiw tiw).withSlot (laterSlot laterPos, slots)).goto .later

/-- The end of `erts_bump_timers`. -/
def finish (s : State) (a : Answers) : State :=
  let tiw := { s.tiw with trueNextTimeoutTime := false }
  let tiw := (tiw.findNextTimeout a.now).ponTimerWheelArm a.arm
  { (s.withTiw tiw).leave false with clock := a.now }

/-- The call of `erts_bump_timers`. -/
def bumpTimers (s : State) (currTime : ℤ) : State :=
  let slot := s.tiw.yieldSlot
  let loc : Locals :=
    { currTime := currTime
      bumpTo := s.tiw.pos
      restarted := slot ≠ slotInactive
      yieldCount := bumpYieldLimit
      slot := slot
      slots := s.tiw.yieldSlotsLeft }
  let pc : Pc :=
    if slot = slotInactive then .pass
    else if slot ≥ laterWheelFirstSlot then .next .later
    else if slot = slotAtOnce then .next .atOnce
    else .next .soon
  { s with
    tiw := { s.tiw with yieldSlot := slotInactive }
    pc := pc
    loc := loc
    clock := currTime }

/-- One step of a bump. -/
def runStep (s : State) (a : Answers) : Option State :=
  match s.pc with
  | .idle => none
  | .callback _ => none
  | .pass => some s.startPass
  | .top =>
    some (if s.tiw.nto = 0 then s.emptyWheel a.arm else s.takeSlot .atOnce slotAtOnce)
  | .atOnceDone => some (s.atOnceDone a.arm)
  | .soon =>
    some (if 0 < s.loc.slots then (s.pay costSlot).takeSlot .soon s.loc.slot
      else if s.tiw.pos + laterWheelSlotSize ≥ s.tiw.laterPos then s.goto .enterLater
      else s.goto .top)
  | .enterLater => some s.enterLater
  | .later =>
    some (if 0 < s.loc.slots then (s.pay costSlot).takeSlot .later s.loc.slot
      else s.goto .top)
  | .passDone =>
    if s.loc.restarted then some (s.goto .pass)
    else if s.clock ≤ a.now then some (s.finish a)
    else none
  | .next home => some (s.nextTimer home)

/-- May timers be set and cancelled now? -/
def accepts (s : State) : Bool :=
  match s.pc with
  | .idle => true
  | .callback _ => true
  | _ => false

/-- One step. A timer is set only when it is inactive. -/
def step (s : State) : Label → Option State
  | .set p timeoutPos a =>
    if s.accepts ∧ s.tiw.slot p = slotInactive then
      let tiw := s.tiw.setTimer p timeoutPos a
      some ((s.withTiw tiw).record (.set p (tiw.timeoutPos p)))
    else none
  | .cancel p =>
    if s.accepts then some ((s.withTiw (s.tiw.cancelTimer p)).record (.cancel p)) else none
  | .check remain now =>
    if s.pc = .idle ∧ s.clock ≤ now then
      let tiw := s.tiw.checkNextTimeoutTime remain now
      some { (s.withTiw tiw).record (.checked tiw.nextTimeoutTime) with clock := now }
    else none
  | .bump currTime =>
    if s.pc = .idle ∧ s.clock ≤ currTime then some (s.bumpTimers currTime) else none
  | .run a => s.runStep a
  | .ret =>
    match s.pc with
    | .callback home => some (s.callbackDone home)
    | _ => none

end State

/-- The wheel, from `erts_create_timer_wheel` on. -/
def wheelSystem : System State Label where
  init s := s.pc = .idle ∧ s.log = [] ∧
    ∃ a bumpScnt left timeoutPos, s.tiw = .create s.clock a bumpScnt left timeoutPos
  step s l s' := s.step l = some s'

end PonBeam.TimerWheel
