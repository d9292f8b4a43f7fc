import Mathlib.Data.Int.Notation
import Mathlib.Data.Nat.Notation
import Mathlib.Logic.Function.Basic

/-!
# The timer wheel (`time.c`)

The wheel and the functions that run without interruption: inserting and removing a
timer, the search for the next timeout, `erts_twheel_set_timer`,
`erts_twheel_cancel_timer`, `erts_check_next_timeout_time` and the timerfd canary.
`erts_bump_timers` calls back into the wheel and is in `TimerWheel.Bump`.

A circular list of timers is a list from its first timer on; the list that hangs on
`sentinel` does not hold the sentinel itself. Positions and times are integers, with
the 64-bit sizes of the default build: `2^14` slots in each wheel, a later slot `2^13`
ticks wide, one tick a millisecond and a time unit a nanosecond.
-/

namespace PonBeam.TimerWheel

/-- The address of an `ErtsTWheelTimer`. -/
abbrev Tmr : Type := ℕ

/-! ## Constants -/

/-- `ERTS_TW_SLOT_INACTIVE` -/
def slotInactive : ℤ := -2

/-- `ERTS_TW_SLOT_AT_ONCE` -/
def slotAtOnce : ℤ := -1

/-- `ERTS_TW_SOON_WHEEL_SIZE`; the soon wheel's slots start at 0. -/
def soonWheelSize : ℤ := 16384

/-- `ERTS_TW_LATER_WHEEL_SIZE` -/
def laterWheelSize : ℤ := 16384

/-- `ERTS_TW_LATER_WHEEL_FIRST_SLOT`, the end of the soon wheel. -/
def laterWheelFirstSlot : ℤ := soonWheelSize

/-- `ERTS_TW_LATER_WHEEL_END_SLOT` -/
def laterWheelEndSlot : ℤ := laterWheelFirstSlot + laterWheelSize

/-- `ERTS_TW_LATER_WHEEL_SLOT_SIZE` -/
def laterWheelSlotSize : ℤ := 8192

/-- `1 << ERTS_TW_SCNT_BITS` -/
def scntRange : ℤ := 512

/-- `ERTS_TWHEEL_BUMP_YIELD_LIMIT` -/
def bumpYieldLimit : ℤ := 10000

/-- `ERTS_TW_COST_SLOT` -/
def costSlot : ℤ := 1

/-- `ERTS_TW_COST_SLOT_MOVE` -/
def costSlotMove : ℤ := 5

/-- `ERTS_TW_COST_TIMEOUT` -/
def costTimeout : ℤ := 100

/-- `ERTS_MONOTONIC_TIME_UNIT/ERTS_CLKTCK_RESOLUTION` -/
def clktckUnit : ℤ := 1000000

/-- `ERTS_MONOTONIC_TO_CLKTCKS` -/
def monotonicToClktcks (t : ℤ) : ℤ := t / clktckUnit

/-- `ERTS_CLKTCKS_TO_MONOTONIC` -/
def clktcksToMonotonic (tcks : ℤ) : ℤ := tcks * clktckUnit

/-- `ERTS_MONOTONIC_TO_USEC` -/
def monotonicToUsec (t : ℤ) : ℤ := t / 1000

/-- `ERTS_MAX_CLKTCKS` -/
def maxClktcks : ℤ := monotonicToClktcks 9223372036854775807

/-- `ERTS_CLKTCKS_WEEK` -/
def clktcksWeek : ℤ := monotonicToClktcks (7 * 60 * 60 * 24 * 1000000000)

/-- `pos & ERTS_TW_LATER_WHEEL_POS_MASK` -/
def laterPosMask (pos : ℤ) : ℤ := pos - pos % laterWheelSlotSize

/-- `soon_slot` -/
def soonSlot (soonPos : ℤ) : ℤ := soonPos % soonWheelSize

/-- `later_slot` -/
def laterSlot (laterPos : ℤ) : ℤ :=
  laterPos / laterWheelSlotSize % laterWheelSize + laterWheelFirstSlot

/-- `scnt_get_ix` -/
def scntGetIx (slot : ℤ) : ℤ := slot / scntRange

/-! ## The wheel -/

/-- `ErtsTimerWheel` with the fields of the timers. -/
structure Wheel where
  /-- the lists of the slots, the at-once slot at -1 -/
  w : ℤ → List Tmr
  /-- the timers in each range of slots -/
  scnt : ℤ → ℤ
  /-- the ones a bump has to look at -/
  bumpScnt : ℤ → ℤ
  /-- current position -/
  pos : ℤ
  /-- number of timers -/
  nto : ℤ
  /-- `at_once.nto` -/
  atOnceNto : ℤ
  /-- `soon.min_tpos` -/
  soonMinTpos : ℤ
  /-- `soon.nto` -/
  soonNto : ℤ
  /-- `later.min_tpos` -/
  laterMinTpos : ℤ
  /-- `later.min_tpos_slot` -/
  laterMinTposSlot : ℤ
  /-- `later.pos` -/
  laterPos : ℤ
  /-- `later.nto` -/
  laterNto : ℤ
  /-- the slot a bump stopped in -/
  yieldSlot : ℤ
  /-- the slots it had left -/
  yieldSlotsLeft : ℤ
  /-- the timers of the slot being bumped -/
  sentinel : List Tmr
  /-- is the next timeout exact? -/
  trueNextTimeoutTime : Bool
  /-- the next timeout in ticks -/
  nextTimeoutPos : ℤ
  /-- the next timeout -/
  nextTimeoutTime : ℤ
  /-- the timerfd, -1 if there is none -/
  ponFd : ℤ
  /-- what it is armed with, -1 if disarmed -/
  ponArmedDeadline : ℤ
  /-- `p->slot` -/
  slot : Tmr → ℤ
  /-- `p->timeout_pos` -/
  timeoutPos : Tmr → ℤ

/-- `scnt[ix] += d` -/
def scntAdd (scnt : ℤ → ℤ) (ix d : ℤ) : ℤ → ℤ := Function.update scnt ix (scnt ix + d)

/-- The `while` of `scnt_wheel_next`; it runs at most `left` times. -/
def scntWheelSkip (scnt : ℤ → ℤ) (firstSlot endSlot : ℤ) : ℕ → ℤ → ℤ → ℤ × ℤ
  | 0, slot, left => (slot, left)
  | fuel + 1, slot, left =>
    if scnt (scntGetIx slot) = 0 ∧ 0 < left then
      let oldSlot := slot
      let slot := (scntGetIx slot + 1) * scntRange
      let diff := slot - oldSlot
      let slot := if left < diff then oldSlot + left else slot
      let diff := if left < diff then left else diff
      if slot < endSlot then scntWheelSkip scnt firstSlot endSlot fuel slot (left - diff)
      else scntWheelSkip scnt firstSlot endSlot fuel firstSlot (left - (endSlot - oldSlot))
    else (slot, left)

/-- `scnt_wheel_next`: the next slot and how many are left. The position moves by a slot
for each one less left. -/
def scntWheelNext (slot left : ℤ) (scnt : ℤ → ℤ) (firstSlot endSlot : ℤ) : ℤ × ℤ :=
  let left := left - 1
  let slot := slot + 1
  let slot := if slot = endSlot then firstSlot else slot
  scntWheelSkip scnt firstSlot endSlot left.toNat slot left

/-- `scnt_soon_wheel_next` -/
def scntSoonWheelNext (slot left : ℤ) (scnt : ℤ → ℤ) : ℤ × ℤ :=
  scntWheelNext slot left scnt 0 soonWheelSize

/-- `scnt_later_wheel_next` -/
def scntLaterWheelNext (slot left : ℤ) (scnt : ℤ → ℤ) : ℤ × ℤ :=
  scntWheelNext slot left scnt laterWheelFirstSlot laterWheelEndSlot

namespace Wheel

/-- `if (--tiw->soon.nto == 0) tiw->soon.min_tpos = ERTS_MAX_CLKTCKS` -/
def decSoonNto (tiw : Wheel) : Wheel :=
  { tiw with
    soonNto := tiw.soonNto - 1
    soonMinTpos := if tiw.soonNto - 1 = 0 then maxClktcks else tiw.soonMinTpos }

/-- `if (--tiw->later.nto == 0)` forget its minimum. -/
def decLaterNto (tiw : Wheel) : Wheel :=
  { tiw with
    laterNto := tiw.laterNto - 1
    laterMinTpos := if tiw.laterNto - 1 = 0 then maxClktcks else tiw.laterMinTpos
    laterMinTposSlot :=
      if tiw.laterNto - 1 = 0 then laterWheelEndSlot else tiw.laterMinTposSlot }

/-- `insert_timer_into_slot` -/
def insertTimerIntoSlot (tiw : Wheel) (slot : ℤ) (p : Tmr) : Wheel :=
  let tiw := { tiw with
    slot := Function.update tiw.slot p slot
    w := Function.update tiw.w slot (tiw.w slot ++ [p]) }
  if slot = slotAtOnce then { tiw with atOnceNto := tiw.atOnceNto + 1 }
  else
    let tpos := tiw.timeoutPos p
    let tiw :=
      if slot < laterWheelFirstSlot then
        { tiw with
          soonNto := tiw.soonNto + 1
          soonMinTpos := if tiw.soonMinTpos > tpos then tpos else tiw.soonMinTpos }
      else
        { tiw with
          laterNto := tiw.laterNto + 1
          laterMinTpos := if tiw.laterMinTpos > tpos then tpos else tiw.laterMinTpos
          laterMinTposSlot := if tiw.laterMinTpos > tpos then slot else tiw.laterMinTposSlot }
    { tiw with scnt := scntAdd tiw.scnt (scntGetIx slot) 1 }

/-- `tiw->true_next_timeout_time = 0` if `b` -/
def forgetNextTimeout (tiw : Wheel) (b : Bool) : Wheel :=
  { tiw with trueNextTimeoutTime := if b then false else tiw.trueNextTimeoutTime }

/-- `remove_timer`: `p->next == p` only for a timer alone in its slot. -/
def removeTimer (tiw : Wheel) (p : Tmr) : Wheel :=
  let slot := tiw.slot p
  let emptySlot : Bool := tiw.w slot = [p]
  let tiw := { tiw with
    w := Function.update tiw.w slot (if emptySlot then [] else (tiw.w slot).erase p)
    sentinel := if emptySlot then tiw.sentinel else tiw.sentinel.erase p }
  let tiw :=
    if slot = slotAtOnce then { tiw with atOnceNto := tiw.atOnceNto - 1 }
    else
      let tiw := { tiw with scnt := scntAdd tiw.scnt (scntGetIx slot) (-1) }
      if slot < laterWheelFirstSlot then
        (tiw.forgetNextTimeout (emptySlot ∧ tiw.trueNextTimeoutTime ∧
          tiw.timeoutPos p = tiw.nextTimeoutPos ∧ tiw.yieldSlot = slotInactive)).decSoonNto
      else
        (tiw.forgetNextTimeout (emptySlot ∧ tiw.trueNextTimeoutTime ∧
          tiw.laterMinTposSlot = slot ∧
          laterPosMask tiw.laterMinTpos - laterWheelSlotSize = tiw.nextTimeoutPos ∧
          tiw.yieldSlot = slotInactive)).decLaterNto
  { tiw with slot := Function.update tiw.slot p slotInactive }

/-- `tiw->next_timeout_pos = pos`, with the time of it. -/
def setNextTimeout (tiw : Wheel) (pos : ℤ) : Wheel :=
  { tiw with nextTimeoutPos := pos, nextTimeoutTime := clktcksToMonotonic pos }

/-! ## The timerfd canary -/

end Wheel

/-- What the kernel answers to `pon_timer_wheel_arm`. -/
structure ArmAnswers where
  /-- `timerfd_create` -/
  created : ℤ
  /-- the clock -/
  now : ℤ
  /-- does `timerfd_settime` succeed? -/
  settime : Bool

namespace Wheel

/-- `pon_timer_wheel_arm` -/
def ponTimerWheelArm (tiw : Wheel) (a : ArmAnswers) : Wheel :=
  let fd := if tiw.ponFd = -1 then a.created else tiw.ponFd
  let tiw := { tiw with ponFd := fd }
  if fd = -1 then { tiw with ponArmedDeadline := -1 }
  else if tiw.nextTimeoutTime = tiw.ponArmedDeadline then tiw
  else if monotonicToUsec tiw.nextTimeoutTime - monotonicToUsec a.now < 1000 then
    if tiw.ponArmedDeadline ≠ -1 ∧ a.settime then { tiw with ponArmedDeadline := -1 } else tiw
  else if a.settime then { tiw with ponArmedDeadline := tiw.nextTimeoutTime }
  else tiw

/-- `pon_timer_wheel_can_skip_scan`; `remain` is what `timerfd_gettime` answers. -/
def ponTimerWheelCanSkipScan (tiw : Wheel) (remain : Option ℤ) : Bool :=
  tiw.ponFd ≠ -1 ∧ tiw.ponArmedDeadline ≠ -1 ∧ remain ≠ none ∧ remain ≠ some 0

/-! ## Searching for the next timeout -/

/-- The end of `find_next_timeout`. -/
def foundTimeout (tiw : Wheel) (minTimeoutPos : ℤ) (trueMinTimeout : Bool) : Wheel :=
  let limit := tiw.pos + clktcksWeek
  let tiw := tiw.setNextTimeout (if minTimeoutPos > limit then limit else minTimeoutPos)
  { tiw with trueNextTimeoutTime := if minTimeoutPos > limit then false else trueMinTimeout }

/-- `find_next_timeout` in the later wheel. -/
def findLaterTimeout (tiw : Wheel) : Wheel :=
  let minTpos := laterPosMask tiw.laterMinTpos
  let tmp := (minTpos - tiw.laterPos) / laterWheelSlotSize
  if minTpos > tiw.laterPos ∧ tmp ≥ laterWheelSize then
    tiw.foundTimeout (minTpos - laterWheelSlotSize) false
  else
    let tpos := if minTpos ≤ tiw.laterPos then tiw.laterPos else minTpos
    let slots := if minTpos ≤ tiw.laterPos then laterWheelSize else laterWheelSize - tmp
    let slot := laterSlot tpos
    let next := scntLaterWheelNext slot slots tiw.scnt
    let found : Bool := tiw.w slot ≠ []
    let tpos := if found then tpos else tpos + laterWheelSlotSize * (slots - next.2)
    let tiw := { tiw with
      laterMinTpos := tpos
      laterMinTposSlot := if found then slot else next.1 }
    tiw.foundTimeout (tpos - laterWheelSlotSize) found

/-- The two slots of the later wheel that may come before the soon wheel's timers. -/
def laterPreTimeout (tiw : Wheel) : ℤ :=
  let minTimeoutPos := tiw.pos + soonWheelSize
  if tiw.laterMinTpos > tiw.laterPos + 2 * laterWheelSlotSize then minTimeoutPos
  else
    let fslot := laterSlot tiw.laterPos
    if tiw.w fslot ≠ [] then tiw.laterPos - laterWheelSlotSize
    else if tiw.laterPos < minTimeoutPos then
      let fslot := if fslot + 1 = laterWheelEndSlot then laterWheelFirstSlot else fslot + 1
      if tiw.w fslot ≠ [] then tiw.laterPos else minTimeoutPos
    else minTimeoutPos

/-- The loop over the soon wheel; the position moves on at each turn. -/
def searchSoon (tiw : Wheel) (minTimeoutPos : ℤ) : ℕ → ℤ → ℤ → ℤ → ℤ
  | 0, _, _, _ => minTimeoutPos
  | fuel + 1, slot, slots, tpos =>
    if tpos < minTimeoutPos then
      if tiw.w slot ≠ [] then tpos
      else
        let next := scntSoonWheelNext slot slots tiw.scnt
        searchSoon tiw minTimeoutPos fuel next.1 next.2 (tpos + (slots - next.2))
    else minTimeoutPos

/-- `find_next_timeout` in the soon wheel. -/
def findSoonTimeout (tiw : Wheel) : Wheel :=
  let minTimeoutPos := tiw.laterPreTimeout
  let tpos := if tiw.soonMinTpos ≤ tiw.pos then tiw.pos else tiw.soonMinTpos
  let slots := soonWheelSize - (tpos - tiw.pos)
  let minTimeoutPos := tiw.searchSoon minTimeoutPos (minTimeoutPos - tpos).toNat (soonSlot tpos)
    slots tpos
  let tiw := { tiw with soonMinTpos := minTimeoutPos }
  tiw.foundTimeout minTimeoutPos true

/-- `find_next_timeout`; `currTime` is the clock, read if the wheel is empty. -/
def findNextTimeout (tiw : Wheel) (currTime : ℤ) : Wheel :=
  if tiw.nto = 0 then
    let minTimeoutPos := monotonicToClktcks currTime
    let tiw := { tiw with
      pos := minTimeoutPos
      laterPos := laterPosMask (minTimeoutPos + soonWheelSize) }
    tiw.foundTimeout (minTimeoutPos + clktcksWeek) false
  else if tiw.soonNto = 0 then tiw.findLaterTimeout
  else tiw.findSoonTimeout

/-- `erts_check_next_timeout_time`: the wheel after it; it answers `next_timeout_time`. -/
def checkNextTimeoutTime (tiw : Wheel) (remain : Option ℤ) (currTime : ℤ) : Wheel :=
  if tiw.trueNextTimeoutTime then tiw
  else if tiw.nextTimeoutPos > tiw.pos + soonWheelSize then tiw
  else if tiw.ponTimerWheelCanSkipScan remain then tiw
  else tiw.findNextTimeout currTime

/-! ## The timer API -/

/-- `erts_create_timer_wheel` at the time `mtime`. -/
def create (mtime : ℤ) (a : ArmAnswers) (bumpScnt : ℤ → ℤ) (yieldSlotsLeft : ℤ)
    (timeoutPos : Tmr → ℤ) : Wheel :=
  let pos := monotonicToClktcks mtime
  let tiw : Wheel :=
    { w := fun _ => []
      scnt := fun _ => 0
      bumpScnt := bumpScnt
      pos := pos
      nto := 0
      atOnceNto := 0
      soonMinTpos := maxClktcks
      soonNto := 0
      laterMinTpos := maxClktcks
      laterMinTposSlot := laterWheelEndSlot
      laterPos := laterPosMask (pos + soonWheelSize)
      laterNto := 0
      yieldSlot := slotInactive
      yieldSlotsLeft := yieldSlotsLeft
      sentinel := []
      trueNextTimeoutTime := false
      nextTimeoutPos := pos + clktcksWeek
      nextTimeoutTime := clktcksToMonotonic (pos + clktcksWeek)
      ponFd := -1
      ponArmedDeadline := -1
      slot := fun _ => slotInactive
      timeoutPos := timeoutPos }
  tiw.ponTimerWheelArm a

/-- The slot a timer is set into. -/
def targetSlot (tiw : Wheel) (timeoutPos : ℤ) : ℤ :=
  if timeoutPos ≤ tiw.pos then slotAtOnce
  else if timeoutPos < tiw.pos + soonWheelSize then soonSlot timeoutPos
  else laterSlot timeoutPos

/-- The tick the wheel has to be bumped at for a timer being set. -/
def wakeUpPos (tiw : Wheel) (timeoutPos : ℤ) : ℤ :=
  if timeoutPos ≤ tiw.pos then tiw.pos
  else if timeoutPos < tiw.pos + soonWheelSize then timeoutPos
  else laterPosMask timeoutPos - laterWheelSlotSize

/-- What `erts_twheel_set_timer` writes before it inserts the timer. -/
def startTimer (tiw : Wheel) (p : Tmr) (timeoutPos : ℤ) : Wheel :=
  { tiw with
    nto := tiw.nto + 1
    timeoutPos := Function.update tiw.timeoutPos p
      (if timeoutPos ≤ tiw.pos then tiw.pos else timeoutPos)
    soonMinTpos :=
      if tiw.pos < timeoutPos ∧ timeoutPos < tiw.pos + soonWheelSize ∧
          tiw.soonMinTpos > timeoutPos then timeoutPos
      else tiw.soonMinTpos }

/-- The end of `erts_twheel_set_timer`: the wheel has to be bumped at `timeoutPos`. -/
def noteTimeout (tiw : Wheel) (timeoutPos : ℤ) (a : ArmAnswers) : Wheel :=
  if timeoutPos ≤ tiw.nextTimeoutPos then
    let tiw := { tiw with trueNextTimeoutTime := true }
    if timeoutPos < tiw.nextTimeoutPos then
      (tiw.setNextTimeout timeoutPos).ponTimerWheelArm a
    else tiw
  else tiw

/-- `erts_twheel_set_timer` -/
def setTimer (tiw : Wheel) (p : Tmr) (timeoutPos : ℤ) (a : ArmAnswers) : Wheel :=
  ((tiw.startTimer p timeoutPos).insertTimerIntoSlot (tiw.targetSlot timeoutPos) p).noteTimeout
    (tiw.wakeUpPos timeoutPos) a

/-- `erts_twheel_cancel_timer` -/
def cancelTimer (tiw : Wheel) (p : Tmr) : Wheel :=
  if tiw.slot p ≠ slotInactive then
    let tiw := tiw.removeTimer p
    { tiw with nto := tiw.nto - 1 }
  else tiw

end Wheel

end PonBeam.TimerWheel
