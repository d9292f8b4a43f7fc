import PonBeam.Lib.System
import Mathlib.Logic.Function.Basic
import Mathlib.Data.Nat.Notation

/-!
# The Condition (`pon_condition.c`)

Any number of notifier threads and one scheduler thread, interleaved at single
accesses to what they share: `ready_list`, the first word of each process (its `next`
word while it is queued), `satisfied`, and the eventfd counter. Between two accesses a
thread is at a program counter that holds its locals. A label names the thread that
moves; what it does is decided by its program counter, so a run is a list of labels.

A process may be notified while it is `free`: before its first notification, and
again once the scheduler has taken it and followed its `next` word. The list `pushes`
records the successful pushes, the last one first, and `followed` the processes the
scheduler is through with.
-/

namespace PonBeam.Condition

/-- The address of a process. -/
abbrev Process : Type := ℕ

/-- Where a notifier stands in `pon_condition_notify`. -/
inductive NotifyPc : Type where
  /-- between calls -/
  | idle
  /-- about to load `ready_list` -/
  | load (p : Process)
  /-- about to store `*node = old_head` -/
  | store (p : Process) (oldHead : Option Process)
  /-- about to compare and exchange `ready_list` -/
  | cas (p : Process) (oldHead : Option Process)
  /-- pushed; about to read `satisfied` -/
  | readSat
  /-- it was 0; about to write `satisfied = 1` -/
  | writeSat
  /-- about to write the eventfd -/
  | writeFd
  deriving DecidableEq, Repr

/-- Where the scheduler stands in `pon_condition_wait` or `pon_condition_try_dequeue`. -/
inductive SchedPc : Type where
  /-- between calls -/
  | idle
  /-- wait: about to load `ready_list` -/
  | waitLoad
  /-- wait: about to exchange `head` for NULL -/
  | waitCas (head : Process)
  /-- wait: took the list; about to write `satisfied = 0` -/
  | waitReset (head : Process)
  /-- wait: in `while (read(wake_fd) > 0)` -/
  | waitDrain (head : Process)
  /-- wait: the list was empty; about to read `satisfied` -/
  | waitReadSat
  /-- wait: it was 1; about to read the eventfd -/
  | waitReadFd
  /-- wait: the eventfd had data; about to write `satisfied = 0` and start over -/
  | waitResetContinue
  /-- wait: it had none; about to write `satisfied = 0` -/
  | waitResetBlock
  /-- wait: in `epoll_wait` -/
  | waitEpoll
  /-- wait: woken up; about to write `satisfied = 1` -/
  | waitSetSat
  /-- try: about to load `ready_list` -/
  | tryLoad
  /-- try: about to read `*node` -/
  | tryNext (head : Process)
  /-- try: about to exchange `head` for `next` -/
  | tryCas (head : Process) (next : Option Process)
  /-- try: took the last one; about to write `satisfied = 0` -/
  | tryReset
  deriving DecidableEq, Repr

/-- `ErtsCondition`, the `next` words, and the threads at it. -/
structure Cond where
  /-- the head of the lock-free list -/
  readyList : Option Process
  /-- the first word of each process -/
  next : Process → Option Process
  /-- 1 if there is work -/
  satisfied : Bool
  /-- the eventfd counter -/
  counter : ℕ
  /-- the notifiers -/
  notifier : ℕ → NotifyPc
  /-- the scheduler -/
  sched : SchedPc
  /-- the chains returned by `wait`, each where the scheduler has got to -/
  cursors : List Process
  /-- may be notified -/
  free : Process → Bool
  /-- the successful pushes, the last one first -/
  pushes : List Process
  /-- the processes the scheduler is through with -/
  followed : List Process

namespace Cond

/-- After `pon_condition_create`, with no call made. -/
def create : Cond where
  readyList := none
  next _ := none
  satisfied := false
  counter := 0
  notifier _ := .idle
  sched := .idle
  cursors := []
  free _ := true
  pushes := []
  followed := []

/-- Notifier `t` goes to `pc`. -/
def goto (s : Cond) (t : ℕ) (pc : NotifyPc) : Cond :=
  { s with notifier := Function.update s.notifier t pc }

/-- The scheduler goes to `pc`. -/
def schedGoto (s : Cond) (pc : SchedPc) : Cond := { s with sched := pc }

/-- `cond->satisfied = b` -/
def setSatisfied (s : Cond) (b : Bool) : Cond := { s with satisfied := b }

/-- `write(wake_fd, 1)`; it fails when the counter is full. -/
def writeFd (s : Cond) : Cond :=
  { s with counter := if s.counter < 18446744073709551614 then s.counter + 1 else s.counter }

/-- `read(wake_fd)` of a counter that is not 0. -/
def readFd (s : Cond) : Cond := { s with counter := 0 }

/-- `*node = old_head` -/
def storeNext (s : Cond) (p : Process) (q : Option Process) : Cond :=
  { s with next := Function.update s.next p q }

/-- The push of `p` succeeds. -/
def push (s : Cond) (p : Process) : Cond :=
  { s with readyList := some p, pushes := p :: s.pushes }

/-- The whole list is taken. -/
def takeAll (s : Cond) : Cond := { s with readyList := none }

/-- `wait` returns the chain that starts at `head`. -/
def handOver (s : Cond) (head : Process) : Cond := { s with cursors := head :: s.cursors }

/-- The scheduler is through with `p`: it may be notified again. -/
def finish (s : Cond) (p : Process) : Cond :=
  { s with followed := p :: s.followed, free := Function.update s.free p true }

/-- `try_dequeue` takes `head`, leaving `next`. -/
def takeHead (s : Cond) (head : Process) (next : Option Process) : Cond :=
  { s with readyList := next }.finish head

end Cond

open Cond

/-- The next access of notifier `t`. -/
def notifierStep (s : Cond) (t : ℕ) : Option Cond :=
  match s.notifier t with
  | .idle => none
  | .load p => some (s.goto t (.store p s.readyList))
  | .store p oldHead => some ((s.storeNext p oldHead).goto t (.cas p oldHead))
  | .cas p oldHead =>
    if s.readyList = oldHead then some ((s.push p).goto t .readSat)
    else some (s.goto t (.load p))
  | .readSat => some (s.goto t (if s.satisfied then .idle else .writeSat))
  | .writeSat => some ((s.setSatisfied true).goto t .writeFd)
  | .writeFd => some (s.writeFd.goto t .idle)

/-- The next access of the scheduler. In `epoll_wait` it has none while the counter is 0. -/
def schedStep (s : Cond) : Option Cond :=
  match s.sched with
  | .idle => none
  | .waitLoad =>
    match s.readyList with
    | some head => some (s.schedGoto (.waitCas head))
    | none => some (s.schedGoto .waitReadSat)
  | .waitCas head =>
    if s.readyList = some head then some (s.takeAll.schedGoto (.waitReset head))
    else some (s.schedGoto .waitLoad)
  | .waitReset head => some ((s.setSatisfied false).schedGoto (.waitDrain head))
  | .waitDrain head =>
    if 0 < s.counter then some s.readFd else some ((s.handOver head).schedGoto .idle)
  | .waitReadSat => some (s.schedGoto (if s.satisfied then .waitReadFd else .waitEpoll))
  | .waitReadFd =>
    if 0 < s.counter then some (s.readFd.schedGoto .waitResetContinue)
    else some (s.schedGoto .waitResetBlock)
  | .waitResetContinue => some ((s.setSatisfied false).schedGoto .waitLoad)
  | .waitResetBlock => some ((s.setSatisfied false).schedGoto .waitEpoll)
  | .waitEpoll => if 0 < s.counter then some (s.schedGoto .waitSetSat) else none
  | .waitSetSat => some ((s.setSatisfied true).schedGoto .waitLoad)
  | .tryLoad =>
    match s.readyList with
    | none => some (s.schedGoto .idle)
    | some head => some (s.schedGoto (.tryNext head))
  | .tryNext head => some (s.schedGoto (.tryCas head (s.next head)))
  | .tryCas head next =>
    if s.readyList = some head then
      some ((s.takeHead head next).schedGoto (if next = none then .tryReset else .idle))
    else some (s.schedGoto .idle)
  | .tryReset => some ((s.setSatisfied false).schedGoto .idle)

/-- Who moves. -/
inductive Move : Type where
  /-- notifier `t` calls `pon_condition_notify(cond, p)` -/
  | notify (t : ℕ) (p : Process)
  /-- the next access of notifier `t` -/
  | notifier (t : ℕ)
  /-- the weak exchange of notifier `t` fails spuriously -/
  | spurious (t : ℕ)
  /-- the scheduler calls `pon_condition_wait` -/
  | wait
  /-- the scheduler calls `pon_condition_try_dequeue` -/
  | tryDequeue
  /-- the next access of the scheduler -/
  | sched
  /-- `epoll_wait` is interrupted -/
  | interrupt
  /-- the scheduler follows the `next` word at the `i`-th chain it holds -/
  | follow (i : ℕ)
  deriving DecidableEq, Repr

/-- One move. -/
def move (s : Cond) : Move → Option Cond
  | .notify t p =>
    if s.notifier t = .idle ∧ s.free p = true then
      some ({ s with free := Function.update s.free p false }.goto t (.load p))
    else none
  | .notifier t => notifierStep s t
  | .spurious t =>
    match s.notifier t with
    | .cas p _ => some (s.goto t (.load p))
    | _ => none
  | .wait => if s.sched = .idle then some (s.schedGoto .waitLoad) else none
  | .tryDequeue => if s.sched = .idle then some (s.schedGoto .tryLoad) else none
  | .sched => schedStep s
  | .interrupt => if s.sched = .waitEpoll then some (s.schedGoto .waitLoad) else none
  | .follow i =>
    if s.sched = .idle then
      match s.cursors[i]? with
      | some p =>
        some { s.finish p with cursors := (s.next p).toList ++ s.cursors.eraseIdx i }
      | none => none
    else none

/-- The threads at one Condition. -/
def condSystem : System Cond Move where
  init s := s = create
  step s a s' := move s a = some s'

/-- A whole run. -/
def run : Cond → List Move → Option Cond
  | s, [] => some s
  | s, a :: as => (move s a).bind fun s => run s as

theorem reach_of_run {s s' : Cond} (h : condSystem.Reach s) :
    ∀ {as : List Move}, run s as = some s' → condSystem.Reach s' := by
  intro as
  induction as generalizing s with
  | nil =>
    intro hrun
    obtain rfl := Option.some.inj hrun
    exact h
  | cons a as ih =>
    intro hrun
    obtain ⟨m, hm, hrest⟩ := Option.bind_eq_some_iff.mp hrun
    exact ih (h.next hm) hrest

end PonBeam.Condition
