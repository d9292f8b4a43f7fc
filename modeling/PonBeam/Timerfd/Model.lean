import PonBeam.Lib.System
import Mathlib.Data.Set.Card
import Mathlib.Data.List.Basic
import Mathlib.Data.Int.Notation

/-!
# Timer instigations (`pon_timer.c`)

A timer instigation wraps one Linux timerfd. The model has the instigation objects and, beside
them, what the kernel keeps: the open timerfds with the instant they expire, and the interest
list of the epoll descriptor, where each timerfd is registered with the object to fire.

A system call that may fail takes its answer from the environment. The kernel itself does what
its manual says: a one-shot timerfd becomes readable when its time has come and stays readable
until it is read or closed, closing a descriptor also takes it off the interest list, and
`epoll_wait` reports as many registered readable descriptors as fit, in any order.

The monotonic clock counts nanoseconds. `target`, `message`, `type` and `next` of the base
instigation are not used by these functions and are left out.
-/

namespace PonBeam.Timerfd

/-- A file descriptor. -/
abbrev Fd : Type := ℕ

/-- The address of an `ErtsTimerInstigation`. -/
abbrev Inst : Type := ℕ

/-- `PON_TIMER_MIN_MS` -/
def ponTimerMinMs : ℕ := 1

/-- `PON_TIMER_MAX_EVENTS` -/
def ponTimerMaxEvents : ℕ := 64

/-- `ErtsTimerInstigation`. -/
structure ErtsTimerInstigation where
  /-- `base.fired` -/
  fired : Bool
  /-- the timerfd; `none` is -1 -/
  timerFd : Option Fd
  /-- when to expire, in milliseconds from the creation of the timer -/
  expirationMs : ℕ
  deriving DecidableEq, Repr

/-- An open timerfd. -/
structure TimerFd where
  /-- when it expires; `none` while it is not armed -/
  deadline : Option ℕ
  /-- the expiration was read -/
  consumed : Bool
  deriving DecidableEq, Repr

/-- The instigations and the kernel's side of them. -/
structure State where
  /-- `CLOCK_MONOTONIC` -/
  now : ℕ
  /-- the open timerfds -/
  fds : Fd → Option TimerFd
  /-- `pon_timer_epoll_fd` and its interest list; `none` is -1 -/
  epoll : Option (List (Fd × Inst))
  /-- the objects -/
  inst : Inst → ErtsTimerInstigation

namespace State

/-- Change the object `i`. -/
def modify (s : State) (i : Inst) (f : ErtsTimerInstigation → ErtsTimerInstigation) : State :=
  { s with inst := Function.update s.inst i (f (s.inst i)) }

/-- `timerfd_create` that answers `fd`. -/
def timerfdCreate (s : State) (fd : Fd) : State :=
  { s with fds := Function.update s.fds fd (some ⟨none, false⟩) }

/-- `timerfd_settime` with a relative time of `sec` seconds and `nsec` nanoseconds; a time of
zero disarms the timer. -/
def timerfdSettime (s : State) (fd : Fd) (sec nsec : ℕ) : State :=
  let delay := sec * 1000000000 + nsec
  { s with
    fds := Function.update s.fds fd
      (some ⟨if delay = 0 then none else some (s.now + delay), false⟩) }

/-- `epoll_ctl(pon_timer_epoll_fd, EPOLL_CTL_ADD, fd, i)` -/
def epollAdd (s : State) (fd : Fd) (i : Inst) : State :=
  { s with epoll := s.epoll.map fun l => (fd, i) :: l }

/-- `epoll_ctl(pon_timer_epoll_fd, EPOLL_CTL_DEL, fd, NULL)` -/
def epollDel (s : State) (fd : Fd) : State :=
  { s with epoll := s.epoll.map fun l => l.filter fun e => e.1 ≠ fd }

/-- `close(fd)` -/
def close (s : State) (fd : Fd) : State :=
  { s.epollDel fd with fds := Function.update s.fds fd none }

/-- Is `fd` readable? -/
def readable (s : State) (fd : Fd) : Bool :=
  match s.fds fd with
  | some ⟨some deadline, false⟩ => deadline ≤ s.now
  | _ => false

/-- `read(fd, ..)` of a readable descriptor. -/
def consume (s : State) (fd : Fd) : State :=
  { s with fds := Function.update s.fds fd ((s.fds fd).map fun t => { t with consumed := true }) }

/-- The registered descriptors with their objects. -/
def interest (s : State) : List (Fd × Inst) := s.epoll.getD []

/-- What `epoll_wait` has to report. -/
def ready (s : State) : List (Fd × Inst) := s.interest.filter fun e => s.readable e.1

end State

/-- `ERTS_INIT_TIMER_INSTIGATION` -/
def ertsInitTimerInstigation (s : State) (i : Inst) (timeoutMs : ℕ) : State :=
  s.modify i fun _ => ⟨false, none, timeoutMs⟩

/-- The answers of the system calls in `pon_timer_instigation_create`. -/
structure CreateEnv where
  /-- `timerfd_create`; `none` is -1 -/
  tfd : Option Fd
  /-- `timerfd_settime` -/
  settimeOk : Bool
  /-- `epoll_ctl` -/
  ctlOk : Bool
  deriving DecidableEq, Repr

/-- `pon_timer_instigation_create` -/
def ponTimerInstigationCreate (s : State) (i : Inst) (env : CreateEnv) : ℤ × State :=
  let timeoutMs := (s.inst i).expirationMs
  if timeoutMs < ponTimerMinMs then (-1, s)
  else
    match env.tfd with
    | none => (-1, s)
    | some tfd =>
      let s := s.timerfdCreate tfd
      if env.settimeOk then
        let s := s.timerfdSettime tfd (timeoutMs / 1000) (timeoutMs % 1000 * 1000000)
        match s.epoll with
        | none => (0, s.modify i fun t => { t with timerFd := some tfd })
        | some _ =>
          if env.ctlOk then
            (0, (s.epollAdd tfd i).modify i fun t => { t with timerFd := some tfd })
          else (-1, s.close tfd)
      else (-1, s.close tfd)

/-- `pon_timer_instigation_cancel` -/
def ponTimerInstigationCancel (s : State) (i : Inst) : State :=
  match (s.inst i).timerFd with
  | none => s
  | some fd =>
    ((s.epollDel fd).close fd).modify i fun t => { t with timerFd := none, fired := true }

/-- `pon_timer_instigation_fire` -/
def ponTimerInstigationFire (s : State) (i : Inst) : State :=
  if (s.inst i).fired then s
  else
    match (s.inst i).timerFd with
    | none => s
    | some fd =>
      if s.readable fd then (s.consume fd).modify i fun t => { t with fired := true }
      else s

/-- The loop of `pon_timer_process_expirations` over the reported events. -/
def processLoop : List (Fd × Inst) → ℤ × State → ℤ × State
  | [], r => r
  | (_, i) :: events, (processed, s) =>
    processLoop events (processed + 1, ponTimerInstigationFire s i)

/-- `pon_timer_process_expirations`; `events` is what `epoll_wait` reports. -/
def ponTimerProcessExpirations (s : State) (events : List (Fd × Inst)) : ℤ × State :=
  match s.epoll with
  | none => (0, s)
  | some _ => processLoop events (0, s)

/-- `epoll_wait` with room for `PON_TIMER_MAX_EVENTS` events. -/
def EpollWait (s : State) (events : List (Fd × Inst)) : Prop :=
  events.Subperm s.ready ∧ events.length = min ponTimerMaxEvents s.ready.length

/-! ## Runs -/

/-- What was seen of one successful `pon_timer_instigation_create`. -/
structure Activation where
  /-- when its time has elapsed -/
  due : ℕ
  /-- `pon_timer_instigation_cancel` was called for it -/
  cancelled : Bool
  /-- how often its object went from not fired to fired -/
  fires : ℕ
  /-- of these, before its time -/
  early : ℕ
  /-- of these, after it was cancelled -/
  late : ℕ
  deriving DecidableEq, Repr

/-- A state and what was seen on the way to it. -/
structure Seen where
  /-- the state -/
  state : State
  /-- the activations of each object, newest first -/
  acts : Inst → List Activation
  /-- sum of what `pon_timer_process_expirations` returned -/
  returned : ℤ
  /-- number of objects that went from not fired to fired in these calls -/
  went : ℕ

/-- The object went from not fired to fired. -/
def Went (s s' : State) (i : Inst) : Prop :=
  (s.inst i).fired = false ∧ (s'.inst i).fired = true

instance (s s' : State) (i : Inst) : Decidable (Went s s' i) :=
  inferInstanceAs (Decidable (_ ∧ _))

namespace Activation

/-- Its object went from not fired to fired at `now`. -/
def fire (now : ℕ) (a : Activation) : Activation :=
  { a with
    fires := a.fires + 1
    early := a.early + if now < a.due then 1 else 0
    late := a.late + if a.cancelled then 1 else 0 }

/-- `pon_timer_instigation_cancel` was called. -/
def cancel (a : Activation) : Activation := { a with cancelled := true }

end Activation

/-- Change the newest activation. -/
def onNewest (f : Activation → Activation) : List Activation → List Activation
  | [] => []
  | a :: rest => f a :: rest

/-- Credit the objects that went from not fired to fired between `s` and `s'`. -/
def creditFires (s s' : State) (acts : Inst → List Activation) (i : Inst) : List Activation :=
  if Went s s' i then onNewest (Activation.fire s.now) (acts i) else acts i

/-- What can happen. -/
inductive Label : Type where
  /-- time passes -/
  | tick (ns : ℕ)
  /-- `ERTS_INIT_TIMER_INSTIGATION` -/
  | init (i : Inst) (timeoutMs : ℕ)
  /-- `pon_timer_instigation_create` -/
  | create (i : Inst) (env : CreateEnv)
  /-- `pon_timer_instigation_cancel` -/
  | cancel (i : Inst)
  /-- `pon_timer_instigation_fire` -/
  | fire (i : Inst)
  /-- `pon_timer_process_expirations` -/
  | process (events : List (Fd × Inst))
  deriving DecidableEq, Repr

namespace Seen

variable (g : Seen)

/-- `pon_timer_instigation_create`, seen: success starts an activation. -/
def create (i : Inst) (env : CreateEnv) : Seen :=
  let r := ponTimerInstigationCreate g.state i env
  { g with
    state := r.2
    acts :=
      if r.1 = 0 then
        Function.update g.acts i
          (⟨g.state.now + (g.state.inst i).expirationMs * 1000000, false, 0, 0, 0⟩ :: g.acts i)
      else g.acts }

/-- `pon_timer_instigation_cancel`, seen. -/
def cancel (i : Inst) : Seen :=
  { g with
    state := ponTimerInstigationCancel g.state i
    acts := Function.update g.acts i (onNewest Activation.cancel (g.acts i)) }

/-- `pon_timer_instigation_fire`, seen. -/
def fire (i : Inst) : Seen :=
  let s' := ponTimerInstigationFire g.state i
  { g with state := s', acts := creditFires g.state s' g.acts }

/-- `pon_timer_process_expirations`, seen. -/
noncomputable def process (events : List (Fd × Inst)) : Seen :=
  let r := ponTimerProcessExpirations g.state events
  { state := r.2
    acts := creditFires g.state r.2 g.acts
    returned := g.returned + r.1
    went := g.went + Set.ncard {i | Went g.state r.2 i} }

end Seen

/-- The environment's answers that are possible in `s`: a new descriptor is not open yet, and
`epoll_wait` reports what is ready. -/
def Possible (s : State) : Label → Prop
  | .create _ env => ∀ fd, env.tfd = some fd → s.fds fd = none
  | .process events => EpollWait s events
  | _ => True

/-- The state after a step, and what was seen of it. -/
noncomputable def next (g : Seen) : Label → Seen
  | .tick ns => { g with state := { g.state with now := g.state.now + ns } }
  | .init i timeoutMs => { g with state := ertsInitTimerInstigation g.state i timeoutMs }
  | .create i env => g.create i env
  | .cancel i => g.cancel i
  | .fire i => g.fire i
  | .process events => g.process events

/-- Runs start with initialised objects, before or after `pon_timer_init`. -/
def Initial (g : Seen) : Prop :=
  (∀ i, (g.state.inst i).fired = false ∧ (g.state.inst i).timerFd = none) ∧
    (∀ fd, g.state.fds fd = none) ∧ g.state.interest = [] ∧
    (∀ i, g.acts i = []) ∧ g.returned = 0 ∧ g.went = 0

/-- Every interleaving of the calls on any objects. -/
def timers : System Seen Label where
  init := Initial
  step g l g' := Possible g.state l ∧ g' = next g l

end PonBeam.Timerfd
