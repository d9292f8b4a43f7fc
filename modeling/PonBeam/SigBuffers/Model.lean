import Mathlib.Data.Finset.Basic
import Mathlib.Data.Fintype.Basic
import Mathlib.Data.List.FinRange

/-!
# Parallel signal buffers (`erl_proc_sig_queue.c`, `erl_message.h`)

A process with many senders gets 64 buffers. A sender locks the buffer its identifier hashes to
instead of the whole in-queue, and whoever holds the lock of the in-queue, `MSGQ`, flushes the
buffers into it. Threads share the atomic words `nonempty_slots`, `msgs_in_slots`,
`nonmsgs_in_slots`, `sig_inq_buffers` and the process `state`, whose two bits for signals in the
in-queue tell the receiver to look there.

Each step is one access to a shared word, together with what its thread does in its own memory
and under the locks it holds. The words are sequentially consistent. The signals of a queue are
a list; the pointers are in `SigQueue`. How the receiver is put on a run queue, the reference
counts that keep an array in memory, and receivers that exit are left out.
-/

namespace PonBeam.SigBuffers

/-- `ERTS_PROC_SIG_INQ_BUFFERED_NR_OF_BUFFERS` -/
def nrOfBuffers : ℕ := 64

/-- `ERTS_PROC_SIG_INQ_BUFFERED_CONTENTION_INSTALL_LIMIT` -/
def contentionInstallLimit : ℕ := 50

/-- `ERTS_PROC_SIG_INQ_BUFFERED_MIN_FLUSH_ALL_OPS_BEFORE_CHANGE` -/
def minFlushAllOpsBeforeChange : ℕ := 8192

/-- `ERTS_PROC_SIG_INQ_BUFFERED_MIN_NO_ENQUEUES_TO_KEEP` -/
def minNoEnqueuesToKeep : ℕ := minFlushAllOpsBeforeChange + minFlushAllOpsBeforeChange / 2

/-- The index of a buffer. -/
abbrev Slot : Type := Fin nrOfBuffers

/-- The address of an array of buffers. -/
abbrev Addr : Type := ℕ

variable {Pid Payload : Type}

/-- A signal. -/
structure Signal (Pid Payload : Type) where
  /-- who sent it -/
  sender : Pid
  /-- `ERTS_SIG_IS_MSG` -/
  isMsg : Bool
  /-- what it says -/
  payload : Payload
  deriving DecidableEq, Repr

/-- `ERTS_SIG_IS_NON_MSG(first)` of a chain of signals. -/
def nonmsg (chain : List (Signal Pid Payload)) : Bool :=
  match chain with
  | [] => false
  | first :: _ => !first.isMsg

/-- Messages only, non-message signals only, or one non-message signal and then messages. -/
def Shape (chain : List (Signal Pid Payload)) : Prop :=
  chain ≠ [] ∧ ((∀ x ∈ chain, x.isMsg = true) ∨ (∀ x ∈ chain, x.isMsg = false) ∨
    nonmsg chain = true ∧ ∀ x ∈ chain.tail, x.isMsg = true)

/-- What a sender may enqueue. -/
def ValidChain (t : Pid) (chain : List (Signal Pid Payload)) : Prop :=
  Shape chain ∧ ∀ x ∈ chain, x.sender = t

/-- Where a thread is in `erts_proc_sig_queue_try_enqueue_to_buffer`, with a buffer locked. -/
inductive Pc : Type where
  /-- sets `msgs_in_slots` -/
  | setMsgs
  /-- sets `nonmsgs_in_slots` -/
  | setNonmsgs
  /-- reads or sets its bit of `nonempty_slots` -/
  | mark
  /-- reads `msgs_in_slots` -/
  | checkMsgs
  /-- reads `nonmsgs_in_slots` -/
  | checkNonmsgs
  /-- reads the `state` of the receiver -/
  | readState
  /-- appends its signals, having read these bits of `state` -/
  | enqueue (msg nmsg : Bool)
  /-- unlocks the buffer -/
  | unlock
  deriving DecidableEq, Repr

/-- A thread that has locked a buffer. -/
structure Enqueuer (Pid Payload : Type) where
  /-- `from` -/
  sender : Pid
  /-- the signals -/
  chain : List (Signal Pid Payload)
  /-- where it is -/
  pc : Pc
  deriving DecidableEq, Repr

/-- `ErtsSignalInQueueBuffer` -/
structure Buffer (Pid Payload : Type) where
  /-- `lock`, with the thread that has it; a flush has it only within a step -/
  lock : Option (Enqueuer Pid Payload)
  /-- `alive` -/
  alive : Bool
  /-- `nr_of_enqueues` -/
  nrOfEnqueues : ℕ
  /-- `queue` -/
  queue : List (Signal Pid Payload)

/-- `ErtsSignalInQueueBufferArray` -/
structure BufferArray (Pid Payload : Type) where
  /-- `slots` -/
  slots : Slot → Buffer Pid Payload
  /-- the bits of `nonempty_slots` -/
  nonemptySlots : Finset Slot
  /-- `nonmsgs_in_slots` -/
  nonmsgsInSlots : Bool
  /-- `msgs_in_slots` -/
  msgsInSlots : Bool
  /-- `nr_of_rounds_left` -/
  nrOfRoundsLeft : ℕ
  /-- `nr_of_enqueues` -/
  nrOfEnqueues : ℕ
  /-- `alive` -/
  alive : Bool

/-- A thread that enqueues on the in-queue itself, with the bits of `state` it has read. -/
structure Direct (Pid Payload : Type) where
  /-- who sends -/
  sender : Pid
  /-- the signals -/
  chain : List (Signal Pid Payload)
  /-- `ERTS_PSFLG_MSG_SIG_IN_Q` -/
  msg : Bool
  /-- `ERTS_PSFLG_NMSG_SIG_IN_Q` -/
  nmsg : Bool
  deriving DecidableEq, Repr

/-- Why the buffers are flushed. -/
inductive Task (Pid Payload : Type) : Type where
  /-- by `erts_proc_sig_fetch__` -/
  | fetch
  /-- by a sender, with `force_flush` or not, and whether it will flush `again` -/
  | direct (d : Direct Pid Payload) (force again : Bool)
  /-- by `erts_change_message_queue_management` -/
  | change
  deriving DecidableEq, Repr

/-- Where the holder of `MSGQ` is in `proc_sig_queue_flush_buffers`. -/
inductive FlushPc : Type where
  /-- sets `msgs_in_slots` to 0 -/
  | clearMsgs
  /-- sets `nonmsgs_in_slots` to 0 -/
  | clearNonmsgs
  /-- exchanges `nonempty_slots` for 0 -/
  | exchange
  /-- flushes the buffers whose bits were set; these are left -/
  | slots (pending : List Slot)
  /-- counts the rounds -/
  | rounds
  /-- `erts_proc_sig_queue_flush_and_deinstall_buffers`; these buffers are left -/
  | deinstall (left : List Slot)
  deriving DecidableEq, Repr

/-- Where the holder of `MSGQ` is. -/
inductive Msgq (Pid Payload : Type) : Type where
  /-- nobody has the lock -/
  | free
  /-- a sender reads `state` -/
  | readState (t : Pid) (chain : List (Signal Pid Payload)) (force : Bool)
  /-- a sender calls `erts_proc_sig_queue_maybe_install_buffers`, having read whether the queue
  is off heap -/
  | install (d : Direct Pid Payload) (offHeap : Bool)
  /-- the buffers are flushed -/
  | flush (task : Task Pid Payload) (a : Addr) (pc : FlushPc)
  /-- a sender appends its signals to the in-queue -/
  | link (d : Direct Pid Payload)
  /-- `erts_proc_sig_fetch__` takes the in-queue -/
  | move (buffers : Option Addr)
  /-- it clears the two bits of `state` -/
  | clearState (buffers : Option Addr)
  /-- it reads `nonempty_slots` -/
  | recheckBits (a : Addr)
  /-- it reads `nonmsgs_in_slots` -/
  | recheckNonmsgs (a : Addr)
  /-- it reads `msgs_in_slots` -/
  | recheckMsgs (a : Addr) (nmsg : Bool)
  /-- it sets the two bits of `state` -/
  | setState (msg nmsg : Bool)
  deriving DecidableEq, Repr

/-- Where a sender is. -/
inductive Sender (Pid Payload : Type) : Type where
  /-- nowhere -/
  | idle
  /-- it has got the array at `a` and locks a buffer -/
  | lockBuffer (a : Addr) (chain : List (Signal Pid Payload))
  /-- it has locked a buffer -/
  | inBuffer
  /-- it locks `MSGQ` -/
  | lockMsgq (chain : List (Signal Pid Payload)) (force : Bool)
  /-- it has locked `MSGQ` -/
  | inMsgq
  deriving DecidableEq, Repr

/-- A receiver and those who send to it. -/
structure State (Pid Payload : Type) where
  /-- `sig_inq_buffers` -/
  sigInqBuffers : Option Addr
  /-- the arrays of buffers in memory -/
  arrays : Addr → BufferArray Pid Payload
  /-- what the allocator returns next -/
  nextArray : Addr
  /-- `sig_inq_contention_counter` -/
  contention : ℕ
  /-- `sig_inq` -/
  sigInq : List (Signal Pid Payload)
  /-- all that has been moved to `sig_qs` -/
  sigQs : List (Signal Pid Payload)
  /-- `ERTS_PSFLG_MSG_SIG_IN_Q` -/
  msgSigInQ : Bool
  /-- `ERTS_PSFLG_NMSG_SIG_IN_Q` -/
  nmsgSigInQ : Bool
  /-- `ERTS_PSFLG_OFF_HEAP_MSGQ` -/
  offHeap : Bool
  /-- who has `MSGQ` -/
  msgq : Msgq Pid Payload
  /-- the senders -/
  senders : Pid → Sender Pid Payload

/-! ## Buffers -/

/-- A buffer as it is installed. -/
def Buffer.fresh : Buffer Pid Payload := ⟨none, true, 0, []⟩

/-- An array as it is installed. -/
def BufferArray.fresh : BufferArray Pid Payload :=
  ⟨fun _ => .fresh, ∅, false, false, minFlushAllOpsBeforeChange, 0, true⟩

/-- Memory that no array has been in. -/
def BufferArray.unused : BufferArray Pid Payload :=
  ⟨fun _ => ⟨none, false, 0, []⟩, ∅, false, false, 0, 0, false⟩

/-- Overwrite a buffer. -/
def BufferArray.setSlot (buffers : BufferArray Pid Payload) (i : Slot)
    (b : Buffer Pid Payload) : BufferArray Pid Payload :=
  { buffers with slots := fun j => if j = i then b else buffers.slots j }

namespace State

/-- A process that nobody has sent to. -/
def init : State Pid Payload :=
  ⟨none, fun _ => .unused, 0, 0, [], [], false, false, false, .free, fun _ => .idle⟩

/-- Overwrite an array. -/
def setArray (s : State Pid Payload) (a : Addr) (buffers : BufferArray Pid Payload) :
    State Pid Payload :=
  { s with arrays := fun a' => if a' = a then buffers else s.arrays a' }

/-- Overwrite a buffer. -/
def setBuffer (s : State Pid Payload) (a : Addr) (i : Slot) (b : Buffer Pid Payload) :
    State Pid Payload :=
  s.setArray a ((s.arrays a).setSlot i b)

/-- Overwrite a sender. -/
def setSender [DecidableEq Pid] (s : State Pid Payload) (t : Pid) (x : Sender Pid Payload) :
    State Pid Payload :=
  { s with senders := fun t' => if t' = t then x else s.senders t' }

/-- Where `enqueue_signals` sets bits of `state`: `msg` and `nmsg` are `set_flags`, and it has
read `seenMsg` and `seenNmsg`. -/
def setFlags (s : State Pid Payload) (seenMsg seenNmsg msg nmsg : Bool) : State Pid Payload :=
  if (msg → seenMsg) ∧ (nmsg → seenNmsg) then s
  else { s with msgSigInQ := s.msgSigInQ || msg, nmsgSigInQ := s.nmsgSigInQ || nmsg }

/-! ## Senders in a buffer -/

/-- The next step of the thread that has locked the buffer `i` at `a`. -/
def bufferStep [DecidableEq Pid] (s : State Pid Payload) (a : Addr) (i : Slot) :
    Option (State Pid Payload) :=
  let buffers := s.arrays a
  let buffer := buffers.slots i
  match buffer.lock with
  | none => none
  | some e =>
    let len := e.chain.countP (·.isMsg)
    let goto := fun (buffers : BufferArray Pid Payload) pc =>
      some (s.setArray a (buffers.setSlot i { buffer with lock := some { e with pc := pc } }))
    match e.pc with
    | .setMsgs =>
      -- a sender that reads 1 does not write, which is no different from writing 1
      goto (if len ≠ 0 then { buffers with msgsInSlots := true } else buffers) .setNonmsgs
    | .setNonmsgs =>
      goto (if nonmsg e.chain then { buffers with nonmsgsInSlots := true } else buffers) .mark
    | .mark =>
      if buffer.queue = [] then
        goto { buffers with nonemptySlots := insert i buffers.nonemptySlots } .checkMsgs
      else if i ∈ buffers.nonemptySlots then goto buffers .checkMsgs
      else goto buffers .readState
    | .checkMsgs =>
      if len ≠ 0 ∧ buffers.msgsInSlots = false then goto buffers .setMsgs
      else goto buffers .checkNonmsgs
    | .checkNonmsgs =>
      if nonmsg e.chain ∧ buffers.nonmsgsInSlots = false then goto buffers .setMsgs
      else goto buffers .readState
    | .readState => goto buffers (.enqueue s.msgSigInQ s.nmsgSigInQ)
    | .enqueue seenMsg seenNmsg =>
      let s := s.setBuffer a i { buffer with
        lock := some { e with pc := .unlock }
        queue := buffer.queue ++ e.chain
        nrOfEnqueues := buffer.nrOfEnqueues + 1 }
      some (s.setFlags seenMsg seenNmsg (decide (len ≠ 0))
        (nonmsg e.chain && buffer.queue.all (·.isMsg)))
    | .unlock => some ((s.setBuffer a i { buffer with lock := none }).setSender e.sender .idle)

/-! ## The holder of `MSGQ` -/

/-- After a flush of the array at `a`, or when there are no buffers to flush. -/
def flushed (s : State Pid Payload) (buffers : Option Addr) :
    Task Pid Payload → Msgq Pid Payload
  | .fetch => .move buffers
  | .direct d _ again =>
    match again, s.sigInqBuffers with
    | true, some a => .flush (.direct d false false) a .clearMsgs
    | _, _ => .link d
  | .change => .free

/-- `erts_proc_sig_queue_flush_buffers` -/
def flushBuffers (s : State Pid Payload) (task : Task Pid Payload) : State Pid Payload :=
  match s.sigInqBuffers with
  | some a => { s with msgq := .flush task a .clearMsgs }
  | none => { s with msgq := s.flushed none task }

/-- `erts_proc_sig_queue_maybe_install_buffers` -/
def maybeInstallBuffers (s : State Pid Payload) (offHeap : Bool) : State Pid Payload :=
  if offHeap = false ∨ s.sigInqBuffers ≠ none ∨ s.contention ≤ contentionInstallLimit then s
  else { s.setArray s.nextArray .fresh with
    contention := 0, nextArray := s.nextArray + 1, sigInqBuffers := some s.nextArray }

/-- The start of `erts_proc_sig_queue_flush_and_deinstall_buffers`. -/
def deinstallBuffers (s : State Pid Payload) (task : Task Pid Payload) (a : Addr) :
    State Pid Payload :=
  if (s.arrays a).alive then
    { s.setArray a { s.arrays a with alive := false } with
      contention := 0, msgq := .flush task a (.deinstall (List.finRange nrOfBuffers)) }
  else { s with msgq := s.flushed (some a) task }

/-- `proc_sig_queue_flush_buffer`, once the buffer is not locked. -/
def flushBuffer (s : State Pid Payload) (a : Addr) (i : Slot) : State Pid Payload :=
  let buffers := s.arrays a
  let buffer := buffers.slots i
  let buffers := { buffers with nrOfEnqueues := buffers.nrOfEnqueues + buffer.nrOfEnqueues }
  match buffer.queue with
  | [] => s.setArray a buffers
  | queue =>
    if buffer.alive then
      { s.setArray a (buffers.setSlot i { buffer with nrOfEnqueues := 0, queue := [] }) with
        sigInq := s.sigInq ++ queue }
    else s.setArray a (buffers.setSlot i { buffer with nrOfEnqueues := 0 })

/-- A step of a flush. -/
def flushStep (s : State Pid Payload) (task : Task Pid Payload) (a : Addr) :
    FlushPc → Option (State Pid Payload)
  | .clearMsgs => some { s.setArray a { s.arrays a with msgsInSlots := false } with
      msgq := .flush task a .clearNonmsgs }
  | .clearNonmsgs => some { s.setArray a { s.arrays a with nonmsgsInSlots := false } with
      msgq := .flush task a .exchange }
  | .exchange =>
    let nonempty := (List.finRange nrOfBuffers).filter (· ∈ (s.arrays a).nonemptySlots)
    some { s.setArray a { s.arrays a with nonemptySlots := ∅ } with
      msgq := .flush task a (.slots nonempty) }
  | .slots [] => some { s with msgq := .flush task a .rounds }
  | .slots (i :: pending) =>
    -- waits for the lock of the buffer
    if ((s.arrays a).slots i).lock.isSome then none
    else some { s.flushBuffer a i with msgq := .flush task a (.slots pending) }
  | .rounds =>
    let buffers := { s.arrays a with nrOfRoundsLeft := (s.arrays a).nrOfRoundsLeft - 1 }
    let s := s.setArray a buffers
    if buffers.nrOfRoundsLeft = 0 then
      if buffers.nrOfEnqueues < minNoEnqueuesToKeep then some (s.deinstallBuffers task a)
      else some { s.setArray a { buffers with
          nrOfRoundsLeft := minFlushAllOpsBeforeChange, nrOfEnqueues := 0 } with
        msgq := s.flushed (some a) task }
    else some { s with msgq := s.flushed (some a) task }
  | .deinstall (i :: left) =>
    let buffer := (s.arrays a).slots i
    if buffer.lock.isSome then none
    else some { s.setBuffer a i { buffer with alive := false } with
      sigInq := s.sigInq ++ buffer.queue, msgq := .flush task a (.deinstall left) }
  | .deinstall [] =>
    -- no buffer is alive, so no other thread reads or writes these words any more
    let s := { s.setArray a { s.arrays a with
        nonmsgsInSlots := false, msgsInSlots := false, nonemptySlots := ∅ } with
      sigInqBuffers := none }
    some { s with msgq := s.flushed (some a) task }

/-- The next step of the thread that has locked `MSGQ`. -/
def msgqStep [DecidableEq Pid] (s : State Pid Payload) : Option (State Pid Payload) :=
  match s.msgq with
  | .free => none
  | .readState t chain force =>
    let d := ⟨t, chain, s.msgSigInQ, s.nmsgSigInQ⟩
    if force then some (s.flushBuffers (.direct d true s.offHeap))
    else some { s with msgq := .install d s.offHeap }
  | .install d offHeap =>
    let s := s.maybeInstallBuffers offHeap
    if offHeap then some (s.flushBuffers (.direct d false false))
    else some { s with msgq := .link d }
  | .flush task a pc => s.flushStep task a pc
  | .link d =>
    let nmsg := nonmsg d.chain && s.sigInq.all (·.isMsg)
    let s := { s with sigInq := s.sigInq ++ d.chain, msgq := .free }
    some ((s.setFlags d.msg d.nmsg (decide (d.chain.countP (·.isMsg) ≠ 0)) nmsg).setSender
      d.sender .idle)
  | .move buffers =>
    if s.sigInq = [] ∧ s.msgSigInQ = false ∧ s.nmsgSigInQ = false then
      some { s with msgq := .free }
    else some { s with
      sigQs := s.sigQs ++ s.sigInq, sigInq := [], msgq := .clearState buffers }
  | .clearState buffers =>
    let s := { s with msgSigInQ := false, nmsgSigInQ := false }
    match buffers with
    | none => some { s with msgq := .free }
    | some a => some { s with msgq := .recheckBits a }
  | .recheckBits a =>
    if (s.arrays a).nonemptySlots = ∅ then some { s with msgq := .free }
    else some { s with msgq := .recheckNonmsgs a }
  | .recheckNonmsgs a => some { s with msgq := .recheckMsgs a (s.arrays a).nonmsgsInSlots }
  | .recheckMsgs a nmsg => some { s with msgq := .setState (s.arrays a).msgsInSlots nmsg }
  | .setState msg nmsg => some { s with
      msgSigInQ := s.msgSigInQ || msg, nmsgSigInQ := s.nmsgSigInQ || nmsg, msgq := .free }

end State

/-! ## Steps -/

/-- Who takes a step. -/
inductive Event (Pid Payload : Type) : Type where
  /-- `t` sends a chain of signals -/
  | send (t : Pid) (chain : List (Signal Pid Payload)) (force : Bool)
  /-- `t` gets the lock of its buffer -/
  | lockBuffer (t : Pid)
  /-- the thread that has locked this buffer goes on -/
  | buffer (a : Addr) (i : Slot)
  /-- `t` gets `MSGQ`, which it has found `busy` -/
  | lockMsgq (t : Pid) (busy : Bool)
  /-- the receiver gets `MSGQ` to fetch its signals -/
  | fetch (busy : Bool)
  /-- the receiver gets `MSGQ` to deinstall the buffers -/
  | change
  /-- the thread that has `MSGQ` goes on -/
  | msgq
  /-- the receiver changes `ERTS_PSFLG_OFF_HEAP_MSGQ` -/
  | setOffHeap (on : Bool)

/-- `erts_proc_sig_queue_lock` -/
def sigQueueLock (busy : Bool) (contention : ℕ) : ℕ :=
  if busy then contention + 1 else contention - 1

namespace State

variable [DecidableEq Pid]

/-- A step; `slotOf` is the hash of a sender. -/
def step (slotOf : Pid → Slot) (s : State Pid Payload) :
    Event Pid Payload → Option (State Pid Payload)
  | .send t chain force =>
    match s.senders t with
    | .idle =>
      if force then some (s.setSender t (.lockMsgq chain true))
      else match s.sigInqBuffers with
        | some a => some (s.setSender t (.lockBuffer a chain))
        | none => some (s.setSender t (.lockMsgq chain false))
    | _ => none
  | .lockBuffer t =>
    match s.senders t with
    | .lockBuffer a chain =>
      let buffer := (s.arrays a).slots (slotOf t)
      if buffer.lock.isSome then none
      else if buffer.alive then
        some ((s.setBuffer a (slotOf t) { buffer with
          lock := some ⟨t, chain, .setMsgs⟩ }).setSender t .inBuffer)
      else some (s.setSender t (.lockMsgq chain false))
    | _ => none
  | .buffer a i => s.bufferStep a i
  | .lockMsgq t busy =>
    match s.senders t, s.msgq with
    | .lockMsgq chain force, .free => some ({ s with
        contention := sigQueueLock busy s.contention
        msgq := .readState t chain force }.setSender t .inMsgq)
    | _, _ => none
  | .fetch busy =>
    match s.msgq with
    | .free =>
      let s := { s with contention := sigQueueLock busy s.contention }
      if s.sigInqBuffers = none ∧ s.sigInq = [] then some s else some (s.flushBuffers .fetch)
    | _ => none
  | .change =>
    match s.msgq, s.sigInqBuffers with
    | .free, some a => some (s.deinstallBuffers .change a)
    | _, _ => none
  | .msgq => s.msgqStep
  | .setOffHeap on => some { s with offHeap := on }

/-- Steps one after the other. -/
def run (slotOf : Pid → Slot) :
    State Pid Payload → List (Event Pid Payload) → Option (State Pid Payload)
  | s, [] => some s
  | s, event :: events => (s.step slotOf event).bind fun s => run slotOf s events

end State

/-- The senders send valid chains. -/
def Event.Valid : Event Pid Payload → Prop
  | .send t chain _ => ValidChain t chain
  | _ => True

end PonBeam.SigBuffers
