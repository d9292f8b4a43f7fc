import PonBeam.Lib.System
import PonBeam.Lib.Seg
import Mathlib.Data.Int.Notation

/-!
# The signal queues of a process (`erl_message.h`, `erl_proc_sig_queue.c`)

The queues are threaded through the signals and hold pointers to pointers: `last` and
`cont_last` are the addresses of the final `next` field, and `nmsigs` and a non-message
signal's `specific.next` are the addresses of the pointers at the non-message signals.
An address is a `Slot`: one of the three queue heads, or the `next` field of a signal.
Reading and writing through a slot (`load`, `store`) sees the aliasing the C code
relies on.

The flags in `state` only tell the scheduler that something is queued; no function here
reads a queue through them, and they are left out. So are the buffers.
-/

namespace PonBeam.SigQueue

/-- The address of a signal. -/
abbrev Sig : Type := ℕ

/-- An `ErtsMessage **`. -/
inductive Slot : Type where
  /-- `&sig_inq.first` -/
  | inqFirst
  /-- `&sig_qs.first` -/
  | first
  /-- `&sig_qs.cont` -/
  | cont
  /-- `&sig->next` -/
  | next (sig : Sig)
  deriving DecidableEq, Repr

/-- The fields of the signals. -/
structure SigMem where
  /-- `sig->next` -/
  next : Sig → Option Sig
  /-- `ERTS_SIG_IS_MSG(sig)` -/
  isMsg : Sig → Bool
  /-- `sig->specific.next` of a non-message signal -/
  specificNext : Sig → Option Slot
  /-- `sig->mlenoffs` of a non-message signal -/
  mlenoffs : Sig → ℤ

/-- `ErtsMsgQNMSigs`. -/
structure NMSigs where
  /-- where the first non-message signal is -/
  next : Option Slot
  /-- where the last one is -/
  last : Option Slot
  deriving DecidableEq, Repr

/-- `ErtsSignalPrivQueues`: the inner and the middle queue. -/
structure PrivQueues where
  /-- inner queue -/
  first : Option Sig
  /-- its last `next` field -/
  last : Slot
  /-- message queue length -/
  mqLen : ℤ
  /-- middle queue -/
  cont : Option Sig
  /-- its last `next` field -/
  contLast : Slot
  /-- its non-message signals -/
  nmsigs : NMSigs
  /-- trailing messages after its last non-message signal -/
  mlenoffs : ℤ
  deriving DecidableEq, Repr

/-- `ErtsSignalInQueue`. -/
structure InQueue where
  /-- the queue -/
  first : Option Sig
  /-- its last `next` field -/
  last : Slot
  /-- trailing messages after its last non-message signal -/
  mlenoffs : ℤ
  /-- its non-message signals -/
  nmsigs : NMSigs
  deriving DecidableEq, Repr

/-- What a process has of signals. -/
structure Proc where
  /-- the signals -/
  mem : SigMem
  /-- `sig_qs` -/
  qs : PrivQueues
  /-- `sig_inq` -/
  inq : InQueue

/-- `sig_inq` with nothing in it. -/
def InQueue.empty : InQueue := ⟨none, .inqFirst, 0, ⟨none, none⟩⟩

/-- `sig_qs` with nothing in it. -/
def PrivQueues.empty : PrivQueues := ⟨none, .first, 0, none, .cont, ⟨none, none⟩, 0⟩

namespace Proc

/-- `*slot` -/
def load (p : Proc) : Slot → Option Sig
  | .inqFirst => p.inq.first
  | .first => p.qs.first
  | .cont => p.qs.cont
  | .next sig => p.mem.next sig

/-- `*slot = sig` -/
def store (p : Proc) (slot : Slot) (sig : Option Sig) : Proc :=
  match slot with
  | .inqFirst => { p with inq := { p.inq with first := sig } }
  | .first => { p with qs := { p.qs with first := sig } }
  | .cont => { p with qs := { p.qs with cont := sig } }
  | .next s => { p with mem := { p.mem with next := Function.update p.mem.next s sig } }

/-- `sig->specific.next = slot` -/
def setSpecificNext (p : Proc) (sig : Sig) (slot : Slot) : Proc :=
  { p with mem := { p.mem with
      specificNext := Function.update p.mem.specificNext sig (some slot) } }

/-- `sig->mlenoffs = k` -/
def setMlenoffs (p : Proc) (sig : Sig) (k : ℤ) : Proc :=
  { p with mem := { p.mem with mlenoffs := Function.update p.mem.mlenoffs sig k } }

/-- Overwrite fields of `sig_inq`. -/
def updInq (p : Proc) (f : InQueue → InQueue) : Proc := { p with inq := f p.inq }

/-- Overwrite fields of `sig_qs`. -/
def updQs (p : Proc) (f : PrivQueues → PrivQueues) : Proc := { p with qs := f p.qs }

/-- `((ErtsSignal *) *nmsigs.last)->specific.next = slot` -/
def linkAfter (p : Proc) (nmsigsLast : Option Slot) (slot : Slot) : Proc :=
  match nmsigsLast.bind p.load with
  | some sig => p.setSpecificNext sig slot
  | none => p

end Proc

open Proc

/-- `enqueue_signals` on `sig_inq`: the signals from `first` on, with the address of their
last `next` field, the address of the pointer at the last non-message signal if there are
several, and the number of messages. -/
def enqueueSignals (p : Proc) (first : Sig) (last : Slot) (lastNext : Option Slot)
    (numMsgs : ℤ) : Proc :=
  let nmsig := !p.mem.isMsg first
  let this := p.inq.last
  let p := p.store this (some first)
  let p := p.updInq fun q => { q with last := last }
  let p :=
    if p.inq.nmsigs.next = none then
      if nmsig then
        let p := p.updInq fun q => { q with nmsigs := { q.nmsigs with next := some this } }
        let p := p.setMlenoffs first p.inq.mlenoffs
        p.updInq fun q => { q with mlenoffs := 0 }
      else p
    else
      if nmsig then
        let p := p.linkAfter p.inq.nmsigs.last this
        let p := p.setMlenoffs first p.inq.mlenoffs
        p.updInq fun q => { q with mlenoffs := 0 }
      else p
  let p :=
    match lastNext with
    | some slot => p.updInq fun q => { q with nmsigs := { q.nmsigs with last := some slot } }
    | none =>
      if nmsig then p.updInq fun q => { q with nmsigs := { q.nmsigs with last := some this } }
      else p
  p.updInq fun q => { q with mlenoffs := q.mlenoffs + numMsgs }

/-- `LINK_MESSAGE`. -/
def linkMessage (p : Proc) (msg : Sig) : Proc :=
  let p := p.store p.inq.last (some msg)
  let p := p.updInq fun q => { q with last := .next msg }
  p.updInq fun q => { q with mlenoffs := q.mlenoffs + 1 }

/-- A slot of the in-queue after the splice: the in-queue's head is where the middle queue
ended. -/
def moved (contLast : Slot) (slot : Slot) : Slot := if slot = .inqFirst then contLast else slot

/-- `erts_proc_sig_fetch__` without buffers; `traced` is `ERTS_MSG_RECV_TRACED`. -/
def procSigFetch (p : Proc) (traced : Bool) : Proc :=
  match p.inq.first with
  | none => p
  | some first =>
    let p :=
      match p.inq.nmsigs.next with
      | none =>
        if p.qs.cont = none ∧ traced = false then
          let p := p.store p.qs.last (some first)
          p.updQs fun q => { q with last := p.inq.last, mqLen := q.mqLen + p.inq.mlenoffs }
        else
          let p := p.store p.qs.contLast (some first)
          p.updQs fun q => { q with
            contLast := p.inq.last, mlenoffs := q.mlenoffs + p.inq.mlenoffs }
      | some next =>
        let p :=
          match p.load next with
          | some nmsig => p.setMlenoffs nmsig (p.mem.mlenoffs nmsig + p.qs.mlenoffs)
          | none => p
        let p := p.updQs fun q => { q with mlenoffs := p.inq.mlenoffs }
        let p :=
          if p.qs.nmsigs.last = none then
            p.updQs fun q => { q with
              nmsigs := { q.nmsigs with next := some (moved q.contLast next) } }
          else p.linkAfter p.qs.nmsigs.last (moved p.qs.contLast next)
        let p := p.updQs fun q => { q with
          nmsigs := { q.nmsigs with last := p.inq.nmsigs.last.map (moved q.contLast) } }
        let p := p.updInq fun q => { q with nmsigs := ⟨none, none⟩ }
        let p := p.store p.qs.contLast (some first)
        p.updQs fun q => { q with contLast := p.inq.last }
    p.updInq fun q => { q with first := none, last := .inqFirst, mlenoffs := 0 }

end PonBeam.SigQueue
