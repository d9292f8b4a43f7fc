import PonBeam.Lib.System
import PonBeam.Lib.Seg
import PonBeam.Lib.MachineInt
import Mathlib.Data.Finset.Card
import Mathlib.Data.Finset.Image
import Mathlib.Data.List.FinRange
import Mathlib.Data.Int.Notation

/-!
# The ETS watcher registry (`pon_ets.c`)

A watcher asks to be told when one key of one table changes. The registry hangs the
watchers off 1024 chains; the chain of a watcher is computed from its table and key. The
chains live in a memory of `PonEtsWatcher` records, NULL is `none`, `malloc` is the address
`ponEtsWatcherAdd` is handed and `free` clears the address.

The `while (w)` loops take fuel. They answer `none` when the fuel runs out and when they
follow a pointer to memory that is not allocated. The counters `count`, `notified` and
`removed` are `int`s and wrap; the statistics counters are left out: nothing reads them here.
-/

namespace PonBeam.EtsWatcher

/-- The address of a watcher. -/
abbrev Ptr : Type := ℕ

/-- A table, a key hash and a process. -/
abbrev Triple : Type := UInt64 × UInt64 × UInt64

/-- `PON_ETS_WATCHER_BUCKETS` -/
abbrev ponEtsWatcherBuckets : ℕ := 1024

/-- `PonEtsWatcher`. -/
structure PonEtsWatcher where
  /-- the table -/
  tableId : UInt64
  /-- hash of the watched key -/
  keyHash : UInt64
  /-- who watches -/
  processId : UInt64
  /-- chain link -/
  next : Option Ptr
  /-- not cancelled -/
  active : Bool
  deriving DecidableEq, Repr

/-- `PonEtsWatcherRegistry`, with the memory its chains live in. -/
structure PonEtsWatcherRegistry where
  /-- the allocated watchers -/
  mem : Ptr → Option PonEtsWatcher
  /-- the heads of the chains -/
  buckets : Fin ponEtsWatcherBuckets → Option Ptr
  /-- number of active watchers -/
  count : ℤ

/-- `pon_ets_watcher_bucket` -/
def ponEtsWatcherBucket (tableId keyHash : UInt64) : Fin ponEtsWatcherBuckets :=
  let h := tableId ^^^ keyHash
  let h := h ^^^ (h >>> 32)
  let h := h ^^^ (h >>> 16)
  let h := h ^^^ (h >>> 8)
  ⟨h.toNat % ponEtsWatcherBuckets, Nat.mod_lt _ (by decide)⟩

/-- What a watcher watches for whom. -/
def PonEtsWatcher.triple (w : PonEtsWatcher) : Triple := (w.tableId, w.keyHash, w.processId)

namespace PonEtsWatcherRegistry

/-- `prev->next = q` -/
def setNext (reg : PonEtsWatcherRegistry) (prev : Ptr) (q : Option Ptr) :
    PonEtsWatcherRegistry :=
  { reg with
    mem := Function.update reg.mem prev ((reg.mem prev).map fun w => { w with next := q }) }

/-- `reg->buckets[i] = q` -/
def setBucket (reg : PonEtsWatcherRegistry) (i : Fin ponEtsWatcherBuckets) (q : Option Ptr) :
    PonEtsWatcherRegistry :=
  { reg with buckets := Function.update reg.buckets i q }

/-- `w->active = 0` -/
def deactivate (reg : PonEtsWatcherRegistry) (p : Ptr) : PonEtsWatcherRegistry :=
  { reg with
    mem := Function.update reg.mem p ((reg.mem p).map fun w => { w with active := false }) }

/-- `reg->count += k` -/
def addCount (reg : PonEtsWatcherRegistry) (k : ℤ) : PonEtsWatcherRegistry :=
  { reg with count := wrapInt (reg.count + k) }

/-- `free(w)` -/
def free (reg : PonEtsWatcherRegistry) (p : Ptr) : PonEtsWatcherRegistry :=
  { reg with mem := Function.update reg.mem p none }

/-- Take `w` out of chain `i`: `prev` is the node before it, NULL at the head. -/
def unlink (reg : PonEtsWatcherRegistry) (i : Fin ponEtsWatcherBuckets) (prev : Option Ptr)
    (next : Option Ptr) : PonEtsWatcherRegistry :=
  match prev with
  | some q => reg.setNext q next
  | none => reg.setBucket i next

end PonEtsWatcherRegistry

/-- `pon_ets_watcher_init` -/
def ponEtsWatcherInit : PonEtsWatcherRegistry := ⟨fun _ => none, fun _ => none, 0⟩

variable (reg : PonEtsWatcherRegistry) (tableId keyHash processId : UInt64)

/-- The loop of `pon_ets_watcher_add`: is the watcher there already? -/
def addLoop : ℕ → Option Ptr → Option Bool
  | 0, _ => none
  | _ + 1, none => some false
  | n + 1, some p =>
    match reg.mem p with
    | none => none
    | some w =>
      if w.tableId = tableId ∧ w.keyHash = keyHash ∧ w.processId = processId ∧ w.active then
        some true
      else addLoop n w.next

/-- `pon_ets_watcher_add`; `addr` is what `malloc` returns, if it is called. -/
def ponEtsWatcherAdd (fuel : ℕ) (addr : Ptr) : Option (ℤ × PonEtsWatcherRegistry) :=
  let bucket := ponEtsWatcherBucket tableId keyHash
  match addLoop reg tableId keyHash processId fuel (reg.buckets bucket) with
  | none => none
  | some true => some (-1, reg)
  | some false =>
    let w : PonEtsWatcher := ⟨tableId, keyHash, processId, reg.buckets bucket, true⟩
    let reg : PonEtsWatcherRegistry := { reg with mem := Function.update reg.mem addr (some w) }
    some (0, (reg.setBucket bucket (some addr)).addCount 1)

/-- The loop of `pon_ets_watcher_remove`, with the node `prev` before `w`. -/
def removeLoop (bucket : Fin ponEtsWatcherBuckets) :
    ℕ → Option Ptr → Option Ptr → Option (ℤ × PonEtsWatcherRegistry)
  | 0, _, _ => none
  | _ + 1, _, none => some (-1, reg)
  | n + 1, prev, some p =>
    match reg.mem p with
    | none => none
    | some w =>
      if w.tableId = tableId ∧ w.keyHash = keyHash ∧ w.processId = processId ∧ w.active then
        some (0, (((reg.deactivate p).addCount (-1)).unlink bucket prev w.next).free p)
      else removeLoop bucket n (some p) w.next

/-- `pon_ets_watcher_remove` -/
def ponEtsWatcherRemove (fuel : ℕ) : Option (ℤ × PonEtsWatcherRegistry) :=
  let bucket := ponEtsWatcherBucket tableId keyHash
  removeLoop reg tableId keyHash processId bucket fuel none (reg.buckets bucket)

/-- The loop of `pon_ets_watcher_notify`. -/
def notifyLoop : ℕ → Option Ptr → ℤ → Option ℤ
  | 0, _, _ => none
  | _ + 1, none, notified => some notified
  | n + 1, some p, notified =>
    match reg.mem p with
    | none => none
    | some w =>
      if w.active ∧ w.tableId = tableId ∧ w.keyHash = keyHash then
        notifyLoop n w.next (wrapInt (notified + 1))
      else notifyLoop n w.next notified

/-- `pon_ets_watcher_notify` -/
def ponEtsWatcherNotify (fuel : ℕ) : Option (ℤ × PonEtsWatcherRegistry) :=
  let bucket := ponEtsWatcherBucket tableId keyHash
  (notifyLoop reg tableId keyHash fuel (reg.buckets bucket) 0).map fun notified =>
    (notified, reg)

/-- The inner loop of `pon_ets_watcher_remove_process` over chain `i`. -/
def removeProcessChain (i : Fin ponEtsWatcherBuckets) :
    ℕ → Option Ptr → Option Ptr → ℤ × PonEtsWatcherRegistry →
      Option (ℤ × PonEtsWatcherRegistry)
  | 0, _, _, _ => none
  | _ + 1, _, none, s => some s
  | n + 1, prev, some p, (removed, reg) =>
    match reg.mem p with
    | none => none
    | some w =>
      if w.processId = processId then
        removeProcessChain i n prev w.next
          (wrapInt (removed + 1), (reg.unlink i prev w.next).free p)
      else removeProcessChain i n (some p) w.next (removed, reg)

/-- The outer loop, over the chains not visited yet. -/
def removeProcessLoop (fuel : ℕ) :
    List (Fin ponEtsWatcherBuckets) → ℤ × PonEtsWatcherRegistry →
      Option (ℤ × PonEtsWatcherRegistry)
  | [], s => some s
  | i :: rest, s =>
    match removeProcessChain processId i fuel none (s.2.buckets i) s with
    | none => none
    | some s' => removeProcessLoop fuel rest s'

/-- `pon_ets_watcher_remove_process` -/
def ponEtsWatcherRemoveProcess (fuel : ℕ) : Option (ℤ × PonEtsWatcherRegistry) :=
  (removeProcessLoop processId fuel (List.finRange ponEtsWatcherBuckets) (0, reg)).map
    fun s => (s.1, s.2.addCount (-s.1))

/-- The calls. -/
inductive Call : Type where
  /-- `pon_ets_watcher_add`, with the address `malloc` would return -/
  | add (tableId keyHash processId : UInt64) (addr : Ptr)
  /-- `pon_ets_watcher_remove` -/
  | remove (tableId keyHash processId : UInt64)
  /-- `pon_ets_watcher_remove_process` -/
  | removeProcess (processId : UInt64)
  /-- `pon_ets_watcher_notify` -/
  | notify (tableId keyHash : UInt64)
  deriving DecidableEq, Repr

/-- What a call returns and leaves behind. -/
def exec (fuel : ℕ) : Call → Option (ℤ × PonEtsWatcherRegistry)
  | .add t k p addr => ponEtsWatcherAdd reg t k p fuel addr
  | .remove t k p => ponEtsWatcherRemove reg t k p fuel
  | .removeProcess p => ponEtsWatcherRemoveProcess reg p fuel
  | .notify t k => ponEtsWatcherNotify reg t k fuel

/-- From some fuel on, the call returns `r` and leaves `reg'`. -/
def Returns (reg : PonEtsWatcherRegistry) (c : Call) (r : ℤ) (reg' : PonEtsWatcherRegistry) :
    Prop :=
  ∃ n, ∀ fuel, n ≤ fuel → exec reg fuel c = some (r, reg')

/-- `malloc` returns memory that is not in use. -/
def MallocOk : Call → Prop
  | .add _ _ _ addr => reg.mem addr = none
  | _ => True

/-! ## What the registry is for -/

/-- The same calls on a set of triples: what they return, as numbers of any size, and the set
afterwards. -/
def setCall (S : Finset Triple) : Call → ℤ × Finset Triple
  | .add t k p _ => if (t, k, p) ∈ S then (-1, S) else (0, insert (t, k, p) S)
  | .remove t k p => if (t, k, p) ∈ S then (0, S.erase (t, k, p)) else (-1, S)
  | .removeProcess p => ((S.filter fun x => x.2.2 = p).card, S.filter fun x => x.2.2 ≠ p)
  | .notify t k => (((S.filter fun x => x.1 = t ∧ x.2.1 = k).image fun x => x.2.2).card, S)

/-- The registry and the set, taken through the same calls. -/
def lockstep : System (PonEtsWatcherRegistry × Finset Triple) Call where
  init s := s = (ponEtsWatcherInit, ∅)
  step s c s' := MallocOk s.1 c ∧ (∃ r, Returns s.1 c r s'.1) ∧ s'.2 = (setCall s.2 c).2

end PonBeam.EtsWatcher
