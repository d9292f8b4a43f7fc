import PonBeam.Gc.Accounting

/-!
# The PON-GC BIFs (`bif.c`)

`pon_gc_register_objects/1`, `pon_gc_add_root/1`, `pon_gc_add_ref/2` and `pon_gc_collect/0`
of one process, which creates its collector on demand, and the runs of a process that calls
them. What `erts_alloc` hands out is an argument of the call: the `i`-th node and the `i`-th
payload of the call go to addresses that are free.
-/

namespace PonBeam.Gc

open PonGcState

/-! ## Arguments and answers -/

/-- A term, as these BIFs look at it. -/
inductive Eterm : Type where
  /-- a small integer -/
  | small (n : ℤ)
  /-- `[]` -/
  | nil
  /-- `[hd | tl]` -/
  | cons (hd tl : Eterm)
  /-- anything else, big integers among it -/
  | other (tag : ℕ)
  deriving DecidableEq, Repr

/-- A list of ids. -/
def idList (ids : List ℕ) : Eterm := ids.foldr (fun id res => .cons (.small id) res) .nil

/-- The map that `pon_gc_collect/0` builds. -/
structure CollectMap where
  /-- `collected` -/
  collected : ℕ
  /-- `live` -/
  live : ℕ
  /-- `total` -/
  total : ℕ
  /-- `notifications_sent` -/
  notificationsSent : ℕ
  /-- `scans` -/
  scans : ℕ
  /-- `bytes_freed` -/
  bytesFreed : ℕ
  /-- `cycles` -/
  cycles : ℕ
  /-- `scans_avoided` -/
  scansAvoided : ℕ
  deriving DecidableEq, Repr

/-- How a call ends. -/
inductive Answer : Type where
  /-- `badarg` -/
  | badarg
  /-- `true` or `false` -/
  | bool (b : Bool)
  /-- a list of ids -/
  | list (l : Eterm)
  /-- the map of a collection -/
  | map (m : CollectMap)
  deriving DecidableEq, Repr

/-- The counters of `pon_stats` that a collection adds to. -/
structure PonStats where
  /-- `gc_notifications_sent` -/
  gcNotificationsSent : ℕ
  /-- `gc_scans_avoided` -/
  gcScansAvoided : ℕ
  /-- `gc_incremental_steps` -/
  gcIncrementalSteps : ℕ
  deriving DecidableEq, Repr

/-- A process and the statistics. -/
structure Proc where
  /-- `p->pon_gc` -/
  ponGc : Option PonGcState
  /-- `pon_stats` -/
  stats : PonStats

/-- `erts_pon_gc_state`: the collector, created on demand. -/
def Proc.gc (p : Proc) : PonGcState := p.ponGc.getD ponGcInit

/-- The process with another collector. -/
def Proc.setGc (p : Proc) (gc : PonGcState) : Proc := { p with ponGc := some gc }

/-- What `erts_alloc` hands out in one call. -/
structure Supply where
  /-- the `i`-th node -/
  node : ℕ → Ptr
  /-- the `i`-th payload -/
  payload : ℕ → ℕ

/-! ## The calls -/

/-- The loop of `pon_gc_register_objects/1`, at the element `i`. -/
def registerLoop (s : Supply) : Eterm → ℕ → List ℕ → PonGcState → Option (List ℕ) × PonGcState
  | .cons (.small size) tl, i, ids, gc =>
    if size < 0 then (none, gc)
    else
      let payload := if size > 0 then some (s.payload i) else none
      let gc := ponGcNodeCreate gc (s.node i) payload size.toNat
      registerLoop s tl (i + 1) (ids ++ [(gc.node (s.node i)).id]) gc
  | .cons _ _, _, _, gc => (none, gc)
  | .nil, _, ids, gc => (some ids, gc)
  | _, _, _, gc => (none, gc)

/-- `pon_gc_register_objects/1`. -/
def ponGcRegisterObjects (s : Supply) (list : Eterm) (p : Proc) : Answer × Proc :=
  match list with
  | .cons _ _ =>
    match registerLoop s list 0 [] p.gc with
    | (none, gc) => (.badarg, p.setGc gc)
    | (some ids, gc) => (.list (idList ids), p.setGc gc)
  | _ => (.badarg, p)

/-- `(uint64_t) id`. -/
def toUint64 (id : ℤ) : ℕ := (id % 18446744073709551616).toNat

/-- `pon_gc_add_root/1`. -/
def ponGcAddRootBif (arg : Eterm) (p : Proc) : Answer × Proc :=
  match arg with
  | .small id =>
    match ponGcNodeById p.gc (toUint64 id) with
    | none => (.bool false, p.setGc p.gc)
    | some node => (.bool true, p.setGc (ponGcAddRoot p.gc (some node)))
  | _ => (.badarg, p)

/-- `pon_gc_add_ref/2`. There is no result when `pon_gc_add_ref` has none. -/
def ponGcAddRefBif (fromId toId : Eterm) (p : Proc) : Option (Answer × Proc) :=
  match fromId, toId with
  | .small fid, .small tid =>
    match ponGcNodeById p.gc (toUint64 fid), ponGcNodeById p.gc (toUint64 tid) with
    | some f, some t =>
      (ponGcAddRef p.gc (some f) (some t)).map fun gc => (.bool true, p.setGc gc)
    | _, _ => some (.bool false, p.setGc p.gc)
  | _, _ => some (.badarg, p)

/-- The map of the cycle that has just run, `removed` objects collected. -/
def collectMap (gc : PonGcState) (removed : ℕ) : CollectMap where
  collected := removed
  live := gc.liveNodes
  total := gc.totalNodes
  notificationsSent := gc.notificationsSent
  scans := gc.scanCount
  bytesFreed := gc.bytesFreed
  cycles := gc.cycles
  scansAvoided := removed

/-- `pon_gc_collect/0`. -/
def ponGcCollect (fuel : ℕ) (p : Proc) : Option (CollectMap × Proc) :=
  match ponGcMarkSweep fuel p.gc with
  | none => none
  | some (gc, removed) =>
    let stats : PonStats :=
      { gcNotificationsSent := p.stats.gcNotificationsSent + gc.notificationsSent
        gcScansAvoided := p.stats.gcScansAvoided + removed
        gcIncrementalSteps := p.stats.gcIncrementalSteps + 1 }
    some (collectMap gc removed, { ponGc := some gc, stats := stats })

/-! ## Runs -/

/-- A call with its arguments. -/
inductive Call : Type where
  /-- `pon_gc_register_objects(Sizes)` -/
  | registerObjects (s : Supply) (list : Eterm)
  /-- `pon_gc_add_root(Id)` -/
  | addRoot (arg : Eterm)
  /-- `pon_gc_add_ref(FromId, ToId)` -/
  | addRef (fromId toId : Eterm)
  /-- `pon_gc_collect()` -/
  | collect

/-- The nodes of a call are put where nothing is, and each somewhere else. -/
structure Supply.Free (s : Supply) (gc : PonGcState) : Prop where
  /-- nothing is there -/
  free : ∀ i, ¬ gc.Allocated (s.node i)
  /-- no address twice -/
  inj : ∀ i j, s.node i = s.node j → i = j

/-- One call and its answer. -/
inductive BifStep : Proc → Call → Answer → Proc → Prop where
  /-- `pon_gc_register_objects/1` -/
  | registerObjects {p : Proc} {s : Supply} {list : Eterm} : s.Free p.gc →
      BifStep p (.registerObjects s list) (ponGcRegisterObjects s list p).1
        (ponGcRegisterObjects s list p).2
  /-- `pon_gc_add_root/1` -/
  | addRoot {p : Proc} {arg : Eterm} :
      BifStep p (.addRoot arg) (ponGcAddRootBif arg p).1 (ponGcAddRootBif arg p).2
  /-- `pon_gc_add_ref/2` -/
  | addRef {p p' : Proc} {fromId toId : Eterm} {a : Answer} :
      ponGcAddRefBif fromId toId p = some (a, p') → BifStep p (.addRef fromId toId) a p'
  /-- `pon_gc_collect/0` -/
  | collect {p p' : Proc} {fuel : ℕ} {m : CollectMap} :
      ponGcCollect fuel p = some (m, p') → BifStep p .collect (.map m) p'

/-- A process that has called none of them, with any statistics, and its calls. -/
def bifSystem : System Proc (Call × Answer) where
  init p := p.ponGc = none
  step p c p' := BifStep p c.1 c.2 p'

end PonBeam.Gc
