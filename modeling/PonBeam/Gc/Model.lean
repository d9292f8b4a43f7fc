import PonBeam.Lib.TriColor
import Mathlib.Data.Int.Notation
import Mathlib.Data.List.Basic

/-!
# The notification GC (`pon_gc.c`)

A shallow embedding of the collector: the object graph lives in a memory of
`PonGcNode` records, and every function of `pon_gc.c` is a state-passing
function on `PonGcState` under its own name. NULL is `none`. The memory maps an
address to the node allocated there; `erts_alloc` is the address `ponGcNodeCreate`
is handed, so an address may come back after its node was freed.

`refs` holds the whole allocated array, `numRefs` and `refsCap` are the two
16-bit fields, and a write outside the allocated array has no result. The two
unbounded loops (`while (gc->gray_head)` and the walk of the all-nodes list)
take fuel and answer `none` when it runs out.
-/

namespace PonBeam.Gc

/-- A node address. -/
abbrev Ptr : Type := ℕ

/-- `PonGcNode`. -/
structure PonGcNode where
  /-- WHITE, GRAY or BLACK -/
  color : Color
  /-- number of references, 16 bits wide -/
  numRefs : ℕ
  /-- capacity of `refs`, 16 bits wide -/
  refsCap : ℕ
  /-- the allocated reference array -/
  refs : List (Option Ptr)
  /-- gray queue link -/
  nextGray : Option Ptr
  /-- all-nodes list, backwards -/
  prevAll : Option Ptr
  /-- all-nodes list, forwards -/
  nextAll : Option Ptr
  /-- the payload -/
  data : Option ℕ
  /-- payload size in bytes -/
  dataSize : ℕ
  /-- the object's id -/
  id : ℕ
  deriving DecidableEq, Repr

/-- The references that count: `refs[0..num_refs)`. -/
def PonGcNode.live (n : PonGcNode) : List (Option Ptr) := n.refs.take n.numRefs

/-- `node->color = c` -/
def PonGcNode.setColor (c : Color) (n : PonGcNode) : PonGcNode := { n with color := c }

/-- `node->next_gray = q` -/
def PonGcNode.setNextGray (q : Option Ptr) (n : PonGcNode) : PonGcNode := { n with nextGray := q }

/-- `node->next_all = q` -/
def PonGcNode.setNextAll (q : Option Ptr) (n : PonGcNode) : PonGcNode := { n with nextAll := q }

/-- `node->prev_all = q` -/
def PonGcNode.setPrevAll (q : Option Ptr) (n : PonGcNode) : PonGcNode := { n with prevAll := q }

/-- What `erts_alloc` hands out before the fields are set. -/
def PonGcNode.blank : PonGcNode :=
  ⟨.white, 0, 0, [], none, none, none, none, 0, 0⟩

/-- `PonGcState`, with the node memory it points into. -/
structure PonGcState where
  /-- the allocated nodes -/
  mem : Ptr → Option PonGcNode
  /-- `roots[0..num_roots)` -/
  roots : List (Option Ptr)
  /-- capacity of the roots array -/
  rootsCap : ℕ
  /-- gray queue, front -/
  grayHead : Option Ptr
  /-- gray queue, back -/
  grayTail : Option Ptr
  /-- length of the gray queue -/
  grayCount : ℤ
  /-- all-nodes list, front -/
  nodesHead : Option Ptr
  /-- all-nodes list, back -/
  nodesTail : Option Ptr
  /-- length of the all-nodes list -/
  totalNodes : ℕ
  /-- id to node -/
  byId : ℕ → Option Ptr
  /-- capacity of `byId` -/
  byIdCap : ℕ
  /-- next id to hand out -/
  nextId : ℕ
  /-- nodes notified in this cycle -/
  liveNodes : ℕ
  /-- nodes freed by the last sweep -/
  deadNodes : ℕ
  /-- bytes freed by the last sweep -/
  bytesFreed : ℕ
  /-- notifications sent -/
  notificationsSent : ℕ
  /-- nodes scanned -/
  scanCount : ℕ
  /-- mark cycles run -/
  cycles : ℕ

namespace PonGcState

/-- Read the node at `p`. -/
def node (gc : PonGcState) (p : Ptr) : PonGcNode := (gc.mem p).getD PonGcNode.blank

/-- Overwrite fields of the node at `p`. -/
def modify (gc : PonGcState) (p : Ptr) (f : PonGcNode → PonGcNode) : PonGcState :=
  { gc with mem := fun q => if q = p then (gc.mem p).map f else gc.mem q }

/-! The single-field writes of `pon_gc.c`. -/

/-- `gc->gray_head = h` -/
def setGrayHead (gc : PonGcState) (h : Option Ptr) : PonGcState := { gc with grayHead := h }

/-- `gc->gray_tail = t` -/
def setGrayTail (gc : PonGcState) (t : Option Ptr) : PonGcState := { gc with grayTail := t }

/-- `gc->gray_count += k` -/
def addGrayCount (gc : PonGcState) (k : ℤ) : PonGcState :=
  { gc with grayCount := gc.grayCount + k }

/-- `gc->live_nodes++` -/
def incLiveNodes (gc : PonGcState) : PonGcState := { gc with liveNodes := gc.liveNodes + 1 }

/-- `gc->notifications_sent += sent; gc->scan_count++` -/
def countScan (gc : PonGcState) (sent : ℕ) : PonGcState :=
  { gc with
    notificationsSent := gc.notificationsSent + sent
    scanCount := gc.scanCount + 1 }

/-- `gc->cycles++` -/
def incCycles (gc : PonGcState) : PonGcState := { gc with cycles := gc.cycles + 1 }

/-- `gc->live_nodes = 0` -/
def clearLiveNodes (gc : PonGcState) : PonGcState := { gc with liveNodes := 0 }

/-- `gc->dead_nodes = d; gc->bytes_freed = b` -/
def setDead (gc : PonGcState) (d b : ℕ) : PonGcState :=
  { gc with deadNodes := d, bytesFreed := b }

/-- `gc->gray_head = NULL; gc->gray_tail = NULL; gc->gray_count = 0` -/
def clearGray (gc : PonGcState) : PonGcState :=
  { gc with grayHead := none, grayTail := none, grayCount := 0 }

/-- The counters `pon_gc_reset` zeroes. -/
def clearCycle (gc : PonGcState) : PonGcState :=
  { gc with liveNodes := 0, deadNodes := 0, notificationsSent := 0, scanCount := 0 }

/-- `gc->nodes_head = h` -/
def setNodesHead (gc : PonGcState) (h : Option Ptr) : PonGcState := { gc with nodesHead := h }

/-- `gc->nodes_tail = t` -/
def setNodesTail (gc : PonGcState) (t : Option Ptr) : PonGcState := { gc with nodesTail := t }

/-- `gc->by_id[i] = q` -/
def setById (gc : PonGcState) (i : ℕ) (q : Option Ptr) : PonGcState :=
  { gc with byId := fun j => if j = i then q else gc.byId j }

/-- `erts_free(node)`, and the node count with it -/
def release (gc : PonGcState) (p : Ptr) : PonGcState :=
  { gc with
    mem := fun q => if q = p then none else gc.mem q
    totalNodes := gc.totalNodes - 1 }

/-- A node `n` put at the fresh address `p`, with the next id, and the node count. -/
def place (gc : PonGcState) (p : Ptr) (n : PonGcNode) : PonGcState :=
  { gc with
    mem := fun q => if q = p then some n else gc.mem q
    nextId := gc.nextId + 1
    totalNodes := gc.totalNodes + 1 }

/-- `by_id` reallocated to `cap` entries, the new ones zeroed. -/
def growById (gc : PonGcState) (cap : ℕ) : PonGcState :=
  { gc with
    byId := fun i => if gc.byIdCap ≤ i ∧ i < cap then none else gc.byId i
    byIdCap := cap }

end PonGcState

open PonGcState

/-! ## The gray queue -/

/-- `enqueue_gray`: WHITE to GRAY, at the back of the queue. -/
def enqueueGray (gc : PonGcState) (node : Option Ptr) : PonGcState :=
  match node with
  | none => gc
  | some p =>
    if (gc.node p).color ≠ .white then gc
    else
      let gc := (gc.modify p (PonGcNode.setColor .gray)).incLiveNodes
      let gc := gc.modify p (PonGcNode.setNextGray none)
      let gc := match gc.grayTail with
        | some t => gc.modify t (PonGcNode.setNextGray (some p))
        | none => gc.setGrayHead (some p)
      (gc.setGrayTail (some p)).addGrayCount 1

/-- `dequeue_gray`. -/
def dequeueGray (gc : PonGcState) : PonGcState × Option Ptr :=
  match gc.grayHead with
  | none => (gc, none)
  | some p =>
    let gc := gc.setGrayHead (gc.node p).nextGray
    let gc := if gc.grayHead = none then gc.setGrayTail none else gc
    let gc := gc.modify p (PonGcNode.setNextGray none)
    (gc.addGrayCount (-1), some p)

/-- The body of `propagate`'s loop: one reference. -/
def notifyRef (s : PonGcState × ℕ) (ref : Option Ptr) : PonGcState × ℕ :=
  match ref with
  | none => s
  | some q =>
    if (s.1.node q).color = .white then (enqueueGray s.1 (some q), s.2 + 1) else s

/-- `propagate`: notify the references of a GRAY node, which becomes BLACK. -/
def propagate (gc : PonGcState) (p : Ptr) : PonGcState × ℕ :=
  let r := (gc.node p).live.foldl notifyRef (gc, 0)
  ((r.1.modify p (PonGcNode.setColor .black)).countScan r.2, r.2)

/-! ## Nodes, references and roots -/

/-- `pon_gc_init`. -/
def ponGcInit : PonGcState where
  mem _ := none
  roots := []
  rootsCap := 0
  grayHead := none
  grayTail := none
  grayCount := 0
  nodesHead := none
  nodesTail := none
  totalNodes := 0
  byId _ := none
  byIdCap := 0
  nextId := 0
  liveNodes := 0
  deadNodes := 0
  bytesFreed := 0
  notificationsSent := 0
  scanCount := 0
  cycles := 0

/-- `while (new_cap <= id) new_cap *= 2`. -/
def growCap : ℕ → ℕ → ℕ → ℕ
  | 0, newCap, _ => newCap
  | fuel + 1, newCap, id => if newCap ≤ id then growCap fuel (newCap * 2) id else newCap

/-- The `by_id` capacity `pon_gc_node_create` asks for. -/
def newByIdCap (cap id : ℕ) : ℕ := growCap (id + 1) (if cap ≠ 0 then cap * 2 else 64) id

/-- `pon_gc_node_create`, at the address `p` that `erts_alloc` returned. -/
def ponGcNodeCreate (gc : PonGcState) (p : Ptr) (data : Option ℕ) (dataSize : ℕ) :
    PonGcState :=
  let id := gc.nextId
  let gc := gc.place p { PonGcNode.blank with
    data := data, dataSize := dataSize, id := id, nextAll := gc.nodesHead }
  let gc := match gc.nodesHead with
    | some h => gc.modify h (PonGcNode.setPrevAll (some p))
    | none => gc.setNodesTail (some p)
  let gc := gc.setNodesHead (some p)
  let gc := if id ≥ gc.byIdCap then gc.growById (newByIdCap gc.byIdCap id) else gc
  gc.setById id (some p)

/-- `pon_gc_node_free`: unlink from the all-nodes list and the id index, free. -/
def ponGcNodeFree (gc : PonGcState) (p : Ptr) : PonGcState :=
  let n := gc.node p
  let gc := match n.prevAll with
    | some q => gc.modify q (PonGcNode.setNextAll n.nextAll)
    | none => gc.setNodesHead n.nextAll
  let gc := match n.nextAll with
    | some q => gc.modify q (PonGcNode.setPrevAll n.prevAll)
    | none => gc.setNodesTail n.prevAll
  let gc := if n.id < gc.byIdCap then gc.setById n.id none else gc
  gc.release p

/-- `pon_gc_node_by_id`. -/
def ponGcNodeById (gc : PonGcState) (id : ℕ) : Option Ptr :=
  if id ≥ gc.byIdCap then none else gc.byId id

/-- `erts_realloc` of a pointer array to `cap` entries. -/
def reallocRefs (refs : List (Option Ptr)) (cap : ℕ) : List (Option Ptr) :=
  refs.take cap ++ List.replicate (cap - refs.length) none

/-- The growth step of `pon_gc_add_ref`; `new_cap` is a `Uint16`. -/
def growRefs (n : PonGcNode) : PonGcNode :=
  if n.numRefs = n.refsCap then
    let newCap := (if n.refsCap ≠ 0 then n.refsCap * 2 else 4) % 65536
    { n with refs := reallocRefs n.refs newCap, refsCap := newCap }
  else n

/-- `pon_gc_add_ref`. There is no result when the store misses the array. -/
def ponGcAddRef (gc : PonGcState) (frm tgt : Option Ptr) : Option PonGcState :=
  match frm, tgt with
  | some f, some t =>
    let n := growRefs (gc.node f)
    if n.numRefs < n.refs.length then
      some (gc.modify f fun _ =>
        { n with refs := n.refs.set n.numRefs (some t), numRefs := (n.numRefs + 1) % 65536 })
    else none
  | _, _ => some gc

/-- `for (; i < num_refs - 1; i++) refs[i] = refs[i + 1]`, `k` rounds from `i`. -/
def shiftDown : ℕ → ℕ → List (Option Ptr) → List (Option Ptr)
  | 0, _, refs => refs
  | k + 1, i, refs => shiftDown k (i + 1) (refs.set i (refs.getD (i + 1) none))

/-- `pon_gc_remove_ref`. The shift starts at `i = found`, and `found` is the flag 1. -/
def ponGcRemoveRef (gc : PonGcState) (frm tgt : Option Ptr) : PonGcState :=
  match frm with
  | none => gc
  | some f =>
    let n := gc.node f
    if tgt ∈ n.live then
      let found := 1
      gc.modify f fun n =>
        { n with
          refs := shiftDown (n.numRefs - 1 - found) found n.refs
          numRefs := n.numRefs - 1 }
    else gc

/-- `pon_gc_add_root`. -/
def ponGcAddRoot (gc : PonGcState) (root : Option Ptr) : PonGcState :=
  match root with
  | none => gc
  | some r =>
    let gc := if gc.roots.length = gc.rootsCap then
        { gc with rootsCap := if gc.rootsCap ≠ 0 then gc.rootsCap * 2 else 16 }
      else gc
    { gc with roots := gc.roots ++ [some r] }

/-! ## Mark, step, sweep -/

/-- `while (gc->gray_head) propagate(gc, dequeue_gray(gc))`. -/
def markLoop : ℕ → PonGcState → Option PonGcState
  | 0, _ => none
  | fuel + 1, gc =>
    match dequeueGray gc with
    | (gc, none) => some gc
    | (gc, some p) => markLoop fuel (propagate gc p).1

/-- `pon_gc_mark`: the roots are notified, then everything they reach. -/
def ponGcMark (fuel : ℕ) (gc : PonGcState) : Option (PonGcState × ℕ) :=
  match markLoop fuel (gc.roots.foldl enqueueGray gc) with
  | none => none
  | some gc => some (gc.incCycles, gc.liveNodes)

/-- `while (gc->gray_head && processed < max_notifications)`. -/
def stepLoop : ℕ → ℤ → ℤ → PonGcState → Option PonGcState
  | 0, _, _, _ => none
  | fuel + 1, maxNotifications, processed, gc =>
    if gc.grayHead.isSome ∧ processed < maxNotifications then
      match dequeueGray gc with
      | (gc, none) => some gc
      | (gc, some p) =>
        let r := propagate gc p
        stepLoop fuel maxNotifications (processed + if r.2 > 0 then (r.2 : ℤ) else 1) r.1
    else some gc

/-- `pon_gc_step`: 1 when the mark is complete, 0 when work is left. -/
def ponGcStep (fuel : ℕ) (gc : PonGcState) (maxNotifications : ℤ) :
    Option (PonGcState × ℕ) :=
  if gc.grayHead = none then some (gc, 1)
  else
    match stepLoop fuel maxNotifications 0 gc with
    | none => none
    | some gc =>
      if gc.grayHead = none then some (gc.incCycles, 1)
      else some (gc, 0)

/-- One node of the sweep: free it if WHITE, else make it WHITE again. -/
def sweepNode (gc : PonGcState) (p : Ptr) : PonGcState :=
  if (gc.node p).color = .white then
    ponGcNodeFree (gc.setDead (gc.deadNodes + 1) (gc.bytesFreed + (gc.node p).dataSize)) p
  else gc.modify p (PonGcNode.setColor .white)

/-- The sweep's walk of the all-nodes list; `next` is read before the node goes. -/
def sweepLoop : ℕ → PonGcState → Option Ptr → Option PonGcState
  | 0, _, _ => none
  | _ + 1, gc, none => some gc
  | fuel + 1, gc, some p => sweepLoop fuel (sweepNode gc p) (gc.node p).nextAll

/-- `pon_gc_sweep`; the byte count it returns is `bytes_freed`. -/
def ponGcSweep (fuel : ℕ) (gc : PonGcState) : Option (PonGcState × ℕ) :=
  match sweepLoop fuel (gc.setDead 0 0) gc.nodesHead with
  | none => none
  | some gc => some (gc.clearLiveNodes, gc.bytesFreed)

/-- `pon_gc_mark_sweep`: a full collection, answering the number of dead nodes. -/
def ponGcMarkSweep (fuel : ℕ) (gc : PonGcState) : Option (PonGcState × ℕ) :=
  match ponGcMark fuel gc with
  | none => none
  | some (gc, _) =>
    match ponGcSweep fuel gc with
    | none => none
    | some (gc, _) => some (gc, gc.deadNodes)

/-- The walk of `pon_gc_reset`. -/
def resetLoop : ℕ → PonGcState → Option Ptr → Option PonGcState
  | 0, _, _ => none
  | _ + 1, gc, none => some gc
  | fuel + 1, gc, some p =>
    let gc := (gc.modify p (PonGcNode.setColor .white)).modify p (PonGcNode.setNextGray none)
    resetLoop fuel gc (gc.node p).nextAll

/-- `pon_gc_reset`. -/
def ponGcReset (fuel : ℕ) (gc : PonGcState) : Option PonGcState :=
  match resetLoop fuel gc.clearGray gc.nodesHead with
  | none => none
  | some gc => some gc.clearCycle

end PonBeam.Gc
