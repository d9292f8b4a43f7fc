import PonBeam.Gc.Model
import PonBeam.Lib.Seg

/-!
# Reading the node memory

The object graph as the collector sees it (`Edge`, `Root`, `Allocated`), the
`skeleton` of a state (everything a mark phase never writes), and the two
linked structures threaded through the nodes: the gray queue (`GrayQueue`) and
the doubly linked all-nodes list (`AllNodes`).
-/

namespace PonBeam.Gc

open PonGcState

namespace PonGcState

/-- There is a node at `p`. -/
def Allocated (gc : PonGcState) (p : Ptr) : Prop := ∃ n, gc.mem p = some n

/-- The colour of the node at `p`. -/
def color (gc : PonGcState) (p : Ptr) : Color := (gc.node p).color

/-- `p` holds a reference to `q`. -/
def Edge (gc : PonGcState) (p q : Ptr) : Prop := some q ∈ (gc.node p).live

/-- `p` is registered as a root. -/
def Root (gc : PonGcState) (p : Ptr) : Prop := some p ∈ gc.roots

/-- `p` is reachable from the registered roots along references. -/
def Reachable (gc : PonGcState) (p : Ptr) : Prop := TriColor.Reachable gc.Edge gc.Root p

/-! ## Reads after writes -/

section Modify

variable {gc : PonGcState} {p q : Ptr} {f : PonGcNode → PonGcNode}

theorem mem_modify : (gc.modify p f).mem q = if q = p then (gc.mem p).map f else gc.mem q :=
  rfl

theorem node_eq {n : PonGcNode} (h : gc.mem p = some n) : gc.node p = n := by
  rw [node, h, Option.getD_some]

theorem Allocated.mem_node (h : gc.Allocated p) : gc.mem p = some (gc.node p) := by
  obtain ⟨n, hn⟩ := h
  rw [node_eq hn, hn]

theorem node_of_not_allocated (h : ¬ gc.Allocated p) : gc.node p = PonGcNode.blank := by
  have hm : gc.mem p = none := by
    cases hm : gc.mem p with
    | none => rfl
    | some n => exact absurd ⟨n, hm⟩ h
  rw [node, hm, Option.getD_none]

/-- Only allocated nodes are ever notified. -/
theorem allocated_of_color_ne (h : gc.color p ≠ .white) : gc.Allocated p := by
  by_contra hn
  exact h (by rw [color, node_of_not_allocated hn]; rfl)

@[simp] theorem allocated_modify : (gc.modify p f).Allocated q ↔ gc.Allocated q := by
  unfold Allocated
  rw [mem_modify]
  by_cases hq : q = p
  · subst hq
    simp
  · simp [hq]

theorem node_modify_self (h : gc.Allocated p) : (gc.modify p f).node p = f (gc.node p) := by
  rw [node_eq (n := f (gc.node p))]
  rw [mem_modify, if_pos rfl, h.mem_node, Option.map_some]

theorem node_modify_ne (h : q ≠ p) : (gc.modify p f).node q = gc.node q := by
  rw [node, mem_modify, if_neg h, node]

theorem node_modify (h : gc.Allocated p) :
    (gc.modify p f).node q = if q = p then f (gc.node p) else gc.node q := by
  by_cases hq : q = p
  · rw [if_pos hq, hq, node_modify_self h]
  · rw [if_neg hq, node_modify_ne hq]

end Modify

/-! What each single-field write leaves alone. -/

section Fields

variable (gc : PonGcState) (p q : Ptr) (f : PonGcNode → PonGcNode) (h : Option Ptr) (k : ℤ)
  (a b : ℕ)

@[simp] theorem node_setGrayHead : (gc.setGrayHead h).node p = gc.node p := rfl
@[simp] theorem node_setGrayTail : (gc.setGrayTail h).node p = gc.node p := rfl
@[simp] theorem node_addGrayCount : (gc.addGrayCount k).node p = gc.node p := rfl
@[simp] theorem node_incLiveNodes : gc.incLiveNodes.node p = gc.node p := rfl
@[simp] theorem node_countScan : (gc.countScan a).node p = gc.node p := rfl
@[simp] theorem node_setNodesHead : (gc.setNodesHead h).node p = gc.node p := rfl
@[simp] theorem node_setNodesTail : (gc.setNodesTail h).node p = gc.node p := rfl
@[simp] theorem node_setById : (gc.setById a h).node p = gc.node p := rfl

@[simp] theorem allocated_incLiveNodes : gc.incLiveNodes.Allocated p ↔ gc.Allocated p := Iff.rfl
@[simp] theorem allocated_setNodesHead : (gc.setNodesHead h).Allocated p ↔ gc.Allocated p := Iff.rfl
@[simp] theorem allocated_setNodesTail : (gc.setNodesTail h).Allocated p ↔ gc.Allocated p := Iff.rfl
@[simp] theorem allocated_setById : (gc.setById a h).Allocated p ↔ gc.Allocated p := Iff.rfl

end Fields

end PonGcState

/-! ## The skeleton of a state

What a mark phase leaves alone: all but the colours, the gray queue and the
counters of the cycle. Two states with one skeleton have the same graph. -/

/-- A node without its marking. -/
def PonGcNode.bare (n : PonGcNode) : PonGcNode := { n with color := .white, nextGray := none }

/-- A state without its marking. -/
def PonGcState.skeleton (gc : PonGcState) : PonGcState :=
  { gc with
    mem := fun p => (gc.mem p).map PonGcNode.bare
    grayHead := none, grayTail := none, grayCount := 0
    liveNodes := 0, notificationsSent := 0, scanCount := 0, cycles := 0 }

section Skeleton

variable {gc gc' : PonGcState} {p q : Ptr}

theorem skeleton_modify {f : PonGcNode → PonGcNode} (hf : ∀ n, (f n).bare = n.bare) :
    (gc.modify p f).skeleton = gc.skeleton := by
  have hmem : (fun q => ((gc.modify p f).mem q).map PonGcNode.bare) =
      fun q => (gc.mem q).map PonGcNode.bare := by
    funext q
    rw [mem_modify]
    by_cases hq : q = p
    · subst hq
      cases gc.mem q <;> simp [hf]
    · rw [if_neg hq]
  unfold skeleton
  rw [hmem]
  rfl

@[simp] theorem skeleton_setColor (c : Color) :
    (gc.modify p (PonGcNode.setColor c)).skeleton = gc.skeleton :=
  skeleton_modify fun _ => rfl

@[simp] theorem skeleton_setNextGray (h : Option Ptr) :
    (gc.modify p (PonGcNode.setNextGray h)).skeleton = gc.skeleton :=
  skeleton_modify fun _ => rfl

@[simp] theorem skeleton_setGrayHead (h : Option Ptr) :
    (gc.setGrayHead h).skeleton = gc.skeleton := rfl
@[simp] theorem skeleton_setGrayTail (h : Option Ptr) :
    (gc.setGrayTail h).skeleton = gc.skeleton := rfl
@[simp] theorem skeleton_addGrayCount (k : ℤ) :
    (gc.addGrayCount k).skeleton = gc.skeleton := rfl
@[simp] theorem skeleton_incLiveNodes : gc.incLiveNodes.skeleton = gc.skeleton := rfl
@[simp] theorem skeleton_countScan (k : ℕ) : (gc.countScan k).skeleton = gc.skeleton := rfl

/-- One skeleton, one memory up to the marking. -/
theorem mem_of_skeleton (h : gc'.skeleton = gc.skeleton) (p : Ptr) :
    (gc'.mem p).map PonGcNode.bare = (gc.mem p).map PonGcNode.bare :=
  congrFun (congrArg PonGcState.mem h) p

theorem node_of_skeleton (h : gc'.skeleton = gc.skeleton) (p : Ptr) :
    (gc'.node p).bare = (gc.node p).bare := by
  have hm := mem_of_skeleton h p
  unfold node
  rcases h₁ : gc'.mem p with _ | n <;> rcases h₂ : gc.mem p with _ | m <;> rw [h₁, h₂] at hm
  · simp at hm
  · simp at hm
  · exact Option.some.inj hm

theorem allocated_of_skeleton (h : gc'.skeleton = gc.skeleton) :
    gc'.Allocated p ↔ gc.Allocated p := by
  have hm := mem_of_skeleton h p
  unfold Allocated
  rcases h₁ : gc'.mem p with _ | n <;> rcases h₂ : gc.mem p with _ | m <;> rw [h₁, h₂] at hm
  · simp at hm
  · simp at hm
  · simp

theorem live_of_skeleton (h : gc'.skeleton = gc.skeleton) (p : Ptr) :
    (gc'.node p).live = (gc.node p).live :=
  (congrArg PonGcNode.live (node_of_skeleton h p) :)

theorem edge_of_skeleton (h : gc'.skeleton = gc.skeleton) : gc'.Edge = gc.Edge := by
  funext p q
  rw [Edge, live_of_skeleton h, Edge]

theorem roots_of_skeleton (h : gc'.skeleton = gc.skeleton) : gc'.roots = gc.roots :=
  (congrArg PonGcState.roots h :)

theorem reachable_of_skeleton (h : gc'.skeleton = gc.skeleton) :
    gc'.Reachable p ↔ gc.Reachable p := by
  have hroot : gc'.Root = gc.Root := by
    funext q
    rw [Root, roots_of_skeleton h, Root]
  rw [PonGcState.Reachable, PonGcState.Reachable, edge_of_skeleton h, hroot]

end Skeleton

/-! ## The gray queue -/

/-- The gray queue holds `Q`, front first. -/
structure GrayQueue (gc : PonGcState) (Q : List Ptr) : Prop where
  /-- the links from the front -/
  links : Seg (fun p => (gc.node p).nextGray) gc.grayHead Q none
  /-- the back pointer -/
  tail : gc.grayTail = Q.getLast?
  /-- no node twice -/
  nodup : Q.Nodup
  /-- the length field -/
  count : gc.grayCount = Q.length
  /-- queued nodes exist -/
  allocated : ∀ p ∈ Q, gc.Allocated p

theorem GrayQueue.nil {gc : PonGcState} (hh : gc.grayHead = none) (ht : gc.grayTail = none)
    (hc : gc.grayCount = 0) : GrayQueue gc [] where
  links := hh
  tail := ht
  nodup := List.nodup_nil
  count := by simpa using hc
  allocated := by simp

theorem GrayQueue.incCycles {gc : PonGcState} {Q : List Ptr} (h : GrayQueue gc Q) :
    GrayQueue gc.incCycles Q :=
  ⟨h.links, h.tail, h.nodup, h.count, h.allocated⟩

/-! ## The all-nodes list -/

/-- The all-nodes list holds `L`, front first, linked both ways. -/
structure AllNodes (gc : PonGcState) (L : List Ptr) : Prop where
  /-- forward links -/
  next : Seg (fun p => (gc.node p).nextAll) gc.nodesHead L none
  /-- backward links -/
  prev : Seg (fun p => (gc.node p).prevAll) gc.nodesTail L.reverse none
  /-- no node twice -/
  nodup : L.Nodup
  /-- exactly the allocated nodes -/
  mem_iff : ∀ p, p ∈ L ↔ gc.Allocated p
  /-- the length field -/
  total : gc.totalNodes = L.length

theorem AllNodes.of_skeleton {gc gc' : PonGcState} {L : List Ptr} (h : AllNodes gc L)
    (hs : gc'.skeleton = gc.skeleton) : AllNodes gc' L := by
  have hbare : ∀ p, (gc'.node p).bare = (gc.node p).bare := node_of_skeleton hs
  have hn : (fun p => (gc'.node p).nextAll) = fun p => (gc.node p).nextAll :=
    funext fun p => (congrArg PonGcNode.nextAll (hbare p) :)
  have hp : (fun p => (gc'.node p).prevAll) = fun p => (gc.node p).prevAll :=
    funext fun p => (congrArg PonGcNode.prevAll (hbare p) :)
  have hhead : gc'.nodesHead = gc.nodesHead := (congrArg PonGcState.nodesHead hs :)
  have htail : gc'.nodesTail = gc.nodesTail := (congrArg PonGcState.nodesTail hs :)
  have htot : gc'.totalNodes = gc.totalNodes := (congrArg PonGcState.totalNodes hs :)
  refine ⟨?_, ?_, h.nodup, fun p => (h.mem_iff p).trans (allocated_of_skeleton hs).symm, ?_⟩
  · rw [hn, hhead]
    exact h.next
  · rw [hp, htail]
    exact h.prev
  · rw [htot]
    exact h.total

/-! ## Well-formed heap graphs -/

/-- A heap graph as the operations build it: the all-nodes list is `L`, the id
index finds every node under its id, ids are below `next_id`, and no reference
or root dangles. -/
structure WellFormed (gc : PonGcState) (L : List Ptr) : Prop where
  /-- the all-nodes list -/
  all : AllNodes gc L
  /-- the id index finds every node -/
  byId : ∀ p ∈ L, (gc.node p).id < gc.byIdCap ∧ gc.byId (gc.node p).id = some p
  /-- ids come from `next_id` -/
  idLt : ∀ p ∈ L, (gc.node p).id < gc.nextId
  /-- references point to nodes -/
  refs : ∀ p q, gc.Edge p q → q ∈ L
  /-- roots are nodes -/
  roots : ∀ p, gc.Root p → p ∈ L

theorem WellFormed.of_skeleton {gc gc' : PonGcState} {L : List Ptr} (h : WellFormed gc L)
    (hs : gc'.skeleton = gc.skeleton) : WellFormed gc' L := by
  have hid : ∀ p, (gc'.node p).id = (gc.node p).id :=
    fun p => (congrArg PonGcNode.id (node_of_skeleton hs p) :)
  have hcap : gc'.byIdCap = gc.byIdCap := (congrArg PonGcState.byIdCap hs :)
  have hby : gc'.byId = gc.byId := (congrArg PonGcState.byId hs :)
  have hnext : gc'.nextId = gc.nextId := (congrArg PonGcState.nextId hs :)
  refine ⟨h.all.of_skeleton hs, fun p hp => ?_, fun p hp => ?_, fun p q hpq => ?_,
    fun p hp => ?_⟩
  · rw [hid, hcap, hby]
    exact h.byId p hp
  · rw [hid, hnext]
    exact h.idLt p hp
  · rw [edge_of_skeleton hs] at hpq
    exact h.refs p q hpq
  · rw [Root, roots_of_skeleton hs] at hp
    exact h.roots p hp

end PonBeam.Gc
