import PonBeam.Gc.Refs
import PonBeam.Gc.Index
import PonBeam.Gc.Collect
import PonBeam.Lib.System

/-!
# The three views of the node set

The all-nodes list, the id index and the node count are written by different operations.
`GraphLaws` says what they agree on between two public calls, and that every reference,
root and id is in order; it holds after any sequence of creations, references, roots,
collections and resets.
-/

namespace PonBeam.Gc

open PonGcState

/-- The calls that build and collect a graph. -/
inductive GraphOp : Type where
  /-- `pon_gc_node_create`, at the address the allocator returned -/
  | create (p : Ptr) (data : Option ℕ) (size : ℕ)
  /-- `pon_gc_add_ref` -/
  | addRef (f t : Ptr)
  /-- `pon_gc_add_root` -/
  | addRoot (r : Ptr)
  /-- `pon_gc_mark_sweep` -/
  | markSweep
  /-- `pon_gc_reset` -/
  | reset

/-- The collector, with the ids it has handed out, the last one first. -/
structure GraphRun where
  /-- its state -/
  gc : PonGcState
  /-- the ids of all nodes created so far -/
  issued : List ℕ

/-- One call on live nodes. A reference is added to a node of fewer than 32768. -/
inductive GraphStep : GraphRun → GraphOp → GraphRun → Prop where
  /-- `pon_gc_node_create` -/
  | create {s : GraphRun} {p : Ptr} {data : Option ℕ} {size : ℕ} : ¬ s.gc.Allocated p →
      GraphStep s (.create p data size) ⟨ponGcNodeCreate s.gc p data size,
        ((ponGcNodeCreate s.gc p data size).node p).id :: s.issued⟩
  /-- `pon_gc_add_ref` -/
  | addRef {s : GraphRun} {f t : Ptr} {gc' : PonGcState} : s.gc.Allocated f → s.gc.Allocated t →
      (s.gc.node f).numRefs < 32768 → ponGcAddRef s.gc (some f) (some t) = some gc' →
      GraphStep s (.addRef f t) ⟨gc', s.issued⟩
  /-- `pon_gc_add_root` -/
  | addRoot {s : GraphRun} {r : Ptr} : s.gc.Allocated r →
      GraphStep s (.addRoot r) ⟨ponGcAddRoot s.gc (some r), s.issued⟩
  /-- `pon_gc_mark_sweep` -/
  | markSweep {s : GraphRun} {fuel dead : ℕ} {gc' : PonGcState} :
      ponGcMarkSweep fuel s.gc = some (gc', dead) → GraphStep s .markSweep ⟨gc', s.issued⟩
  /-- `pon_gc_reset` -/
  | reset {s : GraphRun} {fuel : ℕ} {gc' : PonGcState} :
      ponGcReset fuel s.gc = some gc' → GraphStep s .reset ⟨gc', s.issued⟩

/-- The graph, from `pon_gc_init` on. -/
def graphSystem : System GraphRun GraphOp where
  init s := s = ⟨ponGcInit, []⟩
  step := GraphStep

/-- **The graph is well formed** between two calls, and its all-nodes list is `L`. -/
structure GraphLaws (s : GraphRun) (L : List Ptr) : Prop where
  /-- the list is linked both ways, is as long as `total_nodes`, and holds the live nodes -/
  all : AllNodes s.gc L
  /-- a node's references are stored in its array -/
  stored : ∀ p ∈ L, (s.gc.node p).live.length = (s.gc.node p).numRefs
  /-- and are live nodes -/
  refs : ∀ p ∈ L, ∀ r ∈ (s.gc.node p).live, ∃ q, r = some q ∧ s.gc.Allocated q
  /-- so are the roots -/
  roots : ∀ r ∈ s.gc.roots, ∃ q, r = some q ∧ s.gc.Allocated q
  /-- no two nodes have one id -/
  distinct : ∀ p ∈ L, ∀ q ∈ L, (s.gc.node p).id = (s.gc.node q).id → p = q
  /-- ids are below `next_id` -/
  below : ∀ p ∈ L, (s.gc.node p).id < s.gc.nextId
  /-- the node has the id it was created with -/
  issued : ∀ p ∈ L, (s.gc.node p).id ∈ s.issued
  /-- no id is handed out twice -/
  once : s.issued.Nodup
  /-- `pon_gc_node_by_id` finds the live nodes and nothing else -/
  byId : ∀ i p, ponGcNodeById s.gc i = some p ↔ p ∈ L ∧ (s.gc.node p).id = i
  /-- nothing is queued, and `gray_count` is 0 -/
  queue : s.gc.grayHead = none ∧ s.gc.grayTail = none ∧ s.gc.grayCount = 0
  /-- no node is GRAY -/
  noGray : ∀ p, s.gc.color p ≠ .gray

/-! ## The invariant -/

/-- Every node's array is in order and holds no NULL. -/
def RefsOk (n : PonGcNode) : Prop := Sized n ∧ none ∉ n.live

/-- What every call keeps: a well-formed graph of WHITE nodes, nothing queued, an index that
holds the nodes of the list and nothing else, no NULL among references and roots, and ids
that were handed out once. -/
structure GraphInv (s : GraphRun) (L : List Ptr) : Prop where
  wf : WellFormed s.gc L
  white : ∀ p, s.gc.color p = .white
  queue : GrayQueue s.gc []
  indexed : Indexed s.gc
  refs : ∀ p ∈ L, RefsOk (s.gc.node p)
  roots : none ∉ s.gc.roots
  issued : ∀ p ∈ L, (s.gc.node p).id ∈ s.issued
  issuedLt : ∀ i ∈ s.issued, i < s.gc.nextId
  once : s.issued.Nodup

theorem graphInv_init : GraphInv ⟨ponGcInit, []⟩ [] where
  wf := wellFormed_init
  white _ := rfl
  queue := GrayQueue.nil rfl rfl rfl
  indexed _ _ hq := nomatch (nodeById_some.1 hq).2
  refs _ hp := nomatch hp
  roots := List.not_mem_nil
  issued _ hp := nomatch hp
  issuedLt _ hi := nomatch hi
  once := List.nodup_nil

section Inv

variable {s : GraphRun} {gc' : PonGcState} {L L' : List Ptr}

/-- **The invariant is enough.** -/
theorem GraphInv.laws (h : GraphInv s L) : GraphLaws s L where
  all := h.wf.all
  stored p hp := (h.refs p hp).1.length_live
  refs p hp r hr := by
    cases r with
    | none => exact absurd hr (h.refs p hp).2
    | some q => exact ⟨q, rfl, (h.wf.all.mem_iff q).1 (h.wf.refs p q hr)⟩
  roots r hr := by
    cases r with
    | none => exact absurd hr h.roots
    | some q => exact ⟨q, rfl, (h.wf.all.mem_iff q).1 (h.wf.roots q hr)⟩
  distinct p hp q hq hid := by
    have hfound := (h.wf.byId p hp).2
    rw [hid, (h.wf.byId q hq).2] at hfound
    exact (Option.some.inj hfound).symm
  below := h.wf.idLt
  issued := h.issued
  once := h.once
  byId i p := by
    constructor
    · intro hfound
      obtain ⟨ha, hid⟩ := h.indexed i p hfound
      exact ⟨(h.wf.all.mem_iff p).2 ha, hid⟩
    · rintro ⟨hp, rfl⟩
      exact nodeById_some.2 (h.wf.byId p hp)
  queue := ⟨h.queue.links, h.queue.tail, h.queue.count⟩
  noGray p := by
    rw [h.white p]
    simp

/-- A call that moves no link, id or index entry. -/
theorem GraphInv.transfer (h : GraphInv s L) (hwf : WellFormed gc' L)
    (hwhite : ∀ p, gc'.color p = .white) (hqueue : GrayQueue gc' [])
    (hid : ∀ p ∈ L, (gc'.node p).id = (s.gc.node p).id)
    (hindex : gc'.byId = s.gc.byId ∧ gc'.byIdCap = s.gc.byIdCap ∧ gc'.nextId = s.gc.nextId)
    (hrefs : ∀ p ∈ L, RefsOk (gc'.node p)) (hroots : none ∉ gc'.roots) :
    GraphInv ⟨gc', s.issued⟩ L := by
  obtain ⟨hby, hcap, hnext⟩ := hindex
  refine ⟨hwf, hwhite, hqueue, fun i q hq => ?_, hrefs, hroots, fun p hp => ?_, fun i hi => ?_,
    h.once⟩
  · have hq' : ponGcNodeById gc' i = some q := hq
    rw [nodeById_some, hcap, hby, ← nodeById_some] at hq'
    obtain ⟨ha, hqid⟩ := h.indexed i q hq'
    have hmem := (h.wf.all.mem_iff q).2 ha
    exact ⟨(hwf.all.mem_iff q).1 hmem, (hid q hmem).trans hqid⟩
  · exact (hid p hp) ▸ h.issued p hp
  · exact hnext ▸ h.issuedLt i hi

theorem GraphInv.create (h : GraphInv s L) {p : Ptr} (hp : ¬ s.gc.Allocated p)
    (data : Option ℕ) (size : ℕ) :
    GraphInv ⟨ponGcNodeCreate s.gc p data size,
      ((ponGcNodeCreate s.gc p data size).node p).id :: s.issued⟩ (p :: L) := by
  obtain ⟨hroots, hhead, htail, hcount, -, hnext, -, -⟩ := create_frame s.gc p data size
  have hpL : p ∉ L := fun hm => hp ((h.wf.all.mem_iff p).1 hm)
  have hnode : ∀ q, (ponGcNodeCreate s.gc p data size).node q =
      if q = p then { PonGcNode.blank with
        data := data, dataSize := size, id := s.gc.nextId, nextAll := s.gc.nodesHead }
      else if s.gc.nodesHead = some q then (s.gc.node q).setPrevAll (some p)
      else s.gc.node q :=
    fun q => node_create h.wf hp q
  have hidp : ((ponGcNodeCreate s.gc p data size).node p).id = s.gc.nextId := by
    rw [hnode, if_pos rfl]
  have hkept : ∀ q ∈ L, ((ponGcNodeCreate s.gc p data size).node q).id = (s.gc.node q).id ∧
      (RefsOk (s.gc.node q) → RefsOk ((ponGcNodeCreate s.gc p data size).node q)) := by
    intro q hq
    have hqp : q ≠ p := fun he => hpL (he ▸ hq)
    rw [hnode, if_neg hqp]
    split
    · exact ⟨rfl, fun hok => ⟨⟨hok.1.cap, hok.1.length, hok.1.le⟩, hok.2⟩⟩
    · exact ⟨rfl, id⟩
  refine ⟨h.wf.create hp, fun q => ?_, ?_, h.indexed.create h.wf hp data size, fun q hq => ?_, ?_,
    fun q hq => ?_, fun i hi => ?_, ?_⟩
  · exact (color_create h.wf hp q).trans (h.white q)
  · exact GrayQueue.nil (hhead.trans h.queue.links) (htail.trans h.queue.tail)
      (hcount.trans h.queue.count)
  · rcases List.mem_cons.1 hq with rfl | hq
    · have hblank := hnode q
      rw [if_pos rfl] at hblank
      change RefsOk ((ponGcNodeCreate s.gc q data size).node q)
      rw [hblank]
      exact ⟨⟨Or.inl rfl, rfl, Nat.le_refl 0⟩, List.not_mem_nil⟩
    · exact (hkept q hq).2 (h.refs q hq)
  · exact fun hnone => h.roots (hroots ▸ hnone)
  · rcases List.mem_cons.1 hq with rfl | hq
    · exact List.mem_cons_self
    · exact List.mem_cons_of_mem _ ((hkept q hq).1 ▸ h.issued q hq)
  · change i < (ponGcNodeCreate s.gc p data size).nextId
    rw [hnext]
    rcases List.mem_cons.1 hi with rfl | hi
    · rw [hidp]
      omega
    · exact Nat.lt_succ_of_lt (h.issuedLt i hi)
  · refine List.nodup_cons.2 ⟨fun hmem => ?_, h.once⟩
    have hlt := h.issuedLt _ hmem
    rw [hidp] at hlt
    omega

theorem GraphInv.addRef (h : GraphInv s L) {f t : Ptr} (hf : s.gc.Allocated f)
    (ht : s.gc.Allocated t) (hlt : (s.gc.node f).numRefs < 32768)
    (hrun : ponGcAddRef s.gc (some f) (some t) = some gc') : GraphInv ⟨gc', s.issued⟩ L := by
  obtain ⟨hcol, hqueue⟩ := addRef_frame hf hrun
  have hok := h.refs f ((h.wf.all.mem_iff f).2 hf)
  obtain ⟨g, hg, -, hsized, -, hlive, hothers⟩ := addRef_append (t := t) hf hok.1 hlt
  obtain rfl := Option.some.inj (hrun.symm.trans hg)
  have hwf := h.wf.addRef hf ht hrun
  obtain ⟨n, rfl, -, -, -, -, hid, -⟩ := addRef_eq hrun
  refine h.transfer hwf (fun p => (hcol p).trans (h.white p)) (hqueue [] h.queue) (fun p _ => ?_)
    ⟨rfl, rfl, rfl⟩ (fun p hp => ?_) h.roots
  · rw [node_modify hf]
    split
    · rename_i hp
      rw [hp, hid]
    · rfl
  · by_cases hpf : p = f
    · subst hpf
      refine ⟨hsized, fun hnone => ?_⟩
      rw [hlive, List.mem_append] at hnone
      rcases hnone with hnone | hnone
      · exact hok.2 hnone
      · cases List.mem_singleton.1 hnone
    · rw [hothers p hpf]
      exact h.refs p hp

theorem GraphInv.addRoot (h : GraphInv s L) {r : Ptr} (hr : s.gc.Allocated r) :
    GraphInv ⟨ponGcAddRoot s.gc (some r), s.issued⟩ L := by
  have hwf := h.wf.addRoot hr
  obtain ⟨cap, heq⟩ := addRoot_eq s.gc r
  rw [heq] at hwf ⊢
  refine h.transfer hwf h.white ⟨h.queue.links, h.queue.tail, h.queue.nodup, h.queue.count,
    h.queue.allocated⟩ (fun _ _ => rfl) ⟨rfl, rfl, rfl⟩ h.refs fun hnone => ?_
  rcases List.mem_append.1 hnone with hnone | hnone
  · exact h.roots hnone
  · cases List.mem_singleton.1 hnone

/-- References and their array are part of what marking and sweeping leave alone. -/
theorem RefsOk.of_content {n m : PonGcNode} (h : RefsOk m) (heq : n.content = m.content) :
    RefsOk n := by
  have hrefs : n.refs = m.refs := (congrArg PonGcNode.refs heq :)
  have hnum : n.numRefs = m.numRefs := (congrArg PonGcNode.numRefs heq :)
  have hcap : n.refsCap = m.refsCap := (congrArg PonGcNode.refsCap heq :)
  obtain ⟨⟨h₁, h₂, h₃⟩, h₄⟩ := h
  refine ⟨⟨hcap ▸ h₁, by rw [hrefs, hcap, h₂], by rw [hnum, hcap]; exact h₃⟩, ?_⟩
  rw [PonGcNode.live, hrefs, hnum]
  exact h₄

/-- **A full collection** returns, and keeps the invariant. -/
theorem GraphInv.markSweep (h : GraphInv s L) :
    ∃ gc' dead L', ponGcMarkSweep (L.length + 1) s.gc = some (gc', dead) ∧
      GraphInv ⟨gc', s.issued⟩ L' := by
  obtain ⟨g, k, hmark, hsk, hu, hblack⟩ :=
    ponGcMark_spec h.wf (Unmarked.of_white h.white h.queue) (Nat.lt_succ_self L.length)
  obtain ⟨gc', b, hsweep, hinv, hdead⟩ :=
    ponGcSweep_spec (h.wf.of_skeleton hsk) (Nat.lt_succ_self L.length)
  have hindexed := (h.indexed.of_skeleton hsk).sweep (h.wf.of_skeleton hsk) hsweep
  have hblack' : ∀ p, g.color p = .black ↔ s.gc.Reachable p := by
    intro p
    rw [hblack, h.white]
    simp
  set L' := L.filter fun p => g.color p ≠ .white with hL'
  have hexact := ExactCollection.of_sweep h.wf hsk hu hblack' hinv hdead
  have hsub : ∀ p ∈ L', p ∈ L := fun p hp => List.mem_of_mem_filter hp
  have hid : ∀ p ∈ L', (gc'.node p).id = (s.gc.node p).id :=
    fun p hp => id_of_content (hexact.kept p hp)
  obtain ⟨hroots, hcap, hnext, -⟩ := hinv.frame
  have hroots' : gc'.roots = s.gc.roots := hroots.trans (roots_of_skeleton hsk)
  have hnext' : gc'.nextId = s.gc.nextId := hnext.trans (congrArg PonGcState.nextId hsk :)
  have hwf : WellFormed gc' L' := by
    refine hinv.wellFormed (h.wf.of_skeleton hsk) hsub (fun p hp q he => ?_) fun p hp => ?_
    · rw [edge_of_skeleton hsk] at he
      exact (hexact.survivors q).2
        ⟨h.wf.refs p q he, ((hexact.survivors p).1 hp).2.step he⟩
    · rw [Root, roots_of_skeleton hsk] at hp
      exact (hexact.survivors p).2 ⟨h.wf.roots p hp, TriColor.Reachable.of_root hp⟩
  refine ⟨gc', gc'.deadNodes, L', by simp only [ponGcMarkSweep, hmark, hsweep], hwf,
    hwf.white_of_list hexact.white, hexact.queue, hindexed, fun p hp => ?_, ?_, fun p hp => ?_,
    fun i hi => ?_, h.once⟩
  · exact (h.refs p (hsub p hp)).of_content (hexact.kept p hp)
  · exact fun hnone => h.roots (hroots' ▸ hnone)
  · exact (hid p hp) ▸ h.issued p (hsub p hp)
  · exact hnext' ▸ h.issuedLt i hi

/-- **A reset** returns, and keeps the invariant. -/
theorem GraphInv.reset (h : GraphInv s L) :
    ∃ gc', ponGcReset (L.length + 1) s.gc = some gc' ∧ GraphInv ⟨gc', s.issued⟩ L := by
  obtain ⟨gc', hrun, hwf, hu, hwhite, g, hsk, rfl⟩ :=
    ponGcReset_spec h.wf (Nat.lt_succ_self L.length)
  have hbare : ∀ p, (g.node p).bare = (s.gc.node p).bare := node_of_skeleton hsk
  refine ⟨_, hrun, h.transfer hwf hwhite hu.queue (fun p _ => ?_) ⟨?_, ?_, ?_⟩ (fun p hp => ?_) ?_⟩
  · exact (congrArg PonGcNode.id (hbare p) :)
  · exact (congrArg PonGcState.byId hsk :)
  · exact (congrArg PonGcState.byIdCap hsk :)
  · exact (congrArg PonGcState.nextId hsk :)
  · exact (h.refs p hp).of_content (congrArg PonGcNode.content (hbare p) :)
  · have hroots : g.roots = s.gc.roots := roots_of_skeleton hsk
    exact fun hnone => h.roots (hroots ▸ hnone)

end Inv

/-! ## Every run -/

/-- **One call.** -/
theorem GraphInv.step {s s' : GraphRun} {L : List Ptr} {op : GraphOp} (h : GraphInv s L)
    (hstep : GraphStep s op s') : ∃ L', GraphInv s' L' := by
  cases hstep with
  | create hp => exact ⟨_, h.create hp _ _⟩
  | addRef hf ht hlt hrun => exact ⟨L, h.addRef hf ht hlt hrun⟩
  | addRoot hr => exact ⟨L, h.addRoot hr⟩
  | @markSweep fuel dead gc' hrun =>
    obtain ⟨g, n, L', hrun', hinv⟩ := h.markSweep
    have heq : some (gc', dead) = some (g, n) := by
      rw [← ponGcMarkSweep_mono (Nat.le_max_left fuel (L.length + 1)) hrun,
        ponGcMarkSweep_mono (Nat.le_max_right fuel (L.length + 1)) hrun']
    obtain ⟨rfl, rfl⟩ := Prod.mk.inj (Option.some.inj heq)
    exact ⟨L', hinv⟩
  | @reset fuel gc' hrun =>
    obtain ⟨g, hrun', hinv⟩ := h.reset
    have heq : some gc' = some g := by
      rw [← ponGcReset_mono (Nat.le_max_left fuel (L.length + 1)) hrun,
        ponGcReset_mono (Nat.le_max_right fuel (L.length + 1)) hrun']
    obtain rfl := Option.some.inj heq
    exact ⟨L, hinv⟩

theorem graphInv_of_reach {s : GraphRun} (h : graphSystem.Reach s) : ∃ L, GraphInv s L := by
  induction h with
  | @start s hs =>
    obtain rfl : s = ⟨ponGcInit, []⟩ := hs
    exact ⟨[], graphInv_init⟩
  | next _ hstep ih =>
    obtain ⟨L, hinv⟩ := ih
    exact hinv.step hstep

/-- **The graph after any sequence of calls** is well formed, and every further call on live
nodes returns. -/
theorem graphLaws_of_reach {s : GraphRun} (h : graphSystem.Reach s) :
    (∃ L, GraphLaws s L) ∧
      (∀ f t, s.gc.Allocated f → s.gc.Allocated t → (s.gc.node f).numRefs < 32768 →
        ∃ gc', ponGcAddRef s.gc (some f) (some t) = some gc') ∧
      (∃ fuel r, ponGcMarkSweep fuel s.gc = some r) ∧ ∃ fuel gc', ponGcReset fuel s.gc = some gc' := by
  obtain ⟨L, hinv⟩ := graphInv_of_reach h
  refine ⟨⟨L, hinv.laws⟩, fun f t hf _ hlt => ?_, ?_, ?_⟩
  · have hok := hinv.refs f ((hinv.wf.all.mem_iff f).2 hf)
    obtain ⟨gc', hrun, -⟩ := addRef_append (t := t) hf hok.1 hlt
    exact ⟨gc', hrun⟩
  · obtain ⟨gc', dead, -, hrun, -⟩ := hinv.markSweep
    exact ⟨_, _, hrun⟩
  · obtain ⟨gc', hrun, -⟩ := hinv.reset
    exact ⟨_, gc', hrun⟩

/-! ## A run of all five calls -/

/-- Three nodes, the first one a root. -/
def threeNodes : GraphRun := ⟨ponGcNodeCreate rootedPair 3 none 16, [2, 1, 0]⟩

/-- `pon_gc_add_ref`, where it returns. -/
def GraphRun.refer (s : GraphRun) (f t : Ptr) : GraphRun :=
  ⟨(ponGcAddRef s.gc (some f) (some t)).getD s.gc, s.issued⟩

/-- The first two refer to each other, and the third to the first. -/
def ringOfTwo : GraphRun := ((threeNodes.refer 1 2).refer 2 1).refer 3 1

/-- After `pon_gc_mark_sweep`. -/
def ringCollected : GraphRun :=
  ⟨((ponGcMarkSweep 4 ringOfTwo.gc).getD (ponGcInit, 0)).1, [2, 1, 0]⟩

/-- After `pon_gc_reset`. -/
def ringReset : GraphRun := ⟨(ponGcReset 3 ringCollected.gc).getD ponGcInit, [2, 1, 0]⟩

/-- And with a node where the third one was. -/
def ringAndNode : GraphRun := ⟨ponGcNodeCreate ringReset.gc 3 none 8, [3, 2, 1, 0]⟩

theorem threeNodes_reach : graphSystem.Reach threeNodes := by
  have h₀ : graphSystem.Reach ⟨ponGcInit, []⟩ := .start rfl
  have h₁ : graphSystem.Reach ⟨oneNode, [0]⟩ :=
    h₀.next (a := .create 1 none 8) (GraphStep.create fun ⟨_, hn⟩ => nomatch hn)
  have h₂ : graphSystem.Reach ⟨ponGcNodeCreate oneNode 2 none 8, [1, 0]⟩ :=
    h₁.next (a := .create 2 none 8) (GraphStep.create fun ⟨_, hn⟩ => nomatch hn)
  have h₃ : graphSystem.Reach ⟨rootedPair, [1, 0]⟩ :=
    h₂.next (a := .addRoot 1) (GraphStep.addRoot ⟨_, rfl⟩)
  exact h₃.next (a := .create 3 none 16) (GraphStep.create fun ⟨_, hn⟩ => nomatch hn)

theorem ringOfTwo_reach : graphSystem.Reach ringOfTwo := by
  have h₁ : graphSystem.Reach (threeNodes.refer 1 2) :=
    threeNodes_reach.next (a := .addRef 1 2)
      (GraphStep.addRef ⟨_, rfl⟩ ⟨_, rfl⟩ (by decide) rfl)
  have h₂ : graphSystem.Reach ((threeNodes.refer 1 2).refer 2 1) :=
    h₁.next (a := .addRef 2 1) (GraphStep.addRef ⟨_, rfl⟩ ⟨_, rfl⟩ (by decide) rfl)
  exact h₂.next (a := .addRef 3 1) (GraphStep.addRef ⟨_, rfl⟩ ⟨_, rfl⟩ (by decide) rfl)

theorem ringAndNode_reach : graphSystem.Reach ringAndNode := by
  have h₁ : graphSystem.Reach ringCollected :=
    ringOfTwo_reach.next (a := .markSweep) (@GraphStep.markSweep ringOfTwo 4 1 _ rfl)
  have h₂ : graphSystem.Reach ringReset :=
    h₁.next (a := .reset) (@GraphStep.reset ringCollected 3 _ rfl)
  exact h₂.next (a := .create 3 none 8) (GraphStep.create fun ⟨_, hn⟩ => nomatch hn)

/-- The collection frees the third node, and the ring of two stays. -/
theorem ringAndNode_graphLaws :
    (ponGcMarkSweep 4 ringOfTwo.gc).map Prod.snd = some 1 ∧ ringAndNode.gc.totalNodes = 3 ∧
      ∃ L, GraphLaws ringAndNode L :=
  ⟨rfl, rfl, (graphLaws_of_reach ringAndNode_reach).1⟩

end PonBeam.Gc
