import PonBeam.Gc.Mark
import PonBeam.Gc.Sweep
import Mathlib.Tactic.Linarith

/-!
# The operations keep the heap graph well formed

For each public operation: what it does to the edges, the roots and the colours,
and that `WellFormed` survives it. The mutators say how the edge relation grows or
shrinks (`edge_addRef`, `edge_removeRef`); the collector's own passes are restated
here at the level of the graph (`ponGcSweep_wellFormed`, `ponGcReset_spec`).
-/

namespace PonBeam.Gc

open PonGcState

/-! ## Transfer -/

/-- A write that leaves the links, ids and index alone keeps the graph well formed as
long as references and roots still point to nodes. -/
theorem WellFormed.transfer {gc gc' : PonGcState} {L : List Ptr} (h : WellFormed gc L)
    (hlinks : ∀ p, (gc'.node p).nextAll = (gc.node p).nextAll ∧
      (gc'.node p).prevAll = (gc.node p).prevAll ∧ (gc'.node p).id = (gc.node p).id)
    (halloc : ∀ p, gc'.Allocated p ↔ gc.Allocated p)
    (hframe : gc'.nodesHead = gc.nodesHead ∧ gc'.nodesTail = gc.nodesTail ∧
      gc'.totalNodes = gc.totalNodes ∧ gc'.byId = gc.byId ∧ gc'.byIdCap = gc.byIdCap ∧
      gc'.nextId = gc.nextId)
    (hrefs : ∀ p q, gc'.Edge p q → q ∈ L) (hroots : ∀ p, gc'.Root p → p ∈ L) :
    WellFormed gc' L := by
  obtain ⟨f₁, f₂, f₃, f₄, f₅, f₆⟩ := hframe
  refine ⟨⟨?_, ?_, h.all.nodup, fun p => (h.all.mem_iff p).trans (halloc p).symm, ?_⟩,
    fun p hp => ?_, fun p hp => ?_, hrefs, hroots⟩
  · rw [f₁]
    exact (Seg.congr fun y _ => (hlinks y).1).mpr h.all.next
  · rw [f₂]
    exact (Seg.congr fun y _ => (hlinks y).2.1).mpr h.all.prev
  · rw [f₃]
    exact h.all.total
  · rw [(hlinks p).2.2, f₄, f₅]
    exact h.byId p hp
  · rw [(hlinks p).2.2, f₆]
    exact h.idLt p hp

/-! ## Creation -/

theorem wellFormed_init : WellFormed ponGcInit [] := by
  refine ⟨⟨rfl, rfl, List.nodup_nil, fun p => ?_, rfl⟩, by simp, by simp, fun p q h => ?_,
    fun p h => ?_⟩
  · simp [Allocated, ponGcInit]
  · simp [Edge, node, ponGcInit, PonGcNode.live, PonGcNode.blank] at h
  · simp [Root, ponGcInit] at h

/-- Doubling reaches any id. -/
theorem lt_growCap : ∀ (fuel c id : ℕ), 0 < c → id < c * 2 ^ fuel → id < growCap fuel c id := by
  intro fuel
  induction fuel with
  | zero =>
    intro c id _ h
    simpa [growCap] using h
  | succ n ih =>
    intro c id hc h
    rw [growCap]
    split
    · refine ih (c * 2) id (by omega) ?_
      rw [pow_succ] at h
      linarith
    · omega

theorem lt_newByIdCap (cap id : ℕ) : id < newByIdCap cap id := by
  have hpos : 0 < if cap ≠ 0 then cap * 2 else 64 := by split <;> omega
  refine lt_growCap _ _ _ hpos ?_
  calc id < 2 ^ id := Nat.lt_two_pow_self
    _ ≤ 2 ^ (id + 1) := Nat.pow_le_pow_right (by norm_num) (by omega)
    _ ≤ _ := Nat.le_mul_of_pos_left _ hpos

section Create

variable {gc : PonGcState} {L : List Ptr} {p : Ptr} {data : Option ℕ} {size : ℕ}

/-- The node memory after `pon_gc_node_create`. -/
theorem node_create (h : WellFormed gc L) (hp : ¬ gc.Allocated p) (q : Ptr) :
    (ponGcNodeCreate gc p data size).node q =
      if q = p then { PonGcNode.blank with
        data := data, dataSize := size, id := gc.nextId, nextAll := gc.nodesHead }
      else if gc.nodesHead = some q then (gc.node q).setPrevAll (some p) else gc.node q := by
  have hgrow : ∀ (g : PonGcState) (c : Prop) [Decidable c] (k : ℕ),
      (if c then g.growById k else g).node q = g.node q := by
    intro g c _ k
    split <;> rfl
  set n : PonGcNode := { PonGcNode.blank with
    data := data, dataSize := size, id := gc.nextId, nextAll := gc.nodesHead } with hn
  have hplace : ∀ r, (gc.place p n).node r = if r = p then n else gc.node r := by
    intro r
    rw [node, place]
    simp only
    split
    · rfl
    · rfl
  simp only [ponGcNodeCreate, node_setById, hgrow, node_setNodesHead, ← hn]
  have hhead : (gc.place p n).nodesHead = gc.nodesHead := rfl
  rw [hhead]
  rcases hh : gc.nodesHead with _ | x
  · rw [node_setNodesTail, hplace]
    simp
  · have hx : x ∈ L := List.mem_of_head? (by rw [← h.all.next.head_eq, hh])
    have hxa : gc.Allocated x := (h.all.mem_iff x).mp hx
    have hxp : x ≠ p := fun he => hp (he ▸ hxa)
    have hpa : (gc.place p n).Allocated x := by
      obtain ⟨m, hm⟩ := hxa
      exact ⟨m, by simp [place, hxp, hm]⟩
    dsimp only
    rw [node_modify hpa]
    by_cases hqx : q = x
    · subst hqx
      simp [hplace, hxp]
    · rw [if_neg hqx, hplace]
      have hne : ¬ (some x = some q) := fun he => hqx (Option.some.inj he).symm
      rw [if_neg hne]

theorem allocated_create {q : Ptr} :
    (ponGcNodeCreate gc p data size).Allocated q ↔ q = p ∨ gc.Allocated q := by
  have hgrow : ∀ (g : PonGcState) (c : Prop) [Decidable c] (k : ℕ),
      (if c then g.growById k else g).Allocated q ↔ g.Allocated q := by
    intro g c _ k
    split <;> rfl
  have hplace : ∀ n, (gc.place p n).Allocated q ↔ q = p ∨ gc.Allocated q := by
    intro n
    unfold Allocated place
    by_cases hq : q = p
    · simp [hq]
    · simp [hq]
  simp only [ponGcNodeCreate, allocated_setById, hgrow, allocated_setNodesHead]
  split
  · rw [allocated_modify, hplace]
  · rw [allocated_setNodesTail, hplace]

theorem color_create (h : WellFormed gc L) (hp : ¬ gc.Allocated p) (q : Ptr) :
    (ponGcNodeCreate gc p data size).color q = gc.color q := by
  rw [color, node_create h hp, color]
  split
  · rename_i hq
    rw [hq, node_of_not_allocated hp]
  · split <;> rfl

theorem edge_create (h : WellFormed gc L) (hp : ¬ gc.Allocated p) :
    (ponGcNodeCreate gc p data size).Edge = gc.Edge := by
  funext q r
  rw [Edge, node_create h hp, Edge]
  split
  · rename_i hq
    rw [hq, node_of_not_allocated hp]
    rfl
  · split <;> rfl

/-- The fields a creation writes beside the node memory. -/
theorem create_frame (gc : PonGcState) (p : Ptr) (data : Option ℕ) (size : ℕ) :
    let gc' := ponGcNodeCreate gc p data size
    gc'.roots = gc.roots ∧ gc'.grayHead = gc.grayHead ∧ gc'.grayTail = gc.grayTail ∧
      gc'.grayCount = gc.grayCount ∧ gc'.nodesHead = some p ∧ gc'.nextId = gc.nextId + 1 ∧
      gc'.totalNodes = gc.totalNodes + 1 ∧
      gc'.nodesTail = (if gc.nodesHead = none then some p else gc.nodesTail) := by
  simp only [ponGcNodeCreate]
  have hhead : ∀ n, (gc.place p n).nodesHead = gc.nodesHead := fun _ => rfl
  rw [hhead]
  rcases hh : gc.nodesHead with _ | x
  · dsimp only
    split <;> exact ⟨rfl, rfl, rfl, rfl, rfl, rfl, rfl, rfl⟩
  · dsimp only
    split <;> exact ⟨rfl, rfl, rfl, rfl, rfl, rfl, rfl, rfl⟩

/-- The last two writes of a creation: the id index grows if it has to, and takes the node. -/
theorem create_index (gc : PonGcState) (p : Ptr) (data : Option ℕ) (size : ℕ) :
    ∃ g : PonGcState, g.byId = gc.byId ∧ g.byIdCap = gc.byIdCap ∧
      ponGcNodeCreate gc p data size = (if gc.nextId ≥ gc.byIdCap
        then g.growById (newByIdCap gc.byIdCap gc.nextId) else g).setById gc.nextId (some p) := by
  set n : PonGcNode := { PonGcNode.blank with
    data := data, dataSize := size, id := gc.nextId, nextAll := gc.nodesHead } with hn
  simp only [ponGcNodeCreate, ← hn]
  have hhead : (gc.place p n).nodesHead = gc.nodesHead := rfl
  rw [hhead]
  rcases hh : gc.nodesHead with _ | x
  · exact ⟨((gc.place p n).setNodesTail (some p)).setNodesHead (some p), rfl, rfl, rfl⟩
  · exact ⟨((gc.place p n).modify x (PonGcNode.setPrevAll (some p))).setNodesHead (some p),
      rfl, rfl, rfl⟩

/-- The id index after a creation. -/
theorem byId_create (gc : PonGcState) (p : Ptr) (data : Option ℕ) (size : ℕ) :
    let gc' := ponGcNodeCreate gc p data size
    gc.nextId < gc'.byIdCap ∧ gc.byIdCap ≤ gc'.byIdCap ∧ gc'.byId gc.nextId = some p ∧
      ∀ i, i < gc.byIdCap → i ≠ gc.nextId → gc'.byId i = gc.byId i := by
  obtain ⟨g, hby, hcap, heq⟩ := create_index gc p data size
  simp only [heq]
  have hlt := lt_newByIdCap gc.byIdCap gc.nextId
  by_cases hc : gc.nextId ≥ gc.byIdCap
  · rw [if_pos hc]
    refine ⟨hlt, by change _ ≤ newByIdCap _ _; omega, if_pos rfl, fun i hi hne => ?_⟩
    change (if i = gc.nextId then some p else
      if g.byIdCap ≤ i ∧ i < newByIdCap gc.byIdCap gc.nextId then none else g.byId i) = _
    rw [if_neg hne, if_neg (by rw [hcap]; omega), hby]
  · rw [if_neg hc]
    refine ⟨by change _ < g.byIdCap; omega, by change _ ≤ g.byIdCap; omega, if_pos rfl,
      fun i hi hne => ?_⟩
    change (if i = gc.nextId then some p else g.byId i) = _
    rw [if_neg hne, hby]

/-- **Creation** puts the new node in front of the all-nodes list. -/
theorem WellFormed.create (h : WellFormed gc L) (hp : ¬ gc.Allocated p) :
    WellFormed (ponGcNodeCreate gc p data size) (p :: L) := by
  obtain ⟨f₁, -, -, -, f₅, f₆, f₇, f₈⟩ := create_frame gc p data size
  obtain ⟨b₁, b₂, b₃, b₄⟩ := byId_create gc p data size
  have hnode : ∀ q, (ponGcNodeCreate gc p data size).node q = _ := node_create h hp
  have hpL : p ∉ L := fun hm => hp ((h.all.mem_iff p).mp hm)
  have hne : ∀ q ∈ L, q ≠ p := fun q hq hqp => hpL (hqp ▸ hq)
  have hhead : gc.nodesHead = L.head? := h.all.next.head_eq
  have hid : ∀ q ∈ L, ((ponGcNodeCreate gc p data size).node q).id = (gc.node q).id := by
    intro q hq
    rw [hnode, if_neg (hne q hq)]
    split <;> rfl
  have hidp : ((ponGcNodeCreate gc p data size).node p).id = gc.nextId := by
    rw [hnode, if_pos rfl]
  refine ⟨⟨?_, ?_, List.nodup_cons.mpr ⟨hpL, h.all.nodup⟩, fun q => ?_, ?_⟩, fun q hq => ?_,
    fun q hq => ?_, fun q r hqr => ?_, fun q hq => ?_⟩
  · have hnp : ((ponGcNodeCreate gc p data size).node p).nextAll = gc.nodesHead := by
      rw [hnode, if_pos rfl]
    refine ⟨f₅, ?_⟩
    change Seg _ ((ponGcNodeCreate gc p data size).node p).nextAll L none
    rw [hnp]
    refine (Seg.congr fun y hy => ?_).mpr h.all.next
    rw [hnode, if_neg (hne y hy)]
    split <;> rfl
  · rw [List.reverse_cons]
    refine h.all.prev.snoc (List.nodup_reverse.mpr h.all.nodup) (fun y hy => ?_) ?_ ?_
      fun z hz hzl => ?_
    · rw [List.getLast?_reverse] at hy
      rw [hnode, if_neg (hne y (List.mem_of_head? hy)), if_pos (by rw [hhead, hy])]
      rfl
    · rw [f₈, hhead]
      cases L with
      | nil => rfl
      | cons x L => simp
    · rw [hnode, if_pos rfl]
      rfl
    · rw [List.getLast?_reverse, ← hhead] at hzl
      rw [hnode, if_neg (hne z (List.mem_reverse.mp hz)), if_neg hzl]
  · rw [List.mem_cons, allocated_create, h.all.mem_iff]
  · rw [f₇, h.all.total, List.length_cons]
  · rcases List.mem_cons.mp hq with rfl | hq
    · rw [hidp]
      exact ⟨b₁, b₃⟩
    · obtain ⟨h₁, h₂⟩ := h.byId q hq
      rw [hid q hq]
      exact ⟨by omega, by rw [b₄ _ h₁ (Nat.ne_of_lt (h.idLt q hq)), h₂]⟩
  · rw [f₆]
    rcases List.mem_cons.mp hq with rfl | hq
    · rw [hidp]
      omega
    · rw [hid q hq]
      exact Nat.lt_succ_of_lt (h.idLt q hq)
  · rw [edge_create h hp] at hqr
    exact List.mem_cons_of_mem _ (h.refs q r hqr)
  · rw [Root, f₁] at hq
    exact List.mem_cons_of_mem _ (h.roots q hq)

end Create

/-! ## References -/

section Refs

variable {gc gc' : PonGcState} {L : List Ptr} {f t : Ptr}

/-- Growing the array only moves references over or cuts them off. -/
theorem mem_take_growRefs {n : PonGcNode} {q : Ptr} {k : ℕ}
    (h : some q ∈ (growRefs n).refs.take k) : some q ∈ n.refs.take k := by
  unfold growRefs at h
  split at h
  · simp only [reallocRefs, List.take_append, List.mem_append] at h
    rcases h with h | h
    · rw [List.take_take] at h
      exact List.mem_of_mem_take (l := n.refs.take k) (by
        rw [List.take_take, Nat.min_comm]
        exact h)
    · have := List.mem_of_mem_take h
      simp at this
  · exact h

/-- What a successful `pon_gc_add_ref` writes. -/
theorem addRef_eq (h : ponGcAddRef gc (some f) (some t) = some gc') :
    ∃ n : PonGcNode, gc' = gc.modify f (fun _ => n) ∧ n.color = (gc.node f).color ∧
      n.nextGray = (gc.node f).nextGray ∧ n.nextAll = (gc.node f).nextAll ∧
      n.prevAll = (gc.node f).prevAll ∧ n.id = (gc.node f).id ∧
      ∀ q, some q ∈ n.live → some q ∈ (gc.node f).live ∨ q = t := by
  simp only [ponGcAddRef] at h
  set m := growRefs (gc.node f) with hm
  have hfields : m.color = (gc.node f).color ∧ m.nextGray = (gc.node f).nextGray ∧
      m.nextAll = (gc.node f).nextAll ∧ m.prevAll = (gc.node f).prevAll ∧
      m.id = (gc.node f).id ∧ m.numRefs = (gc.node f).numRefs := by
    rw [hm]
    unfold growRefs
    split <;> exact ⟨rfl, rfl, rfl, rfl, rfl, rfl⟩
  split at h
  · rename_i hlt
    refine ⟨_, (Option.some.inj h).symm, hfields.1, hfields.2.1, hfields.2.2.1, hfields.2.2.2.1,
      hfields.2.2.2.2.1, fun q hq => ?_⟩
    -- the live part afterwards lies inside `refs[0..num_refs]` with `t` stored last
    have hq' : some q ∈ (m.refs.set m.numRefs (some t)).take (m.numRefs + 1) := by
      have hle : (m.numRefs + 1) % 65536 ≤ m.numRefs + 1 := Nat.mod_le _ _
      have hq : some q ∈ (m.refs.set m.numRefs (some t)).take ((m.numRefs + 1) % 65536) := hq
      exact (List.take_subset_take_left _ hle) hq
    rw [List.take_add_one, List.mem_append, List.take_set_of_le (Nat.le_refl _)] at hq'
    rcases hq' with hq' | hq'
    · rw [PonGcNode.live, ← hfields.2.2.2.2.2]
      exact Or.inl (mem_take_growRefs hq')
    · rw [List.getElem?_set_self hlt] at hq'
      simp at hq'
      exact Or.inr hq'
  · cases h

theorem edge_addRef (hf : gc.Allocated f) (h : ponGcAddRef gc (some f) (some t) = some gc')
    {p q : Ptr} (he : gc'.Edge p q) : gc.Edge p q ∨ p = f ∧ q = t := by
  obtain ⟨n, rfl, -, -, -, -, -, hlive⟩ := addRef_eq h
  rw [Edge, node_modify hf] at he
  split at he
  · rename_i hp
    rcases hlive q he with hq | hq
    · exact Or.inl (hp ▸ hq)
    · exact Or.inr ⟨hp, hq⟩
  · exact Or.inl he

theorem WellFormed.addRef (hwf : WellFormed gc L) (hf : gc.Allocated f) (ht : gc.Allocated t)
    (h : ponGcAddRef gc (some f) (some t) = some gc') : WellFormed gc' L := by
  have hedge := fun p q => edge_addRef (p := p) (q := q) hf h
  obtain ⟨n, rfl, -, -, h₁, h₂, h₃, -⟩ := addRef_eq h
  refine hwf.transfer (fun p => ?_) (fun p => allocated_modify) ⟨rfl, rfl, rfl, rfl, rfl, rfl⟩
    (fun p q he => ?_) hwf.roots
  · rw [node_modify hf]
    split
    · rename_i hp
      rw [hp]
      exact ⟨h₁, h₂, h₃⟩
    · exact ⟨rfl, rfl, rfl⟩
  · rcases hedge p q he with he | ⟨-, rfl⟩
    · exact hwf.refs p q he
    · exact (hwf.all.mem_iff q).mpr ht

theorem addRef_frame (hf : gc.Allocated f) (h : ponGcAddRef gc (some f) (some t) = some gc') :
    (∀ p, gc'.color p = gc.color p) ∧ ∀ Q, GrayQueue gc Q → GrayQueue gc' Q := by
  obtain ⟨n, rfl, hc, hg, -, -, -, -⟩ := addRef_eq h
  constructor
  · intro p
    rw [color, node_modify hf]
    split
    · rename_i hp
      rw [hp, hc]
      rfl
    · rfl
  · intro Q hQ
    refine ⟨(Seg.congr fun y _ => ?_).mpr hQ.links, hQ.tail, hQ.nodup, hQ.count,
      fun p hp => allocated_modify.mpr (hQ.allocated p hp)⟩
    rw [node_modify hf]
    split
    · rename_i hp
      rw [hp, hg]
    · rfl

/-- The shift moves entries down by one; it invents none. -/
theorem shiftDown_entry {q : Ptr} : ∀ (k i j : ℕ) (refs : List (Option Ptr)),
    (shiftDown k i refs)[j]? = some (some q) →
      refs[j]? = some (some q) ∧ (j < i ∨ i + k ≤ j) ∨
      refs[j + 1]? = some (some q) ∧ i ≤ j ∧ j < i + k := by
  intro k
  induction k with
  | zero =>
    intro i j refs h
    exact Or.inl ⟨h, by omega⟩
  | succ k ih =>
    intro i j refs h
    rcases ih (i + 1) j _ h with ⟨hj, hr⟩ | ⟨hj, hr⟩
    · rw [List.getElem?_set] at hj
      split at hj
      · rename_i hij
        split at hj
        · rw [List.getD_eq_getElem?_getD] at hj
          have hj := Option.some.inj hj
          refine Or.inr ⟨?_, by omega, by omega⟩
          rw [← hij]
          cases hg : refs[i + 1]? with
          | none =>
            rw [hg, Option.getD_none] at hj
            cases hj
          | some r =>
            rw [hg, Option.getD_some] at hj
            rw [hj]
        · cases hj
      · exact Or.inl ⟨hj, by omega⟩
    · rw [List.getElem?_set, if_neg (by omega)] at hj
      exact Or.inr ⟨hj, by omega, by omega⟩

/-- Whatever reference `pon_gc_remove_ref` leaves was there before. -/
theorem mem_shiftDown {n : PonGcNode} {q : Ptr}
    (h : some q ∈ (shiftDown (n.numRefs - 1 - 1) 1 n.refs).take (n.numRefs - 1)) :
    some q ∈ n.live := by
  obtain ⟨j, hj⟩ := List.mem_iff_getElem?.mp h
  rw [List.getElem?_take] at hj
  split at hj
  · rw [PonGcNode.live]
    rcases shiftDown_entry _ _ _ _ hj with ⟨hj, -⟩ | ⟨hj, -, -⟩
    · exact List.mem_iff_getElem?.mpr ⟨j, by rw [List.getElem?_take, if_pos (by omega), hj]⟩
    · exact List.mem_iff_getElem?.mpr ⟨j + 1, by rw [List.getElem?_take, if_pos (by omega), hj]⟩
  · cases hj

/-- What `pon_gc_remove_ref` writes, if anything. -/
theorem removeRef_eq (gc : PonGcState) (f : Ptr) (tgt : Option Ptr) :
    ponGcRemoveRef gc (some f) tgt = gc ∨
    ∃ g : PonGcNode → PonGcNode, ponGcRemoveRef gc (some f) tgt = gc.modify f g ∧
      ∀ n, (g n).color = n.color ∧ (g n).nextGray = n.nextGray ∧ (g n).nextAll = n.nextAll ∧
        (g n).prevAll = n.prevAll ∧ (g n).id = n.id ∧
        ∀ q, some q ∈ (g n).live → some q ∈ n.live := by
  simp only [ponGcRemoveRef]
  split
  · exact Or.inr ⟨_, rfl, fun n => ⟨rfl, rfl, rfl, rfl, rfl, fun q => mem_shiftDown⟩⟩
  · exact Or.inl rfl

theorem removeRef_spec (hwf : WellFormed gc L) (hf : gc.Allocated f) (tgt : Option Ptr) :
    WellFormed (ponGcRemoveRef gc (some f) tgt) L ∧
      (∀ p q, (ponGcRemoveRef gc (some f) tgt).Edge p q → gc.Edge p q) ∧
      (∀ p, (ponGcRemoveRef gc (some f) tgt).color p = gc.color p) ∧
      ∀ Q, GrayQueue gc Q → GrayQueue (ponGcRemoveRef gc (some f) tgt) Q := by
  rcases removeRef_eq gc f tgt with heq | ⟨g, heq, hg⟩
  · rw [heq]
    exact ⟨hwf, fun _ _ h => h, fun _ => rfl, fun _ h => h⟩
  · rw [heq]
    have hedge : ∀ p q, (gc.modify f g).Edge p q → gc.Edge p q := by
      intro p q he
      rw [Edge, node_modify hf] at he
      split at he
      · rename_i hp
        rw [Edge, hp]
        exact (hg _).2.2.2.2.2 q he
      · exact he
    refine ⟨hwf.transfer (fun p => ?_) (fun p => allocated_modify) ⟨rfl, rfl, rfl, rfl, rfl, rfl⟩
      (fun p q he => hwf.refs p q (hedge p q he)) hwf.roots, hedge, fun p => ?_, fun Q hQ => ?_⟩
    · rw [node_modify hf]
      split
      · rename_i hp
        rw [hp]
        exact ⟨(hg _).2.2.1, (hg _).2.2.2.1, (hg _).2.2.2.2.1⟩
      · exact ⟨rfl, rfl, rfl⟩
    · rw [color, node_modify hf]
      split
      · rename_i hp
        rw [hp, (hg _).1]
        rfl
      · rfl
    · refine ⟨(Seg.congr fun y _ => ?_).mpr hQ.links, hQ.tail, hQ.nodup, hQ.count,
        fun p hp => allocated_modify.mpr (hQ.allocated p hp)⟩
      rw [node_modify hf]
      split
      · rename_i hp
        rw [hp, (hg _).2.1]
      · rfl

end Refs

/-! ## Roots -/

/-- `pon_gc_add_root` touches nothing but the roots array. -/
theorem addRoot_eq (gc : PonGcState) (r : Ptr) :
    ∃ cap, ponGcAddRoot gc (some r) =
      { gc with roots := gc.roots ++ [some r], rootsCap := cap } := by
  simp only [ponGcAddRoot]
  split
  · exact ⟨_, rfl⟩
  · exact ⟨_, rfl⟩

theorem WellFormed.addRoot {gc : PonGcState} {L : List Ptr} {r : Ptr} (h : WellFormed gc L)
    (hr : gc.Allocated r) : WellFormed (ponGcAddRoot gc (some r)) L := by
  obtain ⟨cap, heq⟩ := addRoot_eq gc r
  rw [heq]
  refine h.transfer (fun _ => ⟨rfl, rfl, rfl⟩) (fun _ => Iff.rfl) ⟨rfl, rfl, rfl, rfl, rfl, rfl⟩
    h.refs fun p hp => ?_
  rcases List.mem_append.mp hp with hp | hp
  · exact h.roots p hp
  · rw [Option.some.inj (List.mem_singleton.mp hp)]
    exact (h.all.mem_iff r).mpr hr

/-! ## Sweep and reset, at the level of the graph -/

/-- After a sweep that left no reference or root dangling, the survivors form a well
formed graph. -/
theorem SweepInv.wellFormed {gc₀ gc : PonGcState} {L A : List Ptr} (hwf : WellFormed gc₀ L)
    (h : SweepInv gc₀ gc A []) (hsub : ∀ p ∈ A, p ∈ L)
    (hrefs : ∀ p ∈ A, ∀ q, gc₀.Edge p q → q ∈ A) (hroots : ∀ p, gc₀.Root p → p ∈ A) :
    WellFormed gc A := by
  obtain ⟨f₁, f₂, f₃, -, -, -⟩ := h.frame
  have hall : AllNodes gc A := by simpa using h.all
  have hcontent : ∀ p ∈ A, (gc.node p).content = (gc₀.node p).content :=
    fun p hp => h.content p (by simpa using hp)
  have hid : ∀ p ∈ A, (gc.node p).id = (gc₀.node p).id := fun p hp => id_of_content (hcontent p hp)
  refine ⟨hall, fun p hp => ?_, fun p hp => ?_, fun p q he => ?_, fun p hp => ?_⟩
  · rw [hid p hp, f₂]
    exact ⟨(hwf.byId p (hsub p hp)).1, h.byId p (by simpa using hp)⟩
  · rw [hid p hp, f₃]
    exact hwf.idLt p (hsub p hp)
  · by_cases hp : p ∈ A
    · refine hrefs p hp q ?_
      have hlive : (gc.node p).live = (gc₀.node p).live :=
        (congrArg PonGcNode.live (hcontent p hp) :)
      rwa [Edge, hlive] at he
    · rw [Edge, node_of_not_allocated fun ha => hp ((hall.mem_iff p).mpr ha)] at he
      simp [PonGcNode.live, PonGcNode.blank] at he
  · rw [Root, f₁] at hp
    exact hroots p hp

/-- The walk of `pon_gc_reset` makes every node ahead of it WHITE. -/
theorem resetLoop_spec {L : List Ptr} : ∀ (B : List Ptr) (fuel : ℕ) (gc : PonGcState)
    (A : List Ptr), AllNodes gc L → L = A ++ B → (∀ p ∈ A, gc.color p = .white) →
      B.length < fuel → ∃ gc', resetLoop fuel gc B.head? = some gc' ∧
        gc'.skeleton = gc.skeleton ∧ (∀ p, gc'.color p = .white) ∧
        gc'.grayHead = gc.grayHead ∧ gc'.grayTail = gc.grayTail ∧
        gc'.grayCount = gc.grayCount := by
  intro B
  induction B with
  | nil =>
    intro fuel gc A hall hL hA hf
    obtain ⟨n, rfl⟩ : ∃ n, fuel = n + 1 := ⟨fuel - 1, by simp at hf; omega⟩
    refine ⟨gc, rfl, rfl, fun p => ?_, rfl, rfl, rfl⟩
    by_contra hp
    have hm := (hall.mem_iff p).mpr (allocated_of_color_ne hp)
    exact hp (hA p (by simpa [hL] using hm))
  | cons p B ih =>
    intro fuel gc A hall hL hA hf
    obtain ⟨n, rfl⟩ : ∃ n, fuel = n + 1 := ⟨fuel - 1, by simp at hf; omega⟩
    have hpa : gc.Allocated p := (hall.mem_iff p).mp (by simp [hL])
    set g := (gc.modify p (PonGcNode.setColor .white)).modify p (PonGcNode.setNextGray none)
      with hg
    have hsk : g.skeleton = gc.skeleton := by simp [hg]
    have hnode : ∀ q, g.node q = if q = p then
        ((gc.node p).setColor .white).setNextGray none else gc.node q := by
      intro q
      rw [hg, node_modify (allocated_modify.mpr hpa), node_modify_self hpa]
      split
      · rfl
      · rename_i hq
        rw [node_modify_ne hq]
    have hallg : AllNodes g L := hall.of_skeleton hsk
    have hnext : (g.node p).nextAll = B.head? := (hL ▸ hallg : AllNodes g (A ++ p :: B)).next_eq
    obtain ⟨gc', h₁, h₂, h₃, h₄⟩ := ih n g (A ++ [p]) hallg (by simp [hL])
      (by
        intro q hq
        rw [color, hnode]
        split
        · rfl
        · rename_i hqp
          exact hA q ((List.mem_append.mp hq).resolve_right (by simpa using hqp)))
      (by simpa using hf)
    refine ⟨gc', ?_, h₂.trans hsk, h₃, h₄⟩
    rw [List.head?_cons, resetLoop]
    simp only [← hg, hnext, h₁]

/-- **Reset** makes every node WHITE and empties the queue; the graph stays. -/
theorem ponGcReset_spec {gc : PonGcState} {L : List Ptr} (hwf : WellFormed gc L) {fuel : ℕ}
    (hf : L.length < fuel) :
    ∃ gc', ponGcReset fuel gc = some gc' ∧ WellFormed gc' L ∧ Unmarked gc' ∧
      (∀ p, gc'.color p = .white) ∧
      ∃ g : PonGcState, g.skeleton = gc.skeleton ∧ gc' = g.clearCycle := by
  have hgs : gc.clearGray.skeleton = gc.skeleton := rfl
  obtain ⟨g', h₁, h₂, h₃, h₄, h₅, h₆⟩ :=
    resetLoop_spec L fuel gc.clearGray [] (hwf.all.of_skeleton hgs) rfl (by simp) hf
  have hhead : gc.nodesHead = L.head? := hwf.all.next.head_eq
  refine ⟨g'.clearCycle, by simp only [ponGcReset, hhead, h₁], ?_, ⟨?_, fun p => ?_, ?_⟩, h₃,
    g', h₂.trans hgs, rfl⟩
  · exact (hwf.of_skeleton (h₂.trans hgs)).transfer (fun _ => ⟨rfl, rfl, rfl⟩) (fun _ => Iff.rfl)
      ⟨rfl, rfl, rfl, rfl, rfl, rfl⟩ (hwf.of_skeleton (h₂.trans hgs)).refs
      (hwf.of_skeleton (h₂.trans hgs)).roots
  · exact GrayQueue.nil h₄ h₅ h₆
  · change g'.color p ≠ .gray
    rw [h₃]
    simp
  · intro u w hu _
    change g'.color u = .black at hu
    rw [h₃] at hu
    cases hu

end PonBeam.Gc
