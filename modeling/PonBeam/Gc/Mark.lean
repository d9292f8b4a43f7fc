import PonBeam.Gc.Heap
import Mathlib.Data.List.Count
import Mathlib.Tactic.Ring

/-!
# The mark phase

One spec lemma per function of the phase: `enqueueGray_white`,
`dequeueGray_cons`, `propagate_spec`. They say what happens to the queue and to
the colours, and that the skeleton of the state is untouched. `MarkInv` is the
invariant of `while (gc->gray_head)`: the queue holds exactly the GRAY nodes, no
BLACK node points to a WHITE one, and whatever was notified is reachable. The
loop turns one node BLACK per round, so it ends (`markLoop_spec`), and
`ponGcMark_spec` reads off what a whole mark has coloured.
-/

namespace PonBeam.Gc

open PonGcState

/-! ## Enqueue and dequeue -/

theorem enqueueGray_of_ne {gc : PonGcState} {p : Ptr} (h : gc.color p ≠ .white) :
    enqueueGray gc (some p) = gc :=
  if_pos h

/-- The node memory after a WHITE node was enqueued. -/
theorem node_enqueueGray {gc : PonGcState} {Q : List Ptr} {p : Ptr} (hQ : GrayQueue gc Q)
    (hp : gc.Allocated p) (hw : gc.color p = .white) (hpQ : p ∉ Q) (q : Ptr) :
    (enqueueGray gc (some p)).node q =
      if q = p then (gc.node p).setColor .gray |>.setNextGray none
      else if Q.getLast? = some q then (gc.node q).setNextGray (some p)
      else gc.node q := by
  have hw' : ¬ (gc.node p).color ≠ .white := not_not.mpr hw
  simp only [enqueueGray]
  rw [if_neg hw']
  have htail : ((gc.modify p (PonGcNode.setColor .gray)).incLiveNodes.modify p
      (PonGcNode.setNextGray none)).grayTail = Q.getLast? := hQ.tail
  rw [htail]
  rcases hl : Q.getLast? with _ | t
  · by_cases hq : q = p
    · subst hq
      simp [node_modify_self, hp]
    · simp [node_modify_ne hq, hq]
  · have ht : t ∈ Q := List.mem_of_getLast? hl
    have htp : t ≠ p := fun h => hpQ (h ▸ ht)
    have hta : gc.Allocated t := hQ.allocated t ht
    by_cases hq : q = p
    · subst hq
      simp [node_modify_ne (Ne.symm htp), node_modify_self, hp]
    · by_cases hqt : q = t
      · subst hqt
        simp [node_modify_self, node_modify_ne hq, hta, hq]
      · simp [node_modify_ne hq, node_modify_ne hqt, hq, Ne.symm hqt]

theorem skeleton_enqueueGray (gc : PonGcState) (r : Option Ptr) :
    (enqueueGray gc r).skeleton = gc.skeleton := by
  cases r with
  | none => rfl
  | some p =>
    simp only [enqueueGray]
    split
    · rfl
    · split <;> simp

/-- **Enqueue.** A WHITE node becomes GRAY and goes to the back of the queue. -/
theorem enqueueGray_white {gc : PonGcState} {Q : List Ptr} {p : Ptr} (hQ : GrayQueue gc Q)
    (hp : gc.Allocated p) (hw : gc.color p = .white) (hpQ : p ∉ Q) :
    GrayQueue (enqueueGray gc (some p)) (Q ++ [p]) ∧
      ∀ q, (enqueueGray gc (some p)).color q = if q = p then .gray else gc.color q := by
  have hnode := node_enqueueGray hQ hp hw hpQ
  have halloc : ∀ q, (enqueueGray gc (some p)).Allocated q ↔ gc.Allocated q :=
    fun q => allocated_of_skeleton (skeleton_enqueueGray gc (some p))
  have hw' : ¬ (gc.node p).color ≠ .white := not_not.mpr hw
  have hhead : (enqueueGray gc (some p)).grayHead = if Q = [] then some p else gc.grayHead := by
    simp only [enqueueGray]
    rw [if_neg hw']
    split
    case h_1 t ht =>
      have hlast : Q.getLast? = some t := hQ.tail.symm.trans ht
      have hne : Q ≠ [] := by
        rintro rfl
        cases hlast
      rw [if_neg hne]
      rfl
    case h_2 ht =>
      have hlast : Q.getLast? = none := hQ.tail.symm.trans ht
      rw [if_pos (List.getLast?_eq_none_iff.mp hlast)]
      rfl
  have htail : (enqueueGray gc (some p)).grayTail = some p := by
    simp only [enqueueGray]
    rw [if_neg hw']
    rfl
  have hcount : (enqueueGray gc (some p)).grayCount = gc.grayCount + 1 := by
    simp only [enqueueGray]
    rw [if_neg hw']
    split <;> rfl
  refine ⟨⟨?_, ?_, ?_, ?_, ?_⟩, fun q => ?_⟩
  · refine hQ.links.snoc hQ.nodup (fun y hy => ?_) hhead ?_ fun z hz hne => ?_
    · have hyp : y ≠ p := fun h => hpQ (h ▸ List.mem_of_getLast? hy)
      simp only [hnode, if_neg hyp, hy, if_true]
      rfl
    · simp only [hnode, if_true]
      rfl
    · have hzp : z ≠ p := fun h => hpQ (h ▸ hz)
      simp only [hnode, if_neg hzp, if_neg hne]
  · rw [htail, List.getLast?_concat]
  · exact List.nodup_append.mpr ⟨hQ.nodup, by simp, by
      intro a ha b hb
      rw [List.mem_singleton.mp hb]
      exact fun h => hpQ (h ▸ ha)⟩
  · rw [hcount, hQ.count]
    simp
  · intro q hq
    rw [halloc]
    rcases List.mem_append.mp hq with hq | hq
    · exact hQ.allocated q hq
    · rw [List.mem_singleton.mp hq]
      exact hp
  · rw [color, hnode]
    by_cases hq : q = p
    · rw [if_pos hq, if_pos hq]
      rfl
    · rw [if_neg hq, if_neg hq]
      split <;> rfl

theorem skeleton_dequeueGray (gc : PonGcState) : (dequeueGray gc).1.skeleton = gc.skeleton := by
  unfold dequeueGray
  split
  · rfl
  · simp only [skeleton_addGrayCount, skeleton_setNextGray]
    split <;> rfl

/-- **Dequeue.** The front node leaves the queue; no colour changes. -/
theorem dequeueGray_cons {gc : PonGcState} {Q : List Ptr} {p : Ptr}
    (hQ : GrayQueue gc (p :: Q)) :
    (dequeueGray gc).2 = some p ∧ GrayQueue (dequeueGray gc).1 Q ∧
      ∀ q, (dequeueGray gc).1.color q = gc.color q := by
  obtain ⟨hhead, hlinks⟩ := hQ.links
  have hp : gc.Allocated p := hQ.allocated p (List.mem_cons_self ..)
  have hpQ : p ∉ Q := (List.nodup_cons.mp hQ.nodup).1
  have hnext : (gc.node p).nextGray = Q.head? := hlinks.head_eq
  have halloc : ∀ q, (dequeueGray gc).1.Allocated q ↔ gc.Allocated q :=
    fun q => allocated_of_skeleton (skeleton_dequeueGray gc)
  have heq : dequeueGray gc = ((((if (gc.node p).nextGray = none
        then (gc.setGrayHead (gc.node p).nextGray).setGrayTail none
        else gc.setGrayHead (gc.node p).nextGray).modify p
          (PonGcNode.setNextGray none)).addGrayCount (-1)), some p) := by
    unfold dequeueGray
    rw [hhead]
    rfl
  have hnode : ∀ q, (dequeueGray gc).1.node q =
      if q = p then (gc.node p).setNextGray none else gc.node q := by
    intro q
    rw [heq, node_addGrayCount]
    split
    · refine node_modify ?_
      exact hp
    · refine node_modify ?_
      exact hp
  refine ⟨by rw [heq], ⟨?_, ?_, (List.nodup_cons.mp hQ.nodup).2, ?_, ?_⟩, fun q => ?_⟩
  · have hh : (dequeueGray gc).1.grayHead = (gc.node p).nextGray := by
      rw [heq]
      split <;> rfl
    rw [hh]
    refine (Seg.congr fun y hy => ?_).mpr hlinks
    have hyp : y ≠ p := fun h => hpQ (h ▸ hy)
    rw [hnode, if_neg hyp]
  · rw [heq]
    cases Q with
    | nil =>
      rw [if_pos (by rw [hnext]; rfl)]
      rfl
    | cons y l =>
      rw [if_neg (by rw [hnext]; simp)]
      exact hQ.tail.trans (by simp)
  · have hc : (dequeueGray gc).1.grayCount = gc.grayCount - 1 := by
      rw [heq]
      split <;> rfl
    rw [hc, hQ.count]
    simp
  · intro q hq
    exact (halloc q).mpr (hQ.allocated q (List.mem_cons_of_mem _ hq))
  · rw [color, hnode]
    split
    · rename_i h
      rw [h]
      rfl
    · rfl

/-! ## Notifying a list of references -/

/-- What enqueueing every pointer of `rs` does: the WHITE nodes among them, each
once, become GRAY and queue up. -/
theorem foldl_enqueueGray (rs : List (Option Ptr)) {gc : PonGcState} {Q : List Ptr}
    (hQ : GrayQueue gc Q) (hcol : ∀ q ∈ Q, gc.color q ≠ .white)
    (hrs : ∀ q, some q ∈ rs → gc.Allocated q) :
    ∃ new, GrayQueue (rs.foldl enqueueGray gc) (Q ++ new) ∧
      (∀ q, q ∈ new ↔ gc.color q = .white ∧ some q ∈ rs) ∧
      (∀ q, (rs.foldl enqueueGray gc).color q = if q ∈ new then .gray else gc.color q) ∧
      (rs.foldl enqueueGray gc).skeleton = gc.skeleton := by
  induction rs generalizing gc Q with
  | nil => exact ⟨[], by simpa using hQ, by simp, by simp, rfl⟩
  | cons r rs ih =>
    rw [List.foldl_cons]
    -- a NULL or an already notified node changes nothing
    have skip : enqueueGray gc r = gc → (∀ q, r = some q → gc.color q ≠ .white) →
        ∃ new, GrayQueue (rs.foldl enqueueGray (enqueueGray gc r)) (Q ++ new) ∧
          (∀ q, q ∈ new ↔ gc.color q = .white ∧ some q ∈ r :: rs) ∧
          (∀ q, (rs.foldl enqueueGray (enqueueGray gc r)).color q =
            if q ∈ new then .gray else gc.color q) ∧
          (rs.foldl enqueueGray (enqueueGray gc r)).skeleton = gc.skeleton := by
      intro heq hr
      rw [heq]
      obtain ⟨new, h₁, h₂, h₃, h₄⟩ :=
        ih hQ hcol fun q hq => hrs q (List.mem_cons_of_mem _ hq)
      refine ⟨new, h₁, fun q => ?_, h₃, h₄⟩
      rw [h₂]
      constructor
      · rintro ⟨hw, hm⟩
        exact ⟨hw, List.mem_cons_of_mem _ hm⟩
      · rintro ⟨hw, hm⟩
        rcases List.mem_cons.mp hm with hm | hm
        · exact absurd hw (hr q hm.symm)
        · exact ⟨hw, hm⟩
    cases r with
    | none => exact skip rfl (by simp)
    | some p =>
      by_cases hw : gc.color p = .white
      · have hp : gc.Allocated p := hrs p (List.mem_cons_self ..)
        obtain ⟨hQ', hcol'⟩ := enqueueGray_white hQ hp hw fun h => hcol p h hw
        have hsk := skeleton_enqueueGray gc (some p)
        obtain ⟨new, h₁, h₂, h₃, h₄⟩ := ih hQ'
          (by
            intro q hq
            rw [hcol']
            split
            · simp
            · rename_i hne
              exact hcol q ((List.mem_append.mp hq).resolve_right (by simpa using hne)))
          (fun q hq => (allocated_of_skeleton hsk).mpr (hrs q (List.mem_cons_of_mem _ hq)))
        refine ⟨p :: new, by simpa using h₁, fun q => ?_, fun q => ?_, h₄.trans hsk⟩
        · rw [List.mem_cons, h₂, hcol', List.mem_cons, Option.some.injEq]
          by_cases hq : q = p
          · simp [hq, hw]
          · simp [hq]
        · rw [h₃, hcol']
          by_cases hq : q = p
          · simp [hq]
          · simp [hq]
      · exact skip (enqueueGray_of_ne hw) fun q hq => by
          rw [← Option.some.inj hq]
          exact hw

/-- `propagate`'s loop enqueues; its count is the notifications sent. -/
theorem foldl_notifyRef_fst (rs : List (Option Ptr)) (gc : PonGcState) (k : ℕ) :
    (rs.foldl notifyRef (gc, k)).1 = rs.foldl enqueueGray gc := by
  induction rs generalizing gc k with
  | nil => rfl
  | cons r rs ih =>
    rw [List.foldl_cons, List.foldl_cons]
    cases r with
    | none => exact ih gc k
    | some p =>
      by_cases hw : gc.color p = .white
      · have : notifyRef (gc, k) (some p) = (enqueueGray gc (some p), k + 1) := if_pos hw
        rw [this, ih]
      · have : notifyRef (gc, k) (some p) = (gc, k) := if_neg hw
        rw [this, ih, enqueueGray_of_ne hw]

theorem skeleton_propagate {gc : PonGcState} (p : Ptr) :
    (propagate gc p).1.skeleton = gc.skeleton := by
  have hfold : ∀ (rs : List (Option Ptr)) (g : PonGcState),
      (rs.foldl enqueueGray g).skeleton = g.skeleton := by
    intro rs
    induction rs with
    | nil => intro g; rfl
    | cons r rs ih =>
      intro g
      rw [List.foldl_cons, ih, skeleton_enqueueGray]
  simp only [propagate, skeleton_countScan, skeleton_setColor, foldl_notifyRef_fst, hfold]

/-- **Propagate.** The WHITE references of the node become GRAY and queue up;
the node itself becomes BLACK. -/
theorem propagate_spec {gc : PonGcState} {Q : List Ptr} {p : Ptr} (hQ : GrayQueue gc Q)
    (hcol : ∀ q ∈ Q, gc.color q ≠ .white) (hp : gc.Allocated p) (hpw : gc.color p ≠ .white)
    (hpQ : p ∉ Q) (hrefs : ∀ q, gc.Edge p q → gc.Allocated q) :
    ∃ new, GrayQueue (propagate gc p).1 (Q ++ new) ∧
      (∀ q, q ∈ new ↔ gc.color q = .white ∧ gc.Edge p q) ∧
      ∀ q, (propagate gc p).1.color q =
        if q = p then .black else if q ∈ new then .gray else gc.color q := by
  obtain ⟨new, h₁, h₂, h₃, h₄⟩ := foldl_enqueueGray (gc.node p).live hQ hcol hrefs
  set g := (gc.node p).live.foldl enqueueGray gc with hg
  have hpa : g.Allocated p := (allocated_of_skeleton h₄).mpr hp
  have hnode : ∀ q, (propagate gc p).1.node q =
      if q = p then (g.node p).setColor .black else g.node q := by
    intro q
    simp only [propagate, foldl_notifyRef_fst, node_countScan, ← hg]
    exact node_modify hpa
  have hpn : p ∉ Q ++ new := by
    intro hm
    rcases List.mem_append.mp hm with hm | hm
    · exact hpQ hm
    · exact hpw ((h₂ p).mp hm).1
  have hgray : (propagate gc p).1.grayHead = g.grayHead ∧
      (propagate gc p).1.grayTail = g.grayTail ∧ (propagate gc p).1.grayCount = g.grayCount := by
    simp only [propagate, foldl_notifyRef_fst, ← hg]
    exact ⟨rfl, rfl, rfl⟩
  refine ⟨new, ⟨?_, ?_, h₁.nodup, ?_, ?_⟩, h₂, fun q => ?_⟩
  · rw [hgray.1]
    refine (Seg.congr fun y hy => ?_).mpr h₁.links
    have hyp : y ≠ p := fun h => hpn (h ▸ hy)
    rw [hnode, if_neg hyp]
  · rw [hgray.2.1]
    exact h₁.tail
  · rw [hgray.2.2]
    exact h₁.count
  · intro q hq
    refine (allocated_of_skeleton ((skeleton_propagate p).trans h₄.symm)).mpr ?_
    exact h₁.allocated q hq
  · rw [color, hnode]
    by_cases hq : q = p
    · rw [if_pos hq, if_pos hq]
      rfl
    · rw [if_neg hq, if_neg hq, ← h₃]
      rfl

/-! ## The mark loop -/

/-- The colours a mark may start from: no node GRAY, the queue empty, and no BLACK
node pointing to a WHITE one. -/
structure Unmarked (gc : PonGcState) : Prop where
  /-- nothing is queued -/
  queue : GrayQueue gc []
  /-- nothing is GRAY -/
  noGray : ∀ p, gc.color p ≠ .gray
  /-- no BLACK node points to a WHITE one -/
  closed : TriColor.Closed gc.Edge gc.color

/-- The invariant of `while (gc->gray_head)`, for a mark that started in `gc₀`. -/
structure MarkInv (gc₀ gc : PonGcState) (Q : List Ptr) : Prop where
  /-- the queue -/
  queue : GrayQueue gc Q
  /-- it holds exactly the GRAY nodes -/
  gray : ∀ p, gc.color p = .gray ↔ p ∈ Q
  /-- the graph is untouched -/
  skel : gc.skeleton = gc₀.skeleton
  /-- no BLACK node points to a WHITE one -/
  closed : TriColor.Closed gc.Edge gc.color
  /-- BLACK stays BLACK -/
  keep : ∀ p, gc₀.color p = .black → gc.color p = .black
  /-- only reachable nodes are notified -/
  sound : ∀ p, gc.color p ≠ .white → gc₀.color p = .black ∨ gc₀.Reachable p
  /-- no root is WHITE -/
  rooted : ∀ p, gc₀.Root p → gc.color p ≠ .white

/-- How many nodes of `L` are not BLACK yet: the mark loop's measure. -/
def unscanned (gc : PonGcState) (L : List Ptr) : ℕ := L.countP fun p => gc.color p ≠ .black

/-- A node turned BLACK, and none turned back, lowers the measure. -/
theorem unscanned_lt {gc gc' : PonGcState} {L : List Ptr} {p : Ptr} (hp : p ∈ L)
    (hkeep : ∀ q, gc.color q = .black → gc'.color q = .black)
    (hpc : gc.color p ≠ .black) (hpc' : gc'.color p = .black) :
    unscanned gc' L < unscanned gc L := by
  obtain ⟨l₁, l₂, rfl⟩ := List.append_of_mem hp
  have hle : ∀ l : List Ptr, unscanned gc' l ≤ unscanned gc l := by
    intro l
    refine List.countP_mono_left fun q _ hq => ?_
    simp only [ne_eq, decide_not, Bool.not_eq_eq_eq_not, Bool.not_true, decide_eq_false_iff_not]
      at hq ⊢
    exact fun h => hq (hkeep q h)
  have h₁ := hle l₁
  have h₂ := hle l₂
  simp only [unscanned, List.countP_append, List.countP_cons, hpc', hpc, ne_eq,
    not_true_eq_false, not_false_eq_true, decide_true, decide_false, if_true,
    Bool.false_eq_true, if_false] at h₁ h₂ ⊢
  omega

/-- One round of the loop keeps the invariant. -/
theorem MarkInv.round {gc₀ gc : PonGcState} {L Q : List Ptr} {p : Ptr}
    (hwf : WellFormed gc₀ L) (h : MarkInv gc₀ gc (p :: Q)) :
    ∃ new, MarkInv gc₀ (propagate (dequeueGray gc).1 p).1 (Q ++ new) ∧
      unscanned (propagate (dequeueGray gc).1 p).1 L < unscanned gc L := by
  obtain ⟨-, hQ, hcol⟩ := dequeueGray_cons h.queue
  set g := (dequeueGray gc).1 with hg
  have hgs : g.skeleton = gc₀.skeleton := (skeleton_dequeueGray gc).trans h.skel
  have hpg : gc.color p = .gray := (h.gray p).mpr (List.mem_cons_self ..)
  have hpQ : p ∉ Q := (List.nodup_cons.mp h.queue.nodup).1
  have hpw : g.color p ≠ .white := by rw [hcol, hpg]; simp
  have hpa : g.Allocated p := allocated_of_color_ne hpw
  have hQw : ∀ q ∈ Q, g.color q ≠ .white := by
    intro q hq
    rw [hcol, (h.gray q).mpr (List.mem_cons_of_mem _ hq)]
    simp
  have hedge : g.Edge = gc₀.Edge := edge_of_skeleton hgs
  have hrefs : ∀ q, g.Edge p q → g.Allocated q := by
    intro q hq
    rw [hedge] at hq
    exact (allocated_of_skeleton hgs).mpr ((hwf.all.mem_iff q).mp (hwf.refs p q hq))
  obtain ⟨new, h₁, h₂, h₃⟩ := propagate_spec hQ hQw hpa hpw hpQ hrefs
  have hsk : (propagate g p).1.skeleton = gc₀.skeleton := (skeleton_propagate p).trans hgs
  have hpreach : gc₀.Reachable p := by
    refine (h.sound p (by rw [hpg]; simp)).resolve_left fun hb => ?_
    rw [h.keep p hb] at hpg
    cases hpg
  have hkeep : ∀ q, gc.color q = .black → (propagate g p).1.color q = .black := by
    intro q hq
    rw [h₃]
    split
    · rfl
    · split
      · rename_i hn
        have := ((h₂ q).mp hn).1
        rw [hcol, hq] at this
        cases this
      · rw [hcol, hq]
  have hpL : p ∈ L := (hwf.all.mem_iff p).mpr ((allocated_of_skeleton hgs).mp hpa)
  refine ⟨new, ⟨h₁, fun q => ?_, hsk, ?_, fun q hq => hkeep q (h.keep q hq), ?_, ?_⟩,
    unscanned_lt hpL hkeep (by rw [hpg]; simp) (by rw [h₃, if_pos rfl])⟩
  · rw [h₃]
    by_cases hq : q = p
    · simp [hq, hpQ, h₂, hpw]
    · by_cases hn : q ∈ new
      · simp [hq, hn]
      · simp [hq, hn, hcol, h.gray]
  · -- an edge out of a BLACK node: out of `p`, or out of a node that was BLACK before
    intro u w hu huw
    rw [edge_of_skeleton hsk] at huw
    rw [h₃]
    split
    · simp
    · split
      · simp
      · rename_i hwp hwn
        rw [hcol]
        by_cases hup : u = p
        · subst hup
          intro hw
          exact hwn ((h₂ w).mpr ⟨by rw [hcol, hw], by rw [hedge]; exact huw⟩)
        · have hub : gc.color u = .black := by
            rw [h₃, if_neg hup] at hu
            split at hu
            · cases hu
            · rw [← hcol]
              exact hu
          refine h.closed u w hub ?_
          rw [edge_of_skeleton h.skel]
          exact huw
  · intro q hq
    rw [h₃] at hq
    by_cases hqp : q = p
    · exact Or.inr (hqp ▸ hpreach)
    · rw [if_neg hqp] at hq
      by_cases hn : q ∈ new
      · refine Or.inr (hpreach.step ?_)
        have := ((h₂ q).mp hn).2
        rwa [hedge] at this
      · rw [if_neg hn, hcol] at hq
        exact h.sound q hq
  · intro r hr
    rw [h₃, hcol]
    split
    · simp
    · split
      · simp
      · exact h.rooted r hr

/-- The loop ends, with an empty queue. -/
theorem markLoop_spec {gc₀ : PonGcState} {L : List Ptr} (hwf : WellFormed gc₀ L) :
    ∀ (fuel : ℕ) (gc : PonGcState) (Q : List Ptr), MarkInv gc₀ gc Q →
      unscanned gc L < fuel → ∃ gc', markLoop fuel gc = some gc' ∧ MarkInv gc₀ gc' [] := by
  intro fuel
  induction fuel with
  | zero => intro gc Q _ hf; omega
  | succ n ih =>
    intro gc Q h hf
    cases Q with
    | nil =>
      have hd : dequeueGray gc = (gc, none) := by
        unfold dequeueGray
        rw [show gc.grayHead = none from h.queue.links]
      exact ⟨gc, by simp only [markLoop, hd], h⟩
    | cons p Q =>
      obtain ⟨hp, -, -⟩ := dequeueGray_cons h.queue
      obtain ⟨new, h', hlt⟩ := h.round hwf
      obtain ⟨gc', hrun, hinv⟩ := ih _ _ h' (by omega)
      refine ⟨gc', ?_, hinv⟩
      have hd : dequeueGray gc = ((dequeueGray gc).1, some p) := Prod.ext rfl hp
      rw [markLoop, hd]
      exact hrun

/-- The invariant once the roots are notified. -/
theorem MarkInv.start {gc : PonGcState} {L : List Ptr} (hwf : WellFormed gc L)
    (hu : Unmarked gc) :
    ∃ Q, MarkInv gc (gc.roots.foldl enqueueGray gc) Q ∧
      unscanned (gc.roots.foldl enqueueGray gc) L ≤ L.length := by
  obtain ⟨new, h₁, h₂, h₃, h₄⟩ := foldl_enqueueGray gc.roots hu.queue (by simp)
    fun q hq => (hwf.all.mem_iff q).mp (hwf.roots q hq)
  refine ⟨new, ⟨by simpa using h₁, fun p => ?_, h₄, ?_, fun p hp => ?_, fun p hp => ?_,
    fun p hp => ?_⟩, List.countP_le_length⟩
  · rw [h₃]
    have := hu.noGray p
    split <;> simp_all
  · intro u w hub huw
    rw [edge_of_skeleton h₄] at huw
    rw [h₃] at hub ⊢
    split at hub
    · cases hub
    · split
      · simp
      · exact hu.closed u w hub huw
  · rw [h₃, if_neg, hp]
    intro hn
    rw [((h₂ p).mp hn).1] at hp
    cases hp
  · rw [h₃] at hp
    split at hp
    · rename_i hn
      exact Or.inr (TriColor.Reachable.of_root ((h₂ p).mp hn).2)
    · cases hc : gc.color p with
      | white => exact absurd hc hp
      | gray => exact absurd hc (hu.noGray p)
      | black => exact Or.inl rfl
  · rw [h₃]
    split
    · simp
    · rename_i hn
      exact fun hw => hn ((h₂ p).mpr ⟨hw, hp⟩)

/-- **A whole mark.** It terminates, leaves no node GRAY and the queue empty, does
not touch the graph, and the BLACK nodes are then those that were BLACK before and
those reachable from the roots. -/
theorem ponGcMark_spec {gc : PonGcState} {L : List Ptr} (hwf : WellFormed gc L)
    (hu : Unmarked gc) {fuel : ℕ} (hf : L.length < fuel) :
    ∃ gc' n, ponGcMark fuel gc = some (gc', n) ∧ gc'.skeleton = gc.skeleton ∧ Unmarked gc' ∧
      ∀ p, gc'.color p = .black ↔ gc.color p = .black ∨ gc.Reachable p := by
  obtain ⟨Q, hinv, hle⟩ := MarkInv.start hwf hu
  obtain ⟨g, hrun, h⟩ := markLoop_spec hwf fuel _ Q hinv (by omega)
  have hng : ∀ p, g.color p ≠ .gray := fun p hp => by simpa using (h.gray p).mp hp
  refine ⟨g.incCycles, g.liveNodes, by simp only [ponGcMark, hrun], h.skel,
    ⟨h.queue.incCycles, hng, h.closed⟩, fun p => ⟨fun hp => h.sound p ?_, ?_⟩⟩
  · change g.color p = .black at hp
    rw [hp]
    simp
  · rintro (hb | hr)
    · exact h.keep p hb
    · have hroot : ∀ v, g.Root v → g.color v ≠ .white := by
        intro v hv
        rw [Root, roots_of_skeleton h.skel] at hv
        exact h.rooted v hv
      exact TriColor.Closed.reachable_black h.closed hng hroot
        ((reachable_of_skeleton h.skel).mpr hr)

end PonBeam.Gc
