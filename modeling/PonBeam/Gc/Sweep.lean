import PonBeam.Gc.Heap

/-!
# The sweep phase

`ponGcNodeFree_spec`: freeing a node takes it, and nothing else, out of the
all-nodes list, the id index and the memory. `sweepLoop_spec` follows the walk of
the all-nodes list: the part already behind the cursor holds the survivors, made
WHITE, and the part ahead is untouched. `ponGcSweep_spec` is the whole pass.
-/

namespace PonBeam.Gc

open PonGcState

/-! ## Freeing one node -/

/-- A node without its list links: what a sweep never writes in a survivor, its
colour apart. -/
def PonGcNode.content (n : PonGcNode) : PonGcNode :=
  { n with nextAll := none, prevAll := none, color := .white, nextGray := none }

section Free

variable {gc : PonGcState} {A B : List Ptr} {p : Ptr}

theorem AllNodes.next_eq (h : AllNodes gc (A ++ p :: B)) : (gc.node p).nextAll = B.head? := by
  obtain ⟨m, -, -, h₂⟩ := Seg.append_iff.mp h.next
  exact h₂.head_eq

theorem AllNodes.prev_eq (h : AllNodes gc (A ++ p :: B)) :
    (gc.node p).prevAll = A.getLast? := by
  have hp := h.prev
  rw [List.reverse_append, List.reverse_cons, List.append_assoc, List.singleton_append] at hp
  obtain ⟨m, -, -, h₂⟩ := Seg.append_iff.mp hp
  exact h₂.head_eq.trans List.head?_reverse

/-- The node memory after `pon_gc_node_free`. -/
theorem node_free (h : AllNodes gc (A ++ p :: B)) {q : Ptr} (hq : q ≠ p) :
    (ponGcNodeFree gc p).node q =
      (let m := gc.node q
       let m := if A.getLast? = some q then m.setNextAll (gc.node p).nextAll else m
       if B.head? = some q then m.setPrevAll (gc.node p).prevAll else m) := by
  have hrel : ∀ g : PonGcState, (g.release p).node q = g.node q := by
    intro g
    rw [node, node, release]
    simp only [if_neg hq]
  have hby : ∀ (g : PonGcState) (c : Prop) [Decidable c] (i : ℕ),
      (if c then g.setById i none else g).node q = g.node q := by
    intro g c _ i
    split <;> rfl
  simp only [ponGcNodeFree]
  rw [hrel, hby, h.prev_eq, h.next_eq]
  have ha : ∀ r ∈ A ++ p :: B, gc.Allocated r := fun r hr => (h.mem_iff r).mp hr
  rcases hA : A.getLast? with _ | a
  · rcases hB : B.head? with _ | b
    · simp
    · have hb : gc.Allocated b := ha b (by simp [List.mem_of_head? hB])
      by_cases hqb : q = b
      · subst hqb
        simp [node_modify_self, hb]
      · simp [node_modify_ne hqb, Ne.symm hqb]
  · have haa : gc.Allocated a := ha a (by simp [List.mem_of_getLast? hA])
    rcases hB : B.head? with _ | b
    · by_cases hqa : q = a
      · subst hqa
        simp [node_modify_self, haa]
      · simp [node_modify_ne hqa, Ne.symm hqa]
    · have hb : gc.Allocated b := ha b (by simp [List.mem_of_head? hB])
      by_cases hqa : q = a <;> by_cases hqb : q = b
      · subst hqa
        subst hqb
        simp [node_modify_self, haa]
      · subst hqa
        simp [node_modify_ne hqb, node_modify_self, haa, Ne.symm hqb]
      · subst hqb
        simp [node_modify_self, node_modify_ne hqa, hb, Ne.symm hqa]
      · simp [node_modify_ne hqa, node_modify_ne hqb, Ne.symm hqa, Ne.symm hqb]

theorem content_free (h : AllNodes gc (A ++ p :: B)) {q : Ptr} (hq : q ≠ p) :
    ((ponGcNodeFree gc p).node q).content = (gc.node q).content ∧
      (ponGcNodeFree gc p).color q = gc.color q := by
  rw [color, node_free h hq]
  simp only
  split <;> split <;> exact ⟨rfl, rfl⟩

theorem allocated_free {q : Ptr} :
    (ponGcNodeFree gc p).Allocated q ↔ q ≠ p ∧ gc.Allocated q := by
  have hrel : ∀ g : PonGcState, (g.release p).Allocated q ↔ q ≠ p ∧ g.Allocated q := by
    intro g
    unfold Allocated release
    by_cases hq : q = p
    · simp [hq]
    · simp [hq]
  simp only [ponGcNodeFree]
  rw [hrel]
  split <;> split <;> split <;> simp

/-- The fields `pon_gc_node_free` does not write. -/
theorem free_frame (gc : PonGcState) (p : Ptr) :
    (ponGcNodeFree gc p).roots = gc.roots ∧ (ponGcNodeFree gc p).byIdCap = gc.byIdCap ∧
      (ponGcNodeFree gc p).nextId = gc.nextId ∧
      (ponGcNodeFree gc p).deadNodes = gc.deadNodes ∧
      (ponGcNodeFree gc p).grayHead = gc.grayHead ∧
      (ponGcNodeFree gc p).grayTail = gc.grayTail ∧
      (ponGcNodeFree gc p).grayCount = gc.grayCount := by
  simp only [ponGcNodeFree]
  split <;> split <;> split <;> exact ⟨rfl, rfl, rfl, rfl, rfl, rfl, rfl⟩

theorem byId_free {i : ℕ} (hi : i ≠ (gc.node p).id) :
    (ponGcNodeFree gc p).byId i = gc.byId i := by
  have hset : ∀ g : PonGcState, (g.setById (gc.node p).id none).byId i = g.byId i :=
    fun g => if_neg hi
  simp only [ponGcNodeFree]
  split <;> split <;> split <;> first | exact hset _ | rfl

/-- **Freeing a node** unlinks it, and nothing else, from the all-nodes list. -/
theorem AllNodes.free (h : AllNodes gc (A ++ p :: B)) : AllNodes (ponGcNodeFree gc p) (A ++ B) := by
  have hne : ∀ q ∈ A ++ B, q ≠ p := by
    intro q hq hqp
    have hnd := List.nodup_middle.mp h.nodup
    exact (List.nodup_cons.mp hnd).1 (hqp ▸ hq)
  have hhead : (ponGcNodeFree gc p).nodesHead =
      if A = [] then (gc.node p).nextAll else gc.nodesHead := by
    simp only [ponGcNodeFree]
    rw [h.prev_eq]
    rcases List.eq_nil_or_concat A with rfl | ⟨l, y, rfl⟩
    · rw [if_pos rfl, List.getLast?_nil]
      dsimp only
      split <;> split <;> rfl
    · have hA : l ++ [y] ≠ [] := by simp
      rw [List.concat_eq_append, List.getLast?_concat, if_neg hA]
      dsimp only
      split <;> split <;> rfl
  have htail : (ponGcNodeFree gc p).nodesTail =
      if B.reverse = [] then (gc.node p).prevAll else gc.nodesTail := by
    simp only [ponGcNodeFree]
    rw [h.next_eq]
    cases B with
    | nil =>
      have hB : ([] : List Ptr).reverse = [] := rfl
      rw [if_pos hB, List.head?_nil]
      dsimp only
      split <;> split <;> rfl
    | cons b B =>
      have hB : (b :: B).reverse ≠ [] := by simp
      rw [if_neg hB, List.head?_cons]
      dsimp only
      split <;> split <;> rfl
  have htot : (ponGcNodeFree gc p).totalNodes = gc.totalNodes - 1 := by
    simp only [ponGcNodeFree]
    split <;> split <;> split <;> rfl
  have hnodup : (A ++ B).Nodup := (List.nodup_cons.mp (List.nodup_middle.mp h.nodup)).2
  have hdisj : ∀ q ∈ A, q ∉ B := fun q ha hb => (List.nodup_append.mp hnodup).2.2 q ha q hb rfl
  refine ⟨?_, ?_, hnodup, fun q => ?_, ?_⟩
  · refine h.next.unlink h.nodup (fun y hy => ?_) hhead fun z hz hzl => ?_
    · have hyA : y ∈ A := List.mem_of_getLast? hy
      have hyB : B.head? ≠ some y := fun hb => hdisj y hyA (List.mem_of_head? hb)
      rw [node_free h (hne y (List.mem_append_left _ hyA))]
      simp only [hy, if_true, if_neg hyB]
      rfl
    · rw [node_free h (hne z hz)]
      simp only [if_neg hzl]
      split <;> rfl
  · have hp := h.prev
    have hnd' : (B.reverse ++ p :: A.reverse).Nodup := by
      have := List.nodup_reverse.mpr h.nodup
      rwa [List.reverse_append, List.reverse_cons, List.append_assoc,
        List.singleton_append] at this
    rw [List.reverse_append, List.reverse_cons, List.append_assoc, List.singleton_append] at hp
    rw [List.reverse_append]
    refine hp.unlink hnd' (fun y hy => ?_) htail fun z hz hzl => ?_
    · rw [List.getLast?_reverse] at hy
      have hyB : y ∈ B := List.mem_of_head? hy
      rw [node_free h (hne y (List.mem_append_right _ hyB))]
      simp only [hy, if_true]
      split <;> rfl
    · have hz' : z ∈ A ++ B := by
        simp only [List.mem_append, List.mem_reverse] at hz ⊢
        exact hz.symm
      rw [List.getLast?_reverse] at hzl
      rw [node_free h (hne z hz')]
      simp only [if_neg hzl]
      split <;> rfl
  · rw [allocated_free, ← h.mem_iff]
    constructor
    · intro hq
      refine ⟨hne q hq, ?_⟩
      simp only [List.mem_append, List.mem_cons] at hq ⊢
      exact hq.imp_right Or.inr
    · rintro ⟨hqp, hq⟩
      simp only [List.mem_append, List.mem_cons] at hq ⊢
      rcases hq with hq | hq | hq
      · exact Or.inl hq
      · exact absurd hq hqp
      · exact Or.inr hq
  · rw [htot, h.total]
    simp only [List.length_append, List.length_cons]
    omega

end Free

/-! ## The walk -/

/-- What the sweep has done to the nodes behind the cursor, for a pass that started
in `gc₀`: survivors keep their content, the index finds them, nothing else moved. -/
structure SweepInv (gc₀ gc : PonGcState) (A B : List Ptr) : Prop where
  /-- the list: survivors `A`, then `B` still to visit -/
  all : AllNodes gc (A ++ B)
  /-- survivors are WHITE again -/
  white : ∀ p ∈ A, gc.color p = .white
  /-- the nodes ahead still have their colour -/
  ahead : ∀ p ∈ B, gc.color p = gc₀.color p
  /-- no node's content changed -/
  content : ∀ p ∈ A ++ B, (gc.node p).content = (gc₀.node p).content
  /-- the id index finds every node left -/
  byId : ∀ p ∈ A ++ B, gc.byId (gc₀.node p).id = some p
  /-- fields the sweep does not write -/
  frame : gc.roots = gc₀.roots ∧ gc.byIdCap = gc₀.byIdCap ∧ gc.nextId = gc₀.nextId ∧
    gc.grayHead = gc₀.grayHead ∧ gc.grayTail = gc₀.grayTail ∧ gc.grayCount = gc₀.grayCount

theorem id_of_content {n m : PonGcNode} (h : n.content = m.content) : n.id = m.id :=
  (congrArg PonGcNode.id h :)

/-- Two nodes the index finds have different ids. -/
theorem SweepInv.id_ne {gc₀ gc : PonGcState} {A B : List Ptr} (h : SweepInv gc₀ gc A B)
    {p q : Ptr} (hp : p ∈ A ++ B) (hq : q ∈ A ++ B) (hne : q ≠ p) :
    (gc₀.node q).id ≠ (gc₀.node p).id := by
  intro hid
  have h₁ := h.byId p hp
  rw [← hid, h.byId q hq] at h₁
  exact hne (Option.some.inj h₁)

/-- One node of the walk. -/
theorem SweepInv.step {gc₀ gc : PonGcState} {A B : List Ptr} {p : Ptr}
    (h : SweepInv gc₀ gc A (p :: B)) :
    (gc₀.color p = .white → SweepInv gc₀ (sweepNode gc p) A B ∧
      (sweepNode gc p).deadNodes = gc.deadNodes + 1) ∧
    (gc₀.color p ≠ .white → SweepInv gc₀ (sweepNode gc p) (A ++ [p]) B ∧
      (sweepNode gc p).deadNodes = gc.deadNodes) := by
  have hcol : gc.color p = gc₀.color p := h.ahead p (List.mem_cons_self ..)
  have hpm : p ∈ A ++ p :: B := by simp
  have hsub : ∀ q ∈ A ++ B, q ∈ A ++ p :: B := by
    intro q hq
    simp only [List.mem_append, List.mem_cons] at hq ⊢
    exact hq.imp_right Or.inr
  have hne : ∀ q ∈ A ++ B, q ≠ p := fun q hq hqp =>
    (List.nodup_cons.mp (List.nodup_middle.mp h.all.nodup)).1 (hqp ▸ hq)
  constructor
  · intro hw
    have heq : sweepNode gc p =
        ponGcNodeFree (gc.setDead (gc.deadNodes + 1) (gc.bytesFreed + (gc.node p).dataSize)) p :=
      if_pos (hcol.trans hw)
    rw [heq]
    set g := gc.setDead (gc.deadNodes + 1) (gc.bytesFreed + (gc.node p).dataSize)
    have hg : AllNodes g (A ++ p :: B) :=
      ⟨h.all.next, h.all.prev, h.all.nodup, h.all.mem_iff, h.all.total⟩
    obtain ⟨f₁, f₂, f₃, f₄, f₅, f₆, f₇⟩ := free_frame g p
    obtain ⟨e₁, e₂, e₃, e₅, e₆, e₇⟩ := h.frame
    refine ⟨⟨hg.free, fun q hq => ?_, fun q hq => ?_, fun q hq => ?_, fun q hq => ?_,
      f₁.trans e₁, f₂.trans e₂, f₃.trans e₃, f₅.trans e₅, f₆.trans e₆, f₇.trans e₇⟩, f₄⟩
    · rw [(content_free hg (hne q (List.mem_append_left _ hq))).2]
      exact h.white q hq
    · rw [(content_free hg (hne q (List.mem_append_right _ hq))).2]
      exact h.ahead q (List.mem_cons_of_mem _ hq)
    · rw [(content_free hg (hne q hq)).1]
      exact h.content q (hsub q hq)
    · rw [byId_free]
      · exact h.byId q (hsub q hq)
      · have hid : (g.node p).id = (gc₀.node p).id := id_of_content (h.content p hpm)
        rw [hid]
        exact h.id_ne hpm (hsub q hq) (hne q hq)
  · intro hw
    have hw' : gc.color p ≠ .white := fun hc => hw (hcol.symm.trans hc)
    have heq : sweepNode gc p = gc.modify p (PonGcNode.setColor .white) := if_neg hw'
    rw [heq]
    have hpa : gc.Allocated p := allocated_of_color_ne hw'
    have hassoc : A ++ [p] ++ B = A ++ p :: B := by simp
    refine ⟨⟨?_, fun q hq => ?_, fun q hq => ?_, fun q hq => ?_, fun q hq => ?_, h.frame⟩, rfl⟩
    · rw [hassoc]
      exact h.all.of_skeleton (skeleton_setColor _)
    · rw [color, node_modify hpa]
      split
      · rfl
      · rename_i hqp
        exact h.white q ((List.mem_append.mp hq).resolve_right (by simpa using hqp))
    · rw [color, node_modify_ne (hne q (List.mem_append_right _ hq))]
      exact h.ahead q (List.mem_cons_of_mem _ hq)
    · rw [hassoc] at hq
      rw [node_modify hpa]
      split
      · rename_i hqp
        rw [hqp]
        exact h.content p hpm
      · exact h.content q hq
    · rw [hassoc] at hq
      exact h.byId q hq

/-- **The walk** visits the rest of the list, frees its WHITE nodes and keeps the
others, in order. -/
theorem sweepLoop_spec {gc₀ : PonGcState} :
    ∀ (B : List Ptr) (fuel : ℕ) (gc : PonGcState) (A : List Ptr), SweepInv gc₀ gc A B →
      B.length < fuel → ∃ gc', sweepLoop fuel gc B.head? = some gc' ∧
        SweepInv gc₀ gc' (A ++ B.filter fun p => gc₀.color p ≠ .white) [] ∧
        gc'.deadNodes = gc.deadNodes + B.countP fun p => gc₀.color p = .white := by
  intro B
  induction B with
  | nil =>
    intro fuel gc A h hf
    obtain ⟨n, rfl⟩ : ∃ n, fuel = n + 1 := ⟨fuel - 1, by simp at hf; omega⟩
    exact ⟨gc, rfl, by simpa using h, rfl⟩
  | cons p B ih =>
    intro fuel gc A h hf
    obtain ⟨n, rfl⟩ : ∃ n, fuel = n + 1 := ⟨fuel - 1, by simp at hf; omega⟩
    have hnext : (gc.node p).nextAll = B.head? := h.all.next_eq
    have hlen : B.length < n := by simpa using hf
    have hrun : sweepLoop (n + 1) gc (p :: B).head? = sweepLoop n (sweepNode gc p) B.head? := by
      rw [List.head?_cons, sweepLoop, hnext]
    rw [hrun]
    by_cases hw : gc₀.color p = .white
    · obtain ⟨hinv, hdead⟩ := h.step.1 hw
      obtain ⟨gc', h₁, h₂, h₃⟩ := ih n _ A hinv hlen
      refine ⟨gc', h₁, ?_, ?_⟩
      · rw [List.filter_cons_of_neg (by simp [hw])]
        exact h₂
      · rw [h₃, hdead, List.countP_cons_of_pos (by simp [hw])]
        omega
    · obtain ⟨hinv, hdead⟩ := h.step.2 hw
      obtain ⟨gc', h₁, h₂, h₃⟩ := ih n _ (A ++ [p]) hinv hlen
      refine ⟨gc', h₁, ?_, ?_⟩
      · rw [List.filter_cons_of_pos (by simp [hw])]
        simpa using h₂
      · rw [h₃, hdead, List.countP_cons_of_neg (by simp [hw])]

/-- What a sweep starts from. -/
theorem SweepInv.start {gc : PonGcState} {L : List Ptr} (hwf : WellFormed gc L) :
    SweepInv gc (gc.setDead 0 0) [] L := by
  refine ⟨⟨hwf.all.next, hwf.all.prev, hwf.all.nodup, hwf.all.mem_iff, hwf.all.total⟩, by simp,
    fun p _ => rfl, fun p _ => rfl, fun p hp => (hwf.byId p hp).2, ?_⟩
  exact ⟨rfl, rfl, rfl, rfl, rfl, rfl⟩

/-- **A whole sweep** terminates and leaves exactly the nodes that were not WHITE, in
their old order, WHITE, with their content and their entry in the id index. -/
theorem ponGcSweep_spec {gc : PonGcState} {L : List Ptr} (hwf : WellFormed gc L) {fuel : ℕ}
    (hf : L.length < fuel) :
    ∃ gc' n, ponGcSweep fuel gc = some (gc', n) ∧
      SweepInv gc gc' (L.filter fun p => gc.color p ≠ .white) [] ∧
      gc'.deadNodes = L.countP fun p => gc.color p = .white := by
  obtain ⟨g, h₁, h₂, h₃⟩ := sweepLoop_spec L fuel _ [] (SweepInv.start hwf) hf
  have hhead : gc.nodesHead = L.head? := hwf.all.next.head_eq
  refine ⟨g.clearLiveNodes, g.bytesFreed, by simp only [ponGcSweep, hhead, h₁], ?_, ?_⟩
  · have h₂' : SweepInv gc g (L.filter fun p => gc.color p ≠ .white) [] := h₂
    exact ⟨⟨h₂'.all.next, h₂'.all.prev, h₂'.all.nodup, h₂'.all.mem_iff, h₂'.all.total⟩,
      h₂'.white, h₂'.ahead, h₂'.content, h₂'.byId, h₂'.frame⟩
  · refine h₃.trans ?_
    change 0 + _ = _
    omega

end PonBeam.Gc
