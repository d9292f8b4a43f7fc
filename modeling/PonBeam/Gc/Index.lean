import PonBeam.Gc.Ops

/-!
# The id index

`by_id` finds the nodes under their ids. An entry is written by a creation and cleared when
its node is freed, and the index grows by NULL entries, so that what it finds is a node with
that id.
-/

namespace PonBeam.Gc

open PonGcState

/-- What the id index finds is a node, and has that id. -/
def Indexed (gc : PonGcState) : Prop :=
  ∀ i q, ponGcNodeById gc i = some q → gc.Allocated q ∧ (gc.node q).id = i

section Index

variable {gc gc' : PonGcState} {L : List Ptr}

theorem nodeById_some {i : ℕ} {q : Ptr} :
    ponGcNodeById gc i = some q ↔ i < gc.byIdCap ∧ gc.byId i = some q := by
  rw [ponGcNodeById]
  split
  · next hcap => simp [Nat.not_lt.mpr hcap]
  · next hcap => simp [Nat.lt_of_not_le hcap]

theorem Indexed.of_skeleton (h : Indexed gc) (hskel : gc'.skeleton = gc.skeleton) :
    Indexed gc' := by
  have hcap : gc'.byIdCap = gc.byIdCap := (congrArg PonGcState.byIdCap hskel :)
  have hby : gc'.byId = gc.byId := (congrArg PonGcState.byId hskel :)
  intro i q hq
  rw [nodeById_some, hcap, hby, ← nodeById_some] at hq
  obtain ⟨ha, hid⟩ := h i q hq
  have hsame : (gc'.node q).id = (gc.node q).id :=
    (congrArg PonGcNode.id (node_of_skeleton hskel q) :)
  exact ⟨(allocated_of_skeleton hskel).mpr ha, hsame.trans hid⟩

/-- The index after a creation: the new id, and what was there before. -/
theorem nodeById_create {p q : Ptr} {data : Option ℕ} {size i : ℕ}
    (h : ponGcNodeById (ponGcNodeCreate gc p data size) i = some q) :
    i = gc.nextId ∧ q = p ∨ ponGcNodeById gc i = some q := by
  obtain ⟨g, hby, hcap, heq⟩ := create_index gc p data size
  rw [nodeById_some, heq] at h
  obtain ⟨hlt, hq⟩ := h
  have hset : ∀ x : PonGcState, (x.setById gc.nextId (some p)).byId i
      = if i = gc.nextId then some p else x.byId i := fun _ => rfl
  rw [hset] at hq
  by_cases hi : i = gc.nextId
  · rw [if_pos hi] at hq
    exact Or.inl ⟨hi, (Option.some.inj hq).symm⟩
  · rw [if_neg hi] at hq
    refine Or.inr (nodeById_some.mpr ?_)
    by_cases hc : gc.nextId ≥ gc.byIdCap
    · rw [if_pos hc] at hq hlt
      have hgrown : (g.growById (newByIdCap gc.byIdCap gc.nextId)).byId i
          = if g.byIdCap ≤ i ∧ i < newByIdCap gc.byIdCap gc.nextId then none else g.byId i := rfl
      have hlt' : i < newByIdCap gc.byIdCap gc.nextId := hlt
      rw [hgrown, hcap, hby] at hq
      by_cases hnew : gc.byIdCap ≤ i
      · rw [if_pos ⟨hnew, hlt'⟩] at hq
        cases hq
      · rw [if_neg fun hboth => hnew hboth.1] at hq
        exact ⟨Nat.lt_of_not_le hnew, hq⟩
    · rw [if_neg hc] at hq hlt
      have hlt' : i < g.byIdCap := hlt
      rw [hcap] at hlt'
      rw [hby] at hq
      exact ⟨hlt', hq⟩

theorem Indexed.create (h : Indexed gc) (hwf : WellFormed gc L) {p : Ptr} (hp : ¬ gc.Allocated p)
    (data : Option ℕ) (size : ℕ) : Indexed (ponGcNodeCreate gc p data size) := by
  intro i q hq
  rcases nodeById_create hq with ⟨rfl, rfl⟩ | hold
  · refine ⟨allocated_create.mpr (Or.inl rfl), ?_⟩
    rw [node_create hwf hp, if_pos rfl]
  · obtain ⟨ha, hid⟩ := h i q hold
    have hqp : q ≠ p := fun he => hp (he ▸ ha)
    refine ⟨allocated_create.mpr (Or.inr ha), ?_⟩
    rw [node_create hwf hp, if_neg hqp, ← hid]
    split <;> rfl

/-- A freed node is taken out of the index. -/
theorem Indexed.free (h : Indexed gc) {A B : List Ptr} {p : Ptr} (hall : AllNodes gc (A ++ p :: B))
    (hcap : (gc.node p).id < gc.byIdCap) : Indexed (ponGcNodeFree gc p) := by
  have hcap' := (free_frame gc p).2.1
  intro i q hq
  rw [nodeById_some, hcap'] at hq
  obtain ⟨hlt, hby⟩ := hq
  have hgone : (ponGcNodeFree gc p).byId (gc.node p).id = none := by
    have hif : ∀ g : PonGcState, g.byIdCap = gc.byIdCap →
        ((if (gc.node p).id < g.byIdCap then g.setById (gc.node p).id none else g).release p).byId
          (gc.node p).id = none := by
      intro g hg
      rw [if_pos (hg ▸ hcap)]
      exact if_pos rfl
    simp only [ponGcNodeFree]
    split <;> split <;> exact hif _ rfl
  by_cases hi : i = (gc.node p).id
  · rw [hi, hgone] at hby
    cases hby
  · rw [byId_free hi] at hby
    obtain ⟨ha, hid⟩ := h i q (nodeById_some.mpr ⟨hlt, hby⟩)
    have hne : q ≠ p := fun he => hi (by rw [← hid, he])
    exact ⟨allocated_free.mpr ⟨hne, ha⟩, (id_of_content (content_free hall hne).1).trans hid⟩

/-- The walk of a sweep keeps the index. -/
theorem sweepLoop_indexed {gc₀ : PonGcState}
    (hcap : ∀ p, gc₀.Allocated p → (gc₀.node p).id < gc₀.byIdCap) :
    ∀ (B : List Ptr) (fuel : ℕ) {gc gc' : PonGcState} {A : List Ptr}, SweepInv gc₀ gc A B →
      (∀ p ∈ B, gc₀.Allocated p) → Indexed gc → sweepLoop fuel gc B.head? = some gc' →
      Indexed gc' := by
  intro B
  induction B with
  | nil =>
    intro fuel gc gc' A _ _ h hrun
    cases fuel with
    | zero => cases hrun
    | succ n =>
      obtain rfl := Option.some.inj hrun
      exact h
  | cons p B ih =>
    intro fuel gc gc' A hinv hB h hrun
    cases fuel with
    | zero => cases hrun
    | succ n =>
      have hnext : (gc.node p).nextAll = B.head? := hinv.all.next_eq
      rw [List.head?_cons, sweepLoop, hnext] at hrun
      have hcol : gc.color p = gc₀.color p := hinv.ahead p (List.mem_cons_self ..)
      have hid : (gc.node p).id = (gc₀.node p).id := id_of_content (hinv.content p (by simp))
      have hrest : ∀ q ∈ B, gc₀.Allocated q := fun q hq => hB q (List.mem_cons_of_mem _ hq)
      by_cases hw : gc₀.color p = .white
      · refine ih n (hinv.step.1 hw).1 hrest ?_ hrun
        have hw' : (gc.node p).color = .white := hcol.trans hw
        rw [sweepNode, if_pos hw']
        set g := gc.setDead (gc.deadNodes + 1) (gc.bytesFreed + (gc.node p).dataSize)
        have hall : AllNodes g (A ++ p :: B) := ⟨hinv.all.next, hinv.all.prev, hinv.all.nodup,
          hinv.all.mem_iff, hinv.all.total⟩
        have hg : Indexed g := h
        refine hg.free hall ?_
        change (gc.node p).id < gc.byIdCap
        rw [hid, hinv.frame.2.1]
        exact hcap p (hB p (List.mem_cons_self ..))
      · refine ih n (hinv.step.2 hw).1 hrest ?_ hrun
        have hw' : ¬ (gc.node p).color = .white := fun hc => hw (hcol.symm.trans hc)
        rw [sweepNode, if_neg hw']
        exact h.of_skeleton (skeleton_setColor _)

theorem Indexed.sweep (h : Indexed gc) (hwf : WellFormed gc L) {fuel freed : ℕ}
    (hrun : ponGcSweep fuel gc = some (gc', freed)) : Indexed gc' := by
  have hcap : ∀ p, gc.Allocated p → (gc.node p).id < gc.byIdCap := fun p hp =>
    (hwf.byId p ((hwf.all.mem_iff p).mpr hp)).1
  unfold ponGcSweep at hrun
  split at hrun
  · cases hrun
  · next x hloop =>
    obtain ⟨rfl, -⟩ := Prod.mk.inj (Option.some.inj hrun)
    rw [hwf.all.next.head_eq] at hloop
    have hx : Indexed x := sweepLoop_indexed hcap L fuel (SweepInv.start hwf)
      (fun p hp => (hwf.all.mem_iff p).mp hp) h hloop
    exact hx

end Index

end PonBeam.Gc
