import PonBeam.Gc.Collect
import PonBeam.Lib.System

/-!
# Runs of the collector

Every public operation of `pon_gc.h` as one step, in any order, with the discipline
its callers keep: a pointer handed in is NULL or names a node, `erts_alloc` returns
an address that is free, and a sweep is issued only once the mark of the current
cycle was reported complete (`pon_gc_mark` returned, or `pon_gc_step` returned 1).

That discipline is not enough to keep reachable nodes alive: `pon_gc_add_ref` has no
write barrier, `pon_gc_add_root` does not notify the root, and `pon_gc_step` reports a
mark complete that never started. `Barrier` names the steps these three leave
unprotected, and runs that avoid them keep the tri-colour invariant.
-/

namespace PonBeam.Gc

open PonGcState

/-- A public operation with its arguments. `create` carries the address the allocator
returned. -/
inductive GcOp : Type where
  /-- `pon_gc_node_create` -/
  | create (p : Ptr) (data : Option ℕ) (size : ℕ)
  /-- `pon_gc_add_ref` -/
  | addRef (frm tgt : Option Ptr)
  /-- `pon_gc_remove_ref` -/
  | removeRef (frm tgt : Option Ptr)
  /-- `pon_gc_add_root` -/
  | addRoot (root : Option Ptr)
  /-- `pon_gc_mark` -/
  | mark
  /-- `pon_gc_step` -/
  | step (maxNotifications : ℤ)
  /-- `pon_gc_sweep` -/
  | sweep
  /-- `pon_gc_mark_sweep` -/
  | markSweep
  /-- `pon_gc_reset` -/
  | reset

/-- The collector between two calls. -/
structure GcRun where
  /-- its state -/
  gc : PonGcState
  /-- the mark of this cycle was reported complete -/
  complete : Bool

/-- NULL, or the address of a node. -/
def PonGcState.Valid (gc : PonGcState) (p : Option Ptr) : Prop := ∀ q, p = some q → gc.Allocated q

/-- One call. -/
inductive GcStep : GcRun → GcOp → GcRun → Prop where
  /-- `pon_gc_node_create` -/
  | create {s : GcRun} {p : Ptr} {data : Option ℕ} {size : ℕ} : ¬ s.gc.Allocated p →
      GcStep s (.create p data size) ⟨ponGcNodeCreate s.gc p data size, s.complete⟩
  /-- `pon_gc_add_ref` -/
  | addRef {s : GcRun} {frm tgt : Option Ptr} {gc' : PonGcState} : s.gc.Valid frm →
      s.gc.Valid tgt → ponGcAddRef s.gc frm tgt = some gc' →
      GcStep s (.addRef frm tgt) ⟨gc', s.complete⟩
  /-- `pon_gc_remove_ref` -/
  | removeRef {s : GcRun} {frm tgt : Option Ptr} : s.gc.Valid frm →
      GcStep s (.removeRef frm tgt) ⟨ponGcRemoveRef s.gc frm tgt, s.complete⟩
  /-- `pon_gc_add_root` -/
  | addRoot {s : GcRun} {root : Option Ptr} : s.gc.Valid root →
      GcStep s (.addRoot root) ⟨ponGcAddRoot s.gc root, s.complete⟩
  /-- `pon_gc_mark` -/
  | mark {s : GcRun} {fuel live : ℕ} {gc' : PonGcState} :
      ponGcMark fuel s.gc = some (gc', live) → GcStep s .mark ⟨gc', true⟩
  /-- `pon_gc_step` -/
  | step {s : GcRun} {n : ℤ} {fuel r : ℕ} {gc' : PonGcState} :
      ponGcStep fuel s.gc n = some (gc', r) → GcStep s (.step n) ⟨gc', s.complete || r == 1⟩
  /-- `pon_gc_sweep`, of a complete mark -/
  | sweep {s : GcRun} {fuel freed : ℕ} {gc' : PonGcState} : s.complete = true →
      ponGcSweep fuel s.gc = some (gc', freed) → GcStep s .sweep ⟨gc', false⟩
  /-- `pon_gc_mark_sweep` -/
  | markSweep {s : GcRun} {fuel dead : ℕ} {gc' : PonGcState} :
      ponGcMarkSweep fuel s.gc = some (gc', dead) → GcStep s .markSweep ⟨gc', false⟩
  /-- `pon_gc_reset` -/
  | reset {s : GcRun} {fuel : ℕ} {gc' : PonGcState} :
      ponGcReset fuel s.gc = some gc' → GcStep s .reset ⟨gc', false⟩

/-- The collector as a transition system, from `pon_gc_init` on. -/
def gcSystem : System GcRun GcOp where
  init s := s = ⟨ponGcInit, false⟩
  step := GcStep

/-- What a caller would have to check by itself: no reference from a BLACK node to a WHITE
one is stored, and no sweep starts while a registered root is WHITE. -/
def Barrier (s : GcRun) : GcOp → Prop
  | .addRef (some f) (some t) => ¬ (s.gc.color f = .black ∧ s.gc.color t = .white)
  | .sweep => ∀ p, s.gc.Root p → s.gc.color p ≠ .white
  | _ => True

/-! ## The invariant -/

/-- Between calls: a well-formed graph, nothing queued, no BLACK to WHITE reference. -/
def GcInv (s : GcRun) : Prop := ∃ L, WellFormed s.gc L ∧ Unmarked s.gc

theorem gcInv_init : GcInv ⟨ponGcInit, false⟩ :=
  ⟨[], wellFormed_init, Unmarked.of_white (fun _ => rfl) (GrayQueue.nil rfl rfl rfl)⟩

section Ops

variable {gc gc' : PonGcState} {L : List Ptr}

theorem Unmarked.create (hwf : WellFormed gc L) (hu : Unmarked gc) {p : Ptr} {data : Option ℕ}
    {size : ℕ} (hp : ¬ gc.Allocated p) : Unmarked (ponGcNodeCreate gc p data size) := by
  obtain ⟨-, f₂, f₃, f₄, -⟩ := create_frame gc p data size
  refine ⟨GrayQueue.nil (f₂.trans hu.queue.links) (f₃.trans hu.queue.tail)
    (f₄.trans hu.queue.count), fun q => ?_, fun u w hb he => ?_⟩
  · rw [color_create hwf hp]
    exact hu.noGray q
  · rw [color_create hwf hp] at hb ⊢
    rw [edge_create hwf hp] at he
    exact hu.closed u w hb he

theorem Unmarked.addRef (hu : Unmarked gc) {f t : Ptr} (hf : gc.Allocated f)
    (hbar : ¬ (gc.color f = .black ∧ gc.color t = .white))
    (h : ponGcAddRef gc (some f) (some t) = some gc') : Unmarked gc' := by
  obtain ⟨hcol, hqueue⟩ := addRef_frame hf h
  refine ⟨hqueue [] hu.queue, fun p => ?_, fun u w hb he => ?_⟩
  · rw [hcol]
    exact hu.noGray p
  · rw [hcol] at hb ⊢
    rcases edge_addRef hf h he with he | ⟨rfl, rfl⟩
    · exact hu.closed u w hb he
    · exact fun hw => hbar ⟨hb, hw⟩

theorem Unmarked.removeRef (hwf : WellFormed gc L) (hu : Unmarked gc) {f : Ptr}
    (hf : gc.Allocated f) (tgt : Option Ptr) : Unmarked (ponGcRemoveRef gc (some f) tgt) := by
  obtain ⟨-, hedge, hcol, hqueue⟩ := removeRef_spec hwf hf tgt
  refine ⟨hqueue [] hu.queue, fun p => ?_, fun u w hb he => ?_⟩
  · rw [hcol]
    exact hu.noGray p
  · rw [hcol] at hb ⊢
    exact hu.closed u w hb (hedge u w he)

theorem Unmarked.addRoot (hu : Unmarked gc) (r : Ptr) : Unmarked (ponGcAddRoot gc (some r)) := by
  obtain ⟨cap, heq⟩ := addRoot_eq gc r
  rw [heq]
  exact ⟨⟨hu.queue.links, hu.queue.tail, hu.queue.nodup, hu.queue.count, hu.queue.allocated⟩,
    hu.noGray, hu.closed⟩

/-- With nothing queued a step has no effect, whatever its budget. -/
theorem ponGcStep_of_empty (hu : Unmarked gc) {fuel r : ℕ} {n : ℤ}
    (h : ponGcStep fuel gc n = some (gc', r)) : gc' = gc := by
  have hhead : gc.grayHead = none := hu.queue.links
  simp only [ponGcStep, hhead, if_true, Option.some.injEq, Prod.mk.injEq] at h
  exact h.1.symm

/-- **The sweep of a closed marking** that has left no root WHITE keeps the graph well
formed, and frees WHITE nodes only. -/
theorem sweep_closed (hwf : WellFormed gc L) (hu : Unmarked gc)
    (hroot : ∀ p, gc.Root p → gc.color p ≠ .white) {fuel freed : ℕ}
    (h : ponGcSweep fuel gc = some (gc', freed)) :
    (∃ L', WellFormed gc' L' ∧ Unmarked gc') ∧
      ∀ p, gc.color p ≠ .white → gc'.Allocated p := by
  obtain ⟨g, n, hrun, hinv, -⟩ := ponGcSweep_spec hwf (Nat.lt_succ_self L.length)
  have heq : some (gc', freed) = some (g, n) := by
    rw [← ponGcSweep_mono (Nat.le_max_left fuel (L.length + 1)) h,
      ponGcSweep_mono (Nat.le_max_right fuel (L.length + 1)) hrun]
  obtain ⟨rfl, rfl⟩ := Prod.mk.inj (Option.some.inj heq)
  set A := L.filter fun p => gc.color p ≠ .white with hA
  have hmem : ∀ p, p ∈ A ↔ p ∈ L ∧ gc.color p ≠ .white := by
    intro p
    simp [hA, List.mem_filter]
  have hblack : ∀ p, gc.color p ≠ .white → gc.color p = .black := by
    intro p hp
    cases hc : gc.color p with
    | white => exact absurd hc hp
    | gray => exact absurd hc (hu.noGray p)
    | black => rfl
  have hwf' : WellFormed gc' A := by
    refine hinv.wellFormed hwf (fun p hp => ((hmem p).mp hp).1) (fun p hp q he => ?_)
      fun p hp => (hmem p).mpr ⟨hwf.roots p hp, hroot p hp⟩
    have hb := hblack p ((hmem p).mp hp).2
    exact (hmem q).mpr ⟨hwf.refs p q he, hu.closed p q hb he⟩
  obtain ⟨-, -, -, f₄, f₅, f₆⟩ := hinv.frame
  refine ⟨⟨A, hwf', Unmarked.of_white (hwf'.white_of_list hinv.white) (GrayQueue.nil
    (f₄.trans hu.queue.links) (f₅.trans hu.queue.tail) (f₆.trans hu.queue.count))⟩, ?_⟩
  intro p hp
  refine (hwf'.all.mem_iff p).mp ((hmem p).mpr ⟨?_, hp⟩)
  exact (hwf.all.mem_iff p).mpr (allocated_of_color_ne hp)

/-- A mark from a closed marking: the graph is the same, and everything reachable is BLACK. -/
theorem mark_closed (hwf : WellFormed gc L) (hu : Unmarked gc) {fuel live : ℕ}
    (h : ponGcMark fuel gc = some (gc', live)) :
    WellFormed gc' L ∧ Unmarked gc' ∧ gc'.skeleton = gc.skeleton ∧
      ∀ p, gc.Reachable p → gc'.color p = .black := by
  obtain ⟨g, n, hrun, hsk, hug, hblack⟩ := ponGcMark_spec hwf hu (Nat.lt_succ_self L.length)
  have heq : some (gc', live) = some (g, n) := by
    rw [← ponGcMark_mono (Nat.le_max_left fuel (L.length + 1)) h,
      ponGcMark_mono (Nat.le_max_right fuel (L.length + 1)) hrun]
  obtain ⟨rfl, rfl⟩ := Prod.mk.inj (Option.some.inj heq)
  exact ⟨hwf.of_skeleton hsk, hug, hsk, fun p hp => (hblack p).mpr (Or.inr hp)⟩

/-- A full collection from a closed marking. -/
theorem markSweep_closed (hwf : WellFormed gc L) (hu : Unmarked gc) {fuel dead : ℕ}
    (h : ponGcMarkSweep fuel gc = some (gc', dead)) :
    (∃ L', WellFormed gc' L' ∧ Unmarked gc') ∧ ∀ p, gc.Reachable p → gc'.Allocated p := by
  unfold ponGcMarkSweep at h
  split at h
  · cases h
  · rename_i g k hmark
    split at h
    · cases h
    · rename_i g' b hsweep
      obtain ⟨rfl, -⟩ := Prod.mk.inj (Option.some.inj h)
      obtain ⟨hwfg, hug, hsk, hblack⟩ := mark_closed hwf hu hmark
      have hroot : ∀ p, g.Root p → g.color p ≠ .white := by
        intro p hp
        rw [Root, roots_of_skeleton hsk] at hp
        rw [hblack p (TriColor.Reachable.of_root hp)]
        simp
      obtain ⟨hinv, hkeep⟩ := sweep_closed hwfg hug hroot hsweep
      refine ⟨hinv, fun p hp => hkeep p ?_⟩
      rw [hblack p hp]
      simp

theorem reset_closed (hwf : WellFormed gc L) {fuel : ℕ} (h : ponGcReset fuel gc = some gc') :
    WellFormed gc' L ∧ Unmarked gc' := by
  obtain ⟨g, hrun, hwf', hu, -⟩ := ponGcReset_spec hwf (Nat.lt_succ_self L.length)
  have heq : some gc' = some g := by
    rw [← ponGcReset_mono (Nat.le_max_left fuel (L.length + 1)) h,
      ponGcReset_mono (Nat.le_max_right fuel (L.length + 1)) hrun]
  obtain rfl := Option.some.inj heq
  exact ⟨hwf', hu⟩

end Ops

/-! ## Every step keeps it -/

/-- **One call.** A step that meets `Barrier` keeps the invariant, and whatever was
reachable before it is still allocated after it. -/
theorem GcInv.step {s s' : GcRun} {op : GcOp} (hinv : GcInv s) (hbar : Barrier s op)
    (h : GcStep s op s') : GcInv s' ∧ ∀ p, s.gc.Reachable p → s'.gc.Allocated p := by
  obtain ⟨L, hwf, hu⟩ := hinv
  have hlive : ∀ p, s.gc.Reachable p → s.gc.Allocated p :=
    fun p hp => (hwf.all.mem_iff p).mp (hwf.reachable_mem hp)
  cases h with
  | create hp =>
    refine ⟨⟨_, hwf.create hp, Unmarked.create hwf hu hp⟩, fun q hq => ?_⟩
    exact allocated_create.mpr (Or.inr (hlive q hq))
  | @addRef frm tgt gc' hf ht hrun =>
    rcases frm with _ | f
    · obtain rfl := Option.some.inj hrun
      exact ⟨⟨L, hwf, hu⟩, hlive⟩
    · rcases tgt with _ | t
      · obtain rfl := Option.some.inj hrun
        exact ⟨⟨L, hwf, hu⟩, hlive⟩
      · have hfa := hf f rfl
        have hwf' := hwf.addRef hfa (ht t rfl) hrun
        refine ⟨⟨L, hwf', hu.addRef hfa hbar hrun⟩, fun p hp => ?_⟩
        exact (hwf'.all.mem_iff p).mp (hwf.reachable_mem hp)
  | @removeRef frm tgt hf =>
    rcases frm with _ | f
    · exact ⟨⟨L, hwf, hu⟩, hlive⟩
    · have hwf' := (removeRef_spec hwf (hf f rfl) tgt).1
      refine ⟨⟨L, hwf', Unmarked.removeRef hwf hu (hf f rfl) tgt⟩, fun p hp => ?_⟩
      exact (hwf'.all.mem_iff p).mp (hwf.reachable_mem hp)
  | @addRoot root hr =>
    rcases root with _ | r
    · exact ⟨⟨L, hwf, hu⟩, hlive⟩
    · have hwf' := hwf.addRoot (hr r rfl)
      refine ⟨⟨L, hwf', hu.addRoot r⟩, fun p hp => ?_⟩
      exact (hwf'.all.mem_iff p).mp (hwf.reachable_mem hp)
  | mark hrun =>
    obtain ⟨hwf', hu', -, -⟩ := mark_closed hwf hu hrun
    exact ⟨⟨L, hwf', hu'⟩, fun p hp => (hwf'.all.mem_iff p).mp (hwf.reachable_mem hp)⟩
  | step hrun =>
    obtain rfl := ponGcStep_of_empty hu hrun
    exact ⟨⟨L, hwf, hu⟩, hlive⟩
  | sweep _ hrun =>
    obtain ⟨hinv', hkeep⟩ := sweep_closed hwf hu hbar hrun
    refine ⟨hinv', fun p hp => hkeep p ?_⟩
    rw [TriColor.Closed.reachable_black hu.closed hu.noGray hbar hp]
    simp
  | markSweep hrun => exact markSweep_closed hwf hu hrun
  | reset hrun =>
    obtain ⟨hwf', hu'⟩ := reset_closed hwf hrun
    exact ⟨⟨L, hwf', hu'⟩, fun p hp => (hwf'.all.mem_iff p).mp (hwf.reachable_mem hp)⟩

/-- The invariant holds along every run that meets `Barrier`. -/
theorem gcInv_of_reach {s : GcRun} (h : (gcSystem.restrict Barrier).Reach s) : GcInv s :=
  h.invariant (fun _ hs => hs ▸ gcInv_init) fun _ _ _ hinv hstep => (hinv.step hstep.1 hstep.2).1

/-- **No reachable node is freed** in a run whose steps all meet `Barrier`: not by a sweep,
and not by any other call. -/
theorem reachable_not_freed {s s' : GcRun} {op : GcOp} (h : (gcSystem.restrict Barrier).Reach s)
    (hstep : (gcSystem.restrict Barrier).step s op s') {p : Ptr} (hp : s.gc.Reachable p) :
    s'.gc.Allocated p :=
  ((gcInv_of_reach h).step hstep.1 hstep.2).2 p hp

/-! ## A run that frees a root -/

/-- One node, registered as a root, before any mark. -/
def oneRoot : PonGcState := ponGcAddRoot (ponGcNodeCreate ponGcInit 1 none 8) (some 1)

/-- The run `create; add_root; step`: the step answers 1, and nothing was notified. -/
theorem oneRoot_reach : (gcSystem.restrict Barrier).Reach ⟨oneRoot, true⟩ := by
  have hcreate : GcStep ⟨ponGcInit, false⟩ (.create 1 none 8)
      ⟨ponGcNodeCreate ponGcInit 1 none 8, false⟩ :=
    .create fun ⟨n, hn⟩ => by cases hn
  have hroot : GcStep ⟨ponGcNodeCreate ponGcInit 1 none 8, false⟩ (.addRoot (some 1))
      ⟨oneRoot, false⟩ :=
    .addRoot fun q hq => by
      cases hq
      exact ⟨_, rfl⟩
  have hrun : ponGcStep 1 oneRoot 1 = some (oneRoot, 1) := rfl
  have hstep : GcStep ⟨oneRoot, false⟩ (.step 1) ⟨oneRoot, true⟩ :=
    GcStep.step (s := ⟨oneRoot, false⟩) hrun
  have h₀ : (gcSystem.restrict Barrier).Reach ⟨ponGcInit, false⟩ := .start rfl
  have h₁ : (gcSystem.restrict Barrier).Reach ⟨ponGcNodeCreate ponGcInit 1 none 8, false⟩ :=
    h₀.next (a := .create 1 none 8) ⟨trivial, hcreate⟩
  have h₂ : (gcSystem.restrict Barrier).Reach ⟨oneRoot, false⟩ :=
    h₁.next (a := .addRoot (some 1)) ⟨trivial, hroot⟩
  exact h₂.next (a := .step 1) ⟨trivial, hstep⟩

theorem oneRoot_reachable : oneRoot.Reachable 1 :=
  TriColor.Reachable.of_root (List.mem_singleton.mpr rfl)

/-- A full collection of that heap, instead of a sweep, keeps the node. -/
theorem oneRoot_not_freed :
    ∃ gc', ponGcMarkSweep 3 oneRoot = some (gc', 0) ∧ gc'.Allocated 1 := by
  obtain ⟨gc', hrun⟩ : ∃ gc', ponGcMarkSweep 3 oneRoot = some (gc', 0) := ⟨_, rfl⟩
  have hstep : (gcSystem.restrict Barrier).step ⟨oneRoot, true⟩ .markSweep ⟨gc', false⟩ :=
    ⟨trivial, .markSweep hrun⟩
  exact ⟨gc', hrun, reachable_not_freed oneRoot_reach hstep oneRoot_reachable⟩

/-- **The sweep frees a root.** After `create; add_root; step`, where the step answered 1,
the sweep frees the node although it is registered as a root. -/
theorem oneRoot_freed :
    ∃ s', gcSystem.Reach ⟨oneRoot, true⟩ ∧ gcSystem.step ⟨oneRoot, true⟩ .sweep s' ∧
      oneRoot.Reachable 1 ∧ oneRoot.Allocated 1 ∧ ¬ s'.gc.Allocated 1 := by
  refine ⟨⟨((ponGcSweep 2 oneRoot).getD (oneRoot, 0)).1, false⟩, oneRoot_reach.of_restrict,
    .sweep rfl (show ponGcSweep 2 oneRoot = some (_, 8) from rfl), oneRoot_reachable, ⟨_, rfl⟩, ?_⟩
  rintro ⟨n, hn⟩
  cases hn

end PonBeam.Gc
