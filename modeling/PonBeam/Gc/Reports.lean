import PonBeam.Gc.Index
import PonBeam.Gc.Registration
import Mathlib.Data.Set.Card

/-!
# What `pon_gc_collect/0` reports

The map is filled from the counters of the collector once the sweep is over. `live_nodes` is
zero by then, and `notifications_sent` and `scan_count` are never reset, so they tell of every
cycle so far. The report is that of the cycle (`Reports`) exactly while no root is registered,
when there is nothing to report but the nodes that go.
-/

namespace PonBeam.Gc

open PonGcState

/-! ## The cycle of a collection -/

section Cycle

variable {gc gc' : PonGcState} {L : List Ptr}

theorem free_counts (gc : PonGcState) (p : Ptr) :
    (ponGcNodeFree gc p).notificationsSent = gc.notificationsSent ∧
      (ponGcNodeFree gc p).scanCount = gc.scanCount := by
  simp only [ponGcNodeFree]
  split <;> split <;> split <;> exact ⟨rfl, rfl⟩

/-- A sweep neither notifies nor scans. -/
theorem sweepLoop_counts : ∀ (fuel : ℕ) {gc gc' : PonGcState} {p : Option Ptr},
    sweepLoop fuel gc p = some gc' →
      gc'.notificationsSent = gc.notificationsSent ∧ gc'.scanCount = gc.scanCount := by
  intro fuel
  induction fuel with
  | zero =>
    intro gc gc' p h
    cases h
  | succ n ih =>
    intro gc gc' p h
    cases p with
    | none =>
      obtain rfl := Option.some.inj h
      exact ⟨rfl, rfl⟩
    | some p =>
      obtain ⟨hsent, hscan⟩ := ih h
      have hnode : (sweepNode gc p).notificationsSent = gc.notificationsSent ∧
          (sweepNode gc p).scanCount = gc.scanCount := by
        unfold sweepNode
        split
        · exact free_counts _ p
        · exact ⟨rfl, rfl⟩
      exact ⟨hsent.trans hnode.1, hscan.trans hnode.2⟩

theorem ponGcSweep_scans {fuel freed : ℕ} (h : ponGcSweep fuel gc = some (gc', freed)) :
    gc'.notificationsSent = gc.notificationsSent ∧ gc'.scanCount = gc.scanCount := by
  unfold ponGcSweep at h
  split at h
  · cases h
  · next x hloop =>
    obtain ⟨rfl, -⟩ := Prod.mk.inj (Option.some.inj h)
    exact (sweepLoop_counts fuel hloop :)

/-- **A full collection** of a graph at rest: the counters it leaves. -/
theorem AtRest.markSweep (h : AtRest gc L) :
    ∃ gc' L', (∀ fuel, L.length < fuel →
        ponGcMarkSweep fuel gc = some (gc', (unreached gc L).length)) ∧
      AtRest gc' L' ∧ gc'.roots = gc.roots ∧ gc'.liveNodes = 0 ∧
      gc'.totalNodes = gc.totalNodes - (unreached gc L).length ∧
      gc'.scanCount = gc.scanCount + (reached gc L).length ∧
      gc'.notificationsSent + (distinctRoots gc).length
        = gc.notificationsSent + (reached gc L).length := by
  obtain ⟨g, live, gc', freed, L', hrun, hcounts, hrest, -⟩ := h.cycle
  obtain ⟨hmark, hsweep⟩ := hrun (L.length + 1) (Nat.lt_succ_self _)
  obtain ⟨hsent, hscan⟩ := ponGcSweep_scans hsweep
  obtain ⟨hskel, -⟩ := h.marked hmark
  have hwfg := h.toWellFormed.of_skeleton hskel
  obtain ⟨g', n, hrun', hinv, -⟩ := ponGcSweep_spec hwfg (Nat.lt_succ_self L.length)
  rw [hsweep] at hrun'
  obtain ⟨rfl, rfl⟩ := Prod.mk.inj (Option.some.inj hrun')
  refine ⟨gc', L', fun fuel hf => ?_, hrest, hinv.frame.1.trans (roots_of_skeleton hskel),
    hrest.liveNodes_eq, ?_, ?_, ?_⟩
  · simp only [ponGcMarkSweep, (hrun fuel hf).1, (hrun fuel hf).2, hcounts.dead]
  · rw [hcounts.total, hcounts.dead]
  · rw [hscan, hcounts.scans]
  · rw [hsent, hcounts.notifications]

/-- Without a root nothing is reached. -/
theorem reached_nil_iff (h : AtRest gc L) : reached gc L = [] ↔ ∀ p, ¬ gc.Root p := by
  classical
  constructor
  · intro hnil p hp
    have hmem : p ∈ reached gc L :=
      List.mem_filter.mpr ⟨h.roots p hp, decide_eq_true (TriColor.Reachable.of_root hp)⟩
    rw [hnil] at hmem
    cases hmem
  · intro hroot
    refine List.filter_eq_nil_iff.mpr fun p _ hp => ?_
    exact TriColor.Reachable.induct (P := fun _ => False) hroot (fun _ _ hu _ => hu)
      (of_decide_eq_true hp)

end Cycle

/-! ## The invariant of a process -/

/-- Between two calls the graph is at rest, the id index finds its nodes only, and as long as
there is no root nothing was ever notified or scanned. -/
structure ProcInv (p : Proc) (L : List Ptr) : Prop where
  /-- the graph is at rest -/
  rest : AtRest p.gc L
  /-- the id index -/
  index : Indexed p.gc
  /-- no root, no notification -/
  quiet : p.gc.roots = [] → p.gc.notificationsSent = 0 ∧ p.gc.scanCount = 0
  /-- no NULL among the roots -/
  roots : none ∉ p.gc.roots

section Calls

variable {p p' : Proc} {L : List Ptr}

theorem AtRest.create {gc : PonGcState} (h : AtRest gc L) {q : Ptr} (hq : ¬ gc.Allocated q)
    (data : Option ℕ) (size : ℕ) : AtRest (ponGcNodeCreate gc q data size) (q :: L) := by
  have hw := h.white_of_list h.white
  refine ⟨h.toHeapGraph.create hq data size, fun r _ => ?_,
    (Unmarked.create h.toWellFormed (Unmarked.of_white hw h.queue) hq).queue⟩
  rw [color_create h.toWellFormed hq]
  exact hw r

theorem create_scans (gc : PonGcState) (q : Ptr) (data : Option ℕ) (size : ℕ) :
    (ponGcNodeCreate gc q data size).notificationsSent = gc.notificationsSent ∧
      (ponGcNodeCreate gc q data size).scanCount = gc.scanCount := by
  simp only [ponGcNodeCreate]
  split <;> split <;> exact ⟨rfl, rfl⟩

theorem createAll_atRest {s : Supply} (sizes : List ℕ) {gc : PonGcState} {i : ℕ}
    (h : AtRest gc L) (hindex : Indexed gc) (hfree : s.FreeFrom i gc) :
    (∃ L', AtRest (createAll s i gc sizes) L') ∧ Indexed (createAll s i gc sizes) ∧
      (createAll s i gc sizes).notificationsSent = gc.notificationsSent ∧
      (createAll s i gc sizes).scanCount = gc.scanCount := by
  induction sizes generalizing gc i L with
  | nil => exact ⟨⟨L, h⟩, hindex, rfl, rfl⟩
  | cons size sizes ih =>
    have hq := hfree.free i (le_refl i)
    set data := if size > 0 then some (s.payload i) else none with hdata
    obtain ⟨hrest, hindex', hsent, hscan⟩ := ih (h.create hq data size)
      (hindex.create h.toWellFormed hq data size) (hfree.create data size)
    obtain ⟨hsent', hscan'⟩ := create_scans gc (s.node i) data size
    exact ⟨hrest, hindex', hsent.trans hsent', hscan.trans hscan'⟩

theorem ProcInv.registerObjects (h : ProcInv p L) {s : Supply} (hfree : s.Free p.gc)
    (list : Eterm) : ∃ L', ProcInv (ponGcRegisterObjects s list p).2 L' := by
  cases list with
  | small n => exact ⟨L, h⟩
  | nil => exact ⟨L, h⟩
  | other tag => exact ⟨L, h⟩
  | cons hd tl =>
    rw [registerObjects_cons hd tl h.rest.toWellFormed hfree]
    obtain ⟨⟨L', hrest⟩, hindex, hsent, hscan⟩ :=
      createAll_atRest (leadingSizes (.cons hd tl)) h.rest h.index hfree.from_zero
    obtain ⟨-, hgrown, -⟩ :=
      createAll_spec (leadingSizes (.cons hd tl)) h.rest.toWellFormed hfree.from_zero
    refine ⟨L', hrest, hindex, fun hroots => ?_, ?_⟩
    · obtain ⟨h₁, h₂⟩ := h.quiet (hgrown.roots.symm.trans hroots)
      exact ⟨hsent.trans h₁, hscan.trans h₂⟩
    · change none ∉ (createAll s 0 p.gc (leadingSizes (.cons hd tl))).roots
      rw [hgrown.roots]
      exact h.roots

theorem ProcInv.addRoot (h : ProcInv p L) (arg : Eterm) :
    ProcInv (ponGcAddRootBif arg p).2 L := by
  cases arg with
  | nil => exact h
  | cons hd tl => exact h
  | other tag => exact h
  | small id =>
    rw [ponGcAddRootBif]
    cases hnode : ponGcNodeById p.gc (toUint64 id) with
    | none => exact ⟨h.rest, h.index, h.quiet, h.roots⟩
    | some q =>
      obtain ⟨ha, -⟩ := h.index _ q hnode
      obtain ⟨cap, heq⟩ := addRoot_eq p.gc q
      have hwf := h.rest.toWellFormed.addRoot ha
      have hqueue := (Unmarked.of_white (h.rest.white_of_list h.rest.white) h.rest.queue).addRoot q
      rw [heq] at hwf hqueue
      dsimp only
      rw [heq]
      refine ⟨⟨⟨hwf, h.rest.live⟩, h.rest.white, hqueue.queue⟩, h.index, fun hnil => ?_, ?_⟩
      · exact absurd hnil (List.append_ne_nil_of_right_ne_nil _ (List.cons_ne_nil _ _))
      · change none ∉ p.gc.roots ++ [some q]
        rw [List.mem_append, List.mem_singleton]
        rintro (hmem | hnone)
        · exact h.roots hmem
        · cases hnone

theorem ProcInv.addRef (h : ProcInv p L) {fromId toId : Eterm} {a : Answer}
    (hrun : ponGcAddRefBif fromId toId p = some (a, p')) : ProcInv p' L := by
  have hsame : ∀ x : Answer × Proc, some x = some (a, p') → x.2 = p' := by
    intro x hx
    exact congrArg Prod.snd (Option.some.inj hx)
  rcases fromId with fid | _ | _ | _ <;> rcases toId with tid | _ | _ | _
  case small.small =>
    rw [ponGcAddRefBif] at hrun
    split at hrun
    · next f t hf ht =>
      obtain ⟨gc', hadd, heq⟩ := Option.map_eq_some_iff.mp hrun
      obtain ⟨-, rfl⟩ := Prod.mk.inj heq
      obtain ⟨hfa, -⟩ := h.index _ f hf
      obtain ⟨hta, -⟩ := h.index _ t ht
      have hwf := h.rest.toWellFormed.addRef hfa hta hadd
      obtain ⟨hcol, hqueue⟩ := addRef_frame hfa hadd
      obtain ⟨n, rfl, -, -, -, -, hid, -⟩ := addRef_eq hadd
      refine ⟨⟨h.rest.toHeapGraph.congr hwf hcol rfl, fun q hq => ?_, hqueue [] h.rest.queue⟩,
        fun i q hq => ?_, h.quiet, h.roots⟩
      · exact (hcol q).trans (h.rest.white q hq)
      · obtain ⟨ha, hi⟩ := h.index i q hq
        refine ⟨allocated_modify.mpr ha, ?_⟩
        change ((p.gc.modify f fun _ => n).node q).id = i
        rw [node_modify hfa]
        split
        · next hqf => rw [hid, ← hqf, hi]
        · exact hi
    · rw [← hsame _ hrun]
      exact ⟨h.rest, h.index, h.quiet, h.roots⟩
  all_goals
    rw [← hsame _ hrun]
    exact h

/-- **A collection**: it returns, and leaves the process as a cycle does. -/
theorem ProcInv.collect (h : ProcInv p L) :
    ∃ m p' L', (∀ fuel, L.length < fuel → ponGcCollect fuel p = some (m, p') ∧
        ponGcMarkSweep fuel p.gc = some (p'.gc, (unreached p.gc L).length)) ∧ ProcInv p' L' ∧
      m.collected = (unreached p.gc L).length ∧ m.live = 0 ∧
      m.total = p.gc.totalNodes - (unreached p.gc L).length ∧
      m.notificationsSent = p'.gc.notificationsSent ∧ m.scans = p'.gc.scanCount ∧
      p'.stats.gcNotificationsSent = p.stats.gcNotificationsSent + p'.gc.notificationsSent ∧
      p'.gc.scanCount = p.gc.scanCount + (reached p.gc L).length ∧
      p'.gc.notificationsSent + (distinctRoots p.gc).length
        = p.gc.notificationsSent + (reached p.gc L).length := by
  obtain ⟨gc', L', hrun, hrest, hroots, hlive, htotal, hscan, hsent⟩ := h.rest.markSweep
  set p' : Proc := ⟨some gc', ⟨p.stats.gcNotificationsSent + gc'.notificationsSent,
    p.stats.gcScansAvoided + (unreached p.gc L).length, p.stats.gcIncrementalSteps + 1⟩⟩ with hp'
  refine ⟨collectMap gc' (unreached p.gc L).length, p', L', fun fuel hf => ?_, ?_, rfl, hlive,
    htotal, rfl, rfl, rfl, hscan, hsent⟩
  · exact ⟨by simp only [ponGcCollect, hrun fuel hf, hp'], hrun fuel hf⟩
  · have hindex : Indexed gc' := by
      have hms := hrun (L.length + 1) (Nat.lt_succ_self _)
      unfold ponGcMarkSweep at hms
      split at hms
      · cases hms
      · next g live hmark =>
        split at hms
        · cases hms
        · next g' freed hsweep =>
          obtain ⟨rfl, -⟩ := Prod.mk.inj (Option.some.inj hms)
          obtain ⟨hskel, -⟩ := h.rest.marked hmark
          exact (h.index.of_skeleton hskel).sweep (h.rest.toWellFormed.of_skeleton hskel) hsweep
    refine ⟨hrest, hindex, fun hnil => ?_, ?_⟩
    · -- no root: nothing was counted before, and nothing is reached
      have hnil' : p.gc.roots = [] := hroots.symm.trans hnil
      obtain ⟨h₁, h₂⟩ := h.quiet hnil'
      have hreached : reached p.gc L = [] := by
        refine (reached_nil_iff h.rest).mpr fun q hq => ?_
        rw [Root, hnil'] at hq
        cases hq
      rw [hreached, h₁] at hsent
      rw [hreached, h₂] at hscan
      exact ⟨Nat.eq_zero_of_add_eq_zero_right hsent, hscan⟩
    · change none ∉ gc'.roots
      rw [hroots]
      exact h.roots

/-- **Every call** keeps the invariant. -/
theorem ProcInv.step (h : ProcInv p L) {c : Call} {a : Answer} (hstep : BifStep p c a p') :
    ∃ L', ProcInv p' L' := by
  cases hstep with
  | registerObjects hfree => exact h.registerObjects hfree _
  | addRoot => exact ⟨L, h.addRoot _⟩
  | addRef hrun => exact ⟨L, h.addRef hrun⟩
  | @collect _ fuel m hrun =>
    obtain ⟨m', p'', L', hrun', hinv, -⟩ := h.collect
    have heq : ponGcCollect (max fuel (L.length + 1)) p = some (m, p') := by
      unfold ponGcCollect at hrun ⊢
      split at hrun
      · cases hrun
      · next r hr => rw [ponGcMarkSweep_mono (Nat.le_max_left ..) hr, ← hrun]
    rw [(hrun' _ (Nat.lt_of_lt_of_le (Nat.lt_succ_self _) (Nat.le_max_right ..))).1] at heq
    obtain ⟨-, rfl⟩ := Prod.mk.inj (Option.some.inj heq)
    exact ⟨L', hinv⟩

end Calls

theorem procInv_of_reach {p : Proc} (h : bifSystem.Reach p) : ∃ L, ProcInv p L := by
  refine h.invariant (I := fun p => ∃ L, ProcInv p L) ?_ ?_
  · intro p hp
    have hgc : p.gc = ponGcInit := by
      rw [Proc.gc, show p.ponGc = none from hp]
      rfl
    refine ⟨[], ?_, ?_, ?_, ?_⟩
    · rw [hgc]
      exact ⟨⟨wellFormed_init, rfl⟩, by simp, GrayQueue.nil rfl rfl rfl⟩
    · rw [hgc]
      intro i q hq
      cases (nodeById_some.mp hq).2
    · rw [hgc]
      exact fun _ => ⟨rfl, rfl⟩
    · rw [hgc]
      exact List.not_mem_nil
  · rintro p c p' ⟨L, hinv⟩ hstep
    exact hinv.step hstep

/-! ## The report -/

/-- **The report of a cycle** that took the process from `p` to `p'`. -/
structure Reports (p p' : Proc) (m : CollectMap) : Prop where
  /-- `live` is the number of objects reachable from the roots -/
  live : m.live = {q | p.gc.Reachable q}.ncard
  /-- `collected` is the number of objects freed -/
  collected : m.collected = {q | p.gc.Allocated q ∧ ¬ p'.gc.Allocated q}.ncard
  /-- nothing else is left -/
  total : m.live = m.total
  /-- `notifications_sent` are the notifications of this cycle -/
  notifications : p.gc.notificationsSent + m.notificationsSent = p'.gc.notificationsSent
  /-- `scans` are the scans of this cycle -/
  scans : p.gc.scanCount + m.scans = p'.gc.scanCount
  /-- and the statistics grow by the notifications of this cycle -/
  stats : p'.stats.gcNotificationsSent + p.gc.notificationsSent
    = p.stats.gcNotificationsSent + p'.gc.notificationsSent

theorem ncard_of_list {S : Set Ptr} {l : List Ptr} (hnd : l.Nodup) (h : ∀ q, q ∈ S ↔ q ∈ l) :
    S.ncard = l.length := by
  have hset : S = (l.toFinset : Set Ptr) := by
    ext q
    simp [h q]
  rw [hset, Set.ncard_coe_finset, List.toFinset_card_of_nodup hnd]

theorem reached_ncard {gc : PonGcState} {L : List Ptr} (h : AtRest gc L) :
    {q | gc.Reachable q}.ncard = (reached gc L).length := by
  classical
  refine ncard_of_list (h.all.nodup.filter _) fun q => ?_
  rw [reached, List.mem_filter, decide_eq_true_iff]
  exact ⟨fun hq => ⟨h.reachable_mem hq, hq⟩, fun hq => hq.2⟩

/-- The nodes that go are the ones no root reaches. -/
theorem freed_ncard {gc gc' : PonGcState} {L : List Ptr} (h : AtRest gc L) {n : ℕ}
    (hrun : ∀ fuel, L.length < fuel → ponGcMarkSweep fuel gc = some (gc', n)) :
    {q | gc.Allocated q ∧ ¬ gc'.Allocated q}.ncard = (unreached gc L).length := by
  classical
  obtain ⟨g, L', k, hrun', hexact⟩ := markSweep_exact h.toWellFormed h.white h.queue
  have heq := hrun' (L.length + 1) (Nat.lt_succ_self _)
  rw [hrun (L.length + 1) (Nat.lt_succ_self _)] at heq
  obtain ⟨rfl, -⟩ := Prod.mk.inj (Option.some.inj heq)
  refine ncard_of_list (h.all.nodup.filter _) fun q => ?_
  rw [unreached, List.mem_filter, decide_eq_true_iff, h.all.mem_iff]
  refine and_congr_right fun ha => not_congr ((hexact.freed q).trans ?_)
  exact and_iff_right ha

/-- `live` is zero in every report, and right only where no root is registered. -/
theorem Reports.no_root {p p' : Proc} {m : CollectMap} {L : List Ptr} (hrep : Reports p p' m)
    (hinv : ProcInv p L) (hlive : m.live = 0) : p.gc.roots = [] := by
  have hreached : (reached p.gc L).length = 0 := by
    rw [← reached_ncard hinv.rest, ← hrep.live, hlive]
  have hroot := (reached_nil_iff hinv.rest).mp (List.eq_nil_of_length_eq_zero hreached)
  refine List.eq_nil_iff_forall_not_mem.mpr fun r hr => ?_
  cases r with
  | none => exact hinv.roots hr
  | some q => exact hroot q hr

/-- **`pon_gc_collect/0`** returns in every state a process comes to, and reports the cycle it
ran exactly if no root is registered. -/
theorem collect_reports_iff {p : Proc} (h : bifSystem.Reach p) :
    ∃ m p' N, (∀ fuel, N ≤ fuel → ponGcCollect fuel p = some (m, p')) ∧
      (Reports p p' m ↔ p.gc.roots = []) := by
  obtain ⟨L, hinv⟩ := procInv_of_reach h
  obtain ⟨m, p', L', hrun, -, hcollected, hlive, htotal, hsent, hscans, hstats, hscan, hnotify⟩ :=
    hinv.collect
  refine ⟨m, p', L.length + 1, fun fuel hf => (hrun fuel hf).1,
    fun hrep => hrep.no_root hinv hlive, fun hnil => ?_⟩
  have hreached : reached p.gc L = [] := by
    refine (reached_nil_iff hinv.rest).mpr fun q hq => ?_
    rw [Root, hnil] at hq
    cases hq
  obtain ⟨hq₁, hq₂⟩ := hinv.quiet hnil
  have hsplit := length_reached p.gc L
  have hall := hinv.rest.all.total
  rw [hreached, List.length_nil] at hsplit
  refine ⟨?_, ?_, ?_, ?_, ?_, ?_⟩
  · rw [reached_ncard hinv.rest, hlive, hreached, List.length_nil]
  · rw [hcollected, freed_ncard hinv.rest fun fuel hf => (hrun fuel hf).2]
  · rw [hlive, htotal]
    omega
  · rw [hsent, hq₁, Nat.zero_add]
  · rw [hscans, hq₂, Nat.zero_add]
  · rw [hstats, hq₁, Nat.add_zero]

/-- The process after `pon_gc_register_objects([8, 16])`. -/
def twoObjects : Proc :=
  (ponGcRegisterObjects inOrder (.cons (.small 8) (.cons (.small 16) .nil)) freshProc).2

/-- After `pon_gc_add_ref(0, 1)`. -/
def twoLinked : Proc :=
  ((ponGcAddRefBif (.small 0) (.small 1) twoObjects).getD (.badarg, freshProc)).2

/-- And after a collection, which frees both. -/
def collectedOnce : Proc := ((ponGcCollect 3 twoLinked).getD (collectMap ponGcInit 0, freshProc)).2

/-- Addresses behind those of the two objects. -/
def behind : Supply := ⟨fun i => i + 2, fun i => i + 2⟩

theorem behind_free : behind.Free collectedOnce.gc := by
  refine ⟨?_, fun i j h => Nat.add_right_cancel h⟩
  rintro i ⟨n, hn⟩
  have hnone : collectedOnce.gc.mem (i + 2) = none := rfl
  cases hnone.symm.trans hn

/-- Three more objects. -/
def threeMore : Proc :=
  (ponGcRegisterObjects behind (.cons (.small 24) (.cons (.small 0) (.cons (.small 8) .nil)))
    collectedOnce).2

theorem threeMore_reach : bifSystem.Reach threeMore := by
  have h₀ : bifSystem.Reach freshProc := .start rfl
  have h₁ : bifSystem.Reach twoObjects :=
    h₀.next (a := (.registerObjects inOrder (.cons (.small 8) (.cons (.small 16) .nil)), _))
      (BifStep.registerObjects inOrder_free)
  have h₂ : bifSystem.Reach twoLinked :=
    h₁.next (a := (.addRef (.small 0) (.small 1), .bool true)) (BifStep.addRef rfl)
  have h₃ : bifSystem.Reach collectedOnce :=
    h₂.next (a := (.collect, .map (collectMap collectedOnce.gc 2)))
      (@BifStep.collect twoLinked collectedOnce 3 _ rfl)
  exact h₃.next (a := (.registerObjects behind
    (.cons (.small 24) (.cons (.small 0) (.cons (.small 8) .nil))), _))
    (BifStep.registerObjects behind_free)

/-- **The second cycle** of a process without a root: three objects go, and the report is that
of the cycle. -/
theorem threeMore_reports :
    threeMore.gc.cycles = 1 ∧ threeMore.gc.totalNodes = 3 ∧
      (ponGcCollect 4 threeMore).map (fun r => (r.1.collected, r.1.live, r.1.total, r.1.cycles)) =
        some (3, 0, 0, 2) ∧
      ∃ m p' N, (∀ fuel, N ≤ fuel → ponGcCollect fuel threeMore = some (m, p')) ∧
        Reports threeMore p' m := by
  obtain ⟨m, p', N, hrun, hiff⟩ := collect_reports_iff threeMore_reach
  exact ⟨rfl, rfl, rfl, m, p', N, hrun, hiff.mpr rfl⟩

/-! ## A collection with a root -/

/-- The process after `pon_gc_register_objects([8])`. -/
def oneObject : Proc := (ponGcRegisterObjects inOrder (.cons (.small 8) .nil) freshProc).2

/-- And after `pon_gc_add_root(0)`. -/
def oneObjectRooted : Proc := (ponGcAddRootBif (.small 0) oneObject).2

theorem oneObjectRooted_reach : bifSystem.Reach oneObjectRooted := by
  have h₀ : bifSystem.Reach freshProc := .start rfl
  have h₁ : bifSystem.Reach oneObject :=
    h₀.next (a := (.registerObjects inOrder (.cons (.small 8) .nil), _))
      (BifStep.registerObjects inOrder_free)
  exact h₁.next (a := (.addRoot (.small 0), _)) BifStep.addRoot

/-- **A wrong report**: `live` is 0 although the object is reachable, and stays. -/
theorem oneObjectRooted_misreported :
    ∃ m p', bifSystem.Reach oneObjectRooted ∧ ponGcCollect 3 oneObjectRooted = some (m, p') ∧
      m.live = 0 ∧ m.total = 1 ∧ oneObjectRooted.gc.roots = [some 0] ∧
      ¬ Reports oneObjectRooted p' m := by
  obtain ⟨L, hinv⟩ := procInv_of_reach oneObjectRooted_reach
  obtain ⟨r, hr⟩ : ∃ r, ponGcCollect 3 oneObjectRooted = some r := ⟨_, rfl⟩
  obtain ⟨m, p'⟩ := r
  have hcounts : (ponGcCollect 3 oneObjectRooted).map (fun r => (r.1.live, r.1.total))
      = some (0, 1) := rfl
  rw [hr] at hcounts
  obtain ⟨hlive, htotal⟩ := Prod.mk.inj (Option.some.inj hcounts)
  refine ⟨m, p', oneObjectRooted_reach, hr, hlive, htotal, rfl, fun hrep => ?_⟩
  cases hrep.no_root hinv hlive

end PonBeam.Gc
