import PonBeam.Gc.Ops

/-!
# A full collection, and the incremental mark against the full one

`pon_gc_mark_sweep` on a heap whose nodes are all WHITE: what a mark followed by a
sweep leaves is collected in `ExactCollection`, and the survivors are exactly the
reachable nodes. The second half sets `pon_gc_step`, called until it answers 1,
beside one `pon_gc_mark`. A step that finds the gray queue empty answers 1 at once,
and nothing else ever puts the roots into that queue, so the two agree exactly on
the heaps without a root.
-/

namespace PonBeam.Gc

open PonGcState

/-! ## More fuel changes nothing -/

theorem markLoop_mono : ∀ {n m : ℕ} {gc gc' : PonGcState}, n ≤ m →
    markLoop n gc = some gc' → markLoop m gc = some gc' := by
  intro n
  induction n with
  | zero => intro m gc gc' _ h; cases h
  | succ n ih =>
    intro m gc gc' hle h
    obtain ⟨m, rfl⟩ : ∃ k, m = k + 1 := ⟨m - 1, by omega⟩
    rw [markLoop] at h ⊢
    split at h
    · exact h
    · exact ih (by omega) h

theorem sweepLoop_mono : ∀ {n m : ℕ} {gc gc' : PonGcState} {p : Option Ptr}, n ≤ m →
    sweepLoop n gc p = some gc' → sweepLoop m gc p = some gc' := by
  intro n
  induction n with
  | zero => intro m gc gc' p _ h; cases h
  | succ n ih =>
    intro m gc gc' p hle h
    obtain ⟨m, rfl⟩ : ∃ k, m = k + 1 := ⟨m - 1, by omega⟩
    cases p with
    | none => exact h
    | some p =>
      rw [sweepLoop] at h ⊢
      exact ih (by omega) h

theorem resetLoop_mono : ∀ {n m : ℕ} {gc gc' : PonGcState} {p : Option Ptr}, n ≤ m →
    resetLoop n gc p = some gc' → resetLoop m gc p = some gc' := by
  intro n
  induction n with
  | zero => intro m gc gc' p _ h; cases h
  | succ n ih =>
    intro m gc gc' p hle h
    obtain ⟨m, rfl⟩ : ∃ k, m = k + 1 := ⟨m - 1, by omega⟩
    cases p with
    | none => exact h
    | some p =>
      rw [resetLoop] at h ⊢
      exact ih (by omega) h

theorem ponGcMark_mono {n m : ℕ} {gc : PonGcState} {r : PonGcState × ℕ} (hle : n ≤ m)
    (h : ponGcMark n gc = some r) : ponGcMark m gc = some r := by
  unfold ponGcMark at h ⊢
  split at h
  · cases h
  · rename_i g hg
    rw [markLoop_mono hle hg]
    exact h

theorem ponGcSweep_mono {n m : ℕ} {gc : PonGcState} {r : PonGcState × ℕ} (hle : n ≤ m)
    (h : ponGcSweep n gc = some r) : ponGcSweep m gc = some r := by
  unfold ponGcSweep at h ⊢
  split at h
  · cases h
  · rename_i g hg
    rw [sweepLoop_mono hle hg]
    exact h

theorem ponGcReset_mono {n m : ℕ} {gc gc' : PonGcState} (hle : n ≤ m)
    (h : ponGcReset n gc = some gc') : ponGcReset m gc = some gc' := by
  unfold ponGcReset at h ⊢
  split at h
  · cases h
  · rename_i g hg
    rw [resetLoop_mono hle hg]
    exact h

theorem ponGcMarkSweep_mono {n m : ℕ} {gc : PonGcState} {r : PonGcState × ℕ} (hle : n ≤ m)
    (h : ponGcMarkSweep n gc = some r) : ponGcMarkSweep m gc = some r := by
  unfold ponGcMarkSweep at h ⊢
  split at h
  · cases h
  · rename_i g k hg
    rw [ponGcMark_mono hle hg]
    split at h
    · cases h
    · rename_i g' k' hg'
      rw [ponGcSweep_mono hle hg']
      exact h

/-! ## The exact collection -/

/-- What a full collection of `gc`, whose all-nodes list was `L`, has to leave: `gc'`
with the all-nodes list `L'`, after answering `n`. -/
structure ExactCollection (gc : PonGcState) (L : List Ptr) (gc' : PonGcState) (L' : List Ptr)
    (n : ℕ) : Prop where
  /-- the survivors are the list, each once and linked both ways -/
  all : AllNodes gc' L'
  /-- in their old order -/
  order : L'.Sublist L
  /-- they are the reachable nodes -/
  survivors : ∀ p, p ∈ L' ↔ p ∈ L ∧ gc.Reachable p
  /-- everything else was freed -/
  freed : ∀ p, gc'.Allocated p ↔ gc.Allocated p ∧ gc.Reachable p
  /-- the id index finds them under their id -/
  byId : ∀ p ∈ L', ponGcNodeById gc' (gc.node p).id = some p
  /-- references, payload and id are as they were -/
  kept : ∀ p ∈ L', (gc'.node p).content = (gc.node p).content
  /-- WHITE for the next cycle -/
  white : ∀ p ∈ L', gc'.color p = .white
  /-- nothing is queued -/
  queue : GrayQueue gc' []
  /-- the answer is the number of freed nodes -/
  count : n + L'.length = L.length
  /-- the roots are as they were -/
  roots : gc'.roots = gc.roots
  /-- no survivor's reference dangles -/
  refsLive : ∀ p ∈ L', ∀ q, gc'.Edge p q → gc'.Allocated q
  /-- no root dangles -/
  rootsLive : ∀ p, gc'.Root p → gc'.Allocated p

/-- A heap of WHITE nodes with nothing queued is a fine place to start a mark. -/
theorem Unmarked.of_white {gc : PonGcState} (hw : ∀ p, gc.color p = .white)
    (hq : GrayQueue gc []) : Unmarked gc where
  queue := hq
  noGray p := by rw [hw]; simp
  closed u _ hu _ := by rw [hw] at hu; cases hu

/-- WHITE on the list is WHITE everywhere: there are no other nodes. -/
theorem WellFormed.white_of_list {gc : PonGcState} {L : List Ptr} (h : WellFormed gc L)
    (hw : ∀ p ∈ L, gc.color p = .white) (p : Ptr) : gc.color p = .white := by
  by_contra hp
  exact hp (hw p ((h.all.mem_iff p).mpr (allocated_of_color_ne hp)))

/-- Reachable nodes exist. -/
theorem WellFormed.reachable_mem {gc : PonGcState} {L : List Ptr} (h : WellFormed gc L) {p : Ptr}
    (hp : gc.Reachable p) : p ∈ L :=
  TriColor.Reachable.induct h.roots (fun u w _ he => h.refs u w he) hp

/-- The sweep of a marked heap. -/
theorem ExactCollection.of_sweep {gc g gc' : PonGcState} {L : List Ptr} (hwf : WellFormed gc L)
    (hsk : g.skeleton = gc.skeleton) (hu : Unmarked g)
    (hblack : ∀ p, g.color p = .black ↔ gc.Reachable p)
    (h : SweepInv g gc' (L.filter fun p => g.color p ≠ .white) [])
    (hdead : gc'.deadNodes = L.countP fun p => g.color p = .white) :
    ExactCollection gc L gc' (L.filter fun p => g.color p ≠ .white) gc'.deadNodes := by
  set L' := L.filter fun p => g.color p ≠ .white with hL'
  have hmem : ∀ p, p ∈ L' ↔ p ∈ L ∧ gc.Reachable p := by
    intro p
    rw [hL', List.mem_filter, ← hblack p]
    have hng := hu.noGray p
    cases hc : g.color p <;> simp_all
  have hwf' : WellFormed gc' L' := by
    refine h.wellFormed (hwf.of_skeleton hsk) (fun p hp => ((hmem p).mp hp).1)
      (fun p hp q he => ?_) fun p hp => ?_
    · rw [edge_of_skeleton hsk] at he
      exact (hmem q).mpr ⟨hwf.refs p q he, ((hmem p).mp hp).2.step he⟩
    · rw [Root, roots_of_skeleton hsk] at hp
      exact (hmem p).mpr ⟨hwf.roots p hp, TriColor.Reachable.of_root hp⟩
  have hid : ∀ p, (g.node p).id = (gc.node p).id :=
    fun p => (congrArg PonGcNode.id (node_of_skeleton hsk p) :)
  have hcontent : ∀ p, (g.node p).content = (gc.node p).content :=
    fun p => (congrArg PonGcNode.content (node_of_skeleton hsk p) :)
  have hkept : ∀ p ∈ L', (gc'.node p).content = (gc.node p).content := fun p hp =>
    (h.content p (by simpa using hp)).trans (hcontent p)
  obtain ⟨f₁, -, -, f₄, f₅, f₆⟩ := h.frame
  refine ⟨hwf'.all, List.filter_sublist, hmem, fun p => ?_, fun p hp => ?_, hkept, ?_, ?_, ?_,
    f₁.trans (roots_of_skeleton hsk), fun p _ q he => ?_, fun p hp => ?_⟩
  · rw [← hwf'.all.mem_iff, hmem, hwf.all.mem_iff]
  · obtain ⟨hlt, hby⟩ := hwf'.byId p hp
    rw [← id_of_content (hkept p hp), ponGcNodeById, if_neg (by omega)]
    exact hby
  · exact h.white
  · exact GrayQueue.nil (f₄.trans hu.queue.links) (f₅.trans hu.queue.tail)
      (f₆.trans hu.queue.count)
  · have hsplit := List.length_eq_countP_add_countP (fun p => decide (g.color p = .white)) (l := L)
    have hlen : L'.length = L.countP fun p => !decide (g.color p = .white) := by
      rw [hL', ← List.countP_eq_length_filter]
      simp
    rw [hdead, hlen, hsplit]
    simp
  · exact (hwf'.all.mem_iff q).mp (hwf'.refs p q he)
  · exact (hwf'.all.mem_iff p).mp (hwf'.roots p hp)

/-- **Full collection.** On a heap graph whose nodes are all WHITE, with nothing queued,
`pon_gc_mark_sweep` terminates, and what it leaves is exact: the reachable nodes survive
untouched and in order, the others are freed and counted. -/
theorem markSweep_exact {gc : PonGcState} {L : List Ptr} (hwf : WellFormed gc L)
    (hwhite : ∀ p ∈ L, gc.color p = .white) (hqueue : GrayQueue gc []) :
    ∃ gc' L' n, (∀ fuel, L.length < fuel → ponGcMarkSweep fuel gc = some (gc', n)) ∧
      ExactCollection gc L gc' L' n := by
  have hw := hwf.white_of_list hwhite
  obtain ⟨g, k, hmark, hsk, hu, hblack⟩ :=
    ponGcMark_spec hwf (Unmarked.of_white hw hqueue) (Nat.lt_succ_self L.length)
  obtain ⟨gc', b, hsweep, hinv, hdead⟩ :=
    ponGcSweep_spec (hwf.of_skeleton hsk) (Nat.lt_succ_self L.length)
  have hblack' : ∀ p, g.color p = .black ↔ gc.Reachable p := by
    intro p
    rw [hblack, hw]
    simp
  refine ⟨gc', _, gc'.deadNodes, fun fuel hf => ponGcMarkSweep_mono hf ?_,
    ExactCollection.of_sweep hwf hsk hu hblack' hinv hdead⟩
  simp only [ponGcMarkSweep, hmark, hsweep]

/-- A heap of two nodes, the first one registered as a root. -/
def rootedPair : PonGcState :=
  ponGcAddRoot (ponGcNodeCreate (ponGcNodeCreate ponGcInit 1 none 8) 2 none 8) (some 1)

theorem rootedPair_wellFormed : WellFormed rootedPair [2, 1] := by
  have h₁ : WellFormed (ponGcNodeCreate ponGcInit 1 none 8) [1] :=
    wellFormed_init.create fun h => by simpa using (wellFormed_init.all.mem_iff 1).mpr h
  have h₂ : WellFormed (ponGcNodeCreate (ponGcNodeCreate ponGcInit 1 none 8) 2 none 8) [2, 1] :=
    h₁.create fun h => by simpa using (h₁.all.mem_iff 2).mpr h
  exact h₂.addRoot ((h₂.all.mem_iff 1).mp (by simp))

theorem rootedPair_white : ∀ p ∈ [2, 1], rootedPair.color p = .white := by decide

theorem rootedPair_exact :
    ∃ gc' L' n, (∀ fuel, 2 < fuel → ponGcMarkSweep fuel rootedPair = some (gc', n)) ∧
      ExactCollection rootedPair [2, 1] gc' L' n :=
  markSweep_exact rootedPair_wellFormed rootedPair_white (GrayQueue.nil rfl rfl rfl)

/-! ## The incremental mark -/

/-- `pon_gc_step(gc, budget i)` for `i = 0, 1, ..`, until it answers 1. The result is the
state then; there is none when `calls` calls were not enough. -/
def stepUntilDone (fuel : ℕ) (budget : ℕ → ℤ) : ℕ → ℕ → PonGcState → Option PonGcState
  | 0, _, _ => none
  | calls + 1, i, gc =>
    match ponGcStep fuel gc (budget i) with
    | none => none
    | some (gc, r) => if r = 1 then some gc else stepUntilDone fuel budget calls (i + 1) gc

/-- Incremental marking does what a full mark does: the steps come to an answer 1, with
the BLACK nodes, all of them reachable and all reachable ones, and the counters of one
`pon_gc_mark`. -/
def StepsAgreeWithMark (gc : PonGcState) : Prop :=
  ∀ budget : ℕ → ℤ, (∀ i, 0 < budget i) → ∃ N gcStep gcMark live,
    (∀ fuel calls, N ≤ fuel → N ≤ calls →
      stepUntilDone fuel budget calls 0 gc = some gcStep) ∧
    (∀ fuel, N ≤ fuel → ponGcMark fuel gc = some (gcMark, live)) ∧
    (∀ p, gcStep.color p = .black ↔ gc.Reachable p) ∧
    (∀ p, gcStep.color p = .black ↔ gcMark.color p = .black) ∧
    gcStep.liveNodes = gcMark.liveNodes ∧ gcStep.scanCount = gcMark.scanCount ∧
    gcStep.notificationsSent = gcMark.notificationsSent

/-- With nothing queued, the first step answers 1 and has done nothing. -/
theorem stepUntilDone_of_empty {gc : PonGcState} (h : gc.grayHead = none) (fuel : ℕ)
    (budget : ℕ → ℤ) (calls i : ℕ) : stepUntilDone fuel budget (calls + 1) i gc = some gc := by
  simp only [stepUntilDone, ponGcStep, h, if_true]

/-- A registered root stays WHITE under the steps: they disagree with the mark. -/
theorem not_stepsAgree_of_root {gc : PonGcState} (hwhite : ∀ p, gc.color p = .white)
    (hqueue : GrayQueue gc []) {r : Ptr} (hr : gc.Root r) : ¬ StepsAgreeWithMark gc := by
  intro h
  obtain ⟨N, gcStep, _, _, hsteps, -, hreach, -⟩ := h (fun _ => 1) fun _ => by norm_num
  have hrun := hsteps N (N + 1) (Nat.le_refl N) (Nat.le_succ N)
  rw [stepUntilDone_of_empty hqueue.links] at hrun
  obtain rfl := Option.some.inj hrun
  have hb := (hreach r).mpr (TriColor.Reachable.of_root hr)
  rw [hwhite] at hb
  cases hb

/-- Without a root there is nothing to mark, by either way. -/
theorem stepsAgree_of_no_root {gc : PonGcState} (hwhite : ∀ p, gc.color p = .white)
    (hqueue : GrayQueue gc []) (hr : ∀ p, ¬ gc.Root p) : StepsAgreeWithMark gc := by
  intro budget _
  have hunreach : ∀ p, ¬ gc.Reachable p := fun p hp =>
    TriColor.Reachable.induct (P := fun _ => False) hr (fun _ _ h _ => h) hp
  -- the roots array holds NULLs only, so the mark enqueues nothing and its loop ends at once
  have hroots : ∀ rs : List (Option Ptr), (∀ p, some p ∉ rs) → rs.foldl enqueueGray gc = gc := by
    intro rs hrs
    induction rs with
    | nil => rfl
    | cons x rs ih =>
      cases x with
      | none => exact ih fun p hp => hrs p (List.mem_cons_of_mem _ hp)
      | some p => exact absurd (List.mem_cons_self ..) (hrs p)
  have hmark : ponGcMark 1 gc = some (gc.incCycles, gc.liveNodes) := by
    have hd : dequeueGray gc = (gc, none) := by
      unfold dequeueGray
      rw [show gc.grayHead = none from hqueue.links]
    simp only [ponGcMark, hroots gc.roots hr, markLoop, hd]
  have hblack : ∀ p, gc.color p = .black ↔ gc.Reachable p := fun p => by
    rw [hwhite]
    simp [hunreach p]
  refine ⟨1, gc, gc.incCycles, gc.liveNodes, fun fuel calls _ hc => ?_,
    fun fuel hf => ponGcMark_mono hf hmark, hblack, fun _ => Iff.rfl, rfl, rfl, rfl⟩
  obtain ⟨k, rfl⟩ : ∃ k, calls = k + 1 := ⟨calls - 1, by omega⟩
  exact stepUntilDone_of_empty hqueue.links fuel budget k 0

/-- **Incremental against full.** From a heap graph whose nodes are all WHITE, with nothing
queued, the steps agree with a mark exactly when no root is registered. -/
theorem stepsAgree_iff_no_root {gc : PonGcState} {L : List Ptr} (hwf : WellFormed gc L)
    (hwhite : ∀ p ∈ L, gc.color p = .white) (hqueue : GrayQueue gc []) :
    StepsAgreeWithMark gc ↔ ∀ p, ¬ gc.Root p := by
  have hw := hwf.white_of_list hwhite
  constructor
  · intro h p hp
    exact not_stepsAgree_of_root hw hqueue hp h
  · exact stepsAgree_of_no_root hw hqueue

theorem rootedPair_stepsAgree_iff : StepsAgreeWithMark rootedPair ↔ ∀ p, ¬ rootedPair.Root p :=
  stepsAgree_iff_no_root rootedPair_wellFormed rootedPair_white (GrayQueue.nil rfl rfl rfl)

/-- The heap `rootedPair` is all WHITE with nothing queued, and there the steps answer 1
without having notified its root. -/
theorem rootedPair_steps_disagree :
    WellFormed rootedPair [2, 1] ∧ (∀ p ∈ [2, 1], rootedPair.color p = .white) ∧
      GrayQueue rootedPair [] ∧ ¬ StepsAgreeWithMark rootedPair := by
  have hq : GrayQueue rootedPair [] := GrayQueue.nil rfl rfl rfl
  refine ⟨rootedPair_wellFormed, rootedPair_white, hq, ?_⟩
  exact not_stepsAgree_of_root (rootedPair_wellFormed.white_of_list rootedPair_white) hq
    (r := 1) (List.mem_singleton.mpr rfl)

end PonBeam.Gc
