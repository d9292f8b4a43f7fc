import PonBeam.Gc.Safety
import Mathlib.Data.List.Dedup
import Mathlib.Data.List.ReduceOption

/-!
# The accounting of a cycle

`live_nodes`, `notifications_sent` and `scan_count` are bumped in three helpers while the
queue deduplicates by colour. Each of them is balanced against a count of colours over the
all-nodes list: a node that is notified is one WHITE node less, a node that is scanned is
one more BLACK one (`Balanced`). What a mark has counted can then be read off the colours
it leaves (`ponGcMark_counts`), and what a sweep has counted off the colours it finds
(`ponGcSweep_counts`).
-/

namespace PonBeam.Gc

open PonGcState

/-! ## Counting colours -/

/-- How many nodes of `L` are WHITE. -/
def whites (gc : PonGcState) (L : List Ptr) : ℕ := L.countP fun p => gc.color p = .white

/-- A count that one element leaves. -/
theorem countP_lose {α : Type} {L : List α} {p : α} {P P' : α → Bool} (hnd : L.Nodup) (hp : p ∈ L)
    (h : P p = true) (h' : P' p = false) (hne : ∀ q, q ≠ p → P' q = P q) :
    L.countP P' + 1 = L.countP P := by
  obtain ⟨l₁, l₂, rfl⟩ := List.append_of_mem hp
  have hp' := (List.nodup_cons.mp (List.nodup_middle.mp hnd)).1
  rw [List.mem_append, not_or] at hp'
  have hsame : ∀ l : List α, p ∉ l → l.countP P' = l.countP P := by
    intro l hl
    refine List.countP_congr fun q hq => ?_
    rw [hne q fun he => hl (he ▸ hq)]
  rw [List.countP_append, List.countP_append, List.countP_cons_of_pos h,
    List.countP_cons_of_neg (by rw [h']; exact Bool.false_ne_true), hsame l₁ hp'.1,
    hsame l₂ hp'.2]
  omega

section Balance

variable {gc gc' gc'' : PonGcState} {L : List Ptr} {p : Ptr}

theorem whites_congr (h : ∀ q ∈ L, (gc'.color q = .white ↔ gc.color q = .white)) :
    whites gc' L = whites gc L :=
  List.countP_congr fun q hq => by simpa using h q hq

theorem unscanned_congr (h : ∀ q ∈ L, (gc'.color q = .black ↔ gc.color q = .black)) :
    unscanned gc' L = unscanned gc L :=
  List.countP_congr fun q hq => by simpa using not_congr (h q hq)

/-- What a step of the mark does to the counters: a node more is live for each WHITE node
less, and a node more is scanned for each node that turns BLACK. -/
structure Balanced (L : List Ptr) (gc gc' : PonGcState) : Prop where
  /-- `live_nodes` -/
  live : gc'.liveNodes + whites gc' L = gc.liveNodes + whites gc L
  /-- `scan_count` -/
  scan : gc'.scanCount + unscanned gc' L = gc.scanCount + unscanned gc L

theorem Balanced.trans (h₁ : Balanced L gc gc') (h₂ : Balanced L gc' gc'') :
    Balanced L gc gc'' :=
  ⟨h₂.live.trans h₁.live, h₂.scan.trans h₁.scan⟩

/-! ## The helpers of a mark -/

/-- The colour of a node does not depend on its links. -/
theorem color_setNextGray (gc : PonGcState) (p q : Ptr) (r : Option Ptr) :
    (gc.modify p (PonGcNode.setNextGray r)).color q = gc.color q := by
  by_cases ha : gc.Allocated p
  · rw [color, node_modify ha]
    split
    · next hq => rw [hq]; rfl
    · rfl
  · have hsame : gc.modify p (PonGcNode.setNextGray r) = gc := by
      have hnone : gc.mem p = none := by
        cases hm : gc.mem p with
        | none => rfl
        | some n => exact absurd ⟨n, hm⟩ ha
      have hmem : (gc.modify p (PonGcNode.setNextGray r)).mem = gc.mem := by
        funext q
        rw [mem_modify]
        split
        · next hq => rw [hq, hnone]; rfl
        · rfl
      exact congrArg (fun m => ({ gc with mem := m } : PonGcState)) hmem
    rw [hsame]

/-- What enqueueing a WHITE node does to colours and counters. -/
theorem enqueueGray_effect (ha : gc.Allocated p) (hw : gc.color p = .white) :
    (∀ q, (enqueueGray gc (some p)).color q = if q = p then .gray else gc.color q) ∧
      (enqueueGray gc (some p)).liveNodes = gc.liveNodes + 1 ∧
      (enqueueGray gc (some p)).scanCount = gc.scanCount ∧
      (enqueueGray gc (some p)).notificationsSent = gc.notificationsSent := by
  have hw' : ¬ (gc.node p).color ≠ .white := not_not.mpr hw
  set g := (gc.modify p (PonGcNode.setColor .gray)).incLiveNodes.modify p
    (PonGcNode.setNextGray none) with hg
  have hcol : ∀ q, g.color q = if q = p then .gray else gc.color q := by
    intro q
    rw [hg, color_setNextGray]
    change (gc.modify p (PonGcNode.setColor .gray)).color q = _
    rw [color, node_modify ha]
    split <;> rfl
  have hlinked : ∀ g' : PonGcState, (∀ q, g'.color q = g.color q) → g'.liveNodes = g.liveNodes →
      g'.scanCount = g.scanCount → g'.notificationsSent = g.notificationsSent →
      enqueueGray gc (some p) = (g'.setGrayTail (some p)).addGrayCount 1 →
      (∀ q, (enqueueGray gc (some p)).color q = if q = p then .gray else gc.color q) ∧
        (enqueueGray gc (some p)).liveNodes = gc.liveNodes + 1 ∧
        (enqueueGray gc (some p)).scanCount = gc.scanCount ∧
        (enqueueGray gc (some p)).notificationsSent = gc.notificationsSent := by
    intro g' hcolor hlive hscan hsent heq
    rw [heq]
    exact ⟨fun q => (hcolor q).trans (hcol q), hlive, hscan, hsent⟩
  cases htail : g.grayTail with
  | some t =>
    apply hlinked (g.modify t (PonGcNode.setNextGray (some p)))
    · exact fun q => color_setNextGray ..
    · rfl
    · rfl
    · rfl
    · simp only [enqueueGray, if_neg hw', ← hg, htail]
  | none =>
    apply hlinked (g.setGrayHead (some p)) (fun _ => rfl) rfl rfl rfl
    simp only [enqueueGray, if_neg hw', ← hg, htail]

theorem enqueueGray_balanced (hnd : L.Nodup) (hp : p ∈ L) (ha : gc.Allocated p) :
    Balanced L gc (enqueueGray gc (some p)) ∧
      (enqueueGray gc (some p)).notificationsSent = gc.notificationsSent := by
  by_cases hw : gc.color p = .white
  · obtain ⟨hcol, hlive, hscan, hsent⟩ := enqueueGray_effect ha hw
    have hlose : whites (enqueueGray gc (some p)) L + 1 = whites gc L := by
      refine countP_lose hnd hp (by simpa using hw) ?_ fun q hq => ?_
      · simp [hcol]
      · simp [hcol, hq]
    have hkeep : unscanned (enqueueGray gc (some p)) L = unscanned gc L := by
      refine unscanned_congr fun q _ => ?_
      rw [hcol]
      split
      · next hq => simp [hq, hw]
      · rfl
    exact ⟨⟨by omega, by rw [hscan, hkeep]⟩, hsent⟩
  · rw [enqueueGray_of_ne hw]
    exact ⟨⟨rfl, rfl⟩, rfl⟩

/-- Enqueueing never takes a node back. -/
theorem foldl_enqueueGray_balanced (rs : List (Option Ptr)) (hnd : L.Nodup)
    (hrs : ∀ q, some q ∈ rs → q ∈ L ∧ gc.Allocated q) :
    Balanced L gc (rs.foldl enqueueGray gc) ∧
      (rs.foldl enqueueGray gc).notificationsSent = gc.notificationsSent := by
  induction rs generalizing gc with
  | nil => exact ⟨⟨rfl, rfl⟩, rfl⟩
  | cons r rs ih =>
    have hrest : ∀ q, some q ∈ rs → q ∈ L ∧ (enqueueGray gc r).Allocated q := by
      intro q hq
      obtain ⟨hqL, hqa⟩ := hrs q (List.mem_cons_of_mem _ hq)
      exact ⟨hqL, (allocated_of_skeleton (skeleton_enqueueGray gc r)).mpr hqa⟩
    obtain ⟨hbal, hsent⟩ := ih hrest
    cases r with
    | none => exact ⟨hbal, hsent⟩
    | some p =>
      obtain ⟨hp, ha⟩ := hrs p (List.mem_cons_self ..)
      obtain ⟨hbal₀, hsent₀⟩ := enqueueGray_balanced hnd hp ha
      exact ⟨hbal₀.trans hbal, hsent.trans hsent₀⟩

/-- The count of `propagate`'s loop: one for each WHITE node that is gone. -/
theorem foldl_notifyRef_snd (rs : List (Option Ptr)) (k : ℕ) (hnd : L.Nodup)
    (hrs : ∀ q, some q ∈ rs → q ∈ L ∧ gc.Allocated q) :
    (rs.foldl notifyRef (gc, k)).2 + whites (rs.foldl enqueueGray gc) L = k + whites gc L := by
  induction rs generalizing gc k with
  | nil => rfl
  | cons r rs ih =>
    have hrest : ∀ q, some q ∈ rs → q ∈ L ∧ (enqueueGray gc r).Allocated q := by
      intro q hq
      obtain ⟨hqL, hqa⟩ := hrs q (List.mem_cons_of_mem _ hq)
      exact ⟨hqL, (allocated_of_skeleton (skeleton_enqueueGray gc r)).mpr hqa⟩
    rw [List.foldl_cons, List.foldl_cons]
    cases r with
    | none => exact ih k hrest
    | some p =>
      obtain ⟨hp, ha⟩ := hrs p (List.mem_cons_self ..)
      by_cases hw : gc.color p = .white
      · have hsent : notifyRef (gc, k) (some p) = (enqueueGray gc (some p), k + 1) := if_pos hw
        have hlive := (enqueueGray_balanced hnd hp ha).1.live
        have hinc := (enqueueGray_effect ha hw).2.1
        rw [hsent, ih (k + 1) hrest]
        omega
      · have hskip : notifyRef (gc, k) (some p) = (gc, k) := if_neg hw
        rw [hskip, enqueueGray_of_ne hw]
        rw [enqueueGray_of_ne hw] at hrest
        exact ih k hrest

/-- What one `propagate` adds to the counters. -/
theorem propagate_balanced (hnd : L.Nodup) (hp : p ∈ L) (ha : gc.Allocated p)
    (hg : gc.color p = .gray) (hrefs : ∀ q, gc.Edge p q → q ∈ L ∧ gc.Allocated q) :
    Balanced L gc (propagate gc p).1 ∧
      (propagate gc p).1.notificationsSent + whites (propagate gc p).1 L
        = gc.notificationsSent + whites gc L := by
  obtain ⟨hbal, hsent⟩ := foldl_enqueueGray_balanced (gc.node p).live hnd hrefs
  have hcount := foldl_notifyRef_snd (gc.node p).live 0 hnd hrefs
  have hskel : ((gc.node p).live.foldl enqueueGray gc).skeleton = gc.skeleton := by
    have hpropagate := @skeleton_propagate gc p
    simpa only [propagate, skeleton_countScan, skeleton_setColor, foldl_notifyRef_fst]
      using hpropagate
  set g := (gc.node p).live.foldl enqueueGray gc with hgdef
  set k := ((gc.node p).live.foldl notifyRef (gc, 0)).2 with hk
  have hga : g.Allocated p := (allocated_of_skeleton hskel).mpr ha
  have heq : (propagate gc p).1 = (g.modify p (PonGcNode.setColor .black)).countScan k := by
    simp only [propagate, foldl_notifyRef_fst, ← hgdef, ← hk]
  have hcol : ∀ q, (propagate gc p).1.color q = if q = p then .black else g.color q := by
    intro q
    rw [heq]
    change (g.modify p (PonGcNode.setColor .black)).color q = _
    rw [color, node_modify hga]
    split <;> rfl
  -- a GRAY node is not enqueued again, so it is still GRAY when it turns BLACK
  have hstill : g.color p = .gray := by
    have hfold : ∀ (rs : List (Option Ptr)) (x : PonGcState), x.color p = .gray →
        (∀ q, some q ∈ rs → x.Allocated q) → (rs.foldl enqueueGray x).color p = .gray := by
      intro rs
      induction rs with
      | nil => exact fun x hx _ => hx
      | cons r rs ih =>
        intro x hx hrs
        refine ih _ ?_ fun q hq => (allocated_of_skeleton (skeleton_enqueueGray x r)).mpr
          (hrs q (List.mem_cons_of_mem _ hq))
        cases r with
        | none => exact hx
        | some q =>
          by_cases hw : x.color q = .white
          · rw [(enqueueGray_effect (hrs q (List.mem_cons_self ..)) hw).1]
            split
            · rfl
            · exact hx
          · rw [enqueueGray_of_ne hw]
            exact hx
    exact hfold _ _ hg fun q hq => (hrefs q hq).2
  have hwhites : whites (propagate gc p).1 L = whites g L := by
    refine whites_congr fun q _ => ?_
    rw [hcol]
    split
    · next hq => simp [hq, hstill]
    · rfl
  have hblack : unscanned (propagate gc p).1 L + 1 = unscanned g L := by
    refine countP_lose hnd hp (by simp [hstill]) (by simp [hcol]) fun q hq => ?_
    simp [hcol, hq]
  have hlive' : (propagate gc p).1.liveNodes = g.liveNodes := by rw [heq]; rfl
  have hscan' : (propagate gc p).1.scanCount = g.scanCount + 1 := by rw [heq]; rfl
  have hsent' : (propagate gc p).1.notificationsSent = g.notificationsSent + k := by rw [heq]; rfl
  refine ⟨⟨?_, ?_⟩, ?_⟩
  · rw [hlive', hwhites]
    exact hbal.live
  · have hscan := hbal.scan
    omega
  · rw [hsent', hwhites, hsent]
    omega

theorem dequeueGray_counts (gc : PonGcState) :
    (dequeueGray gc).1.liveNodes = gc.liveNodes ∧ (dequeueGray gc).1.scanCount = gc.scanCount ∧
      (dequeueGray gc).1.notificationsSent = gc.notificationsSent := by
  unfold dequeueGray
  split
  · exact ⟨rfl, rfl, rfl⟩
  · dsimp only
    split <;> exact ⟨rfl, rfl, rfl⟩

end Balance

/-! ## A whole mark -/

/-- The loop's balance: `notifications_sent` too goes up with each WHITE node less. -/
theorem markLoop_balanced {gc₀ : PonGcState} {L : List Ptr} (hwf : WellFormed gc₀ L) :
    ∀ (fuel : ℕ) {gc gc' : PonGcState} {Q : List Ptr}, MarkInv gc₀ gc Q →
      markLoop fuel gc = some gc' → Balanced L gc gc' ∧
        gc'.notificationsSent + whites gc' L = gc.notificationsSent + whites gc L := by
  intro fuel
  induction fuel with
  | zero =>
    intro gc gc' Q _ hrun
    cases hrun
  | succ n ih =>
    intro gc gc' Q h hrun
    cases Q with
    | nil =>
      have hd : dequeueGray gc = (gc, none) := by
        unfold dequeueGray
        rw [show gc.grayHead = none from h.queue.links]
      rw [markLoop, hd] at hrun
      obtain rfl := Option.some.inj hrun
      exact ⟨⟨rfl, rfl⟩, rfl⟩
    | cons p Q =>
      obtain ⟨hp, -, hcol⟩ := dequeueGray_cons h.queue
      obtain ⟨new, hround, -⟩ := h.round hwf
      have hd : dequeueGray gc = ((dequeueGray gc).1, some p) := Prod.ext rfl hp
      rw [markLoop, hd] at hrun
      obtain ⟨hbal, hsent⟩ := ih hround hrun
      have hskel := (skeleton_dequeueGray gc).trans h.skel
      have hg : (dequeueGray gc).1.color p = .gray := by
        rw [hcol]
        exact (h.gray p).mpr (List.mem_cons_self ..)
      have ha : (dequeueGray gc).1.Allocated p := allocated_of_color_ne (by rw [hg]; simp)
      have hmem : ∀ q, q ∈ L ↔ (dequeueGray gc).1.Allocated q := fun q =>
        (hwf.all.mem_iff q).trans (allocated_of_skeleton hskel).symm
      have hrefs : ∀ q, (dequeueGray gc).1.Edge p q →
          q ∈ L ∧ (dequeueGray gc).1.Allocated q := by
        intro q he
        rw [edge_of_skeleton hskel] at he
        have hq := hwf.refs p q he
        exact ⟨hq, (hmem q).mp hq⟩
      obtain ⟨hbal₁, hsent₁⟩ := propagate_balanced hwf.all.nodup ((hmem p).mpr ha) ha hg hrefs
      obtain ⟨c₁, c₂, c₃⟩ := dequeueGray_counts gc
      have hw : whites (dequeueGray gc).1 L = whites gc L :=
        whites_congr fun q _ => by rw [hcol]
      have hb : unscanned (dequeueGray gc).1 L = unscanned gc L :=
        unscanned_congr fun q _ => by rw [hcol]
      have hbal₀ : Balanced L gc (dequeueGray gc).1 := ⟨by rw [c₁, hw], by rw [c₂, hb]⟩
      refine ⟨(hbal₀.trans hbal₁).trans hbal, hsent.trans (hsent₁.trans ?_)⟩
      rw [c₃, hw]

/-- The balance of a whole mark. -/
theorem ponGcMark_balanced {gc g : PonGcState} {L : List Ptr} (hwf : WellFormed gc L)
    (hu : Unmarked gc) {fuel live : ℕ} (hrun : ponGcMark fuel gc = some (g, live)) :
    Balanced L gc g ∧ live = g.liveNodes ∧ g.notificationsSent + whites g L
      = gc.notificationsSent + whites (gc.roots.foldl enqueueGray gc) L := by
  obtain ⟨Q, hinv, -⟩ := MarkInv.start hwf hu
  obtain ⟨hbal₀, hsent₀⟩ := foldl_enqueueGray_balanced gc.roots hwf.all.nodup
    fun q hq => ⟨hwf.roots q hq, (hwf.all.mem_iff q).mp (hwf.roots q hq)⟩
  unfold ponGcMark at hrun
  split at hrun
  · cases hrun
  · next x hloop =>
    obtain ⟨rfl, rfl⟩ := Prod.mk.inj (Option.some.inj hrun)
    obtain ⟨hbal, hsent⟩ := markLoop_balanced hwf fuel hinv hloop
    obtain ⟨hlive, hscan⟩ := hbal₀.trans hbal
    rw [hsent₀] at hsent
    exact ⟨⟨hlive, hscan⟩, rfl, hsent⟩

/-- **A heap graph**: well formed, and `live_nodes` counts the nodes that are not WHITE. -/
structure HeapGraph (gc : PonGcState) (L : List Ptr) : Prop extends WellFormed gc L where
  /-- `live_nodes` -/
  live : gc.liveNodes + whites gc L = L.length

/-- A graph between two cycles: all nodes WHITE, and nothing queued. -/
structure AtRest (gc : PonGcState) (L : List Ptr) : Prop extends HeapGraph gc L where
  /-- all nodes are WHITE -/
  white : ∀ p ∈ L, gc.color p = .white
  /-- the gray queue is empty -/
  queue : GrayQueue gc []

theorem AtRest.liveNodes_eq {gc : PonGcState} {L : List Ptr} (h : AtRest gc L) :
    gc.liveNodes = 0 := by
  have hall : whites gc L = L.length :=
    List.countP_eq_length.mpr fun p hp => by simpa using h.white p hp
  have hlive := h.live
  omega

open Classical in
/-- The nodes of `L` that the roots reach. -/
noncomputable def reached (gc : PonGcState) (L : List Ptr) : List Ptr :=
  L.filter fun p => gc.Reachable p

open Classical in
/-- The nodes of `L` that no root reaches. -/
noncomputable def unreached (gc : PonGcState) (L : List Ptr) : List Ptr :=
  L.filter fun p => ¬ gc.Reachable p

theorem length_reached (gc : PonGcState) (L : List Ptr) :
    (reached gc L).length + (unreached gc L).length = L.length := by
  classical
  have hsplit := List.length_eq_length_filter_add (fun p => decide (gc.Reachable p)) (l := L)
  simpa [reached, unreached] using hsplit.symm

/-- The distinct roots. -/
def distinctRoots (gc : PonGcState) : List Ptr := gc.roots.reduceOption.dedup

/-- The roots are notified first: they are what is not WHITE any more. -/
theorem whites_roots {gc : PonGcState} {L : List Ptr} (h : AtRest gc L) :
    whites (gc.roots.foldl enqueueGray gc) L + (distinctRoots gc).length = L.length := by
  obtain ⟨new, -, hnew, hcol, -⟩ := foldl_enqueueGray gc.roots h.queue (by simp)
    fun q hq => (h.all.mem_iff q).mp (h.roots q hq)
  have hw := h.white_of_list h.white
  have hroots : (L.filter fun p => decide (some p ∈ gc.roots)).length
      = (distinctRoots gc).length := by
    refine List.Perm.length_eq ((List.perm_ext_iff_of_nodup (h.all.nodup.filter _)
      (List.nodup_dedup _)).mpr fun p => ?_)
    rw [List.mem_dedup, List.reduceOption_mem_iff, List.mem_filter, decide_eq_true_iff]
    exact ⟨fun hp => hp.2, fun hp => ⟨h.roots p hp, hp⟩⟩
  have hwhites : whites (gc.roots.foldl enqueueGray gc) L
      = L.countP fun p => !decide (some p ∈ gc.roots) := by
    refine List.countP_congr fun p _ => ?_
    have hmem : p ∈ new ↔ some p ∈ gc.roots :=
      (hnew p).trans ⟨fun hp => hp.2, fun hp => ⟨hw p, hp⟩⟩
    rw [hcol, hw]
    by_cases hp : some p ∈ gc.roots
    · simp [hp, hmem.mpr hp]
    · simp [hp, mt hmem.mp hp]
  rw [← hroots, hwhites, ← List.countP_eq_length_filter,
    List.length_eq_countP_add_countP (fun p => decide (some p ∈ gc.roots)) (l := L)]
  simp only [decide_not, Bool.decide_eq_true]
  omega

/-- The colours a mark leaves: BLACK what the roots reach, WHITE the rest. -/
theorem AtRest.marked {gc g : PonGcState} {L : List Ptr} (h : AtRest gc L) {fuel live : ℕ}
    (hrun : ponGcMark fuel gc = some (g, live)) :
    g.skeleton = gc.skeleton ∧ Unmarked g ∧ (∀ p, g.color p = .black ↔ gc.Reachable p) ∧
      ∀ p, g.color p = .white ↔ ¬ gc.Reachable p := by
  have hw := h.white_of_list h.white
  obtain ⟨g', n, hrun', hskel, hug, hblack⟩ :=
    ponGcMark_spec h.toWellFormed (Unmarked.of_white hw h.queue) (Nat.lt_succ_self L.length)
  have heq : some (g, live) = some (g', n) := by
    rw [← ponGcMark_mono (Nat.le_max_left fuel (L.length + 1)) hrun,
      ponGcMark_mono (Nat.le_max_right fuel (L.length + 1)) hrun']
  obtain ⟨rfl, rfl⟩ := Prod.mk.inj (Option.some.inj heq)
  have hreach : ∀ p, g.color p = .black ↔ gc.Reachable p := by
    intro p
    rw [hblack, hw]
    simp
  refine ⟨hskel, hug, hreach, fun p => ?_⟩
  rw [← hreach]
  have hng := hug.noGray p
  cases hc : g.color p
  · simp
  · exact absurd hc hng
  · simp

/-- **What a mark counts**: the nodes that the roots reach, as live and as scanned, and the
ones among them that are no roots as notified. -/
theorem ponGcMark_counts {gc g : PonGcState} {L : List Ptr} (h : AtRest gc L) {fuel live : ℕ}
    (hrun : ponGcMark fuel gc = some (g, live)) :
    live = (reached gc L).length ∧ g.scanCount = gc.scanCount + (reached gc L).length ∧
      g.notificationsSent + (distinctRoots gc).length
        = gc.notificationsSent + (reached gc L).length := by
  have hw := h.white_of_list h.white
  obtain ⟨⟨hlive, hscan⟩, hans, hsent⟩ :=
    ponGcMark_balanced h.toWellFormed (Unmarked.of_white hw h.queue) hrun
  obtain ⟨-, -, hblack, hwhite⟩ := h.marked hrun
  have hstart : whites gc L = L.length :=
    List.countP_eq_length.mpr fun p hp => by simpa using h.white p hp
  have hstart' : unscanned gc L = L.length :=
    List.countP_eq_length.mpr fun p hp => by rw [h.white p hp]; rfl
  have hwhites : whites g L = (unreached gc L).length := by
    classical
    rw [unreached, ← List.countP_eq_length_filter]
    exact List.countP_congr fun p _ => by simpa using hwhite p
  have hleft : unscanned g L = (unreached gc L).length := by
    classical
    rw [unreached, ← List.countP_eq_length_filter]
    exact List.countP_congr fun p _ => by simpa using not_congr (hblack p)
  have hzero := h.liveNodes_eq
  have hroots := whites_roots h
  have hsplit := length_reached gc L
  refine ⟨?_, ?_, ?_⟩
  · omega
  · omega
  · omega

/-! ## A whole sweep -/

theorem bytesFreed_free (gc : PonGcState) (p : Ptr) :
    (ponGcNodeFree gc p).bytesFreed = gc.bytesFreed := by
  simp only [ponGcNodeFree]
  split <;> split <;> split <;> rfl

/-- The sizes of the WHITE nodes of `B` add up in `bytes_freed`. -/
theorem sweepLoop_bytes {gc₀ : PonGcState} :
    ∀ (B : List Ptr) (fuel : ℕ) {gc gc' : PonGcState} {A : List Ptr}, SweepInv gc₀ gc A B →
      sweepLoop fuel gc B.head? = some gc' → gc'.bytesFreed = gc.bytesFreed
        + ((B.filter fun p => gc₀.color p = .white).map fun p => (gc₀.node p).dataSize).sum := by
  intro B
  induction B with
  | nil =>
    intro fuel gc gc' A _ hrun
    cases fuel with
    | zero => cases hrun
    | succ n =>
      obtain rfl := Option.some.inj hrun
      rfl
  | cons p B ih =>
    intro fuel gc gc' A h hrun
    cases fuel with
    | zero => cases hrun
    | succ n =>
      have hnext : (gc.node p).nextAll = B.head? := h.all.next_eq
      rw [List.head?_cons, sweepLoop, hnext] at hrun
      have hcol : gc.color p = gc₀.color p := h.ahead p (List.mem_cons_self ..)
      by_cases hw : gc₀.color p = .white
      · have hsize : (gc.node p).dataSize = (gc₀.node p).dataSize :=
          (congrArg PonGcNode.dataSize (h.content p (by simp)) :)
        have hbytes : (sweepNode gc p).bytesFreed = gc.bytesFreed + (gc₀.node p).dataSize := by
          have hw' : (gc.node p).color = .white := hcol.trans hw
          rw [sweepNode, if_pos hw', bytesFreed_free, ← hsize]
          rfl
        rw [ih n (h.step.1 hw).1 hrun, hbytes, List.filter_cons_of_pos (by simpa using hw),
          List.map_cons, List.sum_cons, Nat.add_assoc]
      · have hbytes : (sweepNode gc p).bytesFreed = gc.bytesFreed := by
          have hw' : ¬ (gc.node p).color = .white := fun hc => hw (hcol.symm.trans hc)
          rw [sweepNode, if_neg hw']
          rfl
        rw [ih n (h.step.2 hw).1 hrun, hbytes, List.filter_cons_of_neg (by simpa using hw)]

/-- **What a sweep counts**: the WHITE nodes and their sizes, and the nodes that are left. -/
theorem ponGcSweep_counts {gc gc' : PonGcState} {L : List Ptr} (hwf : WellFormed gc L)
    {fuel freed : ℕ} (hrun : ponGcSweep fuel gc = some (gc', freed)) :
    gc'.deadNodes = (L.filter fun p => gc.color p = .white).length ∧
      gc'.bytesFreed
        = ((L.filter fun p => gc.color p = .white).map fun p => (gc.node p).dataSize).sum ∧
      freed = gc'.bytesFreed ∧ gc'.totalNodes + gc'.deadNodes = gc.totalNodes ∧
      gc'.liveNodes = 0 := by
  obtain ⟨g, n, hrun', hinv, hdead⟩ := ponGcSweep_spec hwf (Nat.lt_succ_self L.length)
  have heq : some (gc', freed) = some (g, n) := by
    rw [← ponGcSweep_mono (Nat.le_max_left fuel (L.length + 1)) hrun,
      ponGcSweep_mono (Nat.le_max_right fuel (L.length + 1)) hrun']
  obtain ⟨rfl, rfl⟩ := Prod.mk.inj (Option.some.inj heq)
  have hstart : SweepInv gc (gc.setDead 0 0) [] L :=
    ⟨⟨hwf.all.next, hwf.all.prev, hwf.all.nodup, hwf.all.mem_iff, hwf.all.total⟩, by simp,
      fun p _ => rfl, fun p _ => rfl, fun p hp => (hwf.byId p hp).2, rfl, rfl, rfl, rfl, rfl, rfl⟩
  have hlen : gc'.totalNodes = (L.filter fun p => gc.color p ≠ .white).length :=
    hinv.all.total.trans (by rw [List.append_nil])
  rw [← List.countP_eq_length_filter] at hlen
  have hsplit := List.length_eq_countP_add_countP (fun p => decide (gc.color p = .white)) (l := L)
  have hneg : (L.countP fun p => decide (gc.color p ≠ .white))
      = L.countP fun p => decide ¬ decide (gc.color p = .white) = true :=
    List.countP_congr fun p _ => by simp
  have htotal := hwf.all.total
  unfold ponGcSweep at hrun
  split at hrun
  · cases hrun
  · next x hloop =>
    obtain ⟨rfl, rfl⟩ := Prod.mk.inj (Option.some.inj hrun)
    rw [hwf.all.next.head_eq] at hloop
    have hbytes := sweepLoop_bytes L fuel hstart hloop
    refine ⟨?_, hbytes.trans (Nat.zero_add _), rfl, ?_, rfl⟩
    · rw [hdead, List.countP_eq_length_filter]
    · rw [hlen, hdead]
      omega

/-- The sweep of a marked graph leaves a graph at rest. -/
theorem AtRest.of_sweep {gc gc' : PonGcState} {L : List Ptr} (hwf : WellFormed gc L)
    (hu : Unmarked gc) (hroot : ∀ p, gc.Root p → gc.color p ≠ .white) {fuel freed : ℕ}
    (hrun : ponGcSweep fuel gc = some (gc', freed)) :
    ∃ L', AtRest gc' L' ∧ L'.length ≤ L.length ∧ ∀ p, p ∈ L' ↔ p ∈ L ∧ gc.color p ≠ .white := by
  obtain ⟨⟨L', hwf', hu'⟩, -⟩ := sweep_closed hwf hu hroot hrun
  obtain ⟨-, -, -, htotal, hzero⟩ := ponGcSweep_counts hwf hrun
  obtain ⟨g, n, hrun', hinv, -⟩ := ponGcSweep_spec hwf (Nat.lt_succ_self L.length)
  have heq : some (gc', freed) = some (g, n) := by
    rw [← ponGcSweep_mono (Nat.le_max_left fuel (L.length + 1)) hrun,
      ponGcSweep_mono (Nat.le_max_right fuel (L.length + 1)) hrun']
  obtain ⟨rfl, rfl⟩ := Prod.mk.inj (Option.some.inj heq)
  have hmem : ∀ p, p ∈ L' ↔ p ∈ L.filter fun p => gc.color p ≠ .white := by
    intro p
    have hall := hinv.all.mem_iff p
    rw [List.append_nil] at hall
    exact (hwf'.all.mem_iff p).trans hall.symm
  have hwhite : ∀ p ∈ L', gc'.color p = .white := fun p hp => hinv.white p ((hmem p).mp hp)
  have hall : whites gc' L' = L'.length :=
    List.countP_eq_length.mpr fun p hp => by simpa using hwhite p hp
  refine ⟨L', ⟨⟨hwf', by rw [hall, hzero, Nat.zero_add]⟩, hwhite, hu'.queue⟩, ?_, fun p => ?_⟩
  · have h₁ := hwf.all.total
    have h₂ := hwf'.all.total
    omega
  · rw [hmem, List.mem_filter, decide_eq_true_iff]

/-! ## `live_nodes` along a run -/

/-- A call that moves neither the nodes nor the colours nor `live_nodes`. -/
theorem HeapGraph.congr {gc gc' : PonGcState} {L : List Ptr} (h : HeapGraph gc L)
    (hwf : WellFormed gc' L) (hcol : ∀ p, gc'.color p = gc.color p)
    (hlive : gc'.liveNodes = gc.liveNodes) : HeapGraph gc' L := by
  have hsame : whites gc' L = whites gc L := whites_congr fun q _ => by rw [hcol]
  exact ⟨hwf, by rw [hlive, hsame, h.live]⟩

theorem HeapGraph.create {gc : PonGcState} {L : List Ptr} (h : HeapGraph gc L) {p : Ptr}
    (hp : ¬ gc.Allocated p) (data : Option ℕ) (size : ℕ) :
    HeapGraph (ponGcNodeCreate gc p data size) (p :: L) := by
  have hwf := h.toWellFormed
  have hcol := @color_create _ _ _ data size hwf hp
  have hlive : (ponGcNodeCreate gc p data size).liveNodes = gc.liveNodes := by
    simp only [ponGcNodeCreate]
    split <;> split <;> rfl
  have hwhite : (ponGcNodeCreate gc p data size).color p = .white := by
    rw [hcol, color, node_of_not_allocated hp]
    rfl
  have hrest : whites (ponGcNodeCreate gc p data size) L = whites gc L :=
    whites_congr fun q _ => by rw [hcol]
  refine ⟨hwf.create hp, ?_⟩
  have hcons : whites (ponGcNodeCreate gc p data size) (p :: L)
      = whites (ponGcNodeCreate gc p data size) L + 1 :=
    List.countP_cons_of_pos (by simpa using hwhite)
  have hold := h.live
  rw [hcons, hrest, hlive, List.length_cons]
  omega

theorem HeapGraph.mark {gc g : PonGcState} {L : List Ptr} (h : HeapGraph gc L) (hu : Unmarked gc)
    {fuel live : ℕ} (hrun : ponGcMark fuel gc = some (g, live)) : HeapGraph g L := by
  obtain ⟨⟨hlive, -⟩, -⟩ := ponGcMark_balanced h.toWellFormed hu hrun
  exact ⟨(mark_closed h.toWellFormed hu hrun).1, hlive.trans h.live⟩

/-- One call keeps the count. -/
theorem HeapGraph.step {s s' : GcRun} {op : GcOp} {L : List Ptr} (h : HeapGraph s.gc L)
    (hu : Unmarked s.gc) (hbar : Barrier s op) (hstep : GcStep s op s') :
    ∃ L', HeapGraph s'.gc L' := by
  have hwf := h.toWellFormed
  cases hstep with
  | create hp => exact ⟨_, h.create hp _ _⟩
  | @addRef frm tgt gc' hf ht hrun =>
    rcases frm with _ | f
    · obtain rfl := Option.some.inj hrun
      exact ⟨L, h⟩
    · rcases tgt with _ | t
      · obtain rfl := Option.some.inj hrun
        exact ⟨L, h⟩
      · obtain ⟨n, rfl, -⟩ := addRef_eq hrun
        exact ⟨L, h.congr (hwf.addRef (hf f rfl) (ht t rfl) hrun)
          (addRef_frame (hf f rfl) hrun).1 rfl⟩
  | @removeRef frm tgt hf =>
    rcases frm with _ | f
    · exact ⟨L, h⟩
    · obtain ⟨hwf', -, hcol, -⟩ := removeRef_spec hwf (hf f rfl) tgt
      refine ⟨L, h.congr hwf' hcol ?_⟩
      rcases removeRef_eq s.gc f tgt with heq | ⟨g, heq, -⟩
      · rw [heq]
      · rw [heq]
        rfl
  | @addRoot root hr =>
    rcases root with _ | r
    · exact ⟨L, h⟩
    · obtain ⟨cap, heq⟩ := addRoot_eq s.gc r
      refine ⟨L, h.congr (hwf.addRoot (hr r rfl)) (fun p => ?_) ?_⟩
      · rw [heq]
        rfl
      · rw [heq]
  | mark hrun => exact ⟨L, h.mark hu hrun⟩
  | step hrun =>
    obtain rfl := ponGcStep_of_empty hu hrun
    exact ⟨L, h⟩
  | sweep _ hrun =>
    obtain ⟨L', hrest, -⟩ := AtRest.of_sweep hwf hu hbar hrun
    exact ⟨L', hrest.toHeapGraph⟩
  | @markSweep fuel dead gc' hrun =>
    unfold ponGcMarkSweep at hrun
    split at hrun
    · cases hrun
    · next g k hmark =>
      split at hrun
      · cases hrun
      · next g' b hsweep =>
        obtain ⟨rfl, -⟩ := Prod.mk.inj (Option.some.inj hrun)
        obtain ⟨hwfg, hug, hskel, hblack⟩ := mark_closed hwf hu hmark
        have hroot : ∀ p, g.Root p → g.color p ≠ .white := by
          intro p hp
          rw [Root, roots_of_skeleton hskel] at hp
          rw [hblack p (TriColor.Reachable.of_root hp)]
          simp
        obtain ⟨L', hrest, -⟩ := AtRest.of_sweep hwfg hug hroot hsweep
        exact ⟨L', hrest.toHeapGraph⟩
  | @reset fuel gc' hrun =>
    obtain ⟨g, hrun', hwf', -, hwhite, -⟩ := ponGcReset_spec hwf (Nat.lt_succ_self L.length)
    have heq : some gc' = some g := by
      rw [← ponGcReset_mono (Nat.le_max_left fuel (L.length + 1)) hrun,
        ponGcReset_mono (Nat.le_max_right fuel (L.length + 1)) hrun']
    obtain rfl := Option.some.inj heq
    have hlive : gc'.liveNodes = 0 := by
      unfold ponGcReset at hrun
      split at hrun
      · cases hrun
      · obtain rfl := Option.some.inj hrun
        rfl
    have hall : whites gc' L = L.length :=
      List.countP_eq_length.mpr fun p _ => by simpa using hwhite p
    exact ⟨L, hwf', by rw [hlive, hall, Nat.zero_add]⟩

/-- **Every run** that meets `Barrier` goes through heap graphs. -/
theorem heapGraph_of_reach {s : GcRun} (h : (gcSystem.restrict Barrier).Reach s) :
    ∃ L, HeapGraph s.gc L := by
  have hboth : GcInv s ∧ ∃ L, HeapGraph s.gc L := by
    refine h.invariant (I := fun s => GcInv s ∧ ∃ L, HeapGraph s.gc L) ?_ ?_
    · rintro s rfl
      exact ⟨gcInv_init, [], wellFormed_init, rfl⟩
    · rintro s op s' ⟨⟨L, hwf, hu⟩, L₀, hgraph⟩ ⟨hbar, hstep⟩
      exact ⟨(GcInv.step ⟨L, hwf, hu⟩ hbar hstep).1, hgraph.step hu hbar hstep⟩
  exact hboth.2

/-! ## Cycles in a row -/

/-- `n` cycles in a row, each `pon_gc_mark` and then `pon_gc_sweep`. -/
def runCycles (fuel : ℕ) : ℕ → PonGcState → Option PonGcState
  | 0, gc => some gc
  | n + 1, gc =>
    match ponGcMark fuel gc with
    | none => none
    | some (gc, _) =>
      match ponGcSweep fuel gc with
      | none => none
      | some (gc, _) => runCycles fuel n gc

/-- What a cycle has to count, on the graph `gc` of the nodes `L`: the mark answers `live`
and leaves `g`, the sweep answers `freed` and leaves `gc'`. The sizes are naturals here and
64 bits wide in the source: those of payloads that are allocated together add up to less than
`2 ^ 64`. -/
structure ExactCounts (gc : PonGcState) (L : List Ptr) (g : PonGcState) (live : ℕ)
    (gc' : PonGcState) (freed : ℕ) : Prop where
  /-- the mark answers the number of reachable nodes -/
  live : live = (reached gc L).length
  /-- and has scanned as many -/
  scans : g.scanCount = gc.scanCount + (reached gc L).length
  /-- and has notified them, but for the roots -/
  notifications : g.notificationsSent + (distinctRoots gc).length
    = gc.notificationsSent + (reached gc L).length
  /-- the sweep finds the unreachable nodes dead -/
  dead : gc'.deadNodes = (unreached gc L).length
  /-- and frees their sizes -/
  bytes : gc'.bytesFreed = ((unreached gc L).map fun p => (gc.node p).dataSize).sum
  /-- which it answers -/
  freed : freed = gc'.bytesFreed
  /-- the nodes that are left -/
  total : gc'.totalNodes = gc.totalNodes - gc'.deadNodes

/-- One cycle. -/
theorem AtRest.cycle {gc : PonGcState} {L : List Ptr} (h : AtRest gc L) :
    ∃ g live gc' freed L', (∀ fuel, L.length < fuel →
        ponGcMark fuel gc = some (g, live) ∧ ponGcSweep fuel g = some (gc', freed)) ∧
      ExactCounts gc L g live gc' freed ∧ AtRest gc' L' ∧ L'.length ≤ L.length := by
  have hw := h.white_of_list h.white
  obtain ⟨g, live, hmark, -⟩ :=
    ponGcMark_spec h.toWellFormed (Unmarked.of_white hw h.queue) (Nat.lt_succ_self L.length)
  obtain ⟨hskel, hug, hblack, hwhite⟩ := h.marked hmark
  have hwfg : WellFormed g L := h.toWellFormed.of_skeleton hskel
  obtain ⟨gc', freed, hsweep, -⟩ := ponGcSweep_spec hwfg (Nat.lt_succ_self L.length)
  have hroot : ∀ p, g.Root p → g.color p ≠ .white := by
    intro p hp
    rw [Root, roots_of_skeleton hskel] at hp
    exact fun hc => (hwhite p).mp hc (TriColor.Reachable.of_root hp)
  obtain ⟨L', hrest, hlen, -⟩ := AtRest.of_sweep hwfg hug hroot hsweep
  obtain ⟨hlive, hscan, hsent⟩ := ponGcMark_counts h hmark
  obtain ⟨hdead, hbytes, hfreed, htotal, -⟩ := ponGcSweep_counts hwfg hsweep
  have hset : (L.filter fun p => g.color p = .white) = unreached gc L := by
    classical
    exact List.filter_congr fun p _ => decide_eq_decide.mpr (hwhite p)
  have hsize : ∀ p, (g.node p).dataSize = (gc.node p).dataSize := fun p =>
    (congrArg PonGcNode.dataSize (node_of_skeleton hskel p) :)
  have hnodes : g.totalNodes = gc.totalNodes := (congrArg PonGcState.totalNodes hskel :)
  rw [hset] at hdead hbytes
  refine ⟨g, live, gc', freed, L', fun fuel hf => ⟨ponGcMark_mono hf hmark,
    ponGcSweep_mono hf hsweep⟩, ⟨hlive, hscan, hsent, hdead, ?_, hfreed, by omega⟩, hrest, hlen⟩
  rw [hbytes]
  simp only [hsize]

/-- **The accounting is exact**, in the cycle that follows any number of cycles. -/
theorem cycles_exactCounts {gc : PonGcState} {L : List Ptr} (h : AtRest gc L) (n : ℕ) :
    ∃ gcₙ Lₙ g live gc' freed, (∀ fuel, L.length < fuel → runCycles fuel n gc = some gcₙ ∧
        ponGcMark fuel gcₙ = some (g, live) ∧ ponGcSweep fuel g = some (gc', freed)) ∧
      AllNodes gcₙ Lₙ ∧ ExactCounts gcₙ Lₙ g live gc' freed := by
  induction n generalizing gc L with
  | zero =>
    obtain ⟨g, live, gc', freed, L', hrun, hcounts, -⟩ := h.cycle
    exact ⟨gc, L, g, live, gc', freed, fun fuel hf => ⟨rfl, hrun fuel hf⟩, h.all, hcounts⟩
  | succ n ih =>
    obtain ⟨g₁, live₁, gc₁, freed₁, L₁, hrun₁, -, hrest, hlen⟩ := h.cycle
    obtain ⟨gcₙ, Lₙ, g, live, gc', freed, hrun, hall, hcounts⟩ := ih hrest
    refine ⟨gcₙ, Lₙ, g, live, gc', freed, fun fuel hf => ?_, hall, hcounts⟩
    obtain ⟨hmark, hsweep⟩ := hrun₁ fuel hf
    obtain ⟨hcycles, hrest⟩ := hrun fuel (by omega)
    refine ⟨?_, hrest⟩
    simp only [runCycles, hmark, hsweep, hcycles]

/-- The heap `rootedPair` is at rest. -/
theorem rootedPair_atRest : AtRest rootedPair [2, 1] :=
  ⟨⟨rootedPair_wellFormed, rfl⟩, rootedPair_white, GrayQueue.nil rfl rfl rfl⟩

theorem rootedPair_exactCounts :
    ∃ gcₙ Lₙ g live gc' freed, (∀ fuel, 2 < fuel → runCycles fuel 1 rootedPair = some gcₙ ∧
        ponGcMark fuel gcₙ = some (g, live) ∧ ponGcSweep fuel g = some (gc', freed)) ∧
      AllNodes gcₙ Lₙ ∧ ExactCounts gcₙ Lₙ g live gc' freed :=
  cycles_exactCounts rootedPair_atRest 1

end PonBeam.Gc
