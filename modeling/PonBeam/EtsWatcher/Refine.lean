import PonBeam.EtsWatcher.Registry
import Mathlib.Algebra.Order.BigOperators.Group.Finset
import Mathlib.Tactic.Ring

/-!
# Every run of the registry is a run of the set

Each loop of `pon_ets.c` is described once: what it answers on a chain whose nodes are active
watchers, for any fuel beyond the length of the chain. The calls then act on the stored set
the way `setCall` does, and the two stay together over every run.
-/

namespace PonBeam.EtsWatcher

open PonEtsWatcherRegistry

/-! ## The loops that only read -/

section Reading

variable {reg : PonEtsWatcherRegistry} {tableId keyHash processId : UInt64}
  {a : Option Ptr} {l : List Ptr} {n : ℕ}

theorem watches_iff {w : PonEtsWatcher} (hact : w.active = true) :
    (w.tableId = tableId ∧ w.keyHash = keyHash ∧ w.processId = processId ∧ w.active) ↔
      w.triple = (tableId, keyHash, processId) := by
  simp [PonEtsWatcher.triple, hact]

/-- The scan of `pon_ets_watcher_add` finds the triple iff it is on the chain. -/
theorem addLoop_eq (hseg : Seg reg.nextOf a l none)
    (hnode : ∀ p ∈ l, ∃ w, reg.mem p = some w ∧ w.active = true) (hn : l.length < n) :
    addLoop reg tableId keyHash processId n a =
      some (decide ((tableId, keyHash, processId) ∈ l.map reg.tripleAt)) := by
  induction l generalizing a n with
  | nil =>
    obtain ⟨n, rfl⟩ := Nat.exists_eq_add_of_lt hn
    obtain rfl : a = none := hseg
    simp [addLoop]
  | cons p l ih =>
    obtain ⟨n, rfl⟩ := Nat.exists_eq_succ_of_ne_zero (Nat.ne_zero_of_lt hn)
    obtain ⟨rfl, htail⟩ := hseg
    obtain ⟨w, hw, hact⟩ := hnode p (List.mem_cons_self ..)
    rw [nextOf_eq hw] at htail
    have hrest := ih htail (fun q hq => hnode q (List.mem_cons_of_mem _ hq))
      (Nat.lt_of_succ_lt_succ hn)
    simp only [addLoop, hw, watches_iff hact, List.map_cons, List.mem_cons, tripleAt_eq hw]
    split_ifs with heq
    · simp [heq]
    · rw [hrest]
      simp [Ne.symm heq]

/-- The scan of `pon_ets_watcher_notify` counts the watchers of the key. -/
theorem notifyLoop_eq (hseg : Seg reg.nextOf a l none)
    (hnode : ∀ p ∈ l, ∃ w, reg.mem p = some w ∧ w.active = true) (hn : l.length < n) (r : ℤ) :
    notifyLoop reg tableId keyHash n a (wrapInt r) =
      some (wrapInt (r +
        ((l.map reg.tripleAt).filter fun x => x.1 = tableId ∧ x.2.1 = keyHash).length)) := by
  induction l generalizing a n r with
  | nil =>
    obtain ⟨n, rfl⟩ := Nat.exists_eq_add_of_lt hn
    obtain rfl : a = none := hseg
    simp [notifyLoop]
  | cons p l ih =>
    obtain ⟨n, rfl⟩ := Nat.exists_eq_succ_of_ne_zero (Nat.ne_zero_of_lt hn)
    obtain ⟨rfl, htail⟩ := hseg
    obtain ⟨w, hw, hact⟩ := hnode p (List.mem_cons_self ..)
    rw [nextOf_eq hw] at htail
    have hrest := fun r => ih htail (fun q hq => hnode q (List.mem_cons_of_mem _ hq))
      (Nat.lt_of_succ_lt_succ hn) r
    rw [List.map_cons, tripleAt_eq hw, List.filter_cons]
    by_cases hkey : w.tableId = tableId ∧ w.keyHash = keyHash
    · have hpos : decide (w.triple.1 = tableId ∧ w.triple.2.1 = keyHash) = true :=
        decide_eq_true hkey
      rw [hpos, if_pos rfl, List.length_cons]
      simp only [notifyLoop, hw, hact, true_and, if_pos hkey, wrapInt_succ, hrest]
      push_cast
      ring_nf
    · have hneg : decide (w.triple.1 = tableId ∧ w.triple.2.1 = keyHash) = false :=
        decide_eq_false hkey
      rw [hneg, if_neg Bool.false_ne_true]
      simp only [notifyLoop, hw, hact, true_and, if_neg hkey, hrest]

end Reading

/-! ## `pon_ets_watcher_remove` -/

section Remove

variable {reg : PonEtsWatcherRegistry} {tableId keyHash processId : UInt64}
  {bucket : Fin ponEtsWatcherBuckets} {a : Option Ptr} {l l₁ : List Ptr} {n : ℕ}

/-- The flag and the counter do not matter to the unlinking. -/
theorem deactivate_unlink_free {p : Ptr} {prev next : Option Ptr} (hprev : prev ≠ some p) :
    (((reg.deactivate p).addCount (-1)).unlink bucket prev next).free p =
      ((reg.unlink bucket prev next).free p).addCount (-1) := by
  cases prev with
  | none => simp [deactivate, addCount, unlink, setBucket, free]
  | some q =>
    have hq : q ≠ p := fun e => hprev (e ▸ rfl)
    simp [deactivate, addCount, unlink, setNext, free, Function.update_of_ne hq,
      Function.update_comm hq]

/-- The loop walks past what does not match, `prev` trailing. -/
theorem removeLoop_skip (bucket : Fin ponEtsWatcherBuckets) (l₁ : List Ptr) {b : Option Ptr}
    (hseg : Seg reg.nextOf a l b)
    (hnode : ∀ p ∈ l, ∃ w, reg.mem p = some w ∧ w.active = true)
    (hout : (tableId, keyHash, processId) ∉ l.map reg.tripleAt) :
    removeLoop reg tableId keyHash processId bucket (n + l.length) l₁.getLast? a =
      removeLoop reg tableId keyHash processId bucket n (l₁ ++ l).getLast? b := by
  induction l generalizing a l₁ with
  | nil =>
    obtain rfl : a = b := hseg
    rw [List.append_nil, List.length_nil, Nat.add_zero]
  | cons p l ih =>
    obtain ⟨rfl, htail⟩ := hseg
    obtain ⟨w, hw, hact⟩ := hnode p (List.mem_cons_self ..)
    rw [nextOf_eq hw] at htail
    rw [List.map_cons, tripleAt_eq hw, List.mem_cons, not_or] at hout
    have hrest := ih (l₁ ++ [p]) htail
      (fun q hq => hnode q (List.mem_cons_of_mem _ hq)) hout.2
    rw [List.getLast?_concat, List.append_assoc, List.singleton_append] at hrest
    rw [List.length_cons, ← Nat.add_assoc, ← hrest]
    simp only [removeLoop, hw, watches_iff hact, if_neg (Ne.symm hout.1)]

end Remove

/-! ## `pon_ets_watcher_remove_process` -/

section RemoveProcess

variable {reg : PonEtsWatcherRegistry} {chains : Fin ponEtsWatcherBuckets → List Ptr}
  {S : Finset Triple} {processId : UInt64} {i : Fin ponEtsWatcherBuckets}
  {l l₁ : List Ptr} {n : ℕ}

/-- What a bulk removal leaves: the chains hold `S'`, none has grown, the counter is as before
and `removed`, an `int` that stood for `r`, went up by what `S` lost. -/
structure Removed (reg : PonEtsWatcherRegistry)
    (chains : Fin ponEtsWatcherBuckets → List Ptr) (S S' : Finset Triple) (r : ℤ)
    (out : ℤ × PonEtsWatcherRegistry)
    (chains' : Fin ponEtsWatcherBuckets → List Ptr) : Prop where
  /-- the chains hold what is left -/
  stores : Stores out.2 chains' S'
  /-- no chain has grown -/
  length_le : ∀ j, (chains' j).length ≤ (chains j).length
  /-- `removed` counts what is gone -/
  removed : out.1 = wrapInt (r + (S.card - S'.card))
  /-- `reg->count` is not touched in the loops -/
  count : out.2.count = reg.count

theorem card_erase_cast {x : Triple} (hx : x ∈ S) :
    ((S.erase x).card : ℤ) = S.card - 1 := by
  rw [Finset.card_erase_of_mem hx, Nat.cast_sub (Finset.card_pos.mpr ⟨x, hx⟩), Nat.cast_one]

theorem unlink_free_count {p : Ptr} (prev next : Option Ptr) :
    ((reg.unlink i prev next).free p).count = reg.count := by
  cases prev <;> rfl

/-- The inner loop: of chain `l₁ ++ l`, where `l₁` was kept and the loop stands at `l`, every
watcher of the process goes. -/
theorem removeProcessChain_spec (processId : UInt64) (l₁ : List Ptr) (h : Stores reg chains S)
    (hi : chains i = l₁ ++ l)
    (hkept : ∀ q ∈ l₁, (reg.tripleAt q).2.2 ≠ processId) (r : ℤ) :
    ∃ out chains', (∀ n, l.length < n →
        removeProcessChain processId i n l₁.getLast? l.head? (wrapInt r, reg) = some out) ∧
      Removed reg chains S (S.filter fun x => ¬ (bucketOf x = i ∧ x.2.2 = processId)) r
        out chains' := by
  induction l generalizing reg chains S l₁ r with
  | nil =>
    have hall : (S.filter fun x => ¬ (bucketOf x = i ∧ x.2.2 = processId)) = S := by
      refine Finset.filter_true_of_mem fun x hx hbad => ?_
      obtain ⟨q, hq, w, hw, -, rfl⟩ := h.node_of_mem hx
      rw [hbad.1, hi, List.append_nil] at hq
      exact hkept q hq (by rw [tripleAt_eq hw]; exact hbad.2)
    refine ⟨(wrapInt r, reg), chains, fun n hn => ?_, ?_⟩
    · obtain ⟨n, rfl⟩ := Nat.exists_eq_add_of_lt hn
      simp [removeProcessChain]
    · rw [hall]
      exact ⟨h, fun _ => le_rfl, by simp, rfl⟩
  | cons p l ih =>
    have hpi : p ∈ chains i := by simp [hi]
    obtain ⟨w, hw, hact, hb⟩ := h.node i p hpi
    have hhead : w.next = l.head? := by
      have hseg := h.seg i
      rw [hi] at hseg
      obtain ⟨m, -, rfl, htail⟩ := Seg.append_iff.mp hseg
      rw [nextOf_eq hw] at htail
      exact htail.head_eq
    by_cases hpid : w.processId = processId
    · -- `w` belongs to the process: `prev` stays where it is
      have hkept' : ∀ q ∈ l₁,
          (((reg.unlink i l₁.getLast? w.next).free p).tripleAt q).2.2 ≠ processId := by
        intro q hq
        have hqp : q ≠ p := by
          rintro rfl
          have hnd := h.chain_nodup (i := i)
          rw [hi, List.nodup_append] at hnd
          exact hnd.2.2 q hq q (List.mem_cons_self ..) rfl
        rw [unlink_free_tripleAt hqp]
        exact hkept q hq
      obtain ⟨out, chains', heq, hrem⟩ :=
        ih l₁ (h.unlink hi hw) (Function.update_self ..) hkept' (r + 1)
      refine ⟨out, chains', fun n hn => ?_, ?_⟩
      · obtain ⟨n, rfl⟩ := Nat.exists_eq_succ_of_ne_zero (Nat.ne_zero_of_lt hn)
        rw [← heq n (Nat.lt_of_succ_lt_succ hn), ← hhead]
        simp only [List.head?_cons, removeProcessChain, hw, if_pos hpid, wrapInt_succ]
      · have hS : (S.erase w.triple).filter (fun x => ¬ (bucketOf x = i ∧ x.2.2 = processId)) =
            S.filter fun x => ¬ (bucketOf x = i ∧ x.2.2 = processId) := by
          rw [Finset.filter_erase, Finset.erase_eq_of_notMem]
          exact fun hm => (Finset.mem_filter.mp hm).2 ⟨hb, hpid⟩
        rw [hS] at hrem
        refine ⟨hrem.stores, fun j => (hrem.length_le j).trans ?_, ?_, ?_⟩
        · by_cases hj : j = i
          · subst hj
            simp [hi]
          · rw [Function.update_of_ne hj]
        · rw [hrem.removed, card_erase_cast (h.mem_of_node hpi hw)]
          congr 1
          ring
        · rw [hrem.count, unlink_free_count]
    · -- `w` stays and becomes `prev`
      have hkept' : ∀ q ∈ l₁ ++ [p], (reg.tripleAt q).2.2 ≠ processId := by
        intro q hq
        rcases List.mem_append.mp hq with hq | hq
        · exact hkept q hq
        · rw [List.mem_singleton.mp hq, tripleAt_eq hw]
          exact hpid
      obtain ⟨out, chains', heq, hrem⟩ :=
        ih (l₁ ++ [p]) h (by rw [hi, List.append_assoc]; rfl) hkept' r
      refine ⟨out, chains', fun n hn => ?_, hrem⟩
      obtain ⟨n, rfl⟩ := Nat.exists_eq_succ_of_ne_zero (Nat.ne_zero_of_lt hn)
      rw [← heq n (Nat.lt_of_succ_lt_succ hn), ← hhead, List.getLast?_concat]
      simp only [List.head?_cons, removeProcessChain, hw, if_neg hpid]

/-- The outer loop over the chains of `L`. -/
theorem removeProcessLoop_spec (processId : UInt64) (L : List (Fin ponEtsWatcherBuckets))
    (h : Stores reg chains S) (r : ℤ) :
    ∃ out chains', (∀ n, (∀ j, (chains j).length < n) →
        removeProcessLoop processId n L (wrapInt r, reg) = some out) ∧
      Removed reg chains S (S.filter fun x => ¬ (bucketOf x ∈ L ∧ x.2.2 = processId)) r
        out chains' := by
  induction L generalizing reg chains S r with
  | nil =>
    refine ⟨(wrapInt r, reg), chains, fun _ _ => rfl, ?_⟩
    rw [Finset.filter_true_of_mem fun x _ => by simp]
    exact ⟨h, fun _ => le_rfl, by simp, rfl⟩
  | cons i L ih =>
    obtain ⟨⟨r₁, reg₁⟩, chains₁, heq, hrem⟩ :=
      removeProcessChain_spec processId [] h rfl (by simp) r
    obtain rfl : r₁ = _ := hrem.removed
    obtain ⟨out, chains₂, heq₂, hrem₂⟩ := ih hrem.stores (r + (S.card -
      (S.filter fun x => ¬ (bucketOf x = i ∧ x.2.2 = processId)).card))
    refine ⟨out, chains₂, fun n hn => ?_, ?_⟩
    · have hchain := heq n (hn i)
      rw [List.getLast?_nil, ← (h.seg i).head_eq] at hchain
      have hrest := heq₂ n fun j => (hrem.length_le j).trans_lt (hn j)
      simp only [removeProcessLoop, hchain, hrest]
    · have hS : ((S.filter fun x => ¬ (bucketOf x = i ∧ x.2.2 = processId)).filter
          fun x => ¬ (bucketOf x ∈ L ∧ x.2.2 = processId)) =
          S.filter fun x => ¬ (bucketOf x ∈ i :: L ∧ x.2.2 = processId) := by
        rw [Finset.filter_filter]
        refine Finset.filter_congr fun x _ => ?_
        rw [List.mem_cons]
        tauto
      rw [hS] at hrem₂
      refine ⟨hrem₂.stores, fun j => (hrem₂.length_le j).trans (hrem.length_le j), ?_,
        hrem₂.count.trans hrem.count⟩
      rw [hrem₂.removed]
      congr 1
      ring

end RemoveProcess

/-! ## The calls -/

section Calls

variable {reg : PonEtsWatcherRegistry} {S : Finset Triple}

/-- Some fuel is enough for every chain. -/
theorem exists_fuel {ι : Type} [Fintype ι] (chains : ι → List Ptr) :
    ∃ n, ∀ fuel, n ≤ fuel → ∀ j, (chains j).length < fuel := by
  refine ⟨∑ j, (chains j).length + 1, fun fuel hle j => ?_⟩
  have hj : (chains j).length ≤ ∑ i, (chains i).length :=
    Finset.single_le_sum (fun i _ => Nat.zero_le (chains i).length) (Finset.mem_univ j)
  omega

theorem ponEtsWatcherAdd_spec (h : Represents reg S) {t k p : UInt64} {addr : Ptr}
    (hfree : reg.mem addr = none) :
    ∃ reg', Returns reg (.add t k p addr) (wrapInt (setCall S (.add t k p addr)).1) reg' ∧
      Represents reg' (setCall S (.add t k p addr)).2 := by
  obtain ⟨chains, hst⟩ := h.stores
  have hscan : ∀ fuel, (chains (bucketOf (t, k, p))).length < fuel →
      addLoop reg t k p fuel (reg.buckets (ponEtsWatcherBucket t k)) =
        some (decide ((t, k, p) ∈ S)) := by
    intro fuel hfuel
    simp only [hst.mem_iff]
    exact addLoop_eq (hst.seg (bucketOf (t, k, p))) (hst.active _) hfuel
  by_cases hin : (t, k, p) ∈ S
  · refine ⟨reg, ⟨(chains (bucketOf (t, k, p))).length + 1, fun fuel hfuel => ?_⟩, ?_⟩
    · simp only [exec, ponEtsWatcherAdd, hscan fuel hfuel, hin, decide_true, setCall, if_true]
      rfl
    · simpa [setCall, hin] using h
  · let w : PonEtsWatcher := ⟨t, k, p, reg.buckets (ponEtsWatcherBucket t k), true⟩
    let added : PonEtsWatcherRegistry :=
      (setBucket { reg with mem := Function.update reg.mem addr (some w) }
        (ponEtsWatcherBucket t k) (some addr)).addCount 1
    refine ⟨added, ⟨(chains (bucketOf (t, k, p))).length + 1, fun fuel hfuel => ?_⟩, ?_, ?_⟩
    · simp only [exec, ponEtsWatcherAdd, hscan fuel hfuel, hin, decide_false, setCall, if_false]
      rfl
    · simp only [setCall, hin, if_false]
      exact ⟨_, hst.insert_head (w := w) hfree hin rfl rfl rfl rfl⟩
    · simp only [setCall, hin, if_false, Finset.card_insert_of_notMem hin, Nat.cast_add,
        Nat.cast_one]
      rw [← wrapInt_succ, ← h.count]
      rfl

theorem ponEtsWatcherRemove_spec (h : Represents reg S) (t k p : UInt64) :
    ∃ reg', Returns reg (.remove t k p) (wrapInt (setCall S (.remove t k p)).1) reg' ∧
      Represents reg' (setCall S (.remove t k p)).2 := by
  obtain ⟨chains, hst⟩ := h.stores
  by_cases hin : (t, k, p) ∈ S
  · -- the chain splits at the node of the triple, and nothing before it matches
    obtain ⟨q, hq, w, hw, hact, hx⟩ := hst.node_of_mem hin
    obtain ⟨l₁, l₂, hl⟩ := List.append_of_mem hq
    have hnd := hst.nodup (bucketOf (t, k, p))
    rw [hl, List.map_append, List.map_cons, tripleAt_eq hw, hx] at hnd
    have hout : (t, k, p) ∉ l₁.map reg.tripleAt := fun hm =>
      (List.nodup_append.mp hnd).2.2 _ hm _ (List.mem_cons_self ..) rfl
    have hqout : l₁.getLast? ≠ some q := by
      intro hlast
      refine hout (List.mem_map.mpr ⟨q, List.mem_of_getLast? hlast, ?_⟩)
      rw [tripleAt_eq hw, hx]
    have hseg := hst.seg (bucketOf (t, k, p))
    rw [hl] at hseg
    obtain ⟨m, hseg₁, rfl, -⟩ := Seg.append_iff.mp hseg
    have hact₁ : ∀ r ∈ l₁, ∃ v, reg.mem r = some v ∧ v.active = true := fun r hr =>
      hst.active _ r (by rw [hl]; exact List.mem_append_left _ hr)
    refine ⟨((reg.unlink (bucketOf (t, k, p)) l₁.getLast? w.next).free q).addCount (-1),
      ⟨l₁.length + 1, fun fuel hfuel => ?_⟩, ?_, ?_⟩
    · obtain ⟨n, rfl⟩ := Nat.exists_eq_add_of_le' hfuel
      have hskip := removeLoop_skip (n := n + 1) (bucketOf (t, k, p)) []
        hseg₁ hact₁ hout
      have hsteps : n + (l₁.length + 1) = n + 1 + l₁.length := by omega
      simp only [setCall, hin, if_true]
      rw [hsteps, ← deactivate_unlink_free hqout]
      refine hskip.trans ?_
      simp only [List.nil_append, removeLoop, hw, watches_iff hact, if_pos hx]
      rfl
    · simp only [setCall, hin, if_true]
      exact ⟨_, (hx ▸ hst.unlink hl hw).congr rfl rfl⟩
    · simp only [setCall, hin, if_true]
      rw [card_erase_cast hin, ← wrapInt_pred, ← h.count]
      simp only [addCount, unlink_free_count]
      rfl
  · have hout := hin
    rw [hst.mem_iff] at hout
    refine ⟨reg, ⟨(chains (bucketOf (t, k, p))).length + 1, fun fuel hfuel => ?_⟩, ?_⟩
    · obtain ⟨n, rfl⟩ := Nat.exists_eq_add_of_le' hfuel
      have hskip := removeLoop_skip (n := n + 1) (bucketOf (t, k, p)) []
        (hst.seg _) (hst.active _) hout
      have hsteps : n + ((chains (bucketOf (t, k, p))).length + 1) =
          n + 1 + (chains (bucketOf (t, k, p))).length := by omega
      simp only [setCall, hin, if_false]
      rw [hsteps]
      refine hskip.trans ?_
      simp only [removeLoop]
      rfl
    · simpa [setCall, hin] using h

theorem ponEtsWatcherRemoveProcess_spec (h : Represents reg S) (p : UInt64) :
    ∃ reg', Returns reg (.removeProcess p) (wrapInt (setCall S (.removeProcess p)).1) reg' ∧
      Represents reg' (setCall S (.removeProcess p)).2 := by
  obtain ⟨chains, hst⟩ := h.stores
  obtain ⟨⟨r, reg'⟩, chains', heq, hrem⟩ :=
    removeProcessLoop_spec p (List.finRange ponEtsWatcherBuckets) hst 0
  -- every bucket was visited, so the process is gone from the whole set
  have hS : (S.filter fun x => ¬ (bucketOf x ∈ List.finRange ponEtsWatcherBuckets ∧ x.2.2 = p)) =
      S.filter fun x => x.2.2 ≠ p :=
    Finset.filter_congr fun x _ => by simp
  rw [hS] at hrem
  have hcard : (0 + ((S.card : ℤ) - (S.filter fun x => x.2.2 ≠ p).card)) =
      (S.filter fun x => x.2.2 = p).card := by
    rw [← Finset.card_filter_add_card_filter_not (s := S) fun x => x.2.2 = p]
    push_cast
    ring
  have hr : r = wrapInt (S.filter fun x => x.2.2 = p).card := hcard ▸ hrem.removed
  obtain ⟨n, hfuel⟩ := exists_fuel chains
  refine ⟨reg'.addCount (-r), ⟨n, fun fuel hle => ?_⟩, ?_, ?_⟩
  · simp only [exec, ponEtsWatcherRemoveProcess, setCall]
    rw [← hr]
    exact congrArg (Option.map _) (heq fuel (hfuel fuel hle))
  · exact ⟨chains', hrem.stores.congr rfl rfl⟩
  · have hcount : reg'.count = reg.count := hrem.count
    simp only [addCount, setCall]
    rw [hcount, h.count, hr, ← Int.sub_eq_add_neg, wrapInt_sub_wrapInt, ← hcard]
    congr 1
    ring

theorem ponEtsWatcherNotify_spec (h : Represents reg S) (t k : UInt64) :
    Returns reg (.notify t k) (wrapInt (setCall S (.notify t k)).1) reg := by
  obtain ⟨chains, hst⟩ := h.stores
  let L := (chains (ponEtsWatcherBucket t k)).map reg.tripleAt
  -- the watchers of the key are the triples of `S` with that key, one for each process
  have hset : (S.filter fun x => x.1 = t ∧ x.2.1 = k) =
      (L.filter fun x => x.1 = t ∧ x.2.1 = k).toFinset := by
    ext x
    rw [Finset.mem_filter, List.mem_toFinset, List.mem_filter, decide_eq_true_iff, hst.mem_iff]
    refine and_congr_left ?_
    rintro ⟨rfl, rfl⟩
    rfl
  have hinj : Set.InjOn (fun x : Triple => x.2.2)
      (S.filter fun x => x.1 = t ∧ x.2.1 = k : Finset Triple) := by
    rintro ⟨t₁, k₁, p₁⟩ h₁ ⟨t₂, k₂, p₂⟩ h₂ hp
    simp only [Finset.coe_filter, Set.mem_ofPred_eq] at h₁ h₂ hp
    obtain ⟨-, rfl, rfl⟩ := h₁
    obtain ⟨-, rfl, rfl⟩ := h₂
    rw [hp]
  have hcard : ((S.filter fun x => x.1 = t ∧ x.2.1 = k).image fun x => x.2.2).card =
      (L.filter fun x => x.1 = t ∧ x.2.1 = k).length := by
    rw [Finset.card_image_of_injOn hinj, hset,
      List.toFinset_card_of_nodup ((hst.nodup _).filter _)]
  refine ⟨(chains (ponEtsWatcherBucket t k)).length + 1, fun fuel hfuel => ?_⟩
  have hloop := @notifyLoop_eq reg t k _ _ _ (hst.seg (ponEtsWatcherBucket t k))
    (hst.active _) hfuel 0
  rw [Int.zero_add] at hloop
  simp only [exec, ponEtsWatcherNotify, setCall, hcard]
  exact congrArg (Option.map _) hloop

/-- One call keeps registry and set together and returns what the set returns. -/
theorem exec_spec (h : Represents reg S) {c : Call} (hc : MallocOk reg c) :
    ∃ reg', Returns reg c (wrapInt (setCall S c).1) reg' ∧ Represents reg' (setCall S c).2 := by
  cases c with
  | add t k p addr => exact ponEtsWatcherAdd_spec h hc
  | remove t k p => exact ponEtsWatcherRemove_spec h t k p
  | removeProcess p => exact ponEtsWatcherRemoveProcess_spec h p
  | notify t k => exact ⟨reg, ponEtsWatcherNotify_spec h t k, h⟩

end Calls

/-! ## Runs -/

/-- A call returns one thing. -/
theorem Returns.unique {reg reg₁ reg₂ : PonEtsWatcherRegistry} {c : Call} {r₁ r₂ : ℤ}
    (h₁ : Returns reg c r₁ reg₁) (h₂ : Returns reg c r₂ reg₂) : reg₁ = reg₂ := by
  obtain ⟨n₁, h₁⟩ := h₁
  obtain ⟨n₂, h₂⟩ := h₂
  have heq := (h₁ (max n₁ n₂) (le_max_left ..)).symm.trans (h₂ (max n₁ n₂) (le_max_right ..))
  injection heq with heq
  exact (Prod.mk.injEq .. ▸ heq).2

/-- `pon_ets_watcher_init` stands for the empty set. -/
theorem represents_init : Represents ponEtsWatcherInit ∅ := by
  refine ⟨⟨fun _ => [], ?_⟩, ?_⟩
  · exact ⟨fun _ => rfl, (fun _ _ hp => nomatch hp), fun _ => List.nodup_nil, fun x => by simp⟩
  · rw [Finset.card_empty]
    rfl

/-- Registry and set stay together. -/
theorem represents_of_reach {s : PonEtsWatcherRegistry × Finset Triple} (h : lockstep.Reach s) :
    Represents s.1 s.2 := by
  refine System.Reach.invariant (I := fun s => Represents s.1 s.2) ?_ ?_ h
  · rintro s rfl
    exact represents_init
  · rintro s c s' hrep ⟨hok, ⟨r, hret⟩, hset⟩
    obtain ⟨reg', hret', hrep'⟩ := exec_spec hrep hok
    rw [hset, hret.unique hret']
    exact hrep'

/-- The numbers of a set of fewer than `2 ^ 31` watchers fit in an `int`. -/
theorem wrapInt_setCall {S : Finset Triple} (hS : S.card < 2147483648) (c : Call) :
    wrapInt (setCall S c).1 = (setCall S c).1 := by
  cases c with
  | add t k p addr => simp only [setCall]; split <;> rfl
  | remove t k p => simp only [setCall]; split <;> rfl
  | removeProcess p =>
    exact wrapInt_of_lt ((Finset.card_filter_le ..).trans_lt hS)
  | notify t k =>
    exact wrapInt_of_lt (Finset.card_image_le.trans_lt ((Finset.card_filter_le ..).trans_lt hS))

/-- **The watcher registry is a set.** After every sequence of calls the registry stores each
triple of the set once, in its own bucket; every further call returns what an `int` keeps of
what the same call on the set returns and keeps the two together, and `notify` changes
nothing. While there are fewer than `2 ^ 31` watchers, the counter is their number and the
calls return the numbers themselves. -/
theorem registry_refines_set {s : PonEtsWatcherRegistry × Finset Triple}
    (h : lockstep.Reach s) :
    Represents s.1 s.2 ∧
      (∀ c, MallocOk s.1 c →
        ∃ reg', Returns s.1 c (wrapInt (setCall s.2 c).1) reg' ∧
          Represents reg' (setCall s.2 c).2 ∧ ∀ t k, c = .notify t k → reg' = s.1) ∧
      (s.2.card < 2147483648 →
        s.1.count = s.2.card ∧ ∀ c, wrapInt (setCall s.2 c).1 = (setCall s.2 c).1) := by
  have hrep := represents_of_reach h
  refine ⟨hrep, fun c hok => ?_, fun hS => ⟨?_, wrapInt_setCall hS⟩⟩
  · obtain ⟨reg', hret, hrep'⟩ := exec_spec hrep hok
    refine ⟨reg', hret, hrep', ?_⟩
    rintro t k rfl
    exact hret.unique (ponEtsWatcherNotify_spec hrep t k)
  · rw [hrep.count]
    exact wrapInt_of_lt hS

/-! ## Adding many watchers -/

/-- `pon_ets_watcher_add` writes to no memory but the address it is given. -/
theorem ponEtsWatcherAdd_mem {reg reg' : PonEtsWatcherRegistry} {t k p : UInt64} {fuel : ℕ}
    {addr q : Ptr} {r : ℤ} (h : ponEtsWatcherAdd reg t k p fuel addr = some (r, reg'))
    (hq : q ≠ addr) : reg'.mem q = reg.mem q := by
  simp only [ponEtsWatcherAdd] at h
  split at h
  · cases h
  · cases h
    rfl
  · cases h
    exact Function.update_of_ne hq ..

/-- The next watcher, at the next address. -/
theorem exists_reach_add {reg : PonEtsWatcherRegistry} {S : Finset Triple} {addr : Ptr}
    (h : lockstep.Reach (reg, S)) (hfree : ∀ a, addr ≤ a → reg.mem a = none) (x : Triple) :
    ∃ reg', lockstep.Reach (reg', insert x S) ∧ ∀ a, addr + 1 ≤ a → reg'.mem a = none := by
  obtain ⟨t, k, p⟩ := x
  have hok : MallocOk reg (.add t k p addr) := hfree addr le_rfl
  obtain ⟨reg', hret, -⟩ := exec_spec (represents_of_reach h) hok
  refine ⟨reg', h.next (a := .add t k p addr) ⟨hok, ⟨_, hret⟩, ?_⟩, fun a ha => ?_⟩
  · simp only [setCall]
    split
    · exact Finset.insert_eq_of_mem ‹_›
    · rfl
  · obtain ⟨n, hn⟩ := hret
    rw [ponEtsWatcherAdd_mem (hn n le_rfl) (Nat.ne_of_gt ha)]
    exact hfree a (Nat.le_of_succ_le ha)

/-- The watchers of the processes `0 … n - 1` at one key. -/
def watchers (n : ℕ) : Finset Triple := (Finset.range n).image fun i => (0, 0, UInt64.ofNat i)

/-- They are added one by one. -/
theorem exists_reach_watchers (n : ℕ) :
    ∃ reg, lockstep.Reach (reg, watchers n) ∧ ∀ a, n ≤ a → reg.mem a = none := by
  induction n with
  | zero => exact ⟨ponEtsWatcherInit, .start rfl, fun _ _ => rfl⟩
  | succ n ih =>
    obtain ⟨reg, hreach, hfree⟩ := ih
    obtain ⟨reg', hreach', hfree'⟩ := exists_reach_add hreach hfree (0, 0, UInt64.ofNat n)
    refine ⟨reg', ?_, hfree'⟩
    rw [watchers, Finset.range_add_one, Finset.image_insert]
    exact hreach'

theorem card_watchers {n : ℕ} (hn : n ≤ 18446744073709551616) : (watchers n).card = n := by
  rw [watchers, Finset.card_image_of_injOn, Finset.card_range]
  intro i hi j hj hij
  have hi : i < n := Finset.mem_range.mp hi
  have hj : j < n := Finset.mem_range.mp hj
  have heq : (UInt64.ofNat i).toNat = (UInt64.ofNat j).toNat := by
    rw [(Prod.mk.inj (Prod.mk.inj hij).2).2]
  rwa [UInt64.toNat_ofNat_of_lt' (hi.trans_le hn), UInt64.toNat_ofNat_of_lt' (hj.trans_le hn)]
    at heq

/-- The `2 ^ 31`-th watcher turns the counter over, and `notify` answers a negative number. -/
theorem count_overflows :
    (watchers 2147483648).card = 2147483648 ∧
      ∃ reg, lockstep.Reach (reg, watchers 2147483648) ∧ reg.count = -2147483648 ∧
        reg.count ≠ (watchers 2147483648).card := by
  have hcard : (watchers 2147483648).card = 2147483648 := card_watchers (by omega)
  obtain ⟨reg, hreach, -⟩ := exists_reach_watchers 2147483648
  have hcount : reg.count = -2147483648 := by
    rw [(represents_of_reach hreach).count, hcard]
    rfl
  refine ⟨hcard, reg, hreach, hcount, ?_⟩
  rw [hcount, hcard]
  decide

/-- Two watchers of one key and one of another key in the same bucket: a watcher is not added
twice, each key has its own watchers notified, and a process takes its watchers of both keys
with it. -/
theorem registry_refines_set_one :
    bucketOf (1, 2, 3) = bucketOf (2, 1, 3) ∧
      ∃ reg, lockstep.Reach (reg, {(1, 2, 4), (2, 1, 3), (1, 2, 3)}) ∧ reg.count = 3 ∧
        (∃ reg', Returns reg (.add 2 1 3 3) (-1) reg') ∧
        (∃ reg', Returns reg (.notify 1 2) 2 reg') ∧
        (∃ reg', Returns reg (.notify 2 1) 1 reg') ∧
        ∃ reg', Returns reg (.removeProcess 3) 2 reg' ∧ Represents reg' {(1, 2, 4)} := by
  obtain ⟨reg₁, h₁, hfree₁⟩ := @exists_reach_add _ _ 0 (.start rfl) (fun _ _ => rfl) (1, 2, 3)
  obtain ⟨reg₂, h₂, hfree₂⟩ := exists_reach_add h₁ hfree₁ (2, 1, 3)
  obtain ⟨reg, h, hfree⟩ := exists_reach_add h₂ hfree₂ (1, 2, 4)
  obtain ⟨-, hcalls, hsmall⟩ := registry_refines_set h
  have hfew : Finset.card ({(1, 2, 4), (2, 1, 3), (1, 2, 3)} : Finset Triple) < 2147483648 := by
    decide
  obtain ⟨hcount, hint⟩ := hsmall hfew
  simp only [hint] at hcalls
  obtain ⟨reg₃, hadd, -, -⟩ := hcalls (.add 2 1 3 3) (hfree 3 le_rfl)
  obtain ⟨reg₄, hnotify, -, -⟩ := hcalls (.notify 1 2) trivial
  obtain ⟨reg₅, hother, -, -⟩ := hcalls (.notify 2 1) trivial
  obtain ⟨reg₆, hremove, hrep, -⟩ := hcalls (.removeProcess 3) trivial
  exact ⟨by decide, reg, h, hcount, ⟨reg₃, hadd⟩, ⟨reg₄, hnotify⟩,
    ⟨reg₅, hother⟩, reg₆, hremove, hrep⟩

end PonBeam.EtsWatcher
