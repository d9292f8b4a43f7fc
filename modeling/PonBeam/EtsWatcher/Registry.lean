import PonBeam.EtsWatcher.Model

/-!
# The watcher registry is a set

`Stores reg chains S` ties the three views of the registry together: `chains` are the
NULL-terminated chains the buckets point at, every node on chain `i` is an active watcher
whose own table and key select `i`, no triple is on a chain twice, and the triples on the
chains are those of `S`. Inserting at the head and unlinking a node with its trailing `prev`
pointer are the two ways a chain changes; the loops only decide which nodes they are used on.
-/

namespace PonBeam.EtsWatcher

open PonEtsWatcherRegistry

/-- The bucket a triple belongs to. -/
def bucketOf (x : Triple) : Fin ponEtsWatcherBuckets := ponEtsWatcherBucket x.1 x.2.1

namespace PonEtsWatcherRegistry

/-- `p->next` -/
def nextOf (reg : PonEtsWatcherRegistry) (p : Ptr) : Option Ptr :=
  (reg.mem p).bind PonEtsWatcher.next

/-- The triple at `p`. -/
def tripleAt (reg : PonEtsWatcherRegistry) (p : Ptr) : Triple :=
  ((reg.mem p).map PonEtsWatcher.triple).getD (0, 0, 0)

end PonEtsWatcherRegistry

/-- The chains of `reg` hold the triples of `S`, each once and in its own bucket. -/
structure Stores (reg : PonEtsWatcherRegistry)
    (chains : Fin ponEtsWatcherBuckets → List Ptr) (S : Finset Triple) : Prop where
  /-- bucket `i` is the head of chain `i` -/
  seg : ∀ i, Seg reg.nextOf (reg.buckets i) (chains i) none
  /-- the nodes are active watchers in the bucket of their own table and key -/
  node : ∀ i, ∀ p ∈ chains i,
    ∃ w, reg.mem p = some w ∧ w.active = true ∧ bucketOf w.triple = i
  /-- no triple is stored twice -/
  nodup : ∀ i, ((chains i).map reg.tripleAt).Nodup
  /-- the triples stored are those of `S` -/
  mem_iff : ∀ x, x ∈ S ↔ x ∈ (chains (bucketOf x)).map reg.tripleAt

/-- The registry stands for the set `S`. -/
structure Represents (reg : PonEtsWatcherRegistry) (S : Finset Triple) : Prop where
  /-- its chains hold `S` -/
  stores : ∃ chains, Stores reg chains S
  /-- its counter is what an `int` keeps of the size of `S` -/
  count : reg.count = wrapInt S.card

section Reads

variable {reg : PonEtsWatcherRegistry} {p : Ptr} {w : PonEtsWatcher}

theorem nextOf_eq (h : reg.mem p = some w) : reg.nextOf p = w.next := by
  simp [nextOf, h]

theorem tripleAt_eq (h : reg.mem p = some w) : reg.tripleAt p = w.triple := by
  simp [tripleAt, h]

end Reads

/-! ## Nodes on chains -/

namespace Stores

variable {reg : PonEtsWatcherRegistry} {chains : Fin ponEtsWatcherBuckets → List Ptr}
  {S : Finset Triple} {i j : Fin ponEtsWatcherBuckets} {p q : Ptr} {w : PonEtsWatcher}
  {l₁ l₂ : List Ptr}

/-- A node is on one chain only. -/
theorem chain_unique (h : Stores reg chains S) (hi : p ∈ chains i) (hj : p ∈ chains j) :
    i = j := by
  obtain ⟨w, hw, -, rfl⟩ := h.node i p hi
  obtain ⟨w', hw', -, rfl⟩ := h.node j p hj
  rw [hw] at hw'
  cases hw'
  rfl

/-- A node is on its chain once. -/
theorem chain_nodup (h : Stores reg chains S) : (chains i).Nodup := (h.nodup i).of_map

/-- The nodes are active watchers. -/
theorem active (h : Stores reg chains S) (i : Fin ponEtsWatcherBuckets) :
    ∀ p ∈ chains i, ∃ w, reg.mem p = some w ∧ w.active = true := by
  intro p hp
  obtain ⟨w, hw, hact, -⟩ := h.node i p hp
  exact ⟨w, hw, hact⟩

/-- What is stored at a node is in the set. -/
theorem mem_of_node (h : Stores reg chains S) (hi : p ∈ chains i) (hw : reg.mem p = some w) :
    w.triple ∈ S := by
  obtain ⟨w', hw', -, hb⟩ := h.node i p hi
  obtain rfl : w' = w := by simpa [hw] using hw'.symm
  rw [h.mem_iff, hb, List.mem_map]
  exact ⟨p, hi, tripleAt_eq hw⟩

/-- Every triple of the set is at a node of its bucket. -/
theorem node_of_mem (h : Stores reg chains S) {x : Triple} (hx : x ∈ S) :
    ∃ p ∈ chains (bucketOf x), ∃ w, reg.mem p = some w ∧ w.active = true ∧ w.triple = x := by
  obtain ⟨p, hp, rfl⟩ := List.mem_map.mp ((h.mem_iff x).mp hx)
  obtain ⟨w, hw, ha, -⟩ := h.node _ p hp
  exact ⟨p, hp, w, hw, ha, (tripleAt_eq hw).symm⟩

/-- Only the memory of the nodes and the bucket heads matter. -/
theorem congr {reg' : PonEtsWatcherRegistry} (h : Stores reg chains S)
    (hmem : reg'.mem = reg.mem) (hb : reg'.buckets = reg.buckets) : Stores reg' chains S := by
  obtain ⟨mem, buckets, count⟩ := reg
  obtain ⟨mem', buckets', count'⟩ := reg'
  obtain rfl : mem' = mem := hmem
  obtain rfl : buckets' = buckets := hb
  exact ⟨h.seg, h.node, h.nodup, h.mem_iff⟩

end Stores

/-! ## Insertion at the head -/

/-- The memory and the buckets after `w` was put at the head of chain `i`. -/
theorem Stores.insert_head {reg reg' : PonEtsWatcherRegistry}
    {chains : Fin ponEtsWatcherBuckets → List Ptr} {S : Finset Triple} {addr : Ptr}
    {w : PonEtsWatcher} (h : Stores reg chains S) (hfree : reg.mem addr = none)
    (hnew : w.triple ∉ S) (hact : w.active = true)
    (hnext : w.next = reg.buckets (bucketOf w.triple))
    (hmem : reg'.mem = Function.update reg.mem addr (some w))
    (hbuckets : reg'.buckets = Function.update reg.buckets (bucketOf w.triple) (some addr)) :
    Stores reg' (Function.update chains (bucketOf w.triple) (addr :: chains (bucketOf w.triple)))
      (insert w.triple S) := by
  have hfresh : ∀ j, addr ∉ chains j := by
    intro j hj
    obtain ⟨v, hv, -⟩ := h.node j addr hj
    rw [hfree] at hv
    cases hv
  have hself : reg'.mem addr = some w := by rw [hmem, Function.update_self]
  have hold : ∀ q, q ≠ addr → reg'.mem q = reg.mem q := fun q hq => by
    rw [hmem, Function.update_of_ne hq]
  have hseg : ∀ j, Seg reg'.nextOf (reg.buckets j) (chains j) none := by
    intro j
    refine (Seg.congr fun y hy => ?_).mpr (h.seg j)
    rw [nextOf, nextOf, hold y fun e => hfresh j (e ▸ hy)]
  have htrip : ∀ j, (chains j).map reg'.tripleAt = (chains j).map reg.tripleAt := by
    intro j
    refine List.map_congr_left fun q hq => ?_
    rw [tripleAt, tripleAt, hold q fun e => hfresh j (e ▸ hq)]
  refine ⟨fun j => ?_, fun j q hq => ?_, fun j => ?_, fun x => ?_⟩
  · rw [hbuckets]
    by_cases hj : j = bucketOf w.triple
    · subst hj
      rw [Function.update_self, Function.update_self, Seg.cons_iff, nextOf_eq hself, hnext]
      exact ⟨rfl, hseg _⟩
    · rw [Function.update_of_ne hj, Function.update_of_ne hj]
      exact hseg j
  · by_cases hqa : q = addr
    · subst hqa
      refine ⟨w, hself, hact, ?_⟩
      by_contra hne
      rw [Function.update_of_ne (Ne.symm hne)] at hq
      exact hfresh j hq
    · rw [hold q hqa]
      refine h.node j q ?_
      by_cases hj : j = bucketOf w.triple
      · subst hj
        rw [Function.update_self] at hq
        exact (List.mem_cons.mp hq).resolve_left hqa
      · rwa [Function.update_of_ne hj] at hq
  · by_cases hj : j = bucketOf w.triple
    · subst hj
      rw [Function.update_self, List.map_cons, tripleAt_eq hself, htrip, List.nodup_cons]
      exact ⟨fun hm => hnew ((h.mem_iff _).mpr hm), h.nodup _⟩
    · rw [Function.update_of_ne hj, htrip]
      exact h.nodup j
  · rw [Finset.mem_insert, h.mem_iff]
    by_cases hx : bucketOf x = bucketOf w.triple
    · rw [hx, Function.update_self, List.map_cons, List.mem_cons, tripleAt_eq hself, htrip]
    · rw [Function.update_of_ne hx, htrip, or_iff_right]
      rintro rfl
      exact hx rfl

/-! ## Unlinking with a trailing pointer -/

section Unlink

variable {reg : PonEtsWatcherRegistry} {chains : Fin ponEtsWatcherBuckets → List Ptr}
  {S : Finset Triple} {i j : Fin ponEtsWatcherBuckets} {p q : Ptr} {w : PonEtsWatcher}
  {l₁ l₂ : List Ptr}

/-- Nodes other than the one freed keep everything but, for `prev`, the link. -/
theorem unlink_free_mem (hq : q ≠ p) (prev next : Option Ptr) :
    ((reg.unlink i prev next).free p).mem q =
      if prev = some q then (reg.mem q).map fun w => { w with next := next }
      else reg.mem q := by
  cases prev with
  | none => simp [unlink, setBucket, free, Function.update_of_ne hq]
  | some r =>
    by_cases hr : r = q
    · subst hr
      simp [unlink, setNext, free, Function.update_of_ne hq]
    · simp [unlink, setNext, free, Function.update_of_ne hq, Function.update_of_ne (Ne.symm hr), hr]

theorem unlink_free_buckets (prev next : Option Ptr) :
    ((reg.unlink i prev next).free p).buckets =
      if prev = none then Function.update reg.buckets i next else reg.buckets := by
  cases prev with
  | none => rfl
  | some r => rfl

theorem unlink_free_tripleAt (hq : q ≠ p) (prev next : Option Ptr) :
    ((reg.unlink i prev next).free p).tripleAt q = reg.tripleAt q := by
  rw [tripleAt, tripleAt, unlink_free_mem hq]
  split_ifs
  · rw [Option.map_map]
    rfl
  · rfl

/-- **Unlinking a node** behind its predecessor takes exactly its triple out of the set. -/
theorem Stores.unlink (h : Stores reg chains S) (hi : chains i = l₁ ++ p :: l₂)
    (hw : reg.mem p = some w) :
    Stores ((reg.unlink i l₁.getLast? w.next).free p)
      (Function.update chains i (l₁ ++ l₂)) (S.erase w.triple) := by
  have hnd : (l₁ ++ p :: l₂).Nodup := hi ▸ h.chain_nodup (i := i)
  have hpi : p ∈ chains i := by simp [hi]
  have hpout : p ∉ l₁ ++ l₂ := by
    have := (List.nodup_middle.mp hnd)
    exact (List.nodup_cons.mp this).1
  have hsub : ∀ q ∈ l₁ ++ l₂, q ∈ chains i := by
    intro q hq
    rw [hi]
    simp only [List.mem_append, List.mem_cons] at hq ⊢
    tauto
  have hother : ∀ j, j ≠ i → ∀ q ∈ chains j, q ≠ p ∧ l₁.getLast? ≠ some q := by
    intro j hj q hq
    refine ⟨fun e => hj (h.chain_unique (e ▸ hq) hpi), fun e => hj (h.chain_unique hq ?_)⟩
    exact hsub q (List.mem_append_left _ (List.mem_of_getLast? e))
  -- the links: only the predecessor's changes
  have hnext : ∀ q, q ≠ p → l₁.getLast? ≠ some q →
      ((reg.unlink i l₁.getLast? w.next).free p).nextOf q = reg.nextOf q := by
    intro q hq hl
    rw [nextOf, nextOf, unlink_free_mem hq, if_neg hl]
  have hlink : ∀ q, l₁.getLast? = some q →
      ((reg.unlink i l₁.getLast? w.next).free p).nextOf q = w.next := by
    intro q hl
    have hq : q ∈ l₁ := List.mem_of_getLast? hl
    have hqp : q ≠ p := fun e => hpout (List.mem_append_left _ (e ▸ hq))
    obtain ⟨v, hv, -⟩ := h.node i q (hsub q (List.mem_append_left _ hq))
    rw [nextOf, unlink_free_mem hqp, if_pos hl, hv]
    rfl
  have htrip : ∀ q, q ≠ p →
      ((reg.unlink i l₁.getLast? w.next).free p).tripleAt q = reg.tripleAt q :=
    fun q hq => unlink_free_tripleAt hq _ _
  have hmap : (l₁ ++ l₂).map ((reg.unlink i l₁.getLast? w.next).free p).tripleAt
      = (l₁ ++ l₂).map reg.tripleAt :=
    List.map_congr_left fun q hq => htrip q fun e => hpout (e ▸ hq)
  have hnodup : (reg.tripleAt p :: (l₁ ++ l₂).map reg.tripleAt).Nodup := by
    have := h.nodup i
    rw [hi, List.map_append, List.map_cons] at this
    rw [List.map_append]
    exact List.nodup_middle.mp this
  refine ⟨fun j => ?_, fun j q hq => ?_, fun j => ?_, fun x => ?_⟩
  · rw [unlink_free_buckets]
    by_cases hj : j = i
    · subst hj
      rw [Function.update_self]
      refine Seg.unlink (x := p) (hi ▸ h.seg j) hnd (fun y hy => ?_) ?_ fun z hz hl => ?_
      · rw [hlink y hy, nextOf_eq hw]
      · rw [nextOf_eq hw]
        simp only [List.getLast?_eq_none_iff]
        split_ifs
        · rw [Function.update_self]
        · rfl
      · exact hnext z (fun e => hpout (e ▸ hz)) hl
    · rw [Function.update_of_ne hj]
      have hbj : (if l₁.getLast? = none then Function.update reg.buckets i w.next
          else reg.buckets) j = reg.buckets j := by
        split_ifs
        · rw [Function.update_of_ne hj]
        · rfl
      rw [hbj]
      exact (Seg.congr fun y hy => hnext y (hother j hj y hy).1 (hother j hj y hy).2).mpr
        (h.seg j)
  · by_cases hj : j = i
    · subst hj
      rw [Function.update_self] at hq
      obtain ⟨v, hv, hact, hb⟩ := h.node j q (hsub q hq)
      rw [unlink_free_mem fun e : q = p => hpout (e ▸ hq), hv]
      split_ifs
      · exact ⟨_, rfl, hact, hb⟩
      · exact ⟨v, rfl, hact, hb⟩
    · rw [Function.update_of_ne hj] at hq
      rw [unlink_free_mem (hother j hj q hq).1, if_neg (hother j hj q hq).2]
      exact h.node j q hq
  · by_cases hj : j = i
    · subst hj
      rw [Function.update_self, hmap]
      exact (List.nodup_cons.mp hnodup).2
    · rw [Function.update_of_ne hj,
        List.map_congr_left fun q hq => htrip q (hother j hj q hq).1]
      exact h.nodup j
  · obtain ⟨w', hw', -, hb⟩ := h.node i p hpi
    obtain rfl : w' = w := by simpa [hw] using hw'.symm
    rw [Finset.mem_erase, h.mem_iff]
    by_cases hx : bucketOf x = i
    · rw [hx, Function.update_self, hmap, hi, List.map_append, List.map_append, List.map_cons,
        tripleAt_eq hw]
      have hout : w'.triple ∉ (l₁ ++ l₂).map reg.tripleAt :=
        tripleAt_eq hw ▸ (List.nodup_cons.mp hnodup).1
      rw [List.map_append] at hout
      simp only [List.mem_append, List.mem_cons] at hout ⊢
      constructor
      · rintro ⟨hne, hm⟩
        tauto
      · intro hm
        refine ⟨fun e => hout (e ▸ hm), ?_⟩
        tauto
    · rw [Function.update_of_ne hx,
        List.map_congr_left fun q hq => htrip q (hother _ hx q hq).1, and_iff_right]
      rintro rfl
      exact hx hb

end Unlink

end PonBeam.EtsWatcher
