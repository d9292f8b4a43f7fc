import PonBeam.Gc.Ops
import Mathlib.Data.List.Basic

/-!
# The reference array of a node

`pon_gc_add_ref` appends to a growable array whose capacity doubles in a 16-bit field,
and `pon_gc_remove_ref` closes the gap of a removed entry by moving the entries behind it
down. The capacities the doubling runs through are 0, 4, 8, ..., 32768 (`Sized`); after
32768 the field wraps to 0.
-/

namespace PonBeam.Gc

open PonGcState

/-! ## Appending -/

/-- The array has the capacity the node says it has, and the capacity is one that doubling
from 4 comes to in 16 bits. -/
structure Sized (n : PonGcNode) : Prop where
  /-- never allocated, or doubled from 4 -/
  cap : n.refsCap = 0 ∨ ∃ j ≤ 13, n.refsCap = 4 * 2 ^ j
  /-- the allocation -/
  length : n.refs.length = n.refsCap
  /-- the entries in use -/
  le : n.numRefs ≤ n.refsCap

section Append

variable {gc : PonGcState} {n : PonGcNode} {f t : Ptr}

theorem Sized.le_max (h : Sized n) : n.refsCap ≤ 32768 := by
  rcases h.cap with hc | ⟨j, hj, hc⟩
  · omega
  · have hpow : 2 ^ j ≤ 2 ^ 13 := Nat.pow_le_pow_right (by omega) hj
    omega

theorem Sized.length_live (h : Sized n) : n.live.length = n.numRefs := by
  rw [PonGcNode.live, List.length_take, h.length]
  exact Nat.min_eq_left h.le

/-- A realloc to more entries keeps those in use. -/
theorem take_reallocRefs {refs : List (Option Ptr)} {k cap : ℕ} (hk : k ≤ refs.length)
    (hcap : refs.length ≤ cap) : (reallocRefs refs cap).take k = refs.take k := by
  rw [reallocRefs, List.take_of_length_le hcap, List.take_append_of_le_length hk]

theorem length_reallocRefs {refs : List (Option Ptr)} {cap : ℕ} (hcap : refs.length ≤ cap) :
    (reallocRefs refs cap).length = cap := by
  rw [reallocRefs, List.take_of_length_le hcap, List.length_append, List.length_replicate]
  omega

/-- **The growth step.** Below 32768 references there is room for one more afterwards. -/
theorem growRefs_spec (h : Sized n) (hlt : n.numRefs < 32768) :
    Sized (growRefs n) ∧ (growRefs n).numRefs = n.numRefs ∧ (growRefs n).live = n.live ∧
      n.numRefs < (growRefs n).refsCap := by
  have hle := h.le
  have hlen := h.length
  by_cases hfull : n.numRefs = n.refsCap
  · have hgrow : ∀ cap, ((if n.refsCap ≠ 0 then n.refsCap * 2 else 4) % 65536 = cap) →
        n.refsCap < cap → (cap = 0 ∨ ∃ j ≤ 13, cap = 4 * 2 ^ j) →
        Sized (growRefs n) ∧ (growRefs n).numRefs = n.numRefs ∧ (growRefs n).live = n.live ∧
          n.numRefs < (growRefs n).refsCap := by
      intro cap hcap hmore hpow
      have heq : growRefs n = { n with refs := reallocRefs n.refs cap, refsCap := cap } := by
        rw [growRefs, if_pos hfull]
        simp only [hcap]
      have hroom : n.numRefs < cap := hfull ▸ hmore
      have hmore' : n.refs.length ≤ cap := by omega
      have hin : n.numRefs ≤ n.refs.length := by omega
      rw [heq]
      refine ⟨⟨hpow, length_reallocRefs hmore', Nat.le_of_lt hroom⟩, rfl, ?_, hroom⟩
      exact take_reallocRefs hin hmore'
    rcases h.cap with hc | ⟨j, hj, hc⟩
    · refine hgrow 4 (by simp [hc]) (by omega) (Or.inr ⟨0, by omega, rfl⟩)
    · have hpos : 0 < 2 ^ j := Nat.two_pow_pos j
      have hj' : j + 1 ≤ 13 := by
        by_contra hgt
        obtain rfl : j = 13 := by omega
        omega
      have hle' : 2 ^ (j + 1) ≤ 2 ^ 13 := Nat.pow_le_pow_right (by omega) hj'
      have hsucc : 2 ^ (j + 1) = 2 * 2 ^ j := by rw [Nat.pow_succ, Nat.mul_comm]
      refine hgrow (4 * 2 ^ (j + 1)) ?_ (by omega) (Or.inr ⟨j + 1, hj', rfl⟩)
      rw [if_pos (by omega)]
      omega
  · have heq : growRefs n = n := by rw [growRefs, if_neg hfull]
    rw [heq]
    exact ⟨h, rfl, rfl, by omega⟩

/-- **`pon_gc_add_ref` below 32768 references** appends the target. -/
theorem addRef_append (hf : gc.Allocated f) (h : Sized (gc.node f))
    (hlt : (gc.node f).numRefs < 32768) :
    ∃ gc', ponGcAddRef gc (some f) (some t) = some gc' ∧ gc'.Allocated f ∧
      Sized (gc'.node f) ∧ (gc'.node f).numRefs = (gc.node f).numRefs + 1 ∧
      (gc'.node f).live = (gc.node f).live ++ [some t] ∧
      ∀ p, p ≠ f → gc'.node p = gc.node p := by
  obtain ⟨hsized, hnum, hlive, hroom⟩ := growRefs_spec h hlt
  set n := growRefs (gc.node f) with hn
  have hfit : n.numRefs < n.refs.length := by
    rw [hsized.length, hnum]
    exact hroom
  have hwrap : (n.numRefs + 1) % 65536 = n.numRefs + 1 := by omega
  have hrun : ponGcAddRef gc (some f) (some t) = some (gc.modify f fun _ =>
      { n with refs := n.refs.set n.numRefs (some t), numRefs := (n.numRefs + 1) % 65536 }) := by
    simp only [ponGcAddRef, ← hn]
    rw [if_pos hfit]
  refine ⟨_, hrun, allocated_modify.2 hf, ?_, ?_, ?_, fun p hp => node_modify_ne hp⟩
  · rw [node_modify_self hf]
    refine ⟨hsized.cap, (List.length_set ..).trans hsized.length, ?_⟩
    change (n.numRefs + 1) % 65536 ≤ n.refsCap
    omega
  · rw [node_modify_self hf]
    change (n.numRefs + 1) % 65536 = _
    rw [hwrap, hnum]
  · rw [node_modify_self hf]
    change (n.refs.set n.numRefs (some t)).take ((n.numRefs + 1) % 65536) = _
    rw [hwrap, List.take_add_one, List.take_set_of_le (Nat.le_refl _), List.getElem?_set_self hfit,
      ← hlive]
    rfl

/-- With 32768 references the doubled capacity is 0, and the store misses the array. -/
theorem addRef_full (h : Sized (gc.node f)) (hfull : (gc.node f).numRefs = 32768) :
    ponGcAddRef gc (some f) (some t) = none := by
  have hle := h.le
  have hmax := h.le_max
  have hcap : (gc.node f).refsCap = 32768 := by omega
  have heq : growRefs (gc.node f) = { gc.node f with refs := [], refsCap := 0 } := by
    rw [growRefs, if_pos (hfull.trans hcap.symm)]
    simp [hcap, reallocRefs]
  rw [ponGcAddRef, heq]
  simp

end Append

/-- `pon_gc_add_ref(from, to)` for every `to` of a list. -/
def ponGcAddRefs (gc : PonGcState) (f : Ptr) : List Ptr → Option PonGcState
  | [] => some gc
  | t :: ts => (ponGcAddRef gc (some f) (some t)).bind fun gc => ponGcAddRefs gc f ts

/-- After the calls the array holds the targets, in order, and no write missed it. -/
def AppendsAll (gc : PonGcState) (f : Ptr) (ts : List Ptr) : Prop :=
  ∃ gc', ponGcAddRefs gc f ts = some gc' ∧ (gc'.node f).numRefs = ts.length ∧
    (gc'.node f).live = ts.map some ∧ (gc'.node f).numRefs ≤ (gc'.node f).refsCap ∧
    (gc'.node f).refs.length = (gc'.node f).refsCap

/-- A node no reference was stored in yet. -/
structure NoRefs (n : PonGcNode) : Prop where
  /-- no entry -/
  numRefs : n.numRefs = 0
  /-- no capacity -/
  refsCap : n.refsCap = 0
  /-- no array -/
  refs : n.refs = []

theorem NoRefs.sized {n : PonGcNode} (h : NoRefs n) : Sized n :=
  ⟨Or.inl h.refsCap, by rw [h.refs, h.refsCap]; rfl, by rw [h.numRefs, h.refsCap]⟩

section AddRefs

variable {gc : PonGcState} {f : Ptr} {ts : List Ptr}

/-- **A run of appends** as long as they fit. -/
theorem addRefs_append (hf : gc.Allocated f) (h : Sized (gc.node f))
    (hle : (gc.node f).numRefs + ts.length ≤ 32768) :
    ∃ gc', ponGcAddRefs gc f ts = some gc' ∧ gc'.Allocated f ∧ Sized (gc'.node f) ∧
      (gc'.node f).numRefs = (gc.node f).numRefs + ts.length ∧
      (gc'.node f).live = (gc.node f).live ++ ts.map some := by
  induction ts generalizing gc with
  | nil => exact ⟨gc, rfl, hf, h, rfl, (List.append_nil _).symm⟩
  | cons t ts ih =>
    rw [List.length_cons] at hle
    obtain ⟨g, hrun, hf', h', hnum, hlive, -⟩ := addRef_append (t := t) hf h (by omega)
    obtain ⟨gc', hrest, hf'', h'', hnum', hlive'⟩ := ih hf' h' (by omega)
    refine ⟨gc', ?_, hf'', h'', ?_, ?_⟩
    · rw [ponGcAddRefs, hrun]
      exact hrest
    · rw [hnum', hnum, List.length_cons]
      omega
    · rw [hlive', hlive, List.map_cons, List.append_assoc]
      rfl

/-- The run stops at the 32769th reference. -/
theorem addRefs_full (hf : gc.Allocated f) (h : Sized (gc.node f))
    (hgt : 32768 < (gc.node f).numRefs + ts.length) : ponGcAddRefs gc f ts = none := by
  have hmax := h.le_max
  have hle := h.le
  induction ts generalizing gc with
  | nil =>
    rw [List.length_nil] at hgt
    omega
  | cons t ts ih =>
    rw [List.length_cons] at hgt
    rcases Nat.lt_or_ge (gc.node f).numRefs 32768 with hlt | hge
    · obtain ⟨g, hrun, hf', h', hnum, -, -⟩ := addRef_append (t := t) hf h hlt
      rw [ponGcAddRefs, hrun]
      exact ih hf' h' (by omega) h'.le_max h'.le
    · rw [ponGcAddRefs, addRef_full h (by omega)]
      rfl

/-- **Appending any number of references** works up to 32768 of them. -/
theorem addRefs_iff (hf : gc.Allocated f) (hnew : NoRefs (gc.node f)) :
    AppendsAll gc f ts ↔ ts.length ≤ 32768 := by
  have hzero : (gc.node f).live = [] := by
    rw [PonGcNode.live, hnew.refs, List.take_nil]
  constructor
  · rintro ⟨gc', hrun, -⟩
    by_contra hgt
    rw [addRefs_full hf hnew.sized (by rw [hnew.numRefs]; omega)] at hrun
    cases hrun
  · intro hle
    have hfit : (gc.node f).numRefs + ts.length ≤ 32768 := by
      rw [hnew.numRefs]
      omega
    obtain ⟨gc', hrun, -, h', hnum, hlive⟩ := addRefs_append hf hnew.sized hfit
    rw [hnew.numRefs, Nat.zero_add] at hnum
    rw [hzero, List.nil_append] at hlive
    exact ⟨gc', hrun, hnum, hlive, h'.le, h'.length⟩

end AddRefs

/-- One node, as `pon_gc_node_create` leaves it. -/
def oneNode : PonGcState := ponGcNodeCreate ponGcInit 1 none 8

theorem oneNode_allocated : oneNode.Allocated 1 := ⟨_, rfl⟩

theorem oneNode_noRefs : NoRefs (oneNode.node 1) := ⟨rfl, rfl, rfl⟩

theorem oneNode_addRefs : AppendsAll oneNode 1 [1, 1] ↔ [1, 1].length ≤ 32768 :=
  addRefs_iff oneNode_allocated oneNode_noRefs

/-- The 32769th reference is lost. -/
theorem oneNode_addRefs_overflow : ¬ AppendsAll oneNode 1 (List.replicate 32769 1) := by
  rintro ⟨gc', hrun, -⟩
  have hlen : (List.replicate 32769 (1 : Ptr)).length = 32769 := List.length_replicate
  rw [addRefs_full oneNode_allocated oneNode_noRefs.sized (by rw [hlen]; omega)] at hrun
  cases hrun

/-! ## Removing -/

section Remove

variable {gc : PonGcState} {f t : Ptr}

/-- The entries after the shift: those in the window come from one further on. -/
theorem getElem?_shiftDown {k i : ℕ} {refs : List (Option Ptr)} (h : i + k < refs.length)
    (j : ℕ) : (shiftDown k i refs)[j]? = if i ≤ j ∧ j < i + k then refs[j + 1]? else refs[j]? := by
  induction k generalizing i refs with
  | zero => rw [shiftDown, if_neg (by omega)]
  | succ k ih =>
    rw [shiftDown, ih (by rw [List.length_set]; omega)]
    have hnext : refs[i + 1]? = some (refs.getD (i + 1) none) := by
      rw [List.getD_eq_getElem?_getD, List.getElem?_eq_getElem (by omega)]
      rfl
    by_cases hj : i = j
    · subst hj
      have hlast : ¬ (i + 1 ≤ i ∧ i < i + 1 + k) := by omega
      have hwindow : i ≤ i ∧ i < i + (k + 1) := by omega
      rw [if_neg hlast, if_pos hwindow, List.getElem?_set_self (by omega), hnext]
    · rw [List.getElem?_set_ne hj]
      by_cases hw : i + 1 ≤ j ∧ j < i + 1 + k
      · have hw' : i ≤ j ∧ j < i + (k + 1) := by omega
        rw [if_pos hw, if_pos hw', List.getElem?_set_ne (by omega)]
      · have hw' : ¬ (i ≤ j ∧ j < i + (k + 1)) := by omega
        rw [if_neg hw, if_neg hw']

/-- **The shift from entry `i` on** deletes that entry. -/
theorem take_shiftDown {n i : ℕ} {refs : List (Option Ptr)} (hi : i < n) (hn : n ≤ refs.length) :
    (shiftDown (n - 1 - i) i refs).take (n - 1) = (refs.take n).eraseIdx i := by
  refine List.ext_getElem? fun j => ?_
  rw [List.getElem?_take, List.getElem?_eraseIdx, getElem?_shiftDown (by omega),
    List.getElem?_take, List.getElem?_take]
  split_ifs <;> first | rfl | omega

/-- Deleting either of two entries gives one list only where the entries between are equal. -/
theorem getElem?_eq_of_eraseIdx_eq {α : Type} {l : List α} {i j : ℕ} (hij : i ≤ j)
    (h : l.eraseIdx i = l.eraseIdx j) : l[i]? = l[j]? := by
  suffices hbetween : ∀ m, i ≤ m → m ≤ j → l[i]? = l[m]? from hbetween j hij (Nat.le_refl j)
  intro m hm
  induction m, hm using Nat.le_induction with
  | base => exact fun _ => rfl
  | succ m hm ih =>
    intro hmj
    have hentry : (l.eraseIdx i)[m]? = (l.eraseIdx j)[m]? := congrArg (fun l => l[m]?) h
    rw [List.getElem?_eraseIdx, List.getElem?_eraseIdx, if_neg (by omega), if_pos (by omega)]
      at hentry
    exact (ih (by omega)).trans hentry.symm

/-- **One reference is removed and nothing else.** -/
structure RemovesOne (gc : PonGcState) (f t : Ptr) : Prop where
  /-- one occurrence goes, the other entries keep their order -/
  occurs : some t ∈ (gc.node f).live → ∃ i : ℕ, (gc.node f).live[i]? = some (some t) ∧
    ((ponGcRemoveRef gc (some f) (some t)).node f).live = (gc.node f).live.eraseIdx i
  /-- without an occurrence the array stays -/
  absent : some t ∉ (gc.node f).live →
    ((ponGcRemoveRef gc (some f) (some t)).node f).live = (gc.node f).live
  /-- no other field of the node is written, and no other node -/
  others : ∃ refs numRefs, ponGcRemoveRef gc (some f) (some t) =
    gc.modify f fun n => { n with refs := refs, numRefs := numRefs }

theorem modify_id (hf : gc.Allocated f) :
    (gc.modify f fun n =>
      { n with refs := (gc.node f).refs, numRefs := (gc.node f).numRefs }) = gc := by
  have hmem : (fun q => if q = f then (gc.mem f).map fun n =>
      { n with refs := (gc.node f).refs, numRefs := (gc.node f).numRefs }
      else gc.mem q) = gc.mem := by
    funext q
    split
    · rename_i hq
      rw [hq, hf.mem_node]
      rfl
    · rfl
  unfold PonGcState.modify
  rw [hmem]

theorem removeRef_others (hf : gc.Allocated f) : ∃ refs numRefs,
    ponGcRemoveRef gc (some f) (some t) =
      gc.modify f fun n => { n with refs := refs, numRefs := numRefs } := by
  simp only [ponGcRemoveRef]
  split
  · refine ⟨shiftDown ((gc.node f).numRefs - 1 - 1) 1 (gc.node f).refs, (gc.node f).numRefs - 1, ?_⟩
    unfold PonGcState.modify
    rw [hf.mem_node]
    rfl
  · exact ⟨_, _, (modify_id hf).symm⟩

/-- **What `pon_gc_remove_ref` deletes**: the second entry, or the only one. -/
theorem removeRef_live (hf : gc.Allocated f) (hlen : (gc.node f).numRefs ≤ (gc.node f).refs.length)
    (ht : some t ∈ (gc.node f).live) :
    ((ponGcRemoveRef gc (some f) (some t)).node f).live =
      (gc.node f).live.eraseIdx (if (gc.node f).live.length = 1 then 0 else 1) := by
  have hlive : (gc.node f).live.length = (gc.node f).numRefs := by
    rw [PonGcNode.live, List.length_take]
    exact Nat.min_eq_left hlen
  have hpos := List.length_pos_of_mem ht
  have hnode : ((ponGcRemoveRef gc (some f) (some t)).node f).live =
      (shiftDown ((gc.node f).numRefs - 1 - 1) 1 (gc.node f).refs).take
        ((gc.node f).numRefs - 1) := by
    simp only [ponGcRemoveRef]
    rw [if_pos ht, node_modify_self hf]
    rfl
  rw [hnode]
  split_ifs with hone
  · rw [hlive] at hone
    obtain ⟨r, hr⟩ := List.length_eq_one_iff.1 (hlive.trans hone)
    rw [hone, hr]
    rfl
  · exact take_shiftDown (by omega) hlen

/-- **`pon_gc_remove_ref` removes the right entry** in an array of one entry, or where the
reference to remove is the second entry. -/
theorem removeRef_iff (hf : gc.Allocated f)
    (hlen : (gc.node f).numRefs ≤ (gc.node f).refs.length) :
    RemovesOne gc f t ↔ some t ∉ (gc.node f).live ∨ (gc.node f).live.length = 1 ∨
      (gc.node f).live[1]? = some (some t) := by
  have habsent : some t ∉ (gc.node f).live →
      ((ponGcRemoveRef gc (some f) (some t)).node f).live = (gc.node f).live := by
    intro ht
    simp only [ponGcRemoveRef]
    rw [if_neg ht]
  by_cases ht : some t ∈ (gc.node f).live
  case neg =>
    exact ⟨fun _ => Or.inl ht, fun _ => ⟨fun h => absurd h ht, habsent, removeRef_others hf⟩⟩
  have hlive := removeRef_live hf hlen ht
  constructor
  · intro h
    obtain ⟨i, hi, herase⟩ := h.occurs ht
    rw [hlive] at herase
    right
    split_ifs at herase with hone
    · exact Or.inl hone
    · right
      rcases Nat.lt_or_ge 1 i with hgt | hle
      · rw [getElem?_eq_of_eraseIdx_eq (Nat.le_of_lt hgt) herase, hi]
      · rw [← getElem?_eq_of_eraseIdx_eq hle herase.symm, hi]
  · rintro (hnot | hone | hsecond)
    · exact absurd ht hnot
    · refine ⟨fun _ => ⟨0, ?_, by rw [hlive, if_pos hone]⟩, habsent, removeRef_others hf⟩
      obtain ⟨r, hr⟩ := List.length_eq_one_iff.1 hone
      rw [hr, List.mem_singleton] at ht
      rw [hr, ht]
      rfl
    · refine ⟨fun _ => ⟨1, hsecond, ?_⟩, habsent, removeRef_others hf⟩
      have hmany : (gc.node f).live.length ≠ 1 := by
        have hlt := (List.getElem?_eq_some_iff.1 hsecond).1
        omega
      rw [hlive, if_neg hmany]

end Remove

/-- Node 1 refers to node 2 and then to node 3. -/
def twoRefs : PonGcState :=
  let gc := ponGcNodeCreate (ponGcNodeCreate (ponGcNodeCreate ponGcInit 1 none 8) 2 none 8) 3 none 8
  (ponGcAddRefs gc 1 [2, 3]).getD gc

theorem twoRefs_removeRef : RemovesOne twoRefs 1 3 ↔ some 3 ∉ (twoRefs.node 1).live ∨
    (twoRefs.node 1).live.length = 1 ∨ (twoRefs.node 1).live[1]? = some (some 3) :=
  removeRef_iff ⟨_, rfl⟩ (by decide)

/-- Removing the reference to node 2 removes the one to node 3. -/
theorem twoRefs_removes_other : ¬ RemovesOne twoRefs 1 2 := by
  intro h
  obtain ⟨i, hi, herase⟩ := h.occurs (by decide)
  have hbefore : (twoRefs.node 1).live = [some 2, some 3] := by decide
  have hafter : ((ponGcRemoveRef twoRefs (some 1) (some 2)).node 1).live = [some 2] := by decide
  rw [hbefore, hafter] at herase
  rw [hbefore] at hi
  match i with
  | 0 => cases herase
  | 1 => cases hi
  | i + 2 => cases hi

end PonBeam.Gc
