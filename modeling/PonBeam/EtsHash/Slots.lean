import PonBeam.EtsHash.Traverse
import PonBeam.Lib.Seg
import Mathlib.Data.Nat.ModEq

/-!
# The order in which buckets are visited

`next_slot` visits the buckets of the first lock, then those of the second, and so on: each
active bucket once.
-/

namespace PonBeam.EtsHash

section

variable {Obj : Type} {tb : DbTableHash Obj} {ix i j fuel : ℕ}

/-- The locks of a table. -/
structure Locks (tb : DbTableHash Obj) : Prop where
  pow : ∃ a, tb.nlocks = 2 ^ a
  le : tb.nlocks ≤ tb.nactive

theorem Locks.pos (h : Locks tb) : 0 < tb.nlocks := by
  obtain ⟨a, ha⟩ := h.pow
  rw [ha]
  exact Nat.two_pow_pos a

/-- Bucket `j` is visited after bucket `i`. -/
def SlotLt (tb : DbTableHash Obj) (i j : ℕ) : Prop :=
  i % tb.nlocks < j % tb.nlocks ∨ i % tb.nlocks = j % tb.nlocks ∧ i < j

theorem SlotLt.trans {k : ℕ} (h : SlotLt tb i j) (h' : SlotLt tb j k) : SlotLt tb i k := by
  unfold SlotLt at *
  omega

theorem SlotLt.ne (h : SlotLt tb i j) : i ≠ j := by
  unfold SlotLt at h
  rintro rfl
  omega

theorem nextSlot_eq (h : Locks tb) : tb.nextSlot ix =
    if ix + tb.nlocks < tb.nactive then ix + tb.nlocks
    else if ix % tb.nlocks + 1 < tb.nlocks then ix % tb.nlocks + 1 else 0 := by
  obtain ⟨a, ha⟩ := h.pow
  have hlt := Nat.mod_lt ix h.pos
  simp only [DbTableHash.nextSlot]
  split_ifs with h1 h2
  · rfl
  · rw [ha, Nat.and_two_pow_sub_one_eq_mod, ← ha, Nat.add_right_comm, Nat.add_mod_right,
      ← Nat.mod_add_mod, Nat.mod_eq_of_lt h2]
  · have heq : ix % tb.nlocks + 1 = tb.nlocks := by omega
    rw [ha, Nat.and_two_pow_sub_one_eq_mod, ← ha, Nat.add_right_comm, Nat.add_mod_right,
      ← Nat.mod_add_mod, heq, Nat.mod_self]

theorem nextSlot_lt (h : Locks tb) (ix : ℕ) : tb.nextSlot ix < tb.nactive := by
  have hle := h.le
  have hpos := h.pos
  rw [nextSlot_eq h]
  split_ifs <;> omega

theorem slotLt_nextSlot (h : Locks tb) (hne : tb.nextSlot ix ≠ 0) :
    SlotLt tb ix (tb.nextSlot ix) := by
  have hpos := h.pos
  rw [nextSlot_eq h] at hne ⊢
  split_ifs at hne ⊢ with h1 h2
  · exact Or.inr ⟨(Nat.add_mod_right ..).symm, by omega⟩
  · left
    rw [Nat.mod_eq_of_lt h2]
    omega
  · exact absurd rfl hne

/-- There is no bucket between. -/
theorem nextSlot_least (h : Locks tb) (hj : j < tb.nactive) (hlt : SlotLt tb ix j) :
    tb.nextSlot ix ≠ 0 ∧ (j = tb.nextSlot ix ∨ SlotLt tb (tb.nextSlot ix) j) := by
  have hpos := h.pos
  have hmod := Nat.mod_lt j hpos
  rw [nextSlot_eq h]
  split_ifs with h1 h2
  · refine ⟨by omega, ?_⟩
    unfold SlotLt
    rw [Nat.add_mod_right]
    rcases hlt with hlt | ⟨heq, hlt⟩
    · exact Or.inr (Or.inl hlt)
    · have hle : ix + tb.nlocks ≤ j := Nat.ModEq.add_le_of_lt heq hlt
      omega
  · refine ⟨by omega, ?_⟩
    unfold SlotLt
    rw [Nat.mod_eq_of_lt h2]
    rcases hlt with hlt | ⟨heq, hlt⟩
    · have hle := Nat.mod_le j tb.nlocks
      omega
    · have hle : ix + tb.nlocks ≤ j := Nat.ModEq.add_le_of_lt heq hlt
      omega
  · rcases hlt with hlt | ⟨heq, hlt⟩
    · omega
    · have hle : ix + tb.nlocks ≤ j := Nat.ModEq.add_le_of_lt heq hlt
      omega

/-! ## The buckets behind one -/

/-- How far the visits are. -/
def slotPos (tb : DbTableHash Obj) (i : ℕ) : ℕ := i % tb.nlocks * tb.nactive + i / tb.nlocks

theorem slotPos_lt (h : Locks tb) (hi : i < tb.nactive) : slotPos tb i < tb.slotFuel := by
  have hdiv := Nat.div_le_self i tb.nlocks
  calc
    slotPos tb i < i % tb.nlocks * tb.nactive + tb.nactive := by
      unfold slotPos
      omega
    _ = (i % tb.nlocks + 1) * tb.nactive := (Nat.succ_mul ..).symm
    _ ≤ tb.nlocks * tb.nactive := Nat.mul_le_mul_right _ (Nat.mod_lt i h.pos)

theorem slotPos_nextSlot (h : Locks tb) (hix : ix < tb.nactive) (hne : tb.nextSlot ix ≠ 0) :
    slotPos tb ix < slotPos tb (tb.nextSlot ix) := by
  have hdiv := Nat.div_le_self ix tb.nlocks
  rw [nextSlot_eq h] at hne ⊢
  unfold slotPos
  split_ifs at hne ⊢ with h1 h2
  · rw [Nat.add_mod_right, Nat.add_div_right _ h.pos]
    omega
  · rw [Nat.mod_eq_of_lt h2, Nat.div_eq_of_lt h2, Nat.succ_mul]
    omega
  · exact absurd rfl hne

/-- The buckets that `next_slot` visits after `i`. -/
def slotsAfter (tb : DbTableHash Obj) : ℕ → ℕ → List ℕ
  | 0, _ => []
  | fuel + 1, i =>
    if tb.nextSlot i = 0 then [] else tb.nextSlot i :: slotsAfter tb fuel (tb.nextSlot i)

theorem slotsAfter_lt (h : Locks tb) (hj : j ∈ slotsAfter tb fuel i) : j < tb.nactive := by
  induction fuel generalizing i with
  | zero => exact absurd hj List.not_mem_nil
  | succ fuel ih =>
    rw [slotsAfter] at hj
    split_ifs at hj
    · exact absurd hj List.not_mem_nil
    · rcases List.mem_cons.1 hj with rfl | hj
      · exact nextSlot_lt h i
      · exact ih hj

theorem slotLt_slotsAfter (h : Locks tb) (hj : j ∈ slotsAfter tb fuel i) : SlotLt tb i j := by
  induction fuel generalizing i with
  | zero => exact absurd hj List.not_mem_nil
  | succ fuel ih =>
    rw [slotsAfter] at hj
    split_ifs at hj with hne
    · exact absurd hj List.not_mem_nil
    · rcases List.mem_cons.1 hj with rfl | hj
      · exact slotLt_nextSlot h hne
      · exact (slotLt_nextSlot h hne).trans (ih hj)

theorem slotsAfter_nodup (h : Locks tb) (fuel i : ℕ) : (slotsAfter tb fuel i).Nodup := by
  induction fuel generalizing i with
  | zero => exact List.nodup_nil
  | succ fuel ih =>
    rw [slotsAfter]
    split_ifs
    · exact List.nodup_nil
    · exact List.nodup_cons.2 ⟨fun hmem => (slotLt_slotsAfter h hmem).ne rfl, ih _⟩

theorem mem_slotsAfter (h : Locks tb) (hi : i < tb.nactive) (hj : j < tb.nactive)
    (hlt : SlotLt tb i j) (hfuel : tb.slotFuel ≤ fuel + slotPos tb i) :
    j ∈ slotsAfter tb fuel i := by
  induction fuel generalizing i with
  | zero =>
    have hpos := slotPos_lt h hi
    omega
  | succ fuel ih =>
    obtain ⟨hne, hnext⟩ := nextSlot_least h hj hlt
    rw [slotsAfter, if_neg hne]
    rcases hnext with rfl | hnext
    · exact List.mem_cons_self
    · have hpos := slotPos_nextSlot h hi hne
      exact List.mem_cons_of_mem _ (ih (nextSlot_lt h i) hnext (by omega))

/-- There is fuel enough. -/
theorem slotsAfter_fuel (h : Locks tb) (hi : i < tb.nactive) {fuel' : ℕ}
    (hfuel : tb.slotFuel ≤ fuel + slotPos tb i) (hfuel' : tb.slotFuel ≤ fuel' + slotPos tb i) :
    slotsAfter tb fuel i = slotsAfter tb fuel' i := by
  have hlt := slotPos_lt h hi
  induction fuel generalizing i fuel' with
  | zero => omega
  | succ fuel ih =>
    obtain ⟨m, rfl⟩ := Nat.exists_eq_succ_of_ne_zero (show fuel' ≠ 0 by omega)
    rw [slotsAfter, slotsAfter]
    split_ifs with hne
    · rfl
    · have hpos := slotPos_nextSlot h hi hne
      have hnext := nextSlot_lt h i
      exact congrArg _ (ih hnext (by omega) (by omega) (slotPos_lt h hnext))

/-- **The visits from a bucket on** are the end of those from any earlier one. -/
theorem slotsAfter_split (h : Locks tb) (hi : i < tb.nactive)
    (hj : j ∈ slotsAfter tb tb.slotFuel i) : ∃ before,
    slotsAfter tb tb.slotFuel i = before ++ j :: slotsAfter tb tb.slotFuel j := by
  suffices hsplit : ∀ fuel i, i < tb.nactive → tb.slotFuel ≤ fuel + slotPos tb i →
      j ∈ slotsAfter tb fuel i →
      ∃ before, slotsAfter tb fuel i = before ++ j :: slotsAfter tb tb.slotFuel j from
    hsplit _ i hi (Nat.le_add_right ..) hj
  intro fuel
  induction fuel with
  | zero => exact fun i _ _ hmem => absurd hmem List.not_mem_nil
  | succ fuel ih =>
    intro i hi hfuel hmem
    rw [slotsAfter] at hmem ⊢
    split_ifs at hmem ⊢ with hne
    · exact absurd hmem List.not_mem_nil
    · have hpos := slotPos_nextSlot h hi hne
      have hnext := nextSlot_lt h i
      rcases List.mem_cons.1 hmem with rfl | hmem
      · refine ⟨[], ?_⟩
        rw [List.nil_append, slotsAfter_fuel h hnext (by omega) (Nat.le_add_right ..)]
      · obtain ⟨before, heq⟩ := ih _ hnext (by omega) hmem
        exact ⟨tb.nextSlot i :: before, by rw [heq]; rfl⟩

/-! ## All buckets -/

/-- The buckets in the order of the visits. -/
def slots (tb : DbTableHash Obj) : List ℕ := 0 :: slotsAfter tb tb.slotFuel 0

theorem slots_nodup (h : Locks tb) : (slots tb).Nodup :=
  List.nodup_cons.2 ⟨fun hmem => (slotLt_slotsAfter h hmem).ne rfl, slotsAfter_nodup h _ _⟩

theorem mem_slots (h : Locks tb) : i ∈ slots tb ↔ i < tb.nactive := by
  have hpos : 0 < tb.nactive := Nat.lt_of_lt_of_le h.pos h.le
  constructor
  · intro hi
    rcases List.mem_cons.1 hi with rfl | hi
    · exact hpos
    · exact slotsAfter_lt h hi
  · intro hi
    by_cases h0 : i = 0
    · exact h0 ▸ List.mem_cons_self
    · refine List.mem_cons_of_mem 0 (mem_slotsAfter h hpos hi ?_ (Nat.le_add_right ..))
      unfold SlotLt
      rw [Nat.zero_mod]
      omega

theorem slots_split (h : Locks tb) (hi : i < tb.nactive) : ∃ before,
    slots tb = before ++ i :: slotsAfter tb tb.slotFuel i := by
  rcases List.mem_cons.1 ((mem_slots h).2 hi) with rfl | hmem
  · exact ⟨[], rfl⟩
  · obtain ⟨before, heq⟩ := slotsAfter_split h (Nat.lt_of_lt_of_le h.pos h.le) hmem
    exact ⟨0 :: before, by rw [slots, heq]; rfl⟩

/-- The bucket after `ix`, if there is one: `next_slot` returns 0 at the end. -/
def DbTableHash.followSlot (tb : DbTableHash Obj) (ix : ℕ) : Option ℕ :=
  if tb.nextSlot ix = 0 then none else some (tb.nextSlot ix)

/-- Following `next_slot` to its end. -/
theorem seg_slotsAfter (h : Locks tb) (hi : i < tb.nactive)
    (hfuel : tb.slotFuel ≤ fuel + slotPos tb i) :
    Seg tb.followSlot (tb.followSlot i) (slotsAfter tb fuel i) none := by
  induction fuel generalizing i with
  | zero =>
    have hpos := slotPos_lt h hi
    omega
  | succ fuel ih =>
    rw [slotsAfter]
    split_ifs with hend
    · exact if_pos hend
    · have hpos := slotPos_nextSlot h hi hend
      exact ⟨if_neg hend, ih (nextSlot_lt h i) (by omega)⟩

/-- **The slot iteration is complete**: from slot 0 on, `next_slot` comes to its end after it
has visited each active bucket once, and from any bucket on it visits those that come after. -/
theorem nextSlot_visits (h : Locks tb) :
    ∃ l, Seg tb.followSlot (some 0) l none ∧ l.Nodup ∧ (∀ j, j ∈ l ↔ j < tb.nactive) ∧
      ∀ ix < tb.nactive, ∃ before after, l = before ++ ix :: after ∧
        Seg tb.followSlot (tb.followSlot ix) after none := by
  have hpos : 0 < tb.nactive := Nat.lt_of_lt_of_le h.pos h.le
  have hseg := fun i (hi : i < tb.nactive) => seg_slotsAfter h hi (Nat.le_add_right ..)
  refine ⟨slots tb, ⟨rfl, hseg 0 hpos⟩, slots_nodup h, fun j => mem_slots h, fun ix hix => ?_⟩
  obtain ⟨before, hsplit⟩ := slots_split h hix
  exact ⟨before, _, hsplit, hseg ix hix⟩

/-- Three buckets behind two locks. -/
def threeBuckets : DbTableHash ℕ := { DbTableHash.create .set false 2 with nactive := 3 }

theorem threeBuckets_visits : ∃ l, Seg threeBuckets.followSlot (some 0) l none ∧ l.Nodup ∧
    (∀ j, j ∈ l ↔ j < threeBuckets.nactive) ∧ ∀ ix < threeBuckets.nactive, ∃ before after,
      l = before ++ ix :: after ∧ Seg threeBuckets.followSlot (threeBuckets.followSlot ix) after none :=
  nextSlot_visits ⟨⟨1, rfl⟩, by decide⟩

end

end PonBeam.EtsHash
