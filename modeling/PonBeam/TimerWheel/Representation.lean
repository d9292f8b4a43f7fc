import Mathlib.Algebra.BigOperators.Group.Finset.Basic
import PonBeam.TimerWheel.Links

/-!
# The representation of the wheel

What `hrd_dbg_check_wheels` checks in a debug build, and more, holds of every wheel that no
bump is working on: the counters, the circular lists, the places of the timers, the two
positions and the two minima. It holds after every run in which `bump_later_wheel` meets
its assertion `tpos < cpos + ERTS_TW_SOON_WHEEL_SIZE`; a run that does not leaves timers
where they should not be.
-/

namespace PonBeam.TimerWheel

/-- How many timers are in the slots from `first` on, before `last`. -/
def Wheel.timersIn (tiw : Wheel) (first last : ℤ) : ℕ :=
  ∑ i ∈ Finset.range (last - first).toNat, (tiw.w (first + i)).length

/-- **The wheel is well formed**, as are its pointers. -/
structure Represented (tiw : Wheel) (k : Links) : Prop where
  /-- `nto` is the sum of the others -/
  nto : tiw.nto = tiw.atOnceNto + tiw.soonNto + tiw.laterNto
  /-- `at_once.nto` -/
  atOnceNto : tiw.atOnceNto = (tiw.w slotAtOnce).length
  /-- `soon.nto` -/
  soonNto : tiw.soonNto = tiw.timersIn 0 soonWheelSize
  /-- `later.nto` -/
  laterNto : tiw.laterNto = tiw.timersIn laterWheelFirstSlot laterWheelEndSlot
  /-- `scnt` has the timers of each range of slots -/
  scnt : ∀ ix, 0 ≤ ix → ix < laterWheelEndSlot / scntRange →
    tiw.scnt ix = tiw.timersIn (ix * scntRange) ((ix + 1) * scntRange)
  /-- where the list of a slot starts -/
  first : ∀ i, k.w i = (tiw.w i).head?.map .timer
  /-- it is linked in a circle, both ways -/
  ring : ∀ i, Ring k.next k.prev ((tiw.w i).map .timer)
  /-- no timer is in it twice -/
  nodup : ∀ i, (tiw.w i).Nodup
  /-- its timers carry the number of the slot -/
  slot : ∀ i, ∀ t ∈ tiw.w i, tiw.slot t = i
  /-- a timer of the soon wheel -/
  soon : ∀ i, 0 ≤ i → i < soonWheelSize → ∀ t ∈ tiw.w i, tiw.pos < tiw.timeoutPos t ∧
    tiw.timeoutPos t < tiw.pos + soonWheelSize ∧ i = soonSlot (tiw.timeoutPos t)
  /-- a timer of the later wheel -/
  later : ∀ i, laterWheelFirstSlot ≤ i → i < laterWheelEndSlot → ∀ t ∈ tiw.w i,
    i = laterSlot (tiw.timeoutPos t) ∧ tiw.laterPos ≤ tiw.timeoutPos t
  /-- the position of the later wheel -/
  laterPos : tiw.pos + laterWheelSlotSize < tiw.laterPos ∧ tiw.laterPos ≤ tiw.pos + soonWheelSize
  /-- `soon.min_tpos` -/
  soonMinTpos : ∀ i, 0 ≤ i → i < soonWheelSize → ∀ t ∈ tiw.w i,
    tiw.soonMinTpos ≤ tiw.timeoutPos t
  /-- `later.min_tpos`, masked to its slot -/
  laterMinTpos : ∀ i, laterWheelFirstSlot ≤ i → i < laterWheelEndSlot → ∀ t ∈ tiw.w i,
    laterPosMask tiw.laterMinTpos ≤ tiw.timeoutPos t

section

variable {A : Finset Tmr} {tiw : Wheel} {s : State} {k : Links}

/-- The timers that carry the numbers of some slots are the ones in these slots. -/
theorem Inv.tally_slots (h : Inv A tiw .atOnce false 0 0) (first last : ℤ) (hfirst : -1 ≤ first) :
    (tally A fun t => first ≤ tiw.slot t ∧ tiw.slot t < last) = tiw.timersIn first last := by
  classical
  have hlists := h.lists
  rw [h.idle rfl] at hlists
  have hset : (A.filter fun t => first ≤ tiw.slot t ∧ tiw.slot t < last)
      = (Finset.range (last - first).toNat).biUnion fun i => (tiw.w (first + i)).toFinset := by
    ext t
    rw [Finset.mem_filter, Finset.mem_biUnion]
    refine ⟨fun ⟨_, hslot⟩ => ?_, fun ⟨i, hi, ht⟩ => ?_⟩
    · have hix : first + ((tiw.slot t - first).toNat : ℤ) = tiw.slot t := by omega
      refine ⟨(tiw.slot t - first).toNat, Finset.mem_range.mpr (by omega), ?_⟩
      rw [hix, List.mem_toFinset]
      exact hlists.mem_of_nil (by omega)
    · have hslot := hlists.slot_of_mem _ t (List.mem_toFinset.mp ht)
      rw [Finset.mem_range] at hi
      exact ⟨h.counts.mem t (by omega), by omega⟩
  have hcard : ((Finset.range (last - first).toNat).biUnion
      fun i => (tiw.w (first + i)).toFinset).card
      = ∑ i ∈ Finset.range (last - first).toNat, (tiw.w (first + i)).length := by
    rw [Finset.card_biUnion fun i _ j _ hij => ?_]
    · exact Finset.sum_congr rfl fun i _ => List.toFinset_card_of_nodup (hlists.nodup _)
    · refine Finset.disjoint_left.mpr fun t hi hj => hij ?_
      have hslot := hlists.slot_of_mem _ t (List.mem_toFinset.mp hi)
      have hslot' := hlists.slot_of_mem _ t (List.mem_toFinset.mp hj)
      omega
  unfold tally Wheel.timersIn
  rw [← hcard, ← hset]
  congr!

/-- Every timer that is counted is counted in one of the wheels. -/
theorem Inv.nto_eq (h : Inv A tiw .atOnce false 0 0) :
    tiw.nto = tiw.atOnceNto + tiw.soonNto + tiw.laterNto := by
  have hall := h.counts.all
  rw [Int.sub_zero] at hall
  rw [hall, h.counts.atOnce, h.counts.soon, h.counts.later, ← tally_or fun t _ => by omega,
    ← tally_or fun t _ => by omega]
  refine tally_congr fun t _ => ?_
  have hlo := (h.placed t).lower
  omega

/-- **A wheel at rest is well formed.** -/
theorem Inv.represented (h : Inv A tiw .atOnce false 0 0) (hk : Linked tiw.w tiw.sentinel k) :
    Represented tiw k where
  nto := h.nto_eq
  atOnceNto := by
    have hsum : tiw.timersIn (-1) 0 = (tiw.w slotAtOnce).length := Finset.sum_singleton ..
    rw [← hsum, ← h.tally_slots (-1) 0 (le_refl _), h.counts.atOnce]
    exact tally_congr fun t _ => by omega
  soonNto := by
    rw [← h.tally_slots 0 soonWheelSize (by omega), h.counts.soon]
    rfl
  laterNto := by
    rw [← h.tally_slots laterWheelFirstSlot laterWheelEndSlot (by decide), h.counts.later]
    refine tally_congr fun t _ => ⟨fun hslot => ⟨hslot, (h.placed t).upper⟩, fun hslot => hslot.1⟩
  scnt := by
    intro ix hlo hhi
    rw [← h.tally_slots (ix * scntRange) ((ix + 1) * scntRange) (by unfold scntRange; omega),
      h.counts.ranges]
    refine tally_congr fun t _ => ?_
    unfold scntRange
    omega
  first := hk.first
  ring i := hk.rings.ring (some i)
  nodup := h.lists.nodup
  slot := h.lists.slot_of_mem
  soon := by
    intro i hlo hhi t ht
    have hslot := h.lists.slot_of_mem i t ht
    subst hslot
    obtain ⟨hs, hlt⟩ := (h.placed t).soon hlo hhi
    exact ⟨(h.staged t).1 hlo hhi, hlt, hs⟩
  later := by
    intro i hlo hhi t ht
    have hslot := h.lists.slot_of_mem i t ht
    subst hslot
    exact ⟨(h.placed t).later hlo, (h.staged t).2 hlo⟩
  laterPos := ⟨h.rules, h.ahead⟩
  soonMinTpos := by
    intro i hlo hhi t ht
    have hslot := h.lists.slot_of_mem i t ht
    subst hslot
    exact (h.minima t (h.notMem_sentinel t)).soon hlo hhi ((h.staged t).1 hlo hhi)
  laterMinTpos := by
    intro i hlo hhi t ht
    have hslot := h.lists.slot_of_mem i t ht
    subst hslot
    have hmin := (h.minima t (h.notMem_sentinel t)).later hlo ((h.staged t).2 hlo)
    unfold laterPosMask laterWheelSlotSize
    omega

/-- A new wheel has empty lists. -/
theorem linked_of_init (hs : wheelSystem.init s) (hw : k.w = fun _ => none)
    (hnext : k.next .sentinel = .sentinel) (hprev : k.prev .sentinel = .sentinel) :
    s.Linked k := by
  obtain ⟨-, -, a, bumpScnt, left, timeoutPos, htiw⟩ := hs
  obtain ⟨hslots, hsent⟩ : s.tiw.w = (fun _ => []) ∧ s.tiw.sentinel = [] := by
    rw [htiw]
    exact ponTimerWheelArm_lists _ a
  unfold State.Linked
  rw [hslots, hsent]
  have hout : ∀ j x, x ∈ circles (fun _ => []) [] j → j = none := by
    intro j x hx
    cases j with
    | none => rfl
    | some i => exact absurd hx List.not_mem_nil
  refine ⟨fun i => congrFun hw i, fun j => ?_, fun j => ?_, fun i j x hi hj => ?_⟩
  · cases j with
    | none => exact Ring.singleton_iff.mpr ⟨hnext, hprev⟩
    | some i => exact Ring.nil
  · cases j with
    | none => exact List.nodup_singleton _
    | some i => exact List.nodup_nil
  · rw [hout i x hi, hout j x hj]

/-- Every state of a run that meets the assertion has the invariant, and pointers to match. -/
theorem linked_of_reach {x : State × Links}
    (h : (linkedSystem.restrict fun x l => InRange x.1 l).Reach x) :
    Good False x.1 ∧ x.1.Linked x.2 := by
  refine System.Reach.invariant (S := linkedSystem.restrict fun x l => InRange x.1 l)
    (I := fun x => Good False x.1 ∧ x.1.Linked x.2) ?_ ?_ h
  · rintro ⟨s, k⟩ ⟨hs, hw, hnext, hprev⟩
    exact ⟨good_of_init hs, linked_of_init hs hw hnext hprev⟩
  · rintro ⟨s, k⟩ l ⟨s', k'⟩ ⟨hg, hl⟩ ⟨hrange, hs, hk⟩
    refine ⟨hg.step ?_ False.elim hs, ?_⟩
    · rintro a rfl
      exact hrange
    · rw [hk]
      exact hl.step hg hs

end

/-- **The representation invariant.** In every run that meets the assertion the wheel is well
formed whenever no bump is working on it. -/
theorem represented_of_reach {s : State} {k : Links}
    (h : (linkedSystem.restrict fun x l => InRange x.1 l).Reach (s, k)) (hpc : s.pc = .idle)
    (hy : s.tiw.yieldSlot = slotInactive) : Represented s.tiw k := by
  obtain ⟨hg, hk⟩ := linked_of_reach h
  obtain ⟨A, hphase⟩ := hg.phase
  exact (phase_rest hphase hpc hy).represented hk

/-- Timers set for the ticks 16384 and 32768, both in the later wheel, and a bump at tick 8192. -/
def twoTimers : List Label :=
  [.set 0 16384 noTimerfd, .set 1 32768 noTimerfd, .bump 8192000000] ++
    List.replicate 12 (goOn 8192000000)

/-- The bump has moved the first timer to the soon wheel. -/
theorem twoTimers_represented :
    ∃ s k, (linkedSystem.restrict fun x l => InRange x.1 l).Reach (s, k) ∧ s.tiw.nto = 2 ∧
      s.tiw.w (soonSlot 16384) = [0] ∧ s.tiw.w (laterSlot 32768) = [1] ∧
      Represented s.tiw k := by
  have hend : (fresh.steps State.inRange twoTimers).map
      (fun s => (s.pc, s.tiw.yieldSlot, s.tiw.nto, s.tiw.w (soonSlot 16384),
        s.tiw.w (laterSlot 32768))) = some (.idle, slotInactive, 2, [0], [1]) := rfl
  obtain ⟨s, hs, hend⟩ := Option.map_eq_some_iff.mp hend
  obtain ⟨hpc, hy, hnto, hsoon, hlater⟩ : s.pc = .idle ∧ s.tiw.yieldSlot = slotInactive ∧
      s.tiw.nto = 2 ∧ s.tiw.w (soonSlot 16384) = [0] ∧ s.tiw.w (laterSlot 32768) = [1] := by
    simpa using hend
  have hreach : (wheelSystem.restrict InRange).Reach s :=
    reach_steps (fun s l s' hok _ hstep => ⟨inRange_of_checked hok l, hstep⟩)
      (.start fresh_init) hs
  obtain ⟨k, hk⟩ := exists_links hreach
  exact ⟨s, k, hk, hnto, hsoon, hlater, represented_of_reach hk hpc hy⟩

/-- **Timers out of place.** After the bump of `Lost` timer 1 is in the later wheel, behind
`later.pos`. -/
theorem bump_misplaces_timer :
    ∃ k, linkedSystem.Reach (Lost.returned, k) ∧ Lost.returned.pc = .idle ∧
      Lost.returned.tiw.yieldSlot = slotInactive ∧ ¬ Represented Lost.returned.tiw k := by
  obtain ⟨k, hk⟩ := exists_links Lost.returned_reach
  refine ⟨k, hk.of_restrict, rfl, rfl, fun h => ?_⟩
  have hbehind := (h.later 16388 (by decide) (by decide) 1 (by decide)).2
  exact absurd hbehind (by decide)

end PonBeam.TimerWheel
