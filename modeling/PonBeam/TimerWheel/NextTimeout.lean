import PonBeam.TimerWheel.Ops
import PonBeam.TimerWheel.Scan

/-!
# The next timeout

`find_next_timeout` keeps the invariant wherever a bump is: the minima it raises are bounds of
the timers ahead that are in their slots. On a wheel at rest without timers in the at-once slot
the next timeout it finds is not after any timer.
-/

namespace PonBeam.TimerWheel

/-- What a search leaves alone. -/
structure Searched (tiw tiw' : Wheel) (currTime : ℤ) : Prop where
  slot : tiw'.slot = tiw.slot
  timeoutPos : tiw'.timeoutPos = tiw.timeoutPos
  yieldSlot : tiw'.yieldSlot = tiw.yieldSlot
  yieldSlotsLeft : tiw'.yieldSlotsLeft = tiw.yieldSlotsLeft
  /-- an empty wheel is moved to the present -/
  pos : tiw'.pos = tiw.pos ∨ tiw'.pos = monotonicToClktcks currTime
  /-- the next timeout in both units -/
  time : tiw'.nextTimeoutTime = clktcksToMonotonic tiw'.nextTimeoutPos

theorem Wheel.findNextTimeout_searched (tiw : Wheel) (currTime : ℤ) :
    Searched tiw (tiw.findNextTimeout currTime) currTime := by
  unfold Wheel.findNextTimeout Wheel.findLaterTimeout Wheel.findSoonTimeout
  dsimp only
  split_ifs
  · exact ⟨rfl, rfl, rfl, rfl, Or.inr rfl, rfl⟩
  all_goals exact ⟨rfl, rfl, rfl, rfl, Or.inl rfl, rfl⟩

section

variable {A : Finset Tmr} {tiw : Wheel} {st : Stage} {busy : Bool} {pn pb m : ℤ} {t : Tmr}

theorem foundTimeout_le (tiw : Wheel) (m : ℤ) (b : Bool) :
    (tiw.foundTimeout m b).nextTimeoutPos ≤ m := by
  unfold Wheel.foundTimeout Wheel.setNextTimeout
  dsimp only
  split_ifs <;> omega

theorem Inv.foundTimeout (h : Inv A tiw st busy pn pb) (b : Bool) :
    Inv A (tiw.foundTimeout m b) st busy pn pb :=
  { h with }

/-- At rest no list is taken. -/
theorem Inv.notMem_sentinel (h : Inv A tiw st false pn pb) (t : Tmr) : t ∉ tiw.sentinel := by
  rw [h.idle rfl]
  exact List.not_mem_nil

/-- At rest later timers are not before the start of a search. -/
theorem Inv.later_ge (h : Inv A tiw .atOnce false pn pb) (ht : 16384 ≤ tiw.slot t) :
    tiw.laterPos ≤ tiw.timeoutPos t ∧ tiw.laterMinTpos ≤ tiw.timeoutPos t :=
  ⟨(h.staged t).2 ht, (h.minima t (h.notMem_sentinel t)).later ht ((h.staged t).2 ht)⟩

/-- At rest soon timers are ahead. -/
theorem Inv.soon_ge (h : Inv A tiw .atOnce false pn pb) (ht : 0 ≤ tiw.slot t)
    (ht' : tiw.slot t < 16384) :
    tiw.pos < tiw.timeoutPos t ∧ tiw.soonMinTpos ≤ tiw.timeoutPos t :=
  ⟨(h.staged t).1 ht ht', (h.minima t (h.notMem_sentinel t)).soon ht ht' ((h.staged t).1 ht ht')⟩

/-- An empty slot has no timers but those in the list that was taken. -/
theorem Inv.slot_ne_of_nil (h : Inv A tiw st busy pn pb) {i : ℤ} (hi : tiw.w i = [])
    (hne : i ≠ -2) (hout : t ∉ tiw.sentinel) : tiw.slot t ≠ i := fun he => by
  have hm := (h.lists.cover t (by rw [he]; exact hne)).resolve_right hout
  rw [he, hi] at hm
  exact List.not_mem_nil hm

/-- A wheel without timers may be anywhere. -/
theorem Inv.of_inactive (h : Inv A tiw st busy pn pb) (hnone : ∀ t, tiw.slot t = -2) (pos : ℤ) :
    Inv A { tiw with pos := pos, laterPos := laterPosMask (pos + soonWheelSize) } st busy
      pn pb := by
  have hmask : laterPosMask (pos + soonWheelSize) = endPos pos := rfl
  rw [hmask]
  refine ⟨h.lists, h.counts, fun t => ?placed, fun t _ => MinimaAt.of_inactive (hnone t), ?aligned,
    ?ahead, ?rules, fun t => ?staged, fun hst ix => ?due, h.idle, h.running,
    fun _ t ht => ?calm⟩
  case placed =>
    dsimp only
    rw [hnone t]
    constructor <;> omega
  case aligned =>
    dsimp only
    unfold endPos
    omega
  case ahead =>
    dsimp only
    unfold endPos
    omega
  case rules =>
    have hrules := h.rules
    cases st with
    | atOnce =>
      simp only [Stage.Rules, endPos]
      omega
    | soon slot slots => exact hrules
    | later slot slots => exact ⟨hrules.1, hrules.2.1, hrules.2.2.1, rfl⟩
  case staged =>
    dsimp only
    rw [hnone t]
    cases st <;> simp only [Stage.At] <;> omega
  case due =>
    refine le_trans (Int.add_le_add_right (tally_mono fun t _ ht => ?_) _) (h.due hst ix)
    have hdue := ht.1
    dsimp only at hdue
    rw [hnone t, DueAt] at hdue
    omega
  case calm =>
    exact absurd ((h.lists.slot_of_mem _ t ht).symm.trans (hnone t)) h.lists.cur_ne

/-! ## In the later wheel -/

/-- The later wheel's minimum may be raised to a bound of its timers. -/
theorem Inv.raise_laterMin (h : Inv A tiw st busy pn pb) (slot : ℤ)
    (hm : ∀ t, t ∉ tiw.sentinel → 16384 ≤ tiw.slot t → tiw.laterPos ≤ tiw.timeoutPos t →
      m ≤ tiw.timeoutPos t) :
    Inv A { tiw with laterMinTpos := m, laterMinTposSlot := slot } st busy pn pb :=
  { h with minima := fun t hout => ⟨(h.minima t hout).soon, hm t hout⟩ }

/-- From a position no timer is before, going on to the next slot passes none of them either. -/
theorem Inv.later_next (h : Inv A tiw st busy pn pb) {tpos slots : ℤ}
    (halign : tpos % 8192 = 0) (hslots : 1 ≤ slots) (hempty : tiw.w (laterSlot tpos) = [])
    (hout : t ∉ tiw.sentinel) (ht : 16384 ≤ tiw.slot t) (hstart : tpos ≤ tiw.timeoutPos t) :
    tpos + 8192 * (slots - (scntLaterWheelNext (laterSlot tpos) slots tiw.scnt).2)
      ≤ tiw.timeoutPos t := by
  have hslot : laterSlot tpos = tpos / 8192 % 16384 + 16384 := rfl
  obtain ⟨d, hd, hres, hdl, hskip⟩ := scntLaterWheelNext_moved tiw.scnt
    (laterSlot tpos) slots (by omega) (by omega) hslots
  rw [hres]
  dsimp only
  by_contra hlt
  have hts := (h.placed t).later ht
  -- the timer would be in a slot passed over
  obtain ⟨k, hk⟩ : ∃ k, k = tiw.timeoutPos t / 8192 - tpos / 8192 := ⟨_, rfl⟩
  rcases eq_or_lt_of_le (show 0 ≤ k by omega) with hk0 | hk0
  · exact h.slot_ne_of_nil hempty (by omega) hout (by omega)
  · have hz := hskip k (by omega) (by omega)
    refine h.counts.not_range hz t ⟨by omega, ?_⟩
    rw [hts, hslot]
    congr 1
    omega

/-- A search in the later wheel keeps its minimum, or raises it to a bound of its timers. -/
theorem Inv.findLaterTimeout_cases (h : Inv A tiw st busy pn pb) :
    tiw.findLaterTimeout =
      tiw.foundTimeout (laterPosMask tiw.laterMinTpos - laterWheelSlotSize) false ∨
    ∃ m slot b, tiw.findLaterTimeout =
        Wheel.foundTimeout { tiw with laterMinTpos := m, laterMinTposSlot := slot }
          (m - laterWheelSlotSize) b ∧
      ∀ t, t ∉ tiw.sentinel → 16384 ≤ tiw.slot t → tiw.laterPos ≤ tiw.timeoutPos t →
        m ≤ tiw.timeoutPos t := by
  have hmask : laterPosMask tiw.laterMinTpos ≤ tiw.laterMinTpos ∧
      laterPosMask tiw.laterMinTpos % 8192 = 0 := by
    unfold laterPosMask laterWheelSlotSize
    omega
  have halign := h.aligned
  unfold Wheel.findLaterTimeout
  dsimp only
  by_cases hfar : laterPosMask tiw.laterMinTpos > tiw.laterPos ∧
      (laterPosMask tiw.laterMinTpos - tiw.laterPos) / laterWheelSlotSize ≥ laterWheelSize
  · rw [if_pos hfar]
    exact Or.inl rfl
  · obtain ⟨tpos, htpos⟩ : ∃ x, x = if laterPosMask tiw.laterMinTpos ≤ tiw.laterPos
        then tiw.laterPos else laterPosMask tiw.laterMinTpos := ⟨_, rfl⟩
    obtain ⟨slots, hslots⟩ : ∃ x, x = if laterPosMask tiw.laterMinTpos ≤ tiw.laterPos
        then laterWheelSize else laterWheelSize -
          (laterPosMask tiw.laterMinTpos - tiw.laterPos) / laterWheelSlotSize := ⟨_, rfl⟩
    rw [if_neg hfar, ← htpos, ← hslots]
    unfold laterWheelSize laterWheelSlotSize at *
    have hpos : 1 ≤ slots := by
      rw [hslots]
      split_ifs <;> omega
    have hta : tpos % 8192 = 0 := by
      rw [htpos]
      split_ifs <;> omega
    refine Or.inr ⟨_, _, _, rfl, fun t hout ht hge => ?_⟩
    have hstart : tpos ≤ tiw.timeoutPos t := by
      have hmin := (h.minima t hout).later ht hge
      rw [htpos]
      split_ifs <;> omega
    split_ifs with hfound
    · exact hstart
    · exact h.later_next hta hpos (by simpa using hfound) hout ht hstart

/-! ## In the soon wheel -/

/-- The soon wheel's minimum may be raised to a bound of its timers. -/
theorem Inv.raise_soonMin (h : Inv A tiw st busy pn pb)
    (hm : ∀ t, t ∉ tiw.sentinel → 0 ≤ tiw.slot t → tiw.slot t < 16384 →
      tiw.pos < tiw.timeoutPos t → m ≤ tiw.timeoutPos t) :
    Inv A { tiw with soonMinTpos := m } st busy pn pb :=
  { h with minima := fun t hout => ⟨hm t hout, (h.minima t hout).later⟩ }

/-- The search of the soon wheel does not go around it. -/
theorem Inv.laterPreTimeout_le (h : Inv A tiw st busy pn pb) :
    tiw.laterPreTimeout ≤ tiw.pos + 16384 := by
  have hahead := h.ahead
  unfold Wheel.laterPreTimeout
  dsimp only
  unfold laterWheelSlotSize soonWheelSize
  split_ifs <;> omega

/-- At rest the two slots of the later wheel give a bound of its timers. -/
theorem Inv.laterPreTimeout_later (h : Inv A tiw .atOnce false pn pb)
    (ht : 16384 ≤ tiw.slot t) : tiw.laterPreTimeout ≤ tiw.timeoutPos t := by
  have halign := h.aligned
  have hahead := h.ahead
  have hrules : tiw.pos + 8192 < tiw.laterPos := h.rules
  have hslot : laterSlot tiw.laterPos = tiw.laterPos / 8192 % 16384 + 16384 := rfl
  obtain ⟨hge, hmin⟩ := h.later_ge ht
  have hnext : tiw.w (laterSlot tiw.laterPos) = [] → tiw.laterPos + 8192 ≤ tiw.timeoutPos t :=
    fun hnil => by
      have hne := h.slot_ne_of_nil hnil (by omega) (h.notMem_sentinel t)
      have hts := (h.placed t).later ht
      omega
  unfold Wheel.laterPreTimeout
  dsimp only
  unfold laterWheelSlotSize soonWheelSize
  split_ifs with h1 h2 h3 h4 h5 h6
  all_goals try omega
  all_goals
    have hfar := hnext (not_not.mp h2)
    omega

/-- The loop over the soon wheel stops at a bound of its timers. -/
theorem Inv.searchSoon_le (h : Inv A tiw st busy pn pb) (fuel : ℕ) (slots tpos : ℤ)
    (hm : m ≤ tiw.pos + 16384) (hslots : slots + tpos = tiw.pos + 16384) (hfuel : m - tpos ≤ fuel)
    (hstart : ∀ t, t ∉ tiw.sentinel → 0 ≤ tiw.slot t → tiw.slot t < 16384 →
      tiw.pos < tiw.timeoutPos t → tpos ≤ tiw.timeoutPos t) :
    tiw.searchSoon m fuel (soonSlot tpos) slots tpos ≤ m ∧
      ∀ t, t ∉ tiw.sentinel → 0 ≤ tiw.slot t → tiw.slot t < 16384 →
        tiw.pos < tiw.timeoutPos t →
        tiw.searchSoon m fuel (soonSlot tpos) slots tpos ≤ tiw.timeoutPos t := by
  have hslot : soonSlot tpos = tpos % 16384 := rfl
  induction fuel generalizing slots tpos with
  | zero =>
    rw [Wheel.searchSoon]
    refine ⟨le_refl m, fun t hout ht ht' hpos => ?_⟩
    have hge := hstart t hout ht ht' hpos
    push_cast at hfuel
    omega
  | succ fuel ih =>
    rw [Wheel.searchSoon]
    split_ifs with hlt hfound
    · exact ⟨by omega, hstart⟩
    · obtain ⟨d, hd, hres, hdl, hskip⟩ := scntSoonWheelNext_moved tiw.scnt
        (soonSlot tpos) slots (by omega) (by omega) (by omega)
      have hnext : (soonSlot tpos + d) % 16384 = soonSlot (tpos + d) := by
        change (tpos % 16384 + d) % 16384 = (tpos + d) % 16384
        omega
      rw [hres]
      dsimp only
      rw [hnext, show slots - (slots - d) = d by omega]
      refine ih _ _ (by omega) (by push_cast at hfuel; omega) (fun t hout ht ht' hpos => ?_) rfl
      by_contra hbefore
      have hge := hstart t hout ht ht' hpos
      have hts := ((h.placed t).soon ht ht').1
      obtain ⟨k, hk⟩ : ∃ k, k = tiw.timeoutPos t - tpos := ⟨_, rfl⟩
      rcases eq_or_lt_of_le (show 0 ≤ k by omega) with hk0 | hk0
      · exact h.slot_ne_of_nil (not_not.mp hfound) (by omega) hout (by omega)
      · have hz := hskip k (by omega) (by omega)
        refine h.counts.not_range hz t ⟨ht, ?_⟩
        congr 1
        omega
    · refine ⟨le_refl m, fun t hout ht ht' hpos => ?_⟩
      have hge := hstart t hout ht ht' hpos
      omega

/-- A search in the soon wheel raises its minimum to a bound of its timers. -/
theorem Inv.findSoonTimeout_cases (h : Inv A tiw st busy pn pb) :
    ∃ m, tiw.findSoonTimeout = Wheel.foundTimeout { tiw with soonMinTpos := m } m true ∧
      m ≤ tiw.laterPreTimeout ∧
      ∀ t, t ∉ tiw.sentinel → 0 ≤ tiw.slot t → tiw.slot t < 16384 →
        tiw.pos < tiw.timeoutPos t → m ≤ tiw.timeoutPos t := by
  unfold Wheel.findSoonTimeout
  dsimp only
  obtain ⟨tpos, htpos⟩ : ∃ x, x = if tiw.soonMinTpos ≤ tiw.pos then tiw.pos
      else tiw.soonMinTpos := ⟨_, rfl⟩
  rw [← htpos]
  obtain ⟨hle, hsoon⟩ := h.searchSoon_le (tiw.laterPreTimeout - tpos).toNat
    (soonWheelSize - (tpos - tiw.pos)) tpos h.laterPreTimeout_le
    (by unfold soonWheelSize; omega) (by omega) (fun t hout ht ht' hpos => by
      have hmin := (h.minima t hout).soon ht ht' hpos
      rw [htpos]
      split_ifs <;> omega)
  exact ⟨_, rfl, hle, hsoon⟩

/-! ## The search -/

/-- **`find_next_timeout`** keeps the invariant, wherever a bump has yielded. -/
theorem Inv.findNextTimeout (h : Inv A tiw st busy 0 0) (currTime : ℤ) :
    Inv A (tiw.findNextTimeout currTime) st busy 0 0 := by
  unfold Wheel.findNextTimeout
  dsimp only
  split_ifs with hnto hsoon
  · have hnone : ∀ t, tiw.slot t = -2 := h.counts.inactive_of_nto (by omega)
    exact (h.of_inactive hnone _).foundTimeout _
  · rcases h.findLaterTimeout_cases with he | ⟨m, slot, b, he, hm⟩
    · rw [he]
      exact h.foundTimeout _
    · rw [he]
      exact (h.raise_laterMin slot hm).foundTimeout _
  · obtain ⟨m, he, -, hm⟩ := h.findSoonTimeout_cases
    rw [he]
    exact (h.raise_soonMin hm).foundTimeout _

/-- **At rest**, with the at-once slot empty, the search answers a bound of all timers. -/
theorem Inv.findNextTimeout_le (h : Inv A tiw .atOnce false 0 0) (hat : tiw.atOnceNto = 0)
    (currTime : ℤ) (ht : tiw.slot t ≠ -2) :
    (tiw.findNextTimeout currTime).nextTimeoutPos ≤ tiw.timeoutPos t := by
  have hnone := h.counts.not_atOnce hat t
  have hlower := (h.placed t).lower
  unfold Wheel.findNextTimeout
  dsimp only
  split_ifs with hnto hsoon
  · exact absurd (h.counts.inactive_of_nto (by omega) t) ht
  · -- all timers are in the later wheel
    have hlater : 16384 ≤ tiw.slot t := by
      have hno := h.counts.not_soon hsoon t
      omega
    obtain ⟨hge, hmin⟩ := h.later_ge hlater
    rcases h.findLaterTimeout_cases with he | ⟨m, slot, b, he, hm⟩
    · rw [he]
      refine (foundTimeout_le ..).trans ?_
      unfold laterPosMask laterWheelSlotSize
      omega
    · rw [he]
      refine (foundTimeout_le ..).trans ?_
      have hmt := hm t (h.notMem_sentinel t) hlater hge
      unfold laterWheelSlotSize
      omega
  · obtain ⟨m, he, hpre, hm⟩ := h.findSoonTimeout_cases
    rw [he]
    refine (foundTimeout_le ..).trans ?_
    rcases lt_or_ge (tiw.slot t) 16384 with hs | hl
    · exact hm t (h.notMem_sentinel t) (by omega) hs (h.soon_ge (by omega) hs).1
    · exact hpre.trans (h.laterPreTimeout_later hl)

end

end PonBeam.TimerWheel
