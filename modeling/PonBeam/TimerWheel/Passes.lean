import PonBeam.TimerWheel.NextTimeout

/-!
# The passes of a bump

How the parts of `erts_bump_timers` and `bump_later_wheel` move the wheel from stage to
stage: a list is taken from its slot, its timers are triggered, kept or moved one by one,
the scan goes on to the next slot, and a scan with no slots left has found every timer it
had to.
-/

namespace PonBeam.TimerWheel

section

variable {A : Finset Tmr} {tiw : Wheel} {st : Stage} {busy : Bool} {slot slots : ℤ} {p : Tmr}
  {rest : List Tmr}

/-! ## The list of a slot -/

/-- **The list of a slot is taken.** -/
theorem Inv.takeSlot (h : Inv A tiw st false 0 0) (hrun : st.Running) :
    Inv A { tiw with w := Function.update tiw.w st.cur [], sentinel := tiw.w st.cur } st true 0
      0 := by
  have hl := h.lists
  rw [h.idle rfl] at hl
  refine ⟨hl.take h.lists.cur_ne, h.counts, h.placed, fun t _ => h.minima t (h.notMem_sentinel t),
    h.aligned, h.ahead, h.rules, h.staged, h.due, (fun hb => nomatch hb), fun _ => hrun,
    fun _ t ht => ?_⟩
  dsimp only at ht
  rw [Function.update_self] at ht
  exact absurd ht List.not_mem_nil

/-- The first timer of the list is one of the slot. -/
theorem Inv.slot_of_head (h : Inv A tiw st true 0 0) (hs : tiw.sentinel = p :: rest) :
    tiw.slot p = st.cur :=
  h.lists.slot_of_sentinel p (hs ▸ List.mem_cons_self ..)

theorem Inv.active_of_head (h : Inv A tiw st true 0 0) (hs : tiw.sentinel = p :: rest) :
    tiw.slot p ≠ -2 := by
  rw [h.slot_of_head hs]
  exact h.lists.cur_ne

theorem Inv.lists_pop (h : Inv A tiw st true 0 0) (hs : tiw.sentinel = p :: rest) :
    Lists tiw.w rest (Function.update tiw.slot p (-2)) st.cur := by
  have hl := h.lists
  rw [hs] at hl
  exact hl.pop

theorem sentinel_erase (hs : tiw.sentinel = p :: rest) : rest = tiw.sentinel.erase p := by
  rw [hs, List.erase_cons_head]

/-- **A timer of the at-once slot** is triggered. -/
theorem Inv.popAtOnce (h : Inv A tiw .atOnce true 0 0) (hs : tiw.sentinel = p :: rest) :
    Inv A { tiw with
      sentinel := rest
      nto := tiw.nto - 1
      atOnceNto := tiw.atOnceNto - 1
      slot := Function.update tiw.slot p slotInactive } .atOnce true 0 0 := by
  have hslot : tiw.slot p = -1 := h.slot_of_head hs
  refine h.vacate { Vacated.atOnce tiw p hslot with } (h.active_of_head hs)
    (h.lists_pop hs) (fun t ht => ht) (sentinel_erase hs) ?_ fun ix => ?_
  · dsimp only
    omega
  · dsimp only
    split_ifs <;> omega

/-- The wheel with the first timer of the list, one of the soon wheel, taken out. -/
def Wheel.popSoon (tiw : Wheel) (p : Tmr) (rest : List Tmr) : Wheel :=
  { tiw.decSoonNto with
    sentinel := rest
    scnt := scntAdd tiw.scnt (scntGetIx (tiw.slot p)) (-1)
    slot := Function.update tiw.slot p slotInactive }

/-- The wheel with the first timer of the list, one of the later wheel, taken out. -/
def Wheel.popLater (tiw : Wheel) (p : Tmr) (rest : List Tmr) : Wheel :=
  { tiw.decLaterNto with
    sentinel := rest
    scnt := scntAdd tiw.scnt (scntGetIx (tiw.slot p)) (-1)
    slot := Function.update tiw.slot p slotInactive }

theorem Inv.soon_range (h : Inv A tiw (.soon slot slots) busy 0 0) :
    0 ≤ slot ∧ slot < 16384 := by
  obtain ⟨-, hlo, hhi⟩ := h.rules
  exact ⟨hlo, hhi⟩

theorem Inv.later_range (h : Inv A tiw (.later slot slots) busy 0 0) :
    16384 ≤ slot ∧ slot < 32768 := by
  obtain ⟨-, hlo, hhi, -⟩ := h.rules
  exact ⟨hlo, hhi⟩

/-- **A timer of the soon wheel** is taken out of the list; a due one is still to be
accounted for in `bump_scnt`. -/
theorem Inv.popSoon (h : Inv A tiw (.soon slot slots) true 0 0)
    (hs : tiw.sentinel = p :: rest) (pb : ℤ) (hpb : pb ≤ 1)
    (hdue : pb ≤ 0 ∨ tiw.timeoutPos p ≤ tiw.pos) :
    Inv A (tiw.popSoon p rest) (.soon slot slots) true 1 pb := by
  have hslot : tiw.slot p = slot := h.slot_of_head hs
  obtain ⟨hlo, hhi⟩ := h.soon_range
  refine h.vacate { Vacated.soon tiw p (by omega) (by omega) with }
    (h.active_of_head hs) (h.lists_pop hs) (fun t ht => ht) (sentinel_erase hs)
    (by change tiw.nto - 1 = _; omega) fun ix => ?_
  change _ ≤ tiw.bumpScnt ix
  simp only [Stage.cur, hslot, DueAt]
  split_ifs <;> omega

/-- **A timer of the later wheel** is taken out of the list; one that is to leave the wheel is
taken out of `bump_scnt` too. -/
theorem Inv.popLater (h : Inv A tiw (.later slot slots) true 0 0) (hs : tiw.sentinel = p :: rest)
    (bumpScnt : ℤ → ℤ)
    (hdue : bumpScnt = tiw.bumpScnt ∨ (tiw.timeoutPos p < tiw.pos + 16384 ∧
      bumpScnt = scntAdd tiw.bumpScnt (scntGetIx slot) (-1))) :
    Inv A { tiw.popLater p rest with bumpScnt := bumpScnt } (.later slot slots) true 1 0 := by
  have hslot : tiw.slot p = slot := h.slot_of_head hs
  obtain ⟨hlo, hhi⟩ := h.later_range
  refine h.vacate { Vacated.later tiw p (by omega) with }
    (h.active_of_head hs) (h.lists_pop hs) (fun t ht => ht) (sentinel_erase hs)
    (by change tiw.nto - 1 = _; omega) fun ix => ?_
  change _ ≤ bumpScnt ix
  simp only [Stage.cur, hslot, DueAt]
  rcases hdue with rfl | ⟨hlt, rfl⟩
  · split_ifs <;> omega
  · rw [scntAdd_apply]
    unfold scntGetIx scntRange
    split_ifs <;> omega

/-- **A callback of the soon wheel is accounted for.** -/
theorem Inv.settleSoon (h : Inv A tiw (.soon slot slots) true 1 1) :
    Inv A { tiw with
      nto := tiw.nto - 1
      bumpScnt := scntAdd tiw.bumpScnt (scntGetIx slot) (-1) } (.soon slot slots) true 0
      0 := by
  refine ⟨h.lists, ?_, h.placed, h.minima, h.aligned, h.ahead, h.rules, h.staged,
    fun hst ix => ?_, h.idle, h.running, h.calm⟩
  · refine h.counts.cast rfl ?_ rfl rfl rfl fun _ => rfl
    dsimp only
    omega
  · have hle := h.due hst ix
    dsimp only
    rw [scntAdd_apply]
    simp only [Stage.cur, scntGetIx, scntRange] at hle ⊢
    split_ifs at hle ⊢ <;> omega

/-- **A callback of the later wheel is accounted for.** -/
theorem Inv.settleLater (h : Inv A tiw (.later slot slots) true 1 0) :
    Inv A { tiw with nto := tiw.nto - 1 } (.later slot slots) true 0 0 := by
  refine ⟨h.lists, ?_, h.placed, h.minima, h.aligned, h.ahead, h.rules, h.staged, h.due, h.idle,
    h.running, h.calm⟩
  refine h.counts.cast rfl ?_ rfl rfl rfl fun _ => rfl
  dsimp only
  omega

/-! ## On to the next slot -/

/-- A timer to be found is counted in the range of its slot. -/
theorem Inv.bumpScnt_pos (h : Inv A tiw st busy 0 0) (hst : st ≠ .atOnce) {t : Tmr}
    (hdue : DueAt tiw.pos (tiw.slot t) (tiw.timeoutPos t)) :
    0 < tiw.bumpScnt (tiw.slot t / 512) := by
  have hmem : t ∈ A := h.counts.mem t fun he => by
    unfold DueAt at hdue
    omega
  have hpos := tally_pos (P := fun x => DueAt tiw.pos (tiw.slot x) (tiw.timeoutPos x) ∧
    tiw.slot x / 512 = tiw.slot t / 512) hmem ⟨hdue, rfl⟩
  have hle := h.due hst (tiw.slot t / 512)
  rw [ite_self] at hle
  omega

/-- With its list done, the slot has no due timer. -/
theorem Inv.calm_of_nil (h : Inv A tiw st busy 0 0) (hs : tiw.sentinel = [])
    (hcalm : ∀ t ∈ tiw.w st.cur, st.Calm tiw.pos tiw.laterPos (tiw.timeoutPos t)) {t : Tmr}
    (ht : tiw.slot t = st.cur) : st.Calm tiw.pos tiw.laterPos (tiw.timeoutPos t) := by
  have hl := h.lists
  rw [hs] at hl
  refine hcalm t ?_
  rw [← ht]
  exact hl.mem_of_nil (by rw [ht]; exact hl.cur_ne)

/-- **The scan of the soon wheel goes on.** -/
theorem Inv.nextSoon (h : Inv A tiw (.soon slot slots) busy 0 0) (hs : tiw.sentinel = [])
    (hrun : 1 ≤ slots) (hcalm : ∀ t ∈ tiw.w slot, tiw.pos < tiw.timeoutPos t) :
    Inv A tiw (.soon (scntSoonWheelNext slot slots tiw.bumpScnt).1
      (scntSoonWheelNext slot slots tiw.bumpScnt).2) false 0 0 := by
  obtain ⟨hlo, hhi⟩ := h.soon_range
  obtain ⟨d, hd, hres, hdl, hskip⟩ := scntSoonWheelNext_moved tiw.bumpScnt _ _ hlo hhi hrun
  rw [hres]
  have hl := h.lists
  rw [hs] at hl
  refine ⟨hs ▸ hl.of_nil ?_, h.counts, h.placed, h.minima, h.aligned, h.ahead, ⟨by omega, ?_, ?_⟩,
    fun t => ⟨fun ht ht' => ?_, (h.staged t).2⟩, fun hst ix => ?_, fun _ => hs,
    (fun hb => nomatch hb), (fun hb => nomatch hb)⟩
  · dsimp only [Stage.cur]
    omega
  · dsimp only
    omega
  · dsimp only
    omega
  · dsimp only
    rcases (h.staged t).1 ht ht' with hnot | hwin
    · exact Or.inl hnot
    -- a due timer is in a slot left, and not in one passed over
    by_contra hnot
    have hle : tiw.timeoutPos t ≤ tiw.pos := not_lt.mp fun hlt => hnot (Or.inl hlt)
    obtain ⟨k, hk⟩ : ∃ k, k = (tiw.slot t - slot) % 16384 := ⟨_, rfl⟩
    rcases eq_or_lt_of_le (show 0 ≤ k by omega) with hk0 | hk0
    · have hc : tiw.pos < tiw.timeoutPos t := h.calm_of_nil hs hcalm (t := t) (by
        change tiw.slot t = slot
        omega)
      omega
    · have hz := hskip k (by omega) (by omega)
      have hpos := h.bumpScnt_pos (by simp) (t := t) (Or.inl ⟨ht, ht', hle⟩)
      rw [show tiw.slot t = (slot + k) % 16384 by omega] at hpos
      omega
  · have hle := h.due (by simp) ix
    rw [ite_self] at hle ⊢
    exact hle

/-- **The scan of the later wheel goes on.** -/
theorem Inv.nextLater (h : Inv A tiw (.later slot slots) busy 0 0) (hs : tiw.sentinel = [])
    (hrun : 1 ≤ slots) (hcalm : ∀ t ∈ tiw.w slot, tiw.laterPos ≤ tiw.timeoutPos t) :
    Inv A tiw (.later (scntLaterWheelNext slot slots tiw.bumpScnt).1
      (scntLaterWheelNext slot slots tiw.bumpScnt).2) false 0 0 := by
  obtain ⟨hlo, hhi⟩ := h.later_range
  obtain ⟨d, hd, hres, hdl, hskip⟩ :=
    scntLaterWheelNext_moved tiw.bumpScnt _ _ hlo hhi hrun
  obtain ⟨-, -, -, hend⟩ := h.rules
  rw [hres]
  have hl := h.lists
  rw [hs] at hl
  refine ⟨hs ▸ hl.of_nil ?_, h.counts, h.placed, h.minima, h.aligned, h.ahead,
    ⟨by omega, ?_, ?_, hend⟩, fun t => ⟨(h.staged t).1, fun ht => ?_⟩, fun hst ix => ?_,
    fun _ => hs, (fun hb => nomatch hb), (fun hb => nomatch hb)⟩
  · dsimp only [Stage.cur]
    omega
  · dsimp only
    omega
  · dsimp only
    omega
  · dsimp only
    have hup := (h.placed t).upper
    have hahead := h.ahead
    rcases (h.staged t).2 ht with hnot | hwin
    · exact Or.inl hnot
    -- a timer to leave the wheel is in a slot left, and not in one passed over
    by_contra hnot
    have hlt : tiw.timeoutPos t < tiw.laterPos := not_le.mp fun hle => hnot (Or.inl hle)
    obtain ⟨k, hk⟩ : ∃ k, k = (tiw.slot t - slot) % 16384 := ⟨_, rfl⟩
    rcases eq_or_lt_of_le (show 0 ≤ k by omega) with hk0 | hk0
    · have hc : tiw.laterPos ≤ tiw.timeoutPos t := h.calm_of_nil hs hcalm (t := t) (by
        change tiw.slot t = slot
        omega)
      omega
    · have hz := hskip k (by omega) (by omega)
      have hpos := h.bumpScnt_pos (by simp) (t := t) (Or.inr ⟨ht, by omega⟩)
      rw [show tiw.slot t = 16384 + (slot - 16384 + k) % 16384 by omega] at hpos
      omega
  · have hle := h.due (by simp) ix
    rw [ite_self] at hle ⊢
    exact hle

/-! ## From stage to stage -/

/-- **The scan of the soon wheel starts** after a position `q` no soon timer is before. -/
theorem Inv.enterSoon (h : Inv A tiw .atOnce false 0 0) {q bumpTo : ℤ} (hpos : tiw.pos ≤ q)
    (hq : q < bumpTo) (hsoon : ∀ t, 0 ≤ tiw.slot t → tiw.slot t < 16384 → q < tiw.timeoutPos t)
    (hslots : slots = if bumpTo - q < 16384 then bumpTo - q else 16384) :
    Inv A { tiw.setNextTimeout bumpTo with bumpScnt := tiw.scnt, pos := bumpTo }
      (.soon (soonSlot (q + 1)) slots) false 0 0 := by
  have hnil : tiw.sentinel = [] := h.idle rfl
  have hl := h.lists
  rw [hnil] at hl
  have hslot : soonSlot (q + 1) = (q + 1) % 16384 := rfl
  have hrange : 0 < slots ∧ (slots = 16384 ∨ (slots < 16384 ∧ q + slots = bumpTo)) := by
    rw [hslots]
    split_ifs <;> omega
  refine ⟨?_, h.counts, fun t => ?_, fun t hout => ?_, h.aligned, ?_,
    ⟨by omega, by omega, by omega⟩, fun t => ⟨fun ht ht' => ?_, (h.staged t).2⟩, fun _ ix => ?_,
    h.idle, (fun hb => nomatch hb), (fun hb => nomatch hb)⟩
  · change Lists tiw.w tiw.sentinel tiw.slot _
    rw [hnil]
    refine hl.of_nil ?_
    dsimp only [Stage.cur]
    omega
  · obtain ⟨h1, h2, h3, h4, h5⟩ := h.placed t
    dsimp only [Wheel.setNextTimeout]
    exact ⟨h1, h2, by omega, by omega, h5⟩
  · have hm := h.minima t hout
    dsimp only [Wheel.setNextTimeout]
    exact ⟨fun ha hb hc => hm.soon ha hb (by omega), hm.later⟩
  · have hahead := h.ahead
    dsimp only [Wheel.setNextTimeout]
    omega
  · have hts := ((h.placed t).soon ht ht').1
    have hge := hsoon t ht ht'
    dsimp only [Wheel.setNextTimeout]
    omega
  · rw [ite_self, Int.add_zero]
    dsimp only [Wheel.setNextTimeout]
    rw [h.counts.ranges ix]
    refine tally_mono fun t _ ht => ⟨?_, ht.2⟩
    have hdue := ht.1
    unfold DueAt at hdue
    omega

/-- **With no slots left** nothing in the soon wheel is due. -/
theorem Inv.soon_done (h : Inv A tiw (.soon slot slots) busy 0 0) (hslots : slots ≤ 0)
    {t : Tmr} (ht : 0 ≤ tiw.slot t) (ht' : tiw.slot t < 16384) : tiw.pos < tiw.timeoutPos t := by
  have hstaged := (h.staged t).1 ht ht'
  omega

/-- No timer of the later wheel is before its minimum while no list is taken. -/
theorem Inv.soon_later (h : Inv A tiw (.soon slot slots) false 0 0) {t : Tmr}
    (ht : 16384 ≤ tiw.slot t) : tiw.laterMinTpos ≤ tiw.timeoutPos t :=
  (h.minima t (h.notMem_sentinel t)).later ht ((h.staged t).2 ht)

/-- The scan of the soon wheel ends and the later wheel need not be looked at. -/
theorem Inv.endSoon (h : Inv A tiw (.soon slot slots) false 0 0) (hslots : slots ≤ 0)
    (hlater : tiw.pos + 8192 < tiw.laterPos) : Inv A tiw .atOnce false 0 0 := by
  have hnil : tiw.sentinel = [] := h.idle rfl
  have hl := h.lists
  rw [hnil] at hl
  exact ⟨hnil ▸ hl.of_nil (by decide), h.counts, h.placed, h.minima, h.aligned, h.ahead, hlater,
    fun t => ⟨h.soon_done hslots, (h.staged t).2⟩, fun hst => absurd rfl hst, h.idle,
    fun _ => trivial, (fun hb => nomatch hb)⟩

theorem endPos_facts (pos : ℤ) :
    endPos pos % 8192 = 0 ∧ endPos pos ≤ pos + 16384 ∧ pos + 8192 < endPos pos := by
  unfold endPos
  omega

/-- The later wheel has nothing to look at. -/
theorem Inv.skipLater (h : Inv A tiw (.soon slot slots) false 0 0) (hslots : slots ≤ 0)
    (hmin : endPos tiw.pos < laterPosMask tiw.laterMinTpos) :
    Inv A { tiw with laterPos := endPos tiw.pos } .atOnce false 0 0 := by
  have hnil : tiw.sentinel = [] := h.idle rfl
  have hl := h.lists
  rw [hnil] at hl
  obtain ⟨halign, hahead, hbound⟩ := endPos_facts tiw.pos
  refine ⟨?_, h.counts, h.placed, fun t hout => ⟨(h.minima t hout).soon, fun ht _ => ?_⟩, halign,
    hahead, hbound, fun t => ⟨h.soon_done hslots, fun ht => ?_⟩, fun hst => absurd rfl hst, h.idle,
    fun _ => trivial, (fun hb => nomatch hb)⟩
  · change Lists tiw.w tiw.sentinel tiw.slot _
    rw [hnil]
    exact hl.of_nil (by decide)
  · exact h.soon_later ht
  · have hge := h.soon_later ht
    unfold laterPosMask laterWheelSlotSize at hmin
    dsimp only
    omega

/-- Where the scan of the later wheel starts: no timer of it is before. -/
theorem Inv.startLaterPos (h : Inv A tiw (.soon slot slots) false 0 0)
    (hbump : tiw.laterPos ≤ tiw.pos + 8192)
    (hskip : ¬ (tiw.laterPos < laterPosMask tiw.laterMinTpos ∧
      endPos tiw.pos < laterPosMask tiw.laterMinTpos)) :
    State.startLaterPos tiw % 8192 = 0 ∧ State.startLaterPos tiw ≤ endPos tiw.pos ∧
      ∀ t, 16384 ≤ tiw.slot t → State.startLaterPos tiw ≤ tiw.timeoutPos t := by
  have haligned := h.aligned
  have hbound := (endPos_facts tiw.pos).2.2
  have hge : ∀ t, 16384 ≤ tiw.slot t →
      tiw.laterPos ≤ tiw.timeoutPos t ∧ tiw.laterMinTpos ≤ tiw.timeoutPos t := fun t ht =>
    ⟨(h.staged t).2 ht, h.soon_later ht⟩
  unfold State.startLaterPos
  unfold laterPosMask laterWheelSlotSize at *
  dsimp only
  split_ifs with hlt
  · refine ⟨by omega, by omega, fun t ht => ?_⟩
    have hget := hge t ht
    omega
  · exact ⟨haligned, by omega, fun t ht => (hge t ht).1⟩

/-- **The scan of the later wheel starts.** -/
theorem Inv.enterLater (h : Inv A tiw (.soon slot slots) false 0 0) (hslots : slots ≤ 0)
    {start n : ℤ} (hsa : start % 8192 = 0) (hse : start ≤ endPos tiw.pos)
    (hst : ∀ t, 16384 ≤ tiw.slot t → start ≤ tiw.timeoutPos t)
    (hn : n = if (endPos tiw.pos - start) / 8192 < 16384 then (endPos tiw.pos - start) / 8192
      else 16384) :
    Inv A { tiw with laterPos := endPos tiw.pos } (.later (laterSlot start) n) false 0 0 := by
  have hnil : tiw.sentinel = [] := h.idle rfl
  have hl := h.lists
  rw [hnil] at hl
  obtain ⟨halign, hahead, hbound⟩ := endPos_facts tiw.pos
  have hslot : laterSlot start = start / 8192 % 16384 + 16384 := rfl
  have hrange : 0 ≤ n ∧ (n = 16384 ∨ (n < 16384 ∧ endPos tiw.pos = start + n * 8192)) := by
    rw [hn]
    split_ifs <;> omega
  refine ⟨?_, h.counts, h.placed, fun t hout => ⟨(h.minima t hout).soon,
    fun ht _ => h.soon_later ht⟩, halign, hahead, ⟨hrange.1, by omega, by omega, rfl⟩,
    fun t => ⟨h.soon_done hslots, fun ht => ?_⟩, fun _ ix => ?_, h.idle, (fun hb => nomatch hb),
    (fun hb => nomatch hb)⟩
  · change Lists tiw.w tiw.sentinel tiw.slot _
    rw [hnil]
    refine hl.of_nil ?_
    dsimp only [Stage.cur]
    omega
  · have hget := hst t ht
    have hts := (h.placed t).later ht
    dsimp only
    omega
  · have hle := h.due (by simp) ix
    rw [ite_self] at hle ⊢
    exact hle

/-- **The scan of the later wheel ends** with every timer at or after `later.pos`. -/
theorem Inv.endLater (h : Inv A tiw (.later slot slots) false 0 0) (hslots : slots ≤ 0) :
    Inv A tiw .atOnce false 0 0 := by
  have hnil : tiw.sentinel = [] := h.idle rfl
  have hl := h.lists
  rw [hnil] at hl
  obtain ⟨-, -, -, hend⟩ := h.rules
  have hbound := (endPos_facts tiw.pos).2.2
  refine ⟨hnil ▸ hl.of_nil (by decide), h.counts, h.placed, h.minima, h.aligned, h.ahead, ?_,
    fun t => ⟨(h.staged t).1, fun ht => ?_⟩, fun hst => absurd rfl hst, h.idle, fun _ => trivial,
    (fun hb => nomatch hb)⟩
  · simp only [Stage.Rules]
    omega
  · have hge := (h.staged t).2 ht
    omega

end

end PonBeam.TimerWheel
