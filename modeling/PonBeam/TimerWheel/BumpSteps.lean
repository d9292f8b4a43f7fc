import PonBeam.TimerWheel.Steps

/-!
# The steps of a bump

One lemma for each place of `erts_bump_timers` and `bump_later_wheel`.
-/

namespace PonBeam.TimerWheel

section

variable {ok : Prop} {s s' : State} {A : Finset Tmr} {home : Home} {p : Tmr} {rest : List Tmr}

/-- A step inside a bump that leaves the target and the next timeout alone keeps the times. -/
theorem Times.move (h : Times ok s) (hpc : s.pc ≠ .idle) (hpass : s.pc ≠ .pass)
    (hpc' : s'.pc ≠ .idle) (hclock : s'.clock = s.clock)
    (hcurr : s'.loc.currTime = s.loc.currTime) (hto : s'.loc.bumpTo = s.loc.bumpTo)
    (hre : s'.loc.restarted = s.loc.restarted) (hpos : s'.tiw.pos = s.tiw.pos)
    (hnext : s'.tiw.nextTimeoutPos = s.tiw.nextTimeoutPos)
    (htime : s'.tiw.nextTimeoutTime = s.tiw.nextTimeoutTime)
    (hyield : s'.tiw.yieldSlot = s.tiw.yieldSlot)
    (hscan : s'.pc.scanning = true → s.loc.bumpTo = s.tiw.pos) : Times ok s' := by
  refine ⟨?_, ?_, (fun _ hi => absurd hi hpc'), fun hi => absurd hi hpc', fun _ => ?_, fun _ _ => ?_,
    fun hsc => ?_⟩
  · rw [hpos, hclock]
    exact h.clock
  · rw [htime, hnext]
    exact h.time
  · rw [hyield, hcurr, hclock, hpos, hto]
    exact h.bump hpc
  · rw [hnext, hcurr, hre, hto]
    exact h.started hpc hpass
  · rw [hto, hpos]
    exact hscan hsc

theorem Good.pay (h : Good ok s) (cost : ℤ) : Good ok (s.pay cost) :=
  ⟨h.phase, { h.times with }, h.logged, h.sound⟩

/-- At most the place changes. -/
theorem Good.goto (h : Good ok s) {pc : Pc} (hpc : s.pc ≠ .idle) (hpass : s.pc ≠ .pass)
    (hpc' : pc ≠ .idle) (hphase : Phase A (s.goto pc))
    (hscan : pc.scanning = true → s.loc.bumpTo = s.tiw.pos) : Good ok (s.goto pc) :=
  ⟨⟨A, hphase⟩, h.times.move hpc hpass hpc' rfl rfl rfl rfl rfl rfl rfl rfl hscan, h.logged,
    h.sound⟩

/-! ## One timer -/

/-- A timer of the list being triggered: the log gets a lawful callback. -/
theorem Good.timeoutTimer (h : Good ok s) (hpc : s.pc ≠ .idle) (hpass : s.pc ≠ .pass) {tiw : Wheel}
    (hslot : tiw.slot = s.tiw.slot) (htpos : tiw.timeoutPos = s.tiw.timeoutPos)
    (hpos : tiw.pos = s.tiw.pos) (hnext : tiw.nextTimeoutPos = s.tiw.nextTimeoutPos)
    (htime : tiw.nextTimeoutTime = s.tiw.nextTimeoutTime)
    (hyield : tiw.yieldSlot = s.tiw.yieldSlot) (hact : s.tiw.slot p ≠ -2)
    (hle : s.tiw.timeoutPos p ≤ s.loc.bumpTo)
    (hphase : Phase A ((s.withTiw tiw).timeoutTimer home p))
    (hscan : (Pc.callback home).scanning = true → s.loc.bumpTo = s.tiw.pos) :
    Good ok ((s.withTiw tiw).timeoutTimer home p) := by
  refine ⟨⟨A, hphase⟩, h.times.move hpc hpass (by simp [State.timeoutTimer, State.goto]) rfl rfl rfl
    rfl hpos hnext htime hyield hscan, fun t => ?_, h.sound.cons ?_⟩
  · change (if t = p then none else pending s.log t) =
      if Function.update tiw.slot p slotInactive t = -2 then none else some (tiw.timeoutPos t)
    by_cases ht : t = p
    · rw [if_pos ht, ht, Function.update_self, if_pos (show slotInactive = -2 from rfl)]
    · rw [if_neg ht, Function.update_of_ne ht, hslot, htpos]
      exact h.logged t
  · refine ⟨s.tiw.timeoutPos p, ?_, hle, (h.times.bump hpc).2.2.2⟩
    rw [h.logged p, Wheel.active, if_neg hact]

/-- A timer of the list being put into a slot again: it stays active. -/
theorem Good.keepTimer (h : Good ok s) (hpc : s.pc ≠ .idle) (hpass : s.pc ≠ .pass) {tiw : Wheel}
    {i cost : ℤ} (hslot : tiw.slot = s.tiw.slot) (htpos : tiw.timeoutPos = s.tiw.timeoutPos)
    (hpos : tiw.pos = s.tiw.pos) (hnext : tiw.nextTimeoutPos = s.tiw.nextTimeoutPos)
    (htime : tiw.nextTimeoutTime = s.tiw.nextTimeoutTime)
    (hyield : tiw.yieldSlot = s.tiw.yieldSlot) (hact : s.tiw.slot p ≠ -2) (hi : i ≠ -2)
    (hphase : Phase A (((s.withTiw (tiw.insertTimerIntoSlot i p)).pay cost).goto (.next home)))
    (hscan : s.loc.bumpTo = s.tiw.pos) :
    Good ok (((s.withTiw (tiw.insertTimerIntoSlot i p)).pay cost).goto (.next home)) := by
  refine ⟨⟨A, hphase⟩, h.times.move hpc hpass (by simp [State.goto]) rfl rfl rfl rfl ?_ ?_ ?_ ?_
    fun _ => hscan, fun t => ?_, h.sound⟩
  · exact (tiw.insertTimerIntoSlot_pos i p).trans hpos
  · exact (tiw.insertTimerIntoSlot_nextTimeoutPos p i).trans hnext
  · exact (tiw.insertTimerIntoSlot_nextTimeoutTime p i).trans htime
  · exact (tiw.insertTimerIntoSlot_yieldSlot p i).trans hyield
  · change pending s.log t = (tiw.insertTimerIntoSlot i p).active t
    rw [h.logged t]
    unfold Wheel.active
    rw [tiw.insertTimerIntoSlot_slot, tiw.insertTimerIntoSlot_timeoutPos, hslot, htpos]
    by_cases ht : t = p
    · rw [ht, Function.update_self, if_neg hact, if_neg hi]
    · rw [Function.update_of_ne ht]

theorem phase_next (h : Phase A s) (hpc : s.pc = .next home) :
    Inv A s.tiw (home.stage s.loc.slot s.loc.slots) true 0 0 := by
  unfold Phase at h
  rw [hpc] at h
  exact h

/-- The at-once slot. -/
theorem Good.bumpAtOnce (h : Good ok s) (hpc : s.pc = .next .atOnce)
    (hs : s.tiw.sentinel = p :: rest) :
    Good ok ((s.withTiw { s.tiw with sentinel := rest }).bumpAtOnce p) := by
  obtain ⟨A, hphase⟩ := h.phase
  have hinv := phase_next hphase hpc
  have hslot : s.tiw.slot p = -1 := hinv.slot_of_head hs
  have hne : s.pc ≠ .idle ∧ s.pc ≠ .pass := by simp [hpc]
  have hpos := (h.times.bump hne.1).2.2.1
  refine h.timeoutTimer (A := A) hne.1 hne.2 rfl rfl rfl rfl rfl rfl (by omega)
    (((hinv.placed p).atOnce hslot).trans hpos) ?_ fun hsc => nomatch hsc
  exact hinv.popAtOnce hs

/-- A slot of the soon wheel. -/
theorem Good.bumpSoon (h : Good ok s) (hpc : s.pc = .next .soon) (hs : s.tiw.sentinel = p :: rest) :
    Good ok ((s.withTiw { s.tiw with sentinel := rest }).bumpSoon p) := by
  obtain ⟨A, hphase⟩ := h.phase
  have hinv := phase_next hphase hpc
  change Inv A s.tiw (.soon s.loc.slot s.loc.slots) true 0 0 at hinv
  have hslot : s.tiw.slot p = s.loc.slot := hinv.slot_of_head hs
  obtain ⟨hlo, hhi⟩ := hinv.soon_range
  have hne : s.pc ≠ .idle ∧ s.pc ≠ .pass := by simp [hpc]
  have hto : s.loc.bumpTo = s.tiw.pos := h.times.scanning (by rw [hpc]; rfl)
  have hpop : s.tiw.popSoon p rest =
      { s.tiw.decSoonNto with
        sentinel := rest
        scnt := scntAdd s.tiw.scnt (scntGetIx s.loc.slot) (-1)
        slot := Function.update s.tiw.slot p slotInactive } := by
    rw [← hslot]
    rfl
  by_cases hle : s.tiw.timeoutPos p ≤ s.loc.bumpTo
  · have heq : (s.withTiw { s.tiw with sentinel := rest }).bumpSoon p =
        (s.withTiw { s.tiw.decSoonNto with
          sentinel := rest
          scnt := scntAdd s.tiw.scnt (scntGetIx s.loc.slot) (-1) }).timeoutTimer .soon p :=
      if_pos hle
    rw [heq]
    refine h.timeoutTimer (A := A) hne.1 hne.2 rfl rfl rfl rfl rfl rfl (by omega) hle
      ?_ fun _ => hto
    have hinv' := hinv.popSoon hs 1 (le_refl 1) (Or.inr (by omega))
    rw [hpop] at hinv'
    exact hinv'
  · have heq : (s.withTiw { s.tiw with sentinel := rest }).bumpSoon p =
        ((s.withTiw (Wheel.insertTimerIntoSlot { s.tiw.decSoonNto with
          sentinel := rest
          scnt := scntAdd s.tiw.scnt (scntGetIx s.loc.slot) (-1) } s.loc.slot p)).pay
            costSlotMove).goto (.next .soon) :=
      if_neg hle
    rw [heq]
    refine h.keepTimer (A := A) hne.1 hne.2 rfl rfl rfl rfl rfl rfl (by omega) (by omega)
      ?_ hto
    obtain ⟨hs1, hs2⟩ := (hinv.placed p).soon (by omega) (by omega)
    have hinv' := (hinv.popSoon hs 0 (by decide) (Or.inl (le_refl 0))).insertTimerIntoSlot
      0 (i := s.loc.slot) (hinv.counts.mem p (by omega)) (Function.update_self ..)
      (.soon hlo hhi (hslot.symm.trans hs1) (by change s.tiw.pos < s.tiw.timeoutPos p; omega) hs2)
    rw [hpop] at hinv'
    rw [← Wheel.insertTimerIntoSlot_update_slot _ _ _ slotInactive]
    exact hinv'

/-- A slot of the later wheel. -/
theorem Good.bumpLater (h : Good ok s) (hpc : s.pc = .next .later) (hs : s.tiw.sentinel = p :: rest)
    (hleave : s.tiw.timeoutPos p < s.tiw.laterPos + 8192 →
      s.tiw.timeoutPos p < s.tiw.pos + 16384) :
    Good ok ((s.withTiw { s.tiw with sentinel := rest }).bumpLater p) := by
  obtain ⟨A, hphase⟩ := h.phase
  have hinv := phase_next hphase hpc
  change Inv A s.tiw (.later s.loc.slot s.loc.slots) true 0 0 at hinv
  have hslot : s.tiw.slot p = s.loc.slot := hinv.slot_of_head hs
  obtain ⟨hlo, hhi⟩ := hinv.later_range
  have hne : s.pc ≠ .idle ∧ s.pc ≠ .pass := by simp [hpc]
  have hto : s.loc.bumpTo = s.tiw.pos := h.times.scanning (by rw [hpc]; rfl)
  have hact : s.tiw.slot p ≠ -2 := by omega
  have hmem : p ∈ A := hinv.counts.mem p hact
  obtain ⟨-, -, -, hend⟩ := hinv.rules
  have hbound := (endPos_facts s.tiw.pos).2.2
  -- the wheel without `p`, before the decision about it
  obtain ⟨tiw, htiw⟩ : ∃ x : Wheel, x = { s.tiw.decLaterNto with
      sentinel := rest
      scnt := scntAdd s.tiw.scnt (scntGetIx s.loc.slot) (-1) } := ⟨_, rfl⟩
  have hpop : s.tiw.popLater p rest =
      { tiw with slot := Function.update tiw.slot p slotInactive } := by
    rw [htiw, ← hslot]
    rfl
  by_cases hkeep : s.tiw.timeoutPos p ≥ s.tiw.laterPos + 8192
  · have heq : (s.withTiw { s.tiw with sentinel := rest }).bumpLater p =
        ((s.withTiw (tiw.insertTimerIntoSlot s.loc.slot p)).pay costSlotMove).goto
          (.next .later) := by
      rw [htiw]
      exact if_pos hkeep
    rw [heq]
    refine h.keepTimer (A := A) hne.1 hne.2 ?_ ?_ ?_ ?_ ?_ ?_ hact (by omega) ?_ hto
    case refine_7 =>
      have hinv' := (hinv.popLater hs _ (Or.inl rfl)).insertTimerIntoSlot 0
        (i := s.loc.slot) hmem (Function.update_self ..)
        (.later hlo (hslot.symm.trans ((hinv.placed p).later (by omega)))
          (by change s.tiw.pos + 16384 ≤ s.tiw.timeoutPos p; omega))
      rw [hpop] at hinv'
      rw [← Wheel.insertTimerIntoSlot_update_slot _ _ _ slotInactive]
      rw [htiw] at hinv' ⊢
      exact hinv'
    all_goals rw [htiw]; rfl
  · have hinv' := hinv.popLater hs (scntAdd s.tiw.bumpScnt (scntGetIx s.loc.slot) (-1))
      (Or.inr ⟨hleave (not_le.mp hkeep), rfl⟩)
    rw [hpop] at hinv'
    by_cases hmove : s.tiw.timeoutPos p > s.tiw.pos
    · have heq : (s.withTiw { s.tiw with sentinel := rest }).bumpLater p =
          ((s.withTiw (Wheel.insertTimerIntoSlot { tiw with
            bumpScnt := scntAdd s.tiw.bumpScnt (scntGetIx s.loc.slot) (-1) }
              (soonSlot (s.tiw.timeoutPos p)) p)).pay costSlotMove).goto (.next .later) := by
        rw [htiw]
        exact (if_neg hkeep).trans (if_pos hmove)
      have hsoon : soonSlot (s.tiw.timeoutPos p) = s.tiw.timeoutPos p % 16384 := rfl
      rw [heq]
      refine h.keepTimer (A := A) hne.1 hne.2 ?_ ?_ ?_ ?_ ?_ ?_ hact (by omega) ?_ hto
      case refine_7 =>
        have hins := hinv'.insertTimerIntoSlot 0 (i := soonSlot (s.tiw.timeoutPos p)) hmem
          (Function.update_self ..) (by
            rw [htiw]
            exact .soon (by omega) (by omega) rfl hmove (hleave (not_le.mp hkeep)))
        rw [← Wheel.insertTimerIntoSlot_update_slot _ _ _ slotInactive]
        rw [htiw] at hins ⊢
        exact hins
      all_goals rw [htiw]; rfl
    · have heq : (s.withTiw { s.tiw with sentinel := rest }).bumpLater p =
          (s.withTiw { tiw with
            bumpScnt := scntAdd s.tiw.bumpScnt (scntGetIx s.loc.slot) (-1) }).timeoutTimer
              .later p := by
        rw [htiw]
        exact (if_neg hkeep).trans (if_neg hmove)
      rw [heq]
      refine h.timeoutTimer (A := A) hne.1 hne.2 ?_ ?_ ?_ ?_ ?_ ?_ hact (by omega) ?_
        fun _ => hto
      case refine_7 => exact hinv'
      all_goals rw [htiw]; rfl

/-- **One timer of the list.** -/
theorem Good.bumpTimer (h : Good ok s) (hpc : s.pc = .next home) (hs : s.tiw.sentinel = p :: rest)
    (hleave : home = .later → s.tiw.timeoutPos p < s.tiw.laterPos + 8192 →
      s.tiw.timeoutPos p < s.tiw.pos + 16384) :
    Good ok ((s.withTiw { s.tiw with sentinel := rest }).bumpTimer home p) := by
  cases home with
  | atOnce => exact h.bumpAtOnce hpc hs
  | soon => exact h.bumpSoon hpc hs
  | later => exact h.bumpLater hpc hs (hleave rfl)

/-- Where the list was taken does not matter. -/
theorem bumpTimer_goto (s : State) (pc : Pc) (home : Home) (p : Tmr) :
    (s.goto pc).bumpTimer home p = s.bumpTimer home p := by
  cases home <;> rfl

/-! ## The list of a slot -/

/-- **A callback returns.** -/
theorem Good.callbackDone (h : Good ok s) (hpc : s.pc = .callback home) :
    Good ok (s.callbackDone home) := by
  obtain ⟨A, hphase⟩ := h.phase
  unfold Phase at hphase
  rw [hpc] at hphase
  have hne : s.pc ≠ .idle ∧ s.pc ≠ .pass := by simp [hpc]
  cases home with
  | atOnce =>
    exact ⟨⟨A, hphase⟩, h.times.move hne.1 hne.2 (by simp [State.callbackDone, State.goto]) rfl
      rfl rfl rfl rfl rfl rfl rfl (fun hsc => nomatch hsc), h.logged, h.sound⟩
  | soon =>
    exact ⟨⟨A, Inv.settleSoon hphase⟩, h.times.move hne.1 hne.2
      (by simp [State.callbackDone, State.goto]) rfl rfl rfl rfl rfl rfl rfl rfl
      (fun _ => h.times.scanning (by rw [hpc]; rfl)), h.logged, h.sound⟩
  | later =>
    exact ⟨⟨A, Inv.settleLater hphase⟩, h.times.move hne.1 hne.2
      (by simp [State.callbackDone, State.goto]) rfl rfl rfl rfl rfl rfl rfl rfl
      (fun _ => h.times.scanning (by rw [hpc]; rfl)), h.logged, h.sound⟩

/-- The slot of a stage is done: its list is empty and nothing left behind is due. -/
theorem Good.nextSlot (h : Good ok s) (hne : s.pc ≠ .idle) (hpass : s.pc ≠ .pass) {busy : Bool}
    (hinv : Inv A s.tiw (home.stage s.loc.slot s.loc.slots) busy 0 0)
    (hs : s.tiw.sentinel = []) (hrun : (home.stage s.loc.slot s.loc.slots).Running)
    (hcalm : ∀ t ∈ s.tiw.w (home.stage s.loc.slot s.loc.slots).cur,
      (home.stage s.loc.slot s.loc.slots).Calm s.tiw.pos s.tiw.laterPos (s.tiw.timeoutPos t))
    (hscan : home ≠ .atOnce → s.loc.bumpTo = s.tiw.pos) : Good ok (s.nextSlot home) := by
  cases home with
  | atOnce =>
    refine h.goto (A := A) hne hpass (by simp) ?_ fun hsc => nomatch hsc
    exact ⟨hinv.lists, hinv.counts, hinv.placed, hinv.minima, hinv.aligned, hinv.ahead, hinv.rules,
      hinv.staged, hinv.due, fun _ => hs, fun _ => trivial, (fun hb => nomatch hb)⟩
  | soon =>
    exact ⟨⟨A, hinv.nextSoon hs hrun hcalm⟩, h.times.move hne hpass
      (by simp [State.nextSlot, State.goto]) rfl rfl rfl rfl rfl rfl rfl rfl
      (fun _ => hscan (by simp)), h.logged, h.sound⟩
  | later =>
    exact ⟨⟨A, hinv.nextLater hs hrun hcalm⟩, h.times.move hne hpass
      (by simp [State.nextSlot, State.goto]) rfl rfl rfl rfl rfl rfl rfl rfl
      (fun _ => hscan (by simp)), h.logged, h.sound⟩

/-- **The list of a slot is taken** and started on. -/
theorem Good.takeSlot (home : Home) (h : Good ok s) (hne : s.pc ≠ .idle) (hpass : s.pc ≠ .pass)
    (hinv : Inv A s.tiw (home.stage s.loc.slot s.loc.slots) false 0 0)
    (hrun : (home.stage s.loc.slot s.loc.slots).Running)
    (hscan : home ≠ .atOnce → s.loc.bumpTo = s.tiw.pos)
    (hleave : home = .later → ∀ p rest,
      s.tiw.w (home.stage s.loc.slot s.loc.slots).cur = p :: rest →
      s.tiw.timeoutPos p < s.tiw.laterPos + 8192 → s.tiw.timeoutPos p < s.tiw.pos + 16384) :
    Good ok (s.takeSlot home (home.stage s.loc.slot s.loc.slots).cur) := by
  have hnil : s.tiw.sentinel = [] := hinv.idle rfl
  unfold State.takeSlot
  split
  case h_1 hw =>
    refine h.nextSlot hne hpass hinv hnil hrun (fun t ht => ?_) hscan
    rw [hw] at ht
    exact absurd ht List.not_mem_nil
  case h_2 p rest hw =>
    have hrest : (if rest = [] then s.tiw.sentinel else rest) = rest := by
      split_ifs with he
      · rw [hnil, he]
      · rfl
    have htaken : Good ok ((s.withTiw { s.tiw with
        w := Function.update s.tiw.w (home.stage s.loc.slot s.loc.slots).cur []
        sentinel := s.tiw.w (home.stage s.loc.slot s.loc.slots).cur }).goto
          (.next home)) := by
      refine ⟨⟨A, hinv.takeSlot hrun⟩, h.times.move hne hpass (by simp [State.goto]) rfl rfl
        rfl rfl rfl rfl rfl rfl (fun hsc => ?_), h.logged, h.sound⟩
      cases home with
      | atOnce => cases hsc
      | soon => exact hscan (by simp)
      | later => exact hscan (by simp)
    have hgood := htaken.bumpTimer (p := p) rfl hw fun hh => hleave hh p rest hw
    dsimp only
    rw [hrest, ← bumpTimer_goto _ (.next home)]
    exact hgood

/-- **A yield** leaves the bump where it is. -/
theorem Good.yieldIn (h : Good ok s) (hpc : s.pc = .next home) : Good ok (s.yieldIn home) := by
  obtain ⟨A, hphase⟩ := h.phase
  have hinv := phase_next hphase hpc
  have hne : s.pc ≠ .idle ∧ s.pc ≠ .pass := by simp [hpc]
  obtain ⟨-, hcurr, -, -⟩ := h.times.bump hne.1
  obtain ⟨hnext, -⟩ := h.times.started hne.1 hne.2
  have hyield : (home.stage s.loc.slot s.loc.slots).cur ≠ -2 := hinv.lists.cur_ne
  cases home with
  | atOnce =>
    refine ⟨⟨A, Or.inr ⟨.atOnce, fun _ => rfl, { hinv with }⟩⟩, ?_, h.logged,
      h.sound.cons trivial⟩
    exact ⟨h.times.clock, h.times.time, fun _ _ hy => absurd hy hyield, fun _ _ => ⟨hcurr, hnext⟩,
      fun hi => absurd rfl hi, fun hi => absurd rfl hi, (fun hsc => nomatch hsc)⟩
  | soon =>
    refine ⟨⟨A, Or.inr ⟨.soon, (fun hh => nomatch hh), { hinv with }⟩⟩, ?_, h.logged,
      h.sound.cons trivial⟩
    exact ⟨h.times.clock, h.times.time, fun _ _ hy => absurd hy hyield, fun _ _ => ⟨hcurr, hnext⟩,
      fun hi => absurd rfl hi, fun hi => absurd rfl hi, (fun hsc => nomatch hsc)⟩
  | later =>
    refine ⟨⟨A, Or.inr ⟨.later, (fun hh => nomatch hh), { hinv with }⟩⟩, ?_, h.logged,
      h.sound.cons trivial⟩
    exact ⟨h.times.clock, h.times.time, fun _ _ hy => absurd hy hyield, fun _ _ => ⟨hcurr, hnext⟩,
      fun hi => absurd rfl hi, fun hi => absurd rfl hi, (fun hsc => nomatch hsc)⟩

/-- **On to the next timer of the list.** -/
theorem Good.nextTimer (h : Good ok s) (hpc : s.pc = .next home)
    (hleave : home = .later → s.outOfTime .later = false → ∀ p rest, s.tiw.sentinel = p :: rest →
      s.tiw.timeoutPos p < s.tiw.laterPos + 8192 → s.tiw.timeoutPos p < s.tiw.pos + 16384) :
    Good ok (s.nextTimer home) := by
  obtain ⟨A, hphase⟩ := h.phase
  have hinv := phase_next hphase hpc
  have hne : s.pc ≠ .idle ∧ s.pc ≠ .pass := by simp [hpc]
  unfold State.nextTimer
  split
  case h_1 hs =>
    refine h.nextSlot hne.1 hne.2 hinv hs (hinv.running rfl) (hinv.calm rfl) fun hh =>
      h.times.scanning ?_
    rw [hpc]
    cases home with
    | atOnce => exact absurd rfl hh
    | soon => rfl
    | later => rfl
  case h_2 p rest hs =>
    split_ifs with hout
    · exact h.yieldIn hpc
    · refine h.bumpTimer hpc hs fun hh => hleave hh ?_ p rest hs
      subst hh
      exact Bool.eq_false_iff.mpr hout

/-! ## The passes -/

/-- A bump returns without having yielded: the wheel is at rest and nothing is due. -/
theorem Good.leave (h : Good ok s) {tiw : Wheel} (clock : ℤ)
    (hslot : tiw.slot = s.tiw.slot) (htpos : tiw.timeoutPos = s.tiw.timeoutPos)
    (hinv : Inv A tiw .atOnce false 0 0) (hyield : tiw.yieldSlot = -2)
    (hclock : tiw.pos ≤ monotonicToClktcks clock)
    (htime : tiw.nextTimeoutTime = clktcksToMonotonic tiw.nextTimeoutPos)
    (hnext : ∀ t, s.tiw.slot t ≠ -2 → tiw.nextTimeoutPos ≤ s.tiw.timeoutPos t)
    (hdue : ∀ t, s.tiw.slot t ≠ -2 → monotonicToClktcks s.loc.currTime < s.tiw.timeoutPos t) :
    Good ok { (s.withTiw tiw).leave false with clock := clock } := by
  refine ⟨⟨A, Or.inl ⟨hyield, hinv⟩⟩, ⟨hclock, htime, fun _ _ _ t ht => ?_,
    fun _ hy => absurd hyield hy, fun hi => absurd rfl hi, fun hi => absurd rfl hi,
    (fun hsc => nomatch hsc)⟩, fun t => ?_, h.sound.cons fun t v hv => ?_⟩
  · change tiw.slot t ≠ -2 at ht
    rw [hslot] at ht
    change tiw.nextTimeoutPos ≤ tiw.timeoutPos t
    rw [htpos]
    exact hnext t ht
  · change pending s.log t = tiw.active t
    rw [h.logged t]
    unfold Wheel.active
    rw [hslot, htpos]
  · change pending s.log t = some v at hv
    rw [h.logged t, Wheel.active] at hv
    split_ifs at hv with hact
    rw [← Option.some.inj hv]
    exact hdue t hact

/-- **The wheel is empty.** -/
theorem Good.emptyWheel (h : Good ok s) (hne : s.pc ≠ .idle) (a : ArmAnswers)
    (hinv : Inv A s.tiw .atOnce false 0 0) (hnto : s.tiw.nto = 0) : Good ok (s.emptyWheel a) := by
  have hnone : ∀ t, s.tiw.slot t = -2 := hinv.counts.inactive_of_nto (by omega)
  obtain ⟨-, hcurr, hpos, hto⟩ := h.times.bump hne
  obtain ⟨fd, d, he⟩ := Wheel.ponTimerWheelArm_eq
    { s.tiw.setNextTimeout (s.loc.bumpTo + clktcksWeek) with
      trueNextTimeoutTime := false
      pos := s.loc.bumpTo
      laterPos := laterPosMask (s.loc.bumpTo + soonWheelSize)
      yieldSlot := slotInactive } a
  unfold State.emptyWheel
  dsimp only
  rw [he]
  refine h.leave (A := A) s.clock rfl rfl ?_ rfl
    (hto.trans (monotonicToClktcks_mono hcurr)) rfl (fun t ht => absurd (hnone t) ht)
    fun t ht => absurd (hnone t) ht
  exact { hinv.of_inactive hnone s.loc.bumpTo with }

/-- **A pass starts.** -/
theorem Good.startPass (h : Good ok s) (hpc : s.pc = .pass) : Good ok s.startPass := by
  obtain ⟨A, hphase⟩ := h.phase
  unfold Phase at hphase
  rw [hpc] at hphase
  have hne : s.pc ≠ .idle := by simp [hpc]
  obtain ⟨hyield, hcurr, hpos, hto⟩ := h.times.bump hne
  refine ⟨⟨A, { hphase with }⟩, ⟨h.times.clock, rfl, (fun _ hi => nomatch hi), (fun hi => nomatch hi),
    fun _ => ⟨hyield, hcurr, hpos.trans hto, le_refl _⟩, fun _ _ => ⟨fun _ => le_refl _, fun _ => rfl⟩,
    (fun hsc => nomatch hsc)⟩, h.logged, h.sound⟩

/-- Where the scan of the soon wheel starts. -/
theorem skipUntilPos_facts (hinv : Inv A s.tiw .atOnce false 0 0)
    (hlt : s.tiw.pos < s.loc.bumpTo) :
    s.tiw.pos ≤ s.skipUntilPos ∧ s.skipUntilPos < s.loc.bumpTo ∧
      ∀ t, 0 ≤ s.tiw.slot t → s.tiw.slot t < 16384 → s.skipUntilPos < s.tiw.timeoutPos t := by
  have hsoon : ∀ t, 0 ≤ s.tiw.slot t → s.tiw.slot t < 16384 →
      s.tiw.pos < s.tiw.timeoutPos t ∧ s.tiw.soonMinTpos ≤ s.tiw.timeoutPos t := fun t ht ht' =>
    ⟨(hinv.soon_ge ht ht').1, (hinv.soon_ge ht ht').2⟩
  unfold State.skipUntilPos
  dsimp only
  split_ifs
  all_goals refine ⟨by omega, by omega, fun t ht ht' => ?_⟩
  all_goals
    have hge := hsoon t ht ht'
    omega

/-- **After the at-once slot.** -/
theorem Good.atOnceDone (h : Good ok s) (hpc : s.pc = .atOnceDone) (a : ArmAnswers) :
    Good ok (s.atOnceDone a) := by
  obtain ⟨A, hphase⟩ := h.phase
  unfold Phase at hphase
  rw [hpc] at hphase
  have hne : s.pc ≠ .idle ∧ s.pc ≠ .pass := by simp [hpc]
  obtain ⟨hyield, hcurr, hpos, hto⟩ := h.times.bump hne.1
  unfold State.atOnceDone
  split_ifs with hge hat hnto
  · exact h.goto (A := A) hne.1 hne.2 (by simp) hphase (fun hsc => nomatch hsc)
  · exact h.goto (A := A) hne.1 hne.2 (by simp) ⟨hphase, not_not.mp hat, hge⟩
      (fun hsc => nomatch hsc)
  · exact h.emptyWheel hne.1 a hphase hnto
  · obtain ⟨h1, h2, h3⟩ := skipUntilPos_facts hphase (not_le.mp hge)
    obtain ⟨-, hfresh⟩ := h.times.started hne.1 hne.2
    refine ⟨⟨A, hphase.enterSoon h1 h2 h3 rfl⟩, ⟨hto.trans (monotonicToClktcks_mono hcurr), rfl,
      (fun _ hi => nomatch hi), (fun hi => nomatch hi), fun _ => ⟨hyield, hcurr, le_refl _, hto⟩,
      fun _ _ => ⟨fun _ => hto, hfresh⟩, fun _ => rfl⟩, h.logged, h.sound⟩

/-- **The scan of the later wheel starts.** -/
theorem Good.enterLater (h : Good ok s) (hpc : s.pc = .enterLater) : Good ok s.enterLater := by
  obtain ⟨A, hphase⟩ := h.phase
  unfold Phase at hphase
  rw [hpc] at hphase
  obtain ⟨hinv, hslots, hbump⟩ := hphase
  have hne : s.pc ≠ .idle ∧ s.pc ≠ .pass := by simp [hpc]
  have hto : s.loc.bumpTo = s.tiw.pos := h.times.scanning (by rw [hpc]; rfl)
  by_cases hskip : laterPosMask s.tiw.laterMinTpos > s.tiw.laterPos ∧
      laterPosMask s.tiw.laterMinTpos > State.endLaterPos s.tiw
  · have heq : s.enterLater =
        (s.withTiw { s.tiw with laterPos := endPos s.tiw.pos }).goto .top := if_pos hskip
    rw [heq]
    exact ⟨⟨A, hinv.skipLater hslots hskip.2⟩, h.times.move hne.1 hne.2 (by simp [State.goto]) rfl
      rfl rfl rfl rfl rfl rfl rfl (fun hsc => nomatch hsc), h.logged, h.sound⟩
  · obtain ⟨hsa, hse, hst⟩ := hinv.startLaterPos hbump hskip
    have heq : s.enterLater =
        ((s.withTiw { s.tiw with laterPos := endPos s.tiw.pos }).withSlot
          (laterSlot (State.startLaterPos s.tiw),
            if (endPos s.tiw.pos - State.startLaterPos s.tiw) / 8192 < 16384 then
              (endPos s.tiw.pos - State.startLaterPos s.tiw) / 8192 else 16384)).goto .later :=
      if_neg hskip
    rw [heq]
    exact ⟨⟨A, hinv.enterLater hslots hsa hse hst rfl⟩,
      h.times.move hne.1 hne.2 (by simp [State.goto]) rfl rfl rfl rfl rfl rfl rfl rfl
        (fun _ => hto), h.logged, h.sound⟩

/-- **The end of a bump.** -/
theorem Good.finish (h : Good ok s) (hpc : s.pc = .passDone) (hre : s.loc.restarted = false)
    {a : Answers} (hnow : s.clock ≤ a.now) : Good ok (s.finish a) := by
  obtain ⟨A, hphase⟩ := h.phase
  unfold Phase at hphase
  rw [hpc] at hphase
  obtain ⟨hinv, hat, hto⟩ := hphase
  have hne : s.pc ≠ .idle ∧ s.pc ≠ .pass := by simp [hpc]
  obtain ⟨hyield, -⟩ := h.times.bump hne.1
  have hfresh := (h.times.started hne.1 hne.2).2 hre
  have hinv0 : Inv A { s.tiw with trueNextTimeoutTime := false } .atOnce false 0 0 := { hinv with }
  have hinv' := hinv0.findNextTimeout a.now
  have hfound := Wheel.findNextTimeout_searched { s.tiw with trueNextTimeoutTime := false } a.now
  obtain ⟨fd, d, he⟩ := Wheel.ponTimerWheelArm_eq
    (Wheel.findNextTimeout { s.tiw with trueNextTimeoutTime := false } a.now) a.arm
  unfold State.finish
  dsimp only
  rw [he]
  refine h.leave (A := A) a.now hfound.slot hfound.timeoutPos { hinv' with }
    (hfound.yieldSlot.trans hyield) ?_ hfound.time
    (fun t ht => hinv0.findNextTimeout_le hat a.now ht) fun t ht => ?_
  · dsimp only
    rcases hfound.pos with hp | hp
    · rw [hp]
      exact h.times.clock.trans (monotonicToClktcks_mono hnow)
    · exact le_of_eq hp
  · have h1 := hinv.counts.not_atOnce hat t
    have h2 := (hinv.placed t).lower
    have hrules : s.tiw.pos + 8192 < s.tiw.laterPos := hinv.rules
    rcases lt_or_ge (s.tiw.slot t) 16384 with hs | hl
    · have hsoon := (hinv.soon_ge (t := t) (by omega) hs).1
      omega
    · have hlater := (hinv.later_ge hl).1
      omega

theorem bumpTimers_pc (s : State) (currTime : ℤ) :
    (s.bumpTimers currTime).pc ≠ .idle ∧
      ((s.bumpTimers currTime).pc ≠ .pass → s.tiw.yieldSlot ≠ -2) := by
  unfold State.bumpTimers slotInactive
  dsimp only
  split_ifs <;> simp_all

theorem Times.bumpTimers (h : Times ok s) (hpc : s.pc = .idle) {currTime : ℤ}
    (hclock : s.clock ≤ currTime) : Times ok (s.bumpTimers currTime) := by
  have hpos := h.clock.trans (monotonicToClktcks_mono hclock)
  obtain ⟨hne, hyield⟩ := bumpTimers_pc s currTime
  refine ⟨hpos, h.time, (fun _ hi => absurd hi hne), fun hi => absurd hi hne,
    fun _ => ⟨rfl, le_refl _, le_refl _, hpos⟩, fun _ hpass => ?_, fun _ => rfl⟩
  obtain ⟨hcurr, hnext⟩ := h.yielded hpc (hyield hpass)
  refine ⟨fun hok => (hnext hok).trans (monotonicToClktcks_mono (hcurr.trans hclock)),
    fun hre => ?_⟩
  exact absurd (hyield hpass) (of_decide_eq_false hre)

/-- **The call** starts a pass or resumes the bump that yielded. -/
theorem Good.bumpTimers (h : Good ok s) (hpc : s.pc = .idle) {currTime : ℤ}
    (hclock : s.clock ≤ currTime) : Good ok (s.bumpTimers currTime) := by
  obtain ⟨A, hphase⟩ := h.phase
  refine ⟨⟨A, ?_⟩, h.times.bumpTimers hpc hclock, h.logged, h.sound⟩
  unfold Phase at hphase ⊢
  rw [hpc] at hphase
  rcases hphase with ⟨hy, hinv⟩ | ⟨home, hat, hinv⟩
  · have hpc' : (s.bumpTimers currTime).pc = .pass := if_pos hy
    rw [hpc']
    exact { hinv with }
  · have hpc' : (s.bumpTimers currTime).pc = .next home := by
      unfold State.bumpTimers slotInactive slotAtOnce laterWheelFirstSlot soonWheelSize
      dsimp only
      cases home with
      | atOnce => simp [hat rfl]
      | soon =>
        have hrange := Inv.soon_range hinv
        rw [if_neg (by omega), if_neg (by omega), if_neg (by omega)]
      | later =>
        have hrange := Inv.later_range hinv
        rw [if_neg (by omega), if_pos (by omega)]
    rw [hpc']
    exact { hinv with }

/-! ## All steps -/

/-- The timer of the later wheel that the next step of a bump takes. -/
def State.laterTimer (s : State) : Option Tmr :=
  match s.pc with
  | .later => if 0 < s.loc.slots then (s.tiw.w s.loc.slot).head? else none
  | .next .later => if s.outOfTime .later then none else s.tiw.sentinel.head?
  | _ => none

/-- `ERTS_TW_ASSERT(tpos < cpos + ERTS_TW_SOON_WHEEL_SIZE)`, which `bump_later_wheel` makes of a
timer that leaves the later wheel. -/
def State.LeavesInRange (s : State) : Prop :=
  ∀ p, s.laterTimer = some p → s.tiw.timeoutPos p < s.tiw.laterPos + laterWheelSlotSize →
    s.tiw.timeoutPos p < s.tiw.pos + soonWheelSize

/-- **One step of a bump** that meets the assertion. -/
theorem Good.runStep (h : Good ok s) {a : Answers} (hs : s.runStep a = some s')
    (hleave : s.LeavesInRange) : Good ok s' := by
  obtain ⟨A, hphase⟩ := h.phase
  unfold State.runStep at hs
  split at hs
  case h_1 => cases hs
  case h_2 => cases hs
  case h_3 hpc =>
    obtain rfl := Option.some.inj hs
    exact h.startPass hpc
  case h_4 hpc =>
    have hne : s.pc ≠ .idle ∧ s.pc ≠ .pass := by simp [hpc]
    unfold Phase at hphase
    rw [hpc] at hphase
    obtain rfl := Option.some.inj hs
    split_ifs with hnto
    · exact h.emptyWheel hne.1 a.arm hphase hnto
    · exact h.takeSlot .atOnce hne.1 hne.2 hphase trivial (fun hh => absurd rfl hh)
        (fun hh => nomatch hh)
  case h_5 hpc =>
    obtain rfl := Option.some.inj hs
    exact h.atOnceDone hpc a.arm
  case h_6 hpc =>
    have hne : s.pc ≠ .idle ∧ s.pc ≠ .pass := by simp [hpc]
    have hto : s.loc.bumpTo = s.tiw.pos := h.times.scanning (by rw [hpc]; rfl)
    unfold Phase at hphase
    rw [hpc] at hphase
    obtain rfl := Option.some.inj hs
    split_ifs with hslots hlater
    · exact (h.pay costSlot).takeSlot .soon hne.1 hne.2 hphase hslots (fun _ => hto)
        (fun hh => nomatch hh)
    · exact h.goto (A := A) hne.1 hne.2 (by simp) ⟨hphase, not_lt.mp hslots, hlater⟩ fun _ => hto
    · exact h.goto (A := A) hne.1 hne.2 (by simp)
        (hphase.endSoon (not_lt.mp hslots) (not_le.mp hlater)) (fun hsc => nomatch hsc)
  case h_7 hpc =>
    obtain rfl := Option.some.inj hs
    exact h.enterLater hpc
  case h_8 hpc =>
    have hne : s.pc ≠ .idle ∧ s.pc ≠ .pass := by simp [hpc]
    have hto : s.loc.bumpTo = s.tiw.pos := h.times.scanning (by rw [hpc]; rfl)
    unfold Phase at hphase
    rw [hpc] at hphase
    obtain rfl := Option.some.inj hs
    split_ifs with hslots
    · refine (h.pay costSlot).takeSlot .later hne.1 hne.2 hphase hslots (fun _ => hto)
        fun _ p rest hw => hleave p ?_
      change s.tiw.w s.loc.slot = p :: rest at hw
      unfold State.laterTimer
      rw [hpc]
      dsimp only
      rw [if_pos hslots, hw]
      rfl
    · exact h.goto (A := A) hne.1 hne.2 (by simp) (hphase.endLater (not_lt.mp hslots))
        (fun hsc => nomatch hsc)
  case h_9 hpc =>
    have hne : s.pc ≠ .idle ∧ s.pc ≠ .pass := by simp [hpc]
    unfold Phase at hphase
    rw [hpc] at hphase
    split_ifs at hs with hre hnow
    · obtain rfl := Option.some.inj hs
      exact h.goto (A := A) hne.1 hne.2 (by simp) hphase.1 (fun hsc => nomatch hsc)
    · obtain rfl := Option.some.inj hs
      exact h.finish hpc (Bool.eq_false_iff.mpr hre) hnow
  case h_10 home hpc =>
    obtain rfl := Option.some.inj hs
    refine h.nextTimer hpc fun hh hout p rest hsent => hleave p ?_
    subst hh
    unfold State.laterTimer
    rw [hpc]
    dsimp only
    rw [hout, hsent]
    rfl

end

/-- A step that keeps the invariant: a timer that leaves the later wheel is in the range that
`bump_later_wheel` asserts, and a search for the next timeout finds the wheel at rest with the
at-once slot empty, as `find_next_timeout` asserts. -/
def Regular (s : State) : Label → Prop
  | .run _ => s.LeavesInRange
  | .check remain _ => s.tiw.Searches remain →
      s.tiw.atOnceNto = 0 ∧ s.tiw.yieldSlot = slotInactive
  | _ => True

/-- **Every step** keeps the invariant, if a timer that leaves the later wheel is in range; the
next timeout is to be trusted in runs of regular steps. -/
theorem Good.step {ok : Prop} {s s' : State} {l : Label} (h : Good ok s)
    (hrange : ∀ a, l = .run a → s.LeavesInRange) (hreg : ok → Regular s l)
    (hs : s.step l = some s') : Good ok s' := by
  cases l with
  | set p timeoutPos a =>
    simp only [State.step] at hs
    split_ifs at hs with hok
    obtain rfl := Option.some.inj hs
    exact h.set timeoutPos a hok.1 hok.2
  | cancel p =>
    simp only [State.step] at hs
    split_ifs at hs with hok
    obtain rfl := Option.some.inj hs
    exact h.cancel p hok
  | check remain now =>
    simp only [State.step] at hs
    split_ifs at hs with hok
    obtain rfl := Option.some.inj hs
    exact h.check hok.1 remain hok.2 hreg
  | bump currTime =>
    simp only [State.step] at hs
    split_ifs at hs with hok
    obtain rfl := Option.some.inj hs
    exact h.bumpTimers hok.1 hok.2
  | run a => exact h.runStep hs (hrange a rfl)
  | ret =>
    simp only [State.step] at hs
    split at hs
    case h_1 home hpc =>
      obtain rfl := Option.some.inj hs
      exact h.callbackDone hpc
    case h_2 => cases hs

/-- The new wheel. -/
theorem create_inv (mtime : ℤ) (a : ArmAnswers) (bumpScnt : ℤ → ℤ) (left : ℤ)
    (timeoutPos : Tmr → ℤ) :
    Inv ∅ (.create mtime a bumpScnt left timeoutPos) .atOnce false 0 0 := by
  obtain ⟨fd, d, he⟩ := Wheel.ponTimerWheelArm_eq _ a
  unfold Wheel.create
  dsimp only
  rw [he]
  obtain ⟨halign, hahead, hrules⟩ := endPos_facts (monotonicToClktcks mtime)
  refine ⟨⟨fun _ _ ht => absurd ht List.not_mem_nil, rfl, fun _ => List.nodup_nil,
    fun _ ht => absurd ht List.not_mem_nil, by decide, List.nodup_nil,
    fun _ ht => absurd ht List.not_mem_nil, fun _ ht => absurd rfl ht⟩, ?_, fun t => ?_,
    fun t _ => MinimaAt.of_inactive rfl, halign, hahead, hrules, fun t => ?_, fun hst => absurd rfl hst, fun _ => rfl, fun _ => trivial,
    (fun hb => nomatch hb)⟩
  · exact ⟨fun t ht => absurd rfl ht, rfl, rfl, rfl, rfl, fun _ => rfl⟩
  · constructor <;> dsimp only [slotInactive] <;> omega
  · constructor <;> dsimp only [slotInactive] <;> omega

/-- **A new wheel** has the invariant. -/
theorem good_of_init {ok : Prop} {s : State} (h : wheelSystem.init s) : Good ok s := by
  obtain ⟨hpc, hlog, a, bumpScnt, left, timeoutPos, htiw⟩ := h
  have hinv := create_inv s.clock a bumpScnt left timeoutPos
  obtain ⟨fd, d, he⟩ := Wheel.ponTimerWheelArm_eq _ a
  have heq := htiw
  unfold Wheel.create at heq
  dsimp only at heq
  rw [he] at heq
  have hslot : ∀ t, s.tiw.slot t = -2 := fun t => by
    rw [heq]
    rfl
  rw [← htiw] at hinv
  refine ⟨⟨∅, phase_of_rest hpc (by rw [heq]; rfl) hinv⟩,
    ⟨?_, ?_, fun _ _ _ t ht => absurd (hslot t) ht,
    fun _ hy => absurd (by rw [heq]; rfl) hy, fun hne => absurd hpc hne, fun hne => absurd hpc hne,
    fun hsc => ?_⟩, fun t => ?_, ?_⟩
  · rw [heq]
  · rw [heq]
  · rw [hpc] at hsc
    cases hsc
  · rw [hlog, Wheel.active, if_pos (hslot t)]
    rfl
  · rw [hlog]
    exact sound_nil

end PonBeam.TimerWheel
