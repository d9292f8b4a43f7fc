import PonBeam.TimerWheel.Budget

/-!
# The course of a bump

What a step of a bump can do that neither yields nor ends it (`Moves`), what holds in
between (`OnCourse`), and that a bump which does not yield comes to its end.
-/

namespace PonBeam.TimerWheel

/-! ## What a step does -/

namespace Home

/-- Where a list from here is taken. -/
def scan : Home → Pc
  | .atOnce => .top
  | .soon => .soon
  | .later => .later

/-- Where the bump goes on after it. -/
def done : Home → Pc
  | .atOnce => .atOnceDone
  | .soon => .soon
  | .later => .later

end Home

/-- What a pass keeps as long as it is in one wheel. -/
structure Kin (s s' : State) : Prop where
  /-- the time -/
  currTime : s'.loc.currTime = s.loc.currTime
  /-- the clock -/
  clock : s'.clock = s.clock
  /-- how far to go -/
  bumpTo : s'.loc.bumpTo = s.loc.bumpTo
  /-- is it restarted? -/
  restarted : s'.loc.restarted = s.loc.restarted
  /-- the position -/
  pos : s'.tiw.pos = s.tiw.pos
  /-- what a step costs at most -/
  cost : s.loc.yieldCount ≤ s'.loc.yieldCount + costTimeout

/-- No timer is touched. -/
structure Still (s s' : State) : Prop extends Kin s s' where
  /-- the lists -/
  w : s'.tiw.w = s.tiw.w
  /-- the list of the slot -/
  sentinel : s'.tiw.sentinel = s.tiw.sentinel
  /-- their number -/
  nto : s'.tiw.nto = s.tiw.nto

/-- The jumps of a bump. -/
inductive Edge (s : State) : Pc → Prop where
  /-- the at-once slot was filled while its list was bumped -/
  | again : s.pc = .atOnceDone → s.tiw.pos ≥ s.loc.bumpTo → s.tiw.atOnceNto ≠ 0 → Edge s .top
  /-- the pass is done -/
  | allDone : s.pc = .atOnceDone → s.tiw.pos ≥ s.loc.bumpTo → s.tiw.atOnceNto = 0 → Edge s .passDone
  /-- from the soon wheel to the later wheel -/
  | toLater : s.pc = .soon → Edge s .enterLater
  /-- the soon wheel is done -/
  | soonTop : s.pc = .soon → Edge s .top
  /-- into the later wheel -/
  | intoLater : s.pc = .enterLater → Edge s .later
  /-- there is nothing to do in it -/
  | skipLater : s.pc = .enterLater → Edge s .top
  /-- the later wheel is done -/
  | laterTop : s.pc = .later → Edge s .top
  /-- another pass -/
  | restart : s.pc = .passDone → s.loc.restarted = true → Edge s .pass

/-- **What a step does** that neither yields nor ends the bump. -/
inductive Moves (s s' : State) : Prop where
  /-- a pass starts -/
  | pass (hpc : s.pc = .pass) (hpc' : s'.pc = .top) (htime : s'.loc.currTime = s.loc.currTime)
      (hclock : s'.clock = s.clock) (hto : s'.loc.bumpTo = monotonicToClktcks s.loc.currTime)
      (hre : s'.loc.restarted = false) (htiw : s'.tiw.core = s.tiw.core)
      (hcost : s'.loc.yieldCount = s.loc.yieldCount)
  /-- a jump -/
  | edge (hedge : Edge s s'.pc) (hstill : Still s s')
  /-- the scan of the soon wheel starts -/
  | scan (hpc : s.pc = .atOnceDone) (hpc' : s'.pc = .soon) (hlt : s.tiw.pos < s.loc.bumpTo)
      (htime : s'.loc.currTime = s.loc.currTime) (hclock : s'.clock = s.clock)
      (hto : s'.loc.bumpTo = s.loc.bumpTo) (hre : s'.loc.restarted = s.loc.restarted)
      (hpos : s'.tiw.pos = s.loc.bumpTo) (hw : s'.tiw.w = s.tiw.w)
      (hcost : s'.loc.yieldCount = s.loc.yieldCount)
  /-- a list is taken and started on -/
  | take (home : Home) (hpc : s.pc = home.scan)
      (hdealt : s'.pc = .callback home ∨ s'.pc = .next home ∧ home ≠ .atOnce)
      (hsome : home = .atOnce → s.tiw.nto ≠ 0 ∧ s.tiw.w (-1) ≠ [])
      (hw : s'.tiw.w (-1) = if home = .atOnce then [] else s.tiw.w (-1))
      (hslots : s'.loc.slots = s.loc.slots) (hkin : Kin s s')
  /-- an empty list, or the end of one -/
  | skip (home : Home)
      (hpc : s.pc = home.scan ∧ (home = .atOnce → s.tiw.nto ≠ 0 ∧ s.tiw.w (-1) = []) ∨
        s.pc = .next home ∧ s.tiw.sentinel = []) (hpc' : s'.pc = home.done)
      (hless : home ≠ .atOnce → 1 ≤ s.loc.slots ∧ s'.loc.slots < s.loc.slots) (hstill : Still s s')
  /-- the next timer of a list -/
  | timer (home : Home) (hpc : s.pc = .next home)
      (hdealt : s'.pc = .callback home ∨ s'.pc = .next home ∧ home ≠ .atOnce)
      (hlen : s.tiw.sentinel.length = s'.tiw.sentinel.length + 1)
      (hw : s'.tiw.w (-1) = s.tiw.w (-1)) (hslots : s'.loc.slots = s.loc.slots) (hkin : Kin s s')
  /-- a callback returns -/
  | ret (home : Home) (hpc : s.pc = .callback home) (hpc' : s'.pc = .next home)
      (hsent : s'.tiw.sentinel = s.tiw.sentinel) (hw : s'.tiw.w (-1) = s.tiw.w (-1))
      (hslots : s'.loc.slots = s.loc.slots) (hkin : Kin s s')

section

variable {s s' : State} {home : Home} {p : Tmr}

theorem le_add_cost (n : ℤ) : n ≤ n + costTimeout := le_add_of_nonneg_right (by decide)

theorem Still.goto (s : State) (pc : Pc) : Still s (s.goto pc) :=
  ⟨⟨rfl, rfl, rfl, rfl, rfl, le_add_cost _⟩, rfl, rfl, rfl⟩

theorem nextSlot_still (s : State) (cost : ℤ) (hcost : cost ≤ costSlot) (home : Home) :
    Still s ((s.pay cost).nextSlot home) := by
  have hle : s.loc.yieldCount ≤ s.loc.yieldCount - cost + costTimeout := by
    unfold costSlot at hcost
    unfold costTimeout
    omega
  cases home <;> exact ⟨⟨rfl, rfl, rfl, rfl, rfl, hle⟩, rfl, rfl, rfl⟩

theorem nextSlot_less (hhas : home.Has s.loc.slot) (hslots : home ≠ .atOnce → 1 ≤ s.loc.slots) :
    home ≠ .atOnce → 1 ≤ s.loc.slots ∧ (s.nextSlot home).loc.slots < s.loc.slots := by
  intro hne
  refine ⟨hslots hne, ?_⟩
  cases home with
  | atOnce => exact absurd rfl hne
  | soon =>
    obtain ⟨d, hd, he, -⟩ := scntSoonWheelNext_moved s.tiw.bumpScnt s.loc.slot s.loc.slots hhas.1
      hhas.2 (hslots hne)
    change (scntSoonWheelNext s.loc.slot s.loc.slots s.tiw.bumpScnt).2 < _
    rw [he]
    exact sub_lt_self _ (lt_of_lt_of_le one_pos hd)
  | later =>
    obtain ⟨d, hd, he, -⟩ := scntLaterWheelNext_moved s.tiw.bumpScnt s.loc.slot s.loc.slots hhas.1
      hhas.2 (hslots hne)
    change (scntLaterWheelNext s.loc.slot s.loc.slots s.tiw.bumpScnt).2 < _
    rw [he]
    exact sub_lt_self _ (lt_of_lt_of_le one_pos hd)

theorem bumpTimer_kin (s : State) (cost : ℤ) (hcost : cost ≤ costSlot) (tiw : Wheel)
    (hpos : tiw.pos = s.tiw.pos) (home : Home) (p : Tmr) :
    Kin s (((s.pay cost).withTiw tiw).bumpTimer home p) := by
  have hle : s.loc.yieldCount ≤ s.loc.yieldCount - cost + costTimeout := by
    unfold costSlot at hcost
    unfold costTimeout
    omega
  have hle' : s.loc.yieldCount ≤ s.loc.yieldCount - cost - costSlotMove + costTimeout := by
    unfold costSlot at hcost
    unfold costSlotMove costTimeout
    omega
  cases home with
  | atOnce => exact ⟨rfl, rfl, rfl, rfl, hpos, hle⟩
  | soon =>
    unfold State.bumpTimer State.bumpSoon
    dsimp only
    split_ifs
    · exact ⟨rfl, rfl, rfl, rfl, hpos, hle⟩
    · exact ⟨rfl, rfl, rfl, rfl, (Wheel.insertTimerIntoSlot_pos ..).trans hpos, hle'⟩
  | later =>
    unfold State.bumpTimer State.bumpLater
    dsimp only
    split_ifs
    · exact ⟨rfl, rfl, rfl, rfl, (Wheel.insertTimerIntoSlot_pos ..).trans hpos, hle'⟩
    · exact ⟨rfl, rfl, rfl, rfl, (Wheel.insertTimerIntoSlot_pos ..).trans hpos, hle'⟩
    · exact ⟨rfl, rfl, rfl, rfl, hpos, hle⟩

/-- What `bumpTimer` does to the at-once slot and where it goes. -/
theorem bumpTimer_goes (s : State) (hhas : home.Has s.loc.slot) (p : Tmr) :
    ((s.bumpTimer home p).pc = .callback home ∨
      (s.bumpTimer home p).pc = .next home ∧ home ≠ .atOnce) ∧
    (s.bumpTimer home p).tiw.w (-1) = s.tiw.w (-1) ∧
    (s.bumpTimer home p).tiw.sentinel = s.tiw.sentinel ∧
    (s.bumpTimer home p).loc.slots = s.loc.slots := by
  obtain ⟨-, hslots, hsent, hdealt⟩ := bumpTimer_dealt (p := p) s hhas
  refine ⟨?_, ?_, hsent, hslots⟩
  · generalize (s.bumpTimer home p).pc = pc at hdealt
    cases hdealt with
    | fired => exact Or.inl rfl
    | moved i hi hw hslot hcount hhome => exact Or.inr ⟨rfl, hhome⟩
  · generalize (s.bumpTimer home p).pc = pc at hdealt
    cases hdealt with
    | fired hw => rw [hw]
    | moved i hi hw => rw [hw, Function.update_of_ne (by omega)]

/-- A list is taken. -/
theorem takeSlot_moves (s : State) (home : Home) (cost : ℤ) (hcost : cost ≤ costSlot) (hpc : s.pc = home.scan)
    (hhas : home.Has s.loc.slot) (hslots : home ≠ .atOnce → 1 ≤ s.loc.slots)
    (hnto : home = .atOnce → s.tiw.nto ≠ 0) :
    Moves s ((s.pay cost).takeSlot home (home.stage s.loc.slot s.loc.slots).cur) := by
  have hcur := cur_eq_iff (s := s) hhas
  cases hw : s.tiw.w (home.stage s.loc.slot s.loc.slots).cur with
  | nil =>
    rw [takeSlot_nil (s.pay cost) home hw]
    refine .skip home (Or.inl ⟨hpc, fun hhome => ⟨hnto hhome, ?_⟩⟩) ?_ ?_
      (nextSlot_still s cost hcost home)
    · rw [← hcur.2 hhome]
      exact hw
    · cases home <;> rfl
    · exact nextSlot_less (s := s.pay cost) hhas hslots
  | cons p rest =>
    rw [takeSlot_cons (s.pay cost) home hw]
    obtain ⟨tiw, htiw⟩ : ∃ tiw, tiw = { (s.pay cost).tiw with
      w := Function.update (s.pay cost).tiw.w (home.stage s.loc.slot s.loc.slots).cur []
      sentinel := if rest = [] then (s.pay cost).tiw.sentinel else rest } := ⟨_, rfl⟩
    have htw : tiw.w = Function.update s.tiw.w (home.stage s.loc.slot s.loc.slots).cur [] := by
      rw [htiw]
      rfl
    obtain ⟨hgoes, hone, -, hsl⟩ := bumpTimer_goes ((s.pay cost).withTiw tiw) hhas p
    rw [← htiw]
    refine .take home hpc hgoes ?_ ?_ hsl
      (bumpTimer_kin s cost hcost tiw (by rw [htiw]; rfl) home p)
    · intro hhome
      refine ⟨hnto hhome, ?_⟩
      rw [← hcur.2 hhome, hw]
      exact List.cons_ne_nil p rest
    · refine hone.trans ?_
      change tiw.w (-1) = _
      rw [htw]
      split_ifs with hhome
      · rw [hcur.2 hhome, Function.update_self]
      · exact Function.update_of_ne (fun he => hhome (hcur.1 he.symm)) ..

theorem pay_zero (s : State) : s.pay 0 = s := by
  cases s
  simp [State.pay]

/-- The next timer of a list. -/
theorem nextTimer_moves (h : Shelved s) (hpc : s.pc = .next home)
    (hne : (s.nextTimer home).pc ≠ .idle) : Moves s (s.nextTimer home) := by
  obtain ⟨hhas, hslots⟩ := inWheel_next h hpc
  cases hs : s.tiw.sentinel with
  | nil =>
    have hstill := nextSlot_still s 0 (by decide) home
    rw [pay_zero] at hstill
    rw [nextTimer_nil hs]
    refine .skip home (Or.inr ⟨hpc, hs⟩) ?_ (nextSlot_less hhas hslots) hstill
    cases home <;> rfl
  | cons p rest =>
    cases hout : s.outOfTime home with
    | true =>
      have hyield : s.nextTimer home = s.yieldIn home := by
        unfold State.nextTimer
        rw [hs]
        exact if_pos hout
      rw [hyield] at hne
      cases home <;> exact absurd rfl hne
    | false =>
      rw [nextTimer_cons hs hout]
      obtain ⟨hgoes, hone, hsent, hsl⟩ :=
        bumpTimer_goes (s.withTiw { s.tiw with sentinel := rest }) hhas p
      have hkin := bumpTimer_kin s 0 (by decide) { s.tiw with sentinel := rest } rfl home p
      rw [pay_zero] at hkin
      refine .timer home hpc hgoes ?_ hone hsl hkin
      rw [hsent, hs]
      rfl

/-- **A step that does not end the bump.** -/
theorem moves_of_alone (h : Shelved s) {a : Answers} (hs : s.alone a = some s')
    (hne : s'.pc ≠ .idle) : Moves s s' := by
  have hin := h.inWheel
  unfold State.InWheel at hin
  unfold State.alone State.runStep at hs
  cases hpc : s.pc with
  | idle =>
    rw [hpc] at hs
    cases hs
  | callback home =>
    rw [hpc] at hs
    obtain rfl := Option.some.inj hs
    refine .ret home hpc rfl ?_ ?_ rfl ⟨rfl, rfl, rfl, rfl, ?_, ?_⟩
    · cases home <;> rfl
    · cases home <;> rfl
    · cases home <;> rfl
    · exact (sub_add_cancel s.loc.yieldCount costTimeout).ge
  | pass =>
    rw [hpc] at hs
    obtain rfl := Option.some.inj hs
    exact .pass hpc rfl rfl rfl rfl rfl rfl rfl
  | top =>
    rw [hpc] at hs
    obtain rfl := Option.some.inj hs
    split_ifs at hne ⊢ with hnto
    · exact absurd rfl hne
    · have hmoves := takeSlot_moves s .atOnce 0 (by decide) hpc trivial (fun he => absurd rfl he)
        (fun _ => hnto)
      rw [pay_zero] at hmoves
      exact hmoves
  | atOnceDone =>
    rw [hpc] at hs
    obtain rfl := Option.some.inj hs
    unfold State.atOnceDone at hne ⊢
    split_ifs at hne ⊢ with hpos hcount hnto
    · exact .edge (.again hpc hpos hcount) (.goto s .top)
    · exact .edge (.allDone hpc hpos (not_ne_iff.1 hcount)) (.goto s .passDone)
    · exact absurd rfl hne
    · exact .scan hpc rfl (not_le.1 hpos) rfl rfl rfl rfl rfl rfl rfl
  | soon =>
    rw [hpc] at hs hin
    obtain rfl := Option.some.inj hs
    split_ifs with hslots hlater
    · exact takeSlot_moves s .soon costSlot le_rfl hpc hin (fun _ => hslots)
        (fun he => nomatch he)
    · exact .edge (.toLater hpc) (.goto s .enterLater)
    · exact .edge (.soonTop hpc) (.goto s .top)
  | enterLater =>
    rw [hpc] at hs
    obtain rfl := Option.some.inj hs
    unfold State.enterLater
    dsimp only
    split_ifs
    · exact .edge (.skipLater hpc) ⟨⟨rfl, rfl, rfl, rfl, rfl, le_add_cost _⟩, rfl, rfl, rfl⟩
    · exact .edge (.intoLater hpc) ⟨⟨rfl, rfl, rfl, rfl, rfl, le_add_cost _⟩, rfl, rfl, rfl⟩
    · exact .edge (.intoLater hpc) ⟨⟨rfl, rfl, rfl, rfl, rfl, le_add_cost _⟩, rfl, rfl, rfl⟩
  | later =>
    rw [hpc] at hs hin
    obtain rfl := Option.some.inj hs
    split_ifs with hslots
    · exact takeSlot_moves s .later costSlot le_rfl hpc hin (fun _ => hslots)
        (fun he => nomatch he)
    · exact .edge (.laterTop hpc) (.goto s .top)
  | passDone =>
    rw [hpc] at hs
    dsimp only at hs
    split_ifs at hs with hre
    · obtain rfl := Option.some.inj hs
      exact .edge (.restart hpc hre) (.goto s .pass)
    · obtain rfl := Option.some.inj hs
      exact absurd rfl hne
  | next home =>
    rw [hpc] at hs
    obtain rfl := Option.some.inj hs
    exact nextTimer_moves h hpc hne

/-- A step costs no more than a timeout. -/
theorem Moves.cost (h : Moves s s') : s.loc.yieldCount ≤ s'.loc.yieldCount + costTimeout := by
  cases h with
  | pass _ _ _ _ _ _ _ hcost =>
    rw [hcost]
    exact le_add_cost _
  | scan _ _ _ _ _ _ _ _ _ hcost =>
    rw [hcost]
    exact le_add_cost _
  | edge _ hstill => exact hstill.cost
  | take _ _ _ _ _ _ hkin => exact hkin.cost
  | skip _ _ _ _ hstill => exact hstill.cost
  | timer _ _ _ _ _ _ hkin => exact hkin.cost
  | ret _ _ _ _ _ _ hkin => exact hkin.cost

/-! ## What holds in between -/

/-- A list was taken in this pass. -/
def Pc.listed : Pc → Bool
  | .idle | .pass | .top | .passDone => false
  | _ => true

/-- **A bump at the time `currTime`** that has neither yielded nor ended. -/
structure OnCourse (currTime : ℤ) (s : State) : Prop where
  /-- the lists -/
  shelved : Shelved s
  /-- it is running -/
  running : s.pc ≠ .idle
  /-- no yield is left over -/
  unyielded : s.tiw.yieldSlot = slotInactive
  /-- its time -/
  time : s.loc.currTime = currTime
  /-- no time passes -/
  clock : s.clock = currTime
  /-- a scan is up to the position -/
  scanning : s.pc.scanning = true → s.loc.bumpTo = s.tiw.pos
  /-- a restarted pass does not go on -/
  restarted : s.loc.restarted = true → s.loc.bumpTo = s.tiw.pos
  /-- another one goes to `currTime` -/
  fresh : s.loc.restarted = false → s.pc ≠ .pass → s.loc.bumpTo = monotonicToClktcks currTime
  /-- and has emptied the at-once slot first -/
  emptied : s.loc.restarted = false → s.pc.listed = true → s.tiw.w (-1) = []
  /-- as every pass has in the end -/
  atEnd : s.pc = .passDone → s.tiw.w (-1) = []

theorem shelved_of_alone (h : Shelved s) (hy : s.tiw.yieldSlot = slotInactive) {a : Answers}
    (hs : s.alone a = some s') : Shelved s' := by
  unfold State.alone at hs
  split at hs
  · rename_i home hpc
    obtain rfl := Option.some.inj hs
    exact h.callbackDone hpc
  · exact h.runStep hy hs

theorem yieldSlot_of_alone {a : Answers} (hs : s.alone a = some s') (hne : s'.pc ≠ .idle) :
    s'.tiw.yieldSlot = s.tiw.yieldSlot := by
  unfold State.alone at hs
  split at hs
  · rename_i home hpc
    obtain rfl := Option.some.inj hs
    cases home <;> rfl
  · exact runStep_yieldSlot hs hne

theorem Kin.onCourse {currTime : ℤ} (hkin : Kin s s') (h : OnCourse currTime s)
    (hshelved : Shelved s') (hrun : s'.pc ≠ .idle) (hy : s'.tiw.yieldSlot = slotInactive)
    (hscan : s'.pc.scanning = true → s.pc.scanning = true)
    (hfresh : s'.pc ≠ .pass → s.pc ≠ .pass)
    (hempty : s.loc.restarted = false → s'.pc.listed = true → s'.tiw.w (-1) = [])
    (hover : s'.pc = .passDone → s'.tiw.w (-1) = []) : OnCourse currTime s' := by
  refine ⟨hshelved, hrun, hy, hkin.currTime.trans h.time, hkin.clock.trans h.clock, ?_, ?_, ?_, ?_,
    hover⟩
  · intro hsc
    rw [hkin.bumpTo, hkin.pos]
    exact h.scanning (hscan hsc)
  · intro hre
    rw [hkin.bumpTo, hkin.pos]
    exact h.restarted (hkin.restarted.symm.trans hre)
  · intro hre hpass
    rw [hkin.bumpTo]
    exact h.fresh (hkin.restarted.symm.trans hre) (hfresh hpass)
  · intro hre
    exact hempty (hkin.restarted.symm.trans hre)

theorem Shelved.atOnce_nil (h : Shelved s) (htaken : s.taken = none) (hcount : s.tiw.atOnceNto = 0) :
    s.tiw.w (-1) = [] := by
  have hlen := h.atOnce
  rw [htaken, hcount, if_neg (fun he => nomatch he), add_zero] at hlen
  exact List.length_eq_zero_iff.1 (Int.ofNat_eq_zero.1 hlen.symm)

namespace Edge

variable {pc : Pc}

theorem scanning (h : Edge s pc) (hsc : pc.scanning = true) : s.pc.scanning = true := by
  cases h with
  | toLater hpc => rw [hpc]; rfl
  | intoLater hpc => rw [hpc]; rfl
  | _ => cases hsc

theorem listed (h : Edge s pc) (hl : pc.listed = true) : s.pc.listed = true := by
  cases h with
  | toLater hpc => rw [hpc]; rfl
  | intoLater hpc => rw [hpc]; rfl
  | _ => cases hl

theorem ne_pass (h : Edge s pc) (_ : pc ≠ .pass) : s.pc ≠ .pass := by
  intro hp
  cases h <;> simp_all

theorem passDone (h : Edge s pc) (hpc : pc = .passDone) :
    s.pc = .atOnceDone ∧ s.tiw.atOnceNto = 0 := by
  cases h with
  | allDone hdone _ hcount => exact ⟨hdone, hcount⟩
  | _ => cases hpc

end Edge

/-- **Every step** stays on course. -/
theorem OnCourse.alone {currTime : ℤ} (h : OnCourse currTime s) {a : Answers}
    (hs : s.alone a = some s') (hne : s'.pc ≠ .idle) : OnCourse currTime s' := by
  have hshelved := shelved_of_alone h.shelved h.unyielded hs
  have hy := (yieldSlot_of_alone hs hne).trans h.unyielded
  cases moves_of_alone h.shelved hs hne with
  | pass hpc hpc' htime hclock hto hre htiw hcost =>
    refine ⟨hshelved, hne, hy, htime.trans h.time, hclock.trans h.clock, ?_, ?_, ?_, ?_, ?_⟩
    · rw [hpc']
      intro hsc
      cases hsc
    · rw [hre]
      intro hf
      cases hf
    · intro _ _
      rw [hto, h.time]
    · rw [hpc']
      intro _ hl
      cases hl
    · rw [hpc']
      intro he
      cases he
  | edge hedge hstill =>
    refine hstill.toKin.onCourse h hshelved hne hy hedge.scanning hedge.ne_pass ?_ ?_
    · rw [hstill.w]
      exact fun hre hl => h.emptied hre (hedge.listed hl)
    · rw [hstill.w]
      intro hover
      obtain ⟨hpc, hcount⟩ := hedge.passDone hover
      exact h.shelved.atOnce_nil (by rw [State.taken, hpc]) hcount
  | scan hpc hpc' hlt htime hclock hto hre hpos hw hcost =>
    have hf : s.loc.restarted = false := by
      cases hr : s.loc.restarted with
      | false => rfl
      | true => exact absurd (h.restarted hr) (ne_of_gt hlt)
    refine ⟨hshelved, hne, hy, htime.trans h.time, hclock.trans h.clock, ?_, ?_, ?_, ?_, ?_⟩
    · rw [hto, hpos]
      exact fun _ => rfl
    · rw [hto, hpos]
      exact fun _ => rfl
    · rw [hto]
      intro _ _
      exact h.fresh hf (by rw [hpc]; decide)
    · rw [hw]
      intro _ _
      exact h.emptied hf (by rw [hpc]; rfl)
    · rw [hpc']
      intro he
      cases he
  | take home hpc hdealt hsome hw hslots hkin =>
    refine hkin.onCourse h hshelved hne hy ?_ ?_ ?_ ?_
    · rw [hpc]
      rcases hdealt with hpc' | ⟨hpc', -⟩
      · rw [hpc']
        cases home <;> exact id
      · rw [hpc']
        cases home <;> exact id
    · rw [hpc]
      intro _
      cases home <;> decide
    · rw [hw]
      intro hre _
      split_ifs with hhome
      · rfl
      · refine h.emptied hre ?_
        rw [hpc]
        cases home with
        | atOnce => exact absurd rfl hhome
        | soon => rfl
        | later => rfl
    · rcases hdealt with hpc' | ⟨hpc', -⟩
      · rw [hpc']
        intro he
        cases he
      · rw [hpc']
        intro he
        cases he
  | skip home hpc hpc' hless hstill =>
    refine hstill.toKin.onCourse h hshelved hne hy ?_ ?_ ?_ ?_
    · rw [hpc']
      rcases hpc with ⟨hpc, -⟩ | ⟨hpc, -⟩
      · rw [hpc]
        cases home <;> exact id
      · rw [hpc]
        cases home <;> exact id
    · intro _
      rcases hpc with ⟨hpc, -⟩ | ⟨hpc, -⟩
      · rw [hpc]
        cases home <;> decide
      · rw [hpc]
        exact fun he => by cases he
    · rw [hstill.w]
      intro hre _
      rcases hpc with ⟨hpc, hnone⟩ | ⟨hpc, -⟩
      · cases home with
        | atOnce => exact (hnone rfl).2
        | soon => exact h.emptied hre (by rw [hpc]; rfl)
        | later => exact h.emptied hre (by rw [hpc]; rfl)
      · exact h.emptied hre (by rw [hpc]; rfl)
    · rw [hpc']
      cases home <;> exact fun he => by cases he
  | timer home hpc hdealt hlen hw hslots hkin =>
    refine hkin.onCourse h hshelved hne hy ?_ ?_ ?_ ?_
    · rw [hpc]
      rcases hdealt with hpc' | ⟨hpc', -⟩
      · rw [hpc']
        cases home <;> exact id
      · rw [hpc']
        cases home <;> exact id
    · rw [hpc]
      intro _
      exact fun he => by cases he
    · rw [hw]
      intro hre _
      exact h.emptied hre (by rw [hpc]; rfl)
    · rcases hdealt with hpc' | ⟨hpc', -⟩
      · rw [hpc']
        intro he
        cases he
      · rw [hpc']
        intro he
        cases he
  | ret home hpc hpc' hsent hw hslots hkin =>
    refine hkin.onCourse h hshelved hne hy ?_ ?_ ?_ ?_
    · rw [hpc, hpc']
      cases home <;> exact id
    · rw [hpc]
      intro _
      exact fun he => by cases he
    · rw [hw]
      intro hre _
      exact h.emptied hre (by rw [hpc]; rfl)
    · rw [hpc']
      intro he
      cases he

theorem taken_core (s : State) (hne : s.pc ≠ .idle) : s.core.taken = s.taken := by
  unfold State.taken
  cases hpc : s.pc with
  | idle => exact absurd hpc hne
  | next home =>
    rw [show s.core.pc = .next home from hpc]
    cases home with
    | atOnce => rfl
    | soon => exact congrArg some (if_pos (by rw [hpc]; rfl))
    | later => exact congrArg some (if_pos (by rw [hpc]; rfl))
  | callback home =>
    rw [show s.core.pc = .callback home from hpc]
    cases home with
    | atOnce => rfl
    | soon => exact congrArg some (if_pos (by rw [hpc]; rfl))
    | later => exact congrArg some (if_pos (by rw [hpc]; rfl))
  | _ => rw [show s.core.pc = _ from hpc]

theorem inWheel_core (h : s.InWheel) (hne : s.pc ≠ .idle) : s.core.InWheel := by
  unfold State.InWheel at h ⊢
  cases hpc : s.pc with
  | idle => exact absurd hpc hne
  | soon =>
    obtain ⟨hslot, -⟩ := core_slot (s := s) (by rw [hpc]; rfl)
    rw [show s.core.pc = .soon from hpc, hslot]
    rw [hpc] at h
    exact h
  | later =>
    obtain ⟨hslot, -⟩ := core_slot (s := s) (by rw [hpc]; rfl)
    rw [show s.core.pc = .later from hpc, hslot]
    rw [hpc] at h
    exact h
  | next home =>
    rw [hpc] at h
    rw [show s.core.pc = .next home from hpc]
    cases home with
    | atOnce => exact ⟨trivial, fun he => absurd rfl he⟩
    | soon =>
      obtain ⟨hslot, hslots⟩ := core_slot (s := s) (by rw [hpc]; rfl)
      rw [hslot, hslots]
      exact h
    | later =>
      obtain ⟨hslot, hslots⟩ := core_slot (s := s) (by rw [hpc]; rfl)
      rw [hslot, hslots]
      exact h
  | callback home =>
    rw [hpc] at h
    rw [show s.core.pc = .callback home from hpc]
    cases home with
    | atOnce => exact ⟨trivial, fun he => absurd rfl he⟩
    | soon =>
      obtain ⟨hslot, hslots⟩ := core_slot (s := s) (by rw [hpc]; rfl)
      rw [hslot, hslots]
      exact h
    | later =>
      obtain ⟨hslot, hslots⟩ := core_slot (s := s) (by rw [hpc]; rfl)
      rw [hslot, hslots]
      exact h
  | _ =>
    rw [show s.core.pc = _ from hpc]
    trivial

theorem OnCourse.core {currTime : ℤ} (h : OnCourse currTime s) : OnCourse currTime s.core := by
  have htaken := taken_core s h.running
  refine ⟨⟨?_, ?_, ?_, inWheel_core h.shelved.inWheel h.running⟩, h.running, rfl, h.time, h.clock,
    h.scanning, h.restarted, h.fresh, h.emptied, h.atEnd⟩
  · rw [htaken]
    exact h.shelved.lists
  · rw [htaken]
    exact h.shelved.rest
  · rw [htaken]
    exact h.shelved.atOnce

/-! ## The end of a bump -/

/-- How far it is to the end of a bump: `more` if the pass has to move the position, `filled`
if there are timers in the at-once slot. -/
def Pc.rank (more filled restarted : Bool) (pc : Pc) : ℕ :=
  (if restarted then 100 else 0) +
  match pc with
  | .idle => 0
  | .pass => if restarted then 0 else 60
  | .top => if more then 40 else 10
  | .next .atOnce | .callback .atOnce => if more then 39 else if filled then 12 else 9
  | .atOnceDone => if more then 38 else if filled then 11 else 8
  | .soon | .next .soon | .callback .soon => 30
  | .enterLater => 29
  | .later | .next .later | .callback .later => 20
  | .passDone => 7

namespace State

/-- The stages left. -/
def rank (s : State) : ℕ :=
  s.pc.rank (s.tiw.pos < s.loc.bumpTo) (s.tiw.w (-1) ≠ []) s.loc.restarted

/-- The slots left. -/
def slotsLeft (s : State) : ℕ :=
  if s.pc.scanning then 2 * s.loc.slots.toNat + if s.pc = .soon ∨ s.pc = .later then 1 else 0
  else 0

/-- The timers left. -/
def timersLeft (s : State) : ℕ :=
  2 * s.tiw.sentinel.length + match s.pc with | .callback _ => 1 | _ => 0

/-- `s'` is nearer to the end than `s`. -/
def Nearer (s' s : State) : Prop :=
  Prod.Lex (· < ·) (Prod.Lex (· < ·) (· < ·)) (s'.rank, s'.slotsLeft, s'.timersLeft)
    (s.rank, s.slotsLeft, s.timersLeft)

theorem nearer_wf : WellFounded Nearer :=
  InvImage.wf _ (WellFounded.prod_lex Nat.lt_wfRel.wf
    (WellFounded.prod_lex Nat.lt_wfRel.wf Nat.lt_wfRel.wf))

theorem nearer_of_slots {s s' : State} (hrank : s'.rank = s.rank)
    (hslots : s'.slotsLeft < s.slotsLeft) : s'.Nearer s := by
  unfold Nearer
  rw [hrank]
  exact Prod.Lex.right _ (Prod.Lex.left _ _ hslots)

theorem nearer_of_timers {s s' : State} (hrank : s'.rank = s.rank)
    (hslots : s'.slotsLeft = s.slotsLeft) (htimers : s'.timersLeft < s.timersLeft) :
    s'.Nearer s := by
  unfold Nearer
  rw [hrank, hslots]
  exact Prod.Lex.right _ (Prod.Lex.right _ htimers)

end State

/-- All of a list from one home has one rank, as the scan it is taken in if it is in a wheel. -/
theorem rank_home (home : Home) (more filled restarted : Bool) {pc : Pc}
    (hpc : pc = .callback home ∨ pc = .next home ∧ home ≠ .atOnce) :
    pc.rank more filled restarted = (Pc.next home).rank more filled restarted := by
  rcases hpc with rfl | ⟨rfl, -⟩
  · cases home <;> rfl
  · rfl

theorem rank_scan (hne : home ≠ .atOnce) (more filled restarted more' filled' : Bool) :
    home.scan.rank more filled restarted = (Pc.next home).rank more' filled' restarted ∧
    home.done.rank more filled restarted = (Pc.next home).rank more' filled' restarted := by
  cases home with
  | atOnce => exact absurd rfl hne
  | soon => exact ⟨rfl, rfl⟩
  | later => exact ⟨rfl, rfl⟩

theorem slotsLeft_dealt (hpc : s.pc = .callback home ∨ s.pc = .next home) :
    s.slotsLeft = if home = .atOnce then 0 else 2 * s.loc.slots.toNat := by
  unfold State.slotsLeft
  rcases hpc with hpc | hpc
  · rw [hpc]
    cases home <;> rfl
  · rw [hpc]
    cases home <;> rfl

theorem slotsLeft_scan (hne : home ≠ .atOnce) (hpc : s.pc = home.scan ∨ s.pc = home.done) :
    s.slotsLeft = 2 * s.loc.slots.toNat + 1 := by
  unfold State.slotsLeft
  cases home with
  | atOnce => exact absurd rfl hne
  | soon =>
    rw [show s.pc = .soon from hpc.elim id id]
    rfl
  | later =>
    rw [show s.pc = .later from hpc.elim id id]
    rfl

theorem filled_of_count (h : Shelved s) (htaken : s.taken = none) (hcount : s.tiw.atOnceNto ≠ 0) :
    s.tiw.w (-1) ≠ [] := by
  intro hnil
  have hlen := h.atOnce
  rw [htaken, hnil] at hlen
  exact hcount hlen

/-- A jump comes nearer to the end. -/
theorem OnCourse.rank_edge {currTime : ℤ} (h : OnCourse currTime s) (hedge : Edge s s'.pc)
    (hstill : Still s s') : s'.rank < s.rank := by
  unfold State.rank
  rw [hstill.pos, hstill.bumpTo, hstill.w, hstill.restarted]
  generalize s'.pc = pc at hedge
  have hscan : s.pc.scanning = true → decide (s.tiw.pos < s.loc.bumpTo) = false := by
    intro hsc
    rw [h.scanning hsc]
    exact decide_eq_false (lt_irrefl _)
  cases hedge with
  | again hpc hpos hcount =>
    have hfilled := filled_of_count h.shelved (by rw [State.taken, hpc]) hcount
    rw [hpc, decide_eq_false (not_lt.2 hpos), decide_eq_true hfilled]
    exact (by decide : ∀ r, Pc.rank false true r .top < Pc.rank false true r .atOnceDone) _
  | allDone hpc =>
    rw [hpc]
    exact (by decide : ∀ m f r, Pc.rank m f r .passDone < Pc.rank m f r .atOnceDone) _ _ _
  | toLater hpc =>
    rw [hpc]
    exact (by decide : ∀ m f r, Pc.rank m f r .enterLater < Pc.rank m f r .soon) _ _ _
  | soonTop hpc =>
    rw [hscan (by rw [hpc]; rfl), hpc]
    exact (by decide : ∀ f r, Pc.rank false f r .top < Pc.rank false f r .soon) _ _
  | intoLater hpc =>
    rw [hpc]
    exact (by decide : ∀ m f r, Pc.rank m f r .later < Pc.rank m f r .enterLater) _ _ _
  | skipLater hpc =>
    rw [hscan (by rw [hpc]; rfl), hpc]
    exact (by decide : ∀ f r, Pc.rank false f r .top < Pc.rank false f r .enterLater) _ _
  | laterTop hpc =>
    rw [hscan (by rw [hpc]; rfl), hpc]
    exact (by decide : ∀ f r, Pc.rank false f r .top < Pc.rank false f r .later) _ _
  | restart hpc hre =>
    rw [hpc, hre]
    exact (by decide : ∀ m f, Pc.rank m f true .pass < Pc.rank m f true .passDone) _ _

/-- **Every step** comes nearer to the end. -/
theorem OnCourse.nearer {currTime : ℤ} (h : OnCourse currTime s) (hm : Moves s s') :
    s'.Nearer s := by
  cases hm with
  | pass hpc hpc' htime hclock hto hre htiw hcost =>
    refine Prod.Lex.left _ _ ?_
    unfold State.rank
    rw [hpc, hpc', hre]
    exact (by decide : ∀ m f m' f' r, Pc.rank m' f' false .top < Pc.rank m f r .pass) _ _ _ _ _
  | edge hedge hstill => exact Prod.Lex.left _ _ (h.rank_edge hedge hstill)
  | scan hpc hpc' hlt htime hclock hto hre hpos hw hcost =>
    refine Prod.Lex.left _ _ ?_
    unfold State.rank
    rw [hpc, hpc', hre, decide_eq_true hlt]
    exact (by decide : ∀ f m' f' r, Pc.rank m' f' r .soon < Pc.rank true f r .atOnceDone) _ _ _ _
  | take home hpc hdealt hsome hw hslots hkin =>
    by_cases hhome : home = .atOnce
    · subst hhome
      refine Prod.Lex.left _ _ ?_
      unfold State.rank
      rw [rank_home .atOnce _ _ _ hdealt, hkin.pos, hkin.bumpTo, hkin.restarted, hw, hpc]
      exact (by decide : ∀ m f r, Pc.rank m false r (.next .atOnce) < Pc.rank m f r .top) _ _ _
    · apply State.nearer_of_slots
      · unfold State.rank
        rw [rank_home home _ _ _ hdealt, hpc, hkin.restarted]
        exact (rank_scan hhome ..).1.symm
      · rw [slotsLeft_dealt (hdealt.imp id And.left), slotsLeft_scan hhome (Or.inl hpc), hslots,
          if_neg hhome]
        exact Nat.lt_succ_self _
  | skip home hpc hpc' hless hstill =>
    by_cases hhome : home = .atOnce
    · subst hhome
      refine Prod.Lex.left _ _ ?_
      unfold State.rank
      rw [hstill.pos, hstill.bumpTo, hstill.restarted, hstill.w, hpc']
      rcases hpc with ⟨hpc, hnone⟩ | ⟨hpc, -⟩
      · rw [hpc, (hnone rfl).2]
        exact (by decide : ∀ m r, Pc.rank m false r .atOnceDone < Pc.rank m false r .top) _ _
      · rw [hpc]
        exact (by decide : ∀ m f r, Pc.rank m f r .atOnceDone < Pc.rank m f r (.next .atOnce)) _ _ _
    · obtain ⟨hone, hlt⟩ := hless hhome
      rcases hpc with ⟨hpc, -⟩ | ⟨hpc, -⟩
      · apply State.nearer_of_slots
        · unfold State.rank
          rw [hpc, hpc', hstill.restarted]
          exact (rank_scan hhome _ _ _ false false).2.trans
            (rank_scan hhome _ _ _ false false).1.symm
        · rw [slotsLeft_scan hhome (Or.inr hpc'), slotsLeft_scan hhome (Or.inl hpc)]
          omega
      · apply State.nearer_of_slots
        · unfold State.rank
          rw [hpc, hpc', hstill.restarted]
          exact (rank_scan hhome ..).2
        · rw [slotsLeft_scan hhome (Or.inr hpc'), slotsLeft_dealt (Or.inr hpc), if_neg hhome]
          omega
  | timer home hpc hdealt hlen hw hslots hkin =>
    apply State.nearer_of_timers
    · unfold State.rank
      rw [rank_home home _ _ _ hdealt, hkin.pos, hkin.bumpTo, hkin.restarted, hw, hpc]
    · rw [slotsLeft_dealt (hdealt.imp id And.left), slotsLeft_dealt (Or.inr hpc), hslots]
    · unfold State.timersLeft
      rw [hpc, hlen]
      rcases hdealt with hpc' | ⟨hpc', -⟩
      · rw [hpc']
        exact Nat.lt_succ_self _
      · rw [hpc']
        dsimp only
        omega
  | ret home hpc hpc' hsent hw hslots hkin =>
    apply State.nearer_of_timers
    · unfold State.rank
      rw [hkin.pos, hkin.bumpTo, hkin.restarted, hw, hpc, hpc']
      exact (rank_home home _ _ _ (Or.inl rfl)).symm
    · rw [slotsLeft_dealt (Or.inl hpc), slotsLeft_dealt (Or.inr hpc'), hslots]
    · unfold State.timersLeft
      rw [hpc, hpc', hsent]
      exact Nat.lt_succ_self _

theorem nearer_of_core (h : s'.Nearer s.core) : s'.Nearer s := by
  have hrank : s.core.rank = s.rank := rfl
  have hslots : s.core.slotsLeft = s.slotsLeft := by
    unfold State.slotsLeft
    cases hsc : s.pc.scanning with
    | false => rw [show s.core.pc.scanning = false from hsc]; rfl
    | true => rw [show s.core.pc.scanning = true from hsc, (core_slot hsc).2]; rfl
  have htimers : s.core.timersLeft = s.timersLeft := rfl
  unfold State.Nearer at h ⊢
  rw [hrank, hslots, htimers] at h
  exact h

/-- A bump can always go on. -/
theorem alone_isSome (hne : s.pc ≠ .idle) (a : Answers) (hnow : s.clock ≤ a.now) :
    ∃ s', s.alone a = some s' := by
  unfold State.alone State.runStep
  cases hpc : s.pc with
  | idle => exact absurd hpc hne
  | passDone =>
    dsimp only
    split_ifs
    · exact ⟨_, rfl⟩
    · exact ⟨_, rfl⟩
  | _ => exact ⟨_, rfl⟩

end

end PonBeam.TimerWheel
