import PonBeam.TimerWheel.Resume

/-!
# A bump that yields ends as one that does not

A call of `erts_bump_timers` ends as a bump without yields does, or stops before a timer.
So every chain of calls comes to the same end, but for the place of a wheel that the bump
leaves empty without having had to move it: `find_next_timeout` moves it to the present.
-/

namespace PonBeam.TimerWheel

section

variable {currTime : ℤ} {s s' : State} {home : Home} {m : ℕ} {r : Wheel × List Event}

/-! ## The place of an empty wheel -/

/-- The bump does not come to `find_next_timeout` with an empty wheel. -/
def State.Kept (s : State) : Prop :=
  match s.pc with
  | .pass => s.tiw.pos < monotonicToClktcks s.loc.currTime ∨ s.tiw.nto = 0 ∨ s.tiw.w (-1) = []
  | .top => s.tiw.pos < s.loc.bumpTo ∨ s.loc.restarted = true ∨ s.tiw.nto = 0 ∨ s.tiw.w (-1) = []
  | .next .atOnce => s.tiw.pos < s.loc.bumpTo ∨ s.loc.restarted = true
  | .callback .atOnce => s.tiw.pos < s.loc.bumpTo ∨ s.loc.restarted = true
  | .atOnceDone => s.tiw.pos < s.loc.bumpTo ∨ s.loc.restarted = true ∨ s.tiw.nto ≠ 0
  | .passDone => s.loc.restarted = true ∨ s.tiw.nto ≠ 0
  | _ => True

/-- In a list of a wheel, and in one of the at-once slot if the pass goes on. -/
theorem kept_dealt (hdealt : s'.pc = .callback home ∨ s'.pc = .next home ∧ home ≠ .atOnce)
    (hkin : Kin s s')
    (hmore : home = .atOnce → s.tiw.pos < s.loc.bumpTo ∨ s.loc.restarted = true) : s'.Kept := by
  unfold State.Kept
  rcases hdealt with hpc' | ⟨hpc', hne⟩
  · rw [hpc']
    cases home with
    | atOnce =>
      dsimp only
      rw [hkin.pos, hkin.bumpTo, hkin.restarted]
      exact hmore rfl
    | soon => trivial
    | later => trivial
  · rw [hpc']
    cases home with
    | atOnce => exact absurd rfl hne
    | soon => trivial
    | later => trivial

theorem kept_edge (h : OnCourse currTime s) (hk : s.Kept) (hedge : Edge s s'.pc)
    (hstill : Still s s') : s'.Kept := by
  have hscan : s.pc.scanning = true → s.loc.restarted = true ∨ s.tiw.nto = 0 ∨
      s.tiw.w (-1) = [] := by
    intro hsc
    cases hre : s.loc.restarted with
    | true => exact Or.inl rfl
    | false =>
      refine Or.inr (Or.inr (h.emptied hre ?_))
      cases hp : s.pc <;> rw [hp] at hsc <;> first | rfl | cases hsc
  unfold State.Kept at hk ⊢
  rw [hstill.pos, hstill.bumpTo, hstill.restarted, hstill.nto, hstill.w, hstill.currTime]
  generalize s'.pc = pc at hedge
  cases hedge with
  | again hpc hpos hcount =>
    rw [hpc] at hk
    rcases hk with hlt | hre | hnto
    · exact absurd hpos (not_le.2 hlt)
    · exact Or.inr (Or.inl hre)
    · cases hre : s.loc.restarted with
      | true => exact Or.inr (Or.inl rfl)
      | false => exact Or.inr (Or.inr (Or.inr (h.emptied hre (by rw [hpc]; rfl))))
  | allDone hpc hpos hcount =>
    rw [hpc] at hk
    exact hk.resolve_left (not_lt.2 hpos)
  | toLater hpc => trivial
  | soonTop hpc => exact Or.inr (hscan (by rw [hpc]; rfl))
  | intoLater hpc => trivial
  | skipLater hpc => exact Or.inr (hscan (by rw [hpc]; rfl))
  | laterTop hpc => exact Or.inr (hscan (by rw [hpc]; rfl))
  | restart hpc hre => exact Or.inr (Or.inr (h.atEnd hpc))

/-- **Every step** keeps it so. -/
theorem State.Kept.moves (hk : s.Kept) (h : OnCourse currTime s) (hm : Moves s s') : s'.Kept := by
  cases hm with
  | pass hpc hpc' htime hclock hto hre htiw hcost =>
    unfold State.Kept at hk ⊢
    rw [hpc] at hk
    rw [hpc', hto]
    dsimp only at hk ⊢
    have hpos := congrArg Wheel.pos htiw
    have hnto := congrArg Wheel.nto htiw
    have hw := congrArg Wheel.w htiw
    change s'.tiw.pos = s.tiw.pos at hpos
    change s'.tiw.nto = s.tiw.nto at hnto
    change s'.tiw.w = s.tiw.w at hw
    rw [hpos, hnto, hw]
    exact hk.imp_right Or.inr
  | edge hedge hstill => exact kept_edge h hk hedge hstill
  | scan hpc hpc' hlt htime hclock hto hre hpos hw hcost =>
    unfold State.Kept
    rw [hpc']
    trivial
  | take home hpc hdealt hsome hw hslots hkin =>
    refine kept_dealt hdealt hkin fun hhome => ?_
    subst hhome
    obtain ⟨hnto, hne⟩ := hsome rfl
    unfold State.Kept at hk
    rw [hpc] at hk
    rcases hk with hlt | hre | hzero | hnil
    · exact Or.inl hlt
    · exact Or.inr hre
    · exact absurd hzero hnto
    · exact absurd hnil hne
  | skip home hpc hpc' hless hstill =>
    unfold State.Kept at hk ⊢
    rw [hpc']
    cases home with
    | atOnce =>
      change _ ∨ _ ∨ _
      rw [hstill.pos, hstill.bumpTo, hstill.restarted, hstill.nto]
      rcases hpc with ⟨hpc, hnone⟩ | ⟨hpc, -⟩
      · exact Or.inr (Or.inr (hnone rfl).1)
      · rw [hpc] at hk
        exact hk.imp_right Or.inl
    | soon => trivial
    | later => trivial
  | timer home hpc hdealt hlen hw hslots hkin =>
    refine kept_dealt hdealt hkin fun hhome => ?_
    subst hhome
    unfold State.Kept at hk
    rw [hpc] at hk
    exact hk
  | ret home hpc hpc' hsent hw hslots hkin =>
    unfold State.Kept at hk ⊢
    rw [hpc] at hk
    rw [hpc']
    cases home with
    | atOnce =>
      change _ ∨ _
      rw [hkin.pos, hkin.bumpTo, hkin.restarted]
      exact hk
    | soon => trivial
    | later => trivial

/-! ## The end of a call -/

theorem bumpTimer_running (s : State) (home : Home) (p : Tmr) :
    (s.bumpTimer home p).pc ≠ .idle := by
  cases home with
  | atOnce => exact fun he => nomatch he
  | soon =>
    unfold State.bumpTimer State.bumpSoon
    dsimp only
    split_ifs <;> exact fun he => nomatch he
  | later =>
    unfold State.bumpTimer State.bumpLater
    dsimp only
    split_ifs <;> exact fun he => nomatch he

theorem nextSlot_running (s : State) (home : Home) : (s.nextSlot home).pc ≠ .idle := by
  cases home <;> exact fun he => nomatch he

theorem takeSlot_running (s : State) (home : Home) (slot : ℤ) :
    (s.takeSlot home slot).pc ≠ .idle := by
  cases hw : s.tiw.w slot with
  | nil =>
    rw [takeSlot_nil s home hw]
    exact nextSlot_running s home
  | cons p rest =>
    rw [takeSlot_cons s home hw]
    exact bumpTimer_running _ home p

theorem nextTimer_running (hpc : s.pc = .next home) (hy : s.yields = false) :
    (s.nextTimer home).pc ≠ .idle := by
  cases hs : s.tiw.sentinel with
  | nil =>
    rw [nextTimer_nil hs]
    exact nextSlot_running s home
  | cons p rest =>
    have hout : s.outOfTime home = false := by
      unfold State.yields at hy
      rw [hpc, hs] at hy
      simpa using hy
    rw [nextTimer_cons hs hout]
    exact bumpTimer_running _ home p

/-- How a call ends that does not yield. -/
theorem ended_cases {a : Answers} (hs : s.alone a = some s') (hy : s.yields = false)
    (hidle : s'.pc = .idle) : s.pc ≠ .passDone ∧ s' = s.emptyWheel a.arm ∨
      s.pc = .passDone ∧ s.loc.restarted = false ∧ s' = s.finish a := by
  unfold State.alone State.runStep at hs
  cases hpc : s.pc with
  | idle =>
    rw [hpc] at hs
    cases hs
  | callback home =>
    rw [hpc] at hs
    obtain rfl := Option.some.inj hs
    cases hidle
  | pass =>
    rw [hpc] at hs
    obtain rfl := Option.some.inj hs
    cases hidle
  | top =>
    rw [hpc] at hs
    obtain rfl := Option.some.inj hs
    split_ifs at hidle ⊢
    · exact Or.inl ⟨fun he => (nomatch he), rfl⟩
    · exact absurd hidle (takeSlot_running s .atOnce slotAtOnce)
  | atOnceDone =>
    rw [hpc] at hs
    obtain rfl := Option.some.inj hs
    unfold State.atOnceDone at hidle ⊢
    split_ifs at hidle ⊢
    · cases hidle
    · cases hidle
    · exact Or.inl ⟨fun he => (nomatch he), rfl⟩
    · cases hidle
  | soon =>
    rw [hpc] at hs
    obtain rfl := Option.some.inj hs
    split_ifs at hidle
    · exact absurd hidle (takeSlot_running (s.pay costSlot) .soon s.loc.slot)
    · cases hidle
    · cases hidle
  | enterLater =>
    rw [hpc] at hs
    obtain rfl := Option.some.inj hs
    unfold State.enterLater at hidle
    dsimp only at hidle
    split_ifs at hidle <;> cases hidle
  | later =>
    rw [hpc] at hs
    obtain rfl := Option.some.inj hs
    split_ifs at hidle
    · exact absurd hidle (takeSlot_running (s.pay costSlot) .later s.loc.slot)
    · cases hidle
  | passDone =>
    rw [hpc] at hs
    dsimp only at hs
    split_ifs at hs with hre
    · obtain rfl := Option.some.inj hs
      cases hidle
    · obtain rfl := Option.some.inj hs
      exact Or.inr ⟨rfl, eq_false_of_ne_true hre, rfl⟩
  | next home =>
    rw [hpc] at hs
    obtain rfl := Option.some.inj hs
    exact absurd hidle (nextTimer_running hpc hy)

theorem emptyWheel_yieldSlot (s : State) (a : ArmAnswers) :
    (s.emptyWheel a).tiw.yieldSlot = slotInactive := by
  obtain ⟨fd, d, he⟩ := Wheel.ponTimerWheelArm_eq
    { s.tiw.setNextTimeout (s.loc.bumpTo + clktcksWeek) with
      trueNextTimeoutTime := false
      pos := s.loc.bumpTo
      laterPos := laterPosMask (s.loc.bumpTo + soonWheelSize)
      yieldSlot := slotInactive } a
  exact congrArg Wheel.yieldSlot he

theorem finish_yieldSlot (s : State) (a : Answers) :
    (s.finish a).tiw.yieldSlot = s.tiw.yieldSlot := by
  obtain ⟨fd, d, he⟩ := Wheel.ponTimerWheelArm_eq
    (Wheel.findNextTimeout { s.tiw with trueNextTimeoutTime := false } a.now) a.arm
  exact (congrArg Wheel.yieldSlot he).trans (findNextTimeout_shelf _ a.now).2.2.2.2.1

/-- The wheel wherever it is. -/
def Wheel.unplaced (tiw : Wheel) : Wheel := { tiw with pos := 0, laterPos := 0 }

/-- **A bump has ended as it should**, also with the wheel in its place if `kept`. -/
structure Agrees (kept : Prop) (s : State) (r : Wheel × List Event) : Prop where
  /-- the callbacks -/
  fired : fired s.log = r.2
  /-- the timers left -/
  rest : s.tiw.core.unplaced = r.1.unplaced
  /-- the place of the wheel -/
  place : kept ∨ s.tiw.nto ≠ 0 → s.tiw.core = r.1

theorem finish_tiw_core (s : State) (a : Answers) : (s.finish a).tiw.core =
    (Wheel.findNextTimeout { s.tiw with trueNextTimeoutTime := false } a.now).core :=
  Wheel.core_arm _ _

/-- The clock is read only for an empty wheel. -/
theorem finish_now (s : State) (a b : Answers) :
    (s.finish a).tiw.core.unplaced = (s.finish b).tiw.core.unplaced ∧
    ((s.finish a).tiw.nto ≠ 0 ∨ s.tiw.nto ≠ 0 → (s.finish a).tiw.core = (s.finish b).tiw.core) := by
  have hfind : ∀ now, s.tiw.nto = 0 →
      Wheel.findNextTimeout { s.tiw with trueNextTimeoutTime := false } now = _ :=
    fun now hnto => if_pos hnto
  have hcore := finish_tiw_core s
  by_cases hnto : s.tiw.nto = 0
  · have hzero : (s.finish a).tiw.nto = 0 := by
      have hn := congrArg Wheel.nto (hcore a)
      rw [hfind a.now hnto] at hn
      exact hn.trans hnto
    rw [hcore a, hcore b, hfind a.now hnto, hfind b.now hnto]
    exact ⟨rfl, fun hne => absurd hnto (hne.resolve_left (not_not_intro hzero))⟩
  · have hsame : (s.finish a).tiw.core = (s.finish b).tiw.core := by
      have hrest : ∀ now, Wheel.findNextTimeout { s.tiw with trueNextTimeoutTime := false } now = _ :=
        fun now => if_neg hnto
      rw [hcore a, hcore b, hrest a.now, hrest b.now]
    exact ⟨congrArg Wheel.unplaced hsame, fun _ => hsame⟩

/-- **A call that does not yield** ends as the bump does. -/
theorem Ends.ended {K : Prop} {a : Answers} (h : OnCourse currTime s)
    (hk : K → s.Kept) (hs : s.alone a = some s') (hy : s.yields = false)
    (hidle : s'.pc = .idle) (hends : Ends s.core m r) :
    s'.tiw.yieldSlot = slotInactive ∧ Agrees K s' r := by
  rcases ended_cases hs hy hidle with ⟨hpc, rfl⟩ | ⟨hpc, hre, rfl⟩
  · have hgo := go_of_alone hs hy (fun hp => absurd hp hpc)
    rw [← go_core] at hgo
    obtain ⟨n, -, hlast⟩ := hends.of_go hgo
    obtain rfl := hlast.of_idle hidle
    exact ⟨emptyWheel_yieldSlot s a.arm, ⟨rfl, rfl, fun _ => rfl⟩⟩
  · have hgo := go_passDone hpc
    rw [hre, if_neg Bool.false_ne_true, ← go_core] at hgo
    obtain ⟨n, -, hlast⟩ := hends.of_go hgo
    obtain rfl := hlast.of_idle rfl
    have hcore := congrArg State.tiw (core_finish s noTimerfd noTimerfd s.clock)
    obtain ⟨hun, hpl⟩ := finish_now s a ⟨noTimerfd, s.clock⟩
    refine ⟨(finish_yieldSlot s a).trans h.unyielded, ⟨?_, ?_, ?_⟩⟩
    · exact (fired_fired s.log).symm
    · rw [hcore]
      exact hun
    · rw [hcore]
      rintro (hkept | hne)
      · refine hpl (Or.inr ?_)
        have hkeep := hk hkept
        unfold State.Kept at hkeep
        rw [hpc] at hkeep
        exact hkeep.resolve_left (by rw [hre]; exact Bool.false_ne_true)
      · exact hpl (Or.inl hne)

/-- How a bump is before a yield. -/
structure Stops (currTime : ℤ) (s : State) (home : Home) (m : ℕ) (r : Wheel × List Event) :
    Prop where
  /-- it is on course -/
  course : OnCourse currTime s
  /-- in the middle of a list -/
  place : s.pc = .next home
  /-- which has a timer left -/
  left : s.tiw.sentinel ≠ []
  /-- and ends so -/
  ends : Ends s.core m r

theorem yields_cases {a : Answers} (hy : s.yields = true) (hs : s.alone a = some s') :
    ∃ home, s.pc = .next home ∧ s.tiw.sentinel ≠ [] ∧ s' = s.yieldIn home := by
  unfold State.yields at hy
  split at hy
  case h_1 home hpc =>
    obtain ⟨hne, hout⟩ := of_decide_eq_true hy
    refine ⟨home, hpc, hne, ?_⟩
    unfold State.alone State.runStep at hs
    rw [hpc] at hs
    obtain rfl := Option.some.inj hs
    cases hsent : s.tiw.sentinel with
    | nil => exact absurd hsent hne
    | cons p rest =>
      unfold State.nextTimer
      rw [hsent]
      exact if_pos hout
  · cases hy

/-- A pass that is not the last one. -/
theorem restarted_of_alone {a : Answers} (hpc : s.pc = .passDone) (hs : s.alone a = some s')
    (hne : s'.pc ≠ .idle) : s.loc.restarted = true := by
  unfold State.alone State.runStep at hs
  rw [hpc] at hs
  dsimp only at hs
  split_ifs at hs with hre
  · exact hre
  · obtain rfl := Option.some.inj hs
    exact absurd rfl hne

theorem Runs.of_idle (h : Runs s s') (hpc : s.pc = .idle) : s' = s := by
  cases h with
  | refl => rfl
  | step hs _ =>
    unfold State.alone State.runStep at hs
    rw [hpc] at hs
    cases hs

/-- **A call** ends as the bump does, or stops before a timer. -/
theorem Runs.ends_or_stops {K : Prop} (hrun : Runs s s') (hidle : s'.pc = .idle)
    (h : OnCourse currTime s) (hk : K → s.Kept) (hends : Ends s.core m r) :
    (s'.tiw.yieldSlot = slotInactive ∧ Agrees K s' r) ∨
    ∃ t home n, n ≤ m ∧ Stops currTime t home n r ∧ s' = t.yieldIn home := by
  induction hrun generalizing m with
  | refl s => exact absurd hidle h.running
  | @step s s₁ s' a hs hrun ih =>
    cases hy : s.yields with
    | true =>
      obtain ⟨home, hpc, hleft, rfl⟩ := yields_cases hy hs
      obtain rfl := hrun.of_idle (by cases home <;> rfl)
      exact Or.inr ⟨s, home, m, le_rfl, ⟨h, hpc, hleft, hends⟩, rfl⟩
    | false =>
      by_cases hidle₁ : s₁.pc = .idle
      · obtain rfl := hrun.of_idle hidle₁
        exact Or.inl (hends.ended h hk hs hy hidle)
      · have hmoves := moves_of_alone h.shelved hs hidle₁
        have hgo : s.core.go = some s₁.core := by
          rw [go_core]
          exact go_of_alone hs hy fun hpc => restarted_of_alone hpc hs hidle₁
        obtain ⟨n, rfl, hends₁⟩ := hends.of_go hgo
        rcases ih hidle (h.alone hs hidle₁) (fun hkept => (hk hkept).moves h hmoves) hends₁ with
          hend | ⟨t, home, n', hle, hstop⟩
        · exact Or.inl hend
        · exact Or.inr ⟨t, home, n', hle.trans (Nat.le_add_right _ _), hstop⟩

/-! ## Chains of calls -/

theorem Stops.shelved_yieldIn (h : Stops currTime s home m r) : Shelved (s.yieldIn home) :=
  h.course.shelved.yieldIn h.place

theorem Stops.yieldSlot (h : Stops currTime s home m r) :
    (s.yieldIn home).tiw.yieldSlot ≠ slotInactive := by
  obtain ⟨hhas, -⟩ := inWheel_next h.course.shelved h.place
  cases home with
  | atOnce => exact (by decide : slotAtOnce ≠ slotInactive)
  | soon =>
    have h0 : 0 ≤ s.loc.slot := hhas.1
    change s.loc.slot ≠ -2
    omega
  | later =>
    have h0 : 16384 ≤ s.loc.slot := hhas.1
    change s.loc.slot ≠ -2
    omega

/-- The call after a yield is not the one that moves an empty wheel to the present. -/
theorem kept_bumpWith (h : Shelved s) (hpc : s.pc = .idle) {budget : ℤ}
    (hplace : s.tiw.yieldSlot ≠ slotInactive ∨ s.tiw.pos < monotonicToClktcks currTime ∨
      s.tiw.nto = 0) : (s.bumpWith currTime budget).Kept := by
  unfold State.Kept
  rcases h.bumpTimers_cases hpc currTime with ⟨hy, hp⟩ | ⟨home, hy, hp, -⟩
  · rw [show (s.bumpWith currTime budget).pc = .pass from hp]
    rcases hplace with hne | hlt | hzero
    · exact absurd hy hne
    · exact Or.inl hlt
    · exact Or.inr (Or.inl hzero)
  · rw [show (s.bumpWith currTime budget).pc = .next home from hp]
    cases home with
    | atOnce => exact Or.inr (decide_eq_true hy)
    | soon => trivial
    | later => trivial

/-- **A chain of calls** ends as the bump does. -/
theorem Bumps.agrees {K : Prop} {budgets : List ℤ} (hb : Bumps currTime budgets s s')
    (h : Shelved s) (hk : K → (s.bumpWith currTime 0).Kept)
    (hends : Ends (s.bumpWith currTime 0).core m r) : Agrees K s' r := by
  induction hb generalizing m K with
  | @last budget s s' hcall hy =>
    rcases hcall.runs.ends_or_stops hcall.returned (onCourse_bumpWith h hcall.idle currTime budget)
      hk hends with ⟨-, hagree⟩ | ⟨t, home, n, -, hstop, rfl⟩
    · exact hagree
    · exact absurd hy hstop.yieldSlot
  | @more budget budgets s s₁ s' hcall hy hb ih =>
    rcases hcall.runs.ends_or_stops hcall.returned (onCourse_bumpWith h hcall.idle currTime budget)
      hk hends with ⟨hn, -⟩ | ⟨t, home, n, -, hstop, rfl⟩
    · exact absurd hn hy
    · have hagree := ih (K := True) hstop.shelved_yieldIn
        (fun _ => kept_bumpWith hstop.shelved_yieldIn hcall.returned (Or.inl hy))
        (hstop.ends.after_yield hstop.course hstop.place 0)
      exact ⟨hagree.fired, hagree.rest, fun _ => hagree.place (Or.inl trivial)⟩

/-! ## There are such calls -/

theorem yields_eq_false (hpos : 0 < s.loc.yieldCount) : s.yields = false := by
  unfold State.yields
  split
  · rename_i home _
    refine decide_eq_false fun hout => ?_
    cases home with
    | atOnce => exact absurd (of_decide_eq_true hout.2) (not_le.2 hpos)
    | soon => exact absurd (of_decide_eq_true hout.2) (not_le.2 hpos)
    | later => exact absurd (of_decide_eq_true hout.2) (not_lt.2 hpos.le)
  · rfl

/-- **With budget enough** there is no yield. -/
theorem Ends.unlimited {x : State} (hends : Ends x m r) (currTime : ℤ) : ∃ budget : ℤ, ∀ s, s.core = x →
    OnCourse currTime s → budget ≤ s.loc.yieldCount →
    ∃ s', Runs s s' ∧ s'.pc = .idle ∧ s'.tiw.yieldSlot = slotInactive := by
  induction hends with
  | done hidle =>
    refine ⟨0, fun s hx h _ => absurd ?_ h.running⟩
    rw [← hx] at hidle
    exact hidle
  | @step x x' m r hgo hends ih =>
    obtain ⟨budget, hrest⟩ := ih
    refine ⟨max 0 budget + costTimeout, fun s hx h hbudget => ?_⟩
    have hpos : 0 < s.loc.yieldCount := by
      refine lt_of_lt_of_le ?_ hbudget
      exact add_pos_of_nonneg_of_pos (le_max_left 0 budget) (by decide)
    have hy := yields_eq_false hpos
    obtain ⟨s₁, hs⟩ := alone_isSome h.running ⟨noTimerfd, s.clock⟩ (le_refl s.clock)
    have hgo' := go_of_alone_now hs hy rfl
    rw [← go_core, hx, hgo] at hgo'
    obtain rfl := Option.some.inj hgo'
    by_cases hidle : s₁.pc = .idle
    · rw [← hx] at hgo
      exact ⟨s₁, .step hs (.refl s₁), hidle,
        ((Ends.step hgo hends).ended (K := False) h (fun hf => hf.elim) hs hy hidle).1⟩
    · have hcost := (moves_of_alone h.shelved hs hidle).cost
      have hmax := le_max_right 0 budget
      obtain ⟨s', hrun, hend⟩ := hrest s₁ rfl (h.alone hs hidle) (by omega)
      exact ⟨s', .step hs hrun, hend⟩

/-- **Every call returns.** -/
theorem OnCourse.returns (h : OnCourse currTime s) : ∃ s', Runs s s' ∧ s'.pc = .idle := by
  induction s using State.nearer_wf.induction with
  | h s ih =>
    obtain ⟨s₁, hs⟩ := alone_isSome h.running ⟨noTimerfd, s.clock⟩ (le_refl s.clock)
    by_cases hidle : s₁.pc = .idle
    · exact ⟨s₁, .step hs (.refl s₁), hidle⟩
    · obtain ⟨s', hrun, hend⟩ := ih s₁ (h.nearer (moves_of_alone h.shelved hs hidle))
        (h.alone hs hidle)
      exact ⟨s', .step hs hrun, hend⟩

/-- What comes after the first call. -/
theorem bumps_range {budgets : ℕ → ℤ} {n : ℕ} {s₁ : State} (hcall : Call currTime (budgets 0) s s₁)
    (hy : s₁.tiw.yieldSlot ≠ slotInactive)
    (hb : Bumps currTime ((List.range (n + 1)).map fun i => budgets (i + 1)) s₁ s') :
    Bumps currTime ((List.range (n + 2)).map budgets) s s' := by
  rw [List.range_succ_eq_map, List.map_cons, List.map_map]
  exact .more hcall hy hb

/-- **A bump that stops** gets to its end, whatever the budgets are: each call gets past a timer. -/
theorem Stops.chain (h : Stops currTime s home m r) (budgets : ℕ → ℤ) (hpos : ∀ i, 0 < budgets i) :
    ∃ n s', Bumps currTime ((List.range (n + 1)).map budgets) (s.yieldIn home) s' := by
  induction m using Nat.strong_induction_on generalizing s home budgets with
  | h m ih =>
    have hidle : (s.yieldIn home).pc = .idle := by cases home <;> rfl
    have hclock : (s.yieldIn home).clock ≤ currTime := by
      have hc := h.course.clock.le
      cases home <;> exact hc
    have hcourse := onCourse_bumpWith h.shelved_yieldIn hidle currTime (budgets 0)
    have hends := h.ends.after_yield h.course h.place (budgets 0)
    have hcore := core_bumpWith_yieldIn h.course h.place (budgets 0)
    obtain ⟨s', hrun, hret⟩ := hcourse.returns
    cases hrun with
    | refl => exact absurd hret hcourse.running
    | @step _ s₁ _ a hs hrun =>
      have hcall : Call currTime (budgets 0) (s.yieldIn home) s' :=
        ⟨hidle, hclock, .step hs hrun, hret⟩
      have hy := yields_eq_false (s := (s.yieldIn home).bumpWith currTime (budgets 0)) (hpos 0)
      by_cases hidle₁ : s₁.pc = .idle
      · obtain rfl := hrun.of_idle hidle₁
        have hend := (hends.ended (K := False) hcourse (fun hf => hf.elim) hs hy hret).1
        exact ⟨0, s', .last hcall hend⟩
      · have hgo := go_of_alone hs hy fun hpc => restarted_of_alone hpc hs hidle₁
        rw [← go_core] at hgo
        obtain ⟨n, hm, hends₁⟩ := hends.of_go hgo
        have hone : ((s.yieldIn home).bumpWith currTime (budgets 0)).core.handles = 1 := by
          rw [hcore]
          unfold State.handles
          rw [show s.core.resumed.pc = .next home from h.place]
          exact if_neg h.left
        rcases hrun.ends_or_stops (K := False) hret (hcourse.alone hs hidle₁)
          (fun hf => hf.elim) hends₁ with ⟨hend, -⟩ | ⟨t, home', n', hle, hstop, rfl⟩
        · exact ⟨0, s', .last hcall hend⟩
        · obtain ⟨k, s'', hb⟩ := ih n' (by omega) hstop (fun i => budgets (i + 1))
            (fun i => hpos (i + 1))
          exact ⟨k + 1, s'', bumps_range hcall hstop.yieldSlot hb⟩

/-- **A bump** gets to its end with any budgets. -/
theorem exists_bumps (h : Shelved s) (hpc : s.pc = .idle) (hclock : s.clock ≤ currTime)
    {budgets : ℕ → ℤ} (hpos : ∀ i, 0 < budgets i) :
    ∃ n s', Bumps currTime ((List.range (n + 1)).map budgets) s s' := by
  have hcourse := onCourse_bumpWith h hpc currTime (budgets 0)
  obtain ⟨m, r, hends⟩ := hcourse.ends
  obtain ⟨s', hrun, hret⟩ := hcourse.returns
  have hcall : Call currTime (budgets 0) s s' := ⟨hpc, hclock, hrun, hret⟩
  rcases hrun.ends_or_stops (K := False) hret hcourse (fun hf => hf.elim) hends with
    ⟨hend, -⟩ | ⟨t, home, n, -, hstop, rfl⟩
  · exact ⟨0, s', .last hcall hend⟩
  · obtain ⟨k, s'', hb⟩ := hstop.chain (fun i => budgets (i + 1)) fun i => hpos (i + 1)
    exact ⟨k + 1, s'', bumps_range hcall hstop.yieldSlot hb⟩

/-- **One call** is enough with some budget. -/
theorem exists_unlimited (h : Shelved s) (hpc : s.pc = .idle) (hclock : s.clock ≤ currTime) :
    ∃ budget s', Bumps currTime [budget] s s' := by
  obtain ⟨m, r, hends⟩ := (onCourse_bumpWith h hpc currTime 0).ends
  obtain ⟨budget, hrest⟩ := hends.unlimited currTime
  obtain ⟨s', hrun, hret, hy⟩ := hrest (s.bumpWith currTime budget) rfl
    (onCourse_bumpWith h hpc currTime budget) le_rfl
  exact ⟨budget, s', .last ⟨hpc, hclock, hrun, hret⟩ hy⟩

/-! ## The result -/

/-- Two bumps of `s` at the time `currTime` come to the same end. -/
structure SameEnd (currTime : ℤ) (s s₁ s₂ : State) : Prop where
  /-- the same callbacks, in the same order -/
  fired : fired s₁.log = fired s₂.log
  /-- the same timers in each slot -/
  w : s₁.tiw.w = s₂.tiw.w
  /-- and each timer's slot -/
  slot : s₁.tiw.slot = s₂.tiw.slot
  /-- `nto` -/
  nto : s₁.tiw.nto = s₂.tiw.nto
  /-- `at_once.nto` -/
  atOnceNto : s₁.tiw.atOnceNto = s₂.tiw.atOnceNto
  /-- `soon.nto` -/
  soonNto : s₁.tiw.soonNto = s₂.tiw.soonNto
  /-- `later.nto` -/
  laterNto : s₁.tiw.laterNto = s₂.tiw.laterNto
  /-- `scnt` -/
  scnt : s₁.tiw.scnt = s₂.tiw.scnt
  /-- the position, unless a bump that starts afresh finds the wheel at `currTime` already and
  leaves it empty -/
  place : s.tiw.yieldSlot ≠ slotInactive ∨ s.tiw.pos < monotonicToClktcks currTime ∨
    s.tiw.nto = 0 ∨ s₂.tiw.nto ≠ 0 → s₁.tiw.pos = s₂.tiw.pos ∧ s₁.tiw.laterPos = s₂.tiw.laterPos

theorem Agrees.sameEnd {s₁ s₂ : State}
    (h₁ : Agrees (s.tiw.yieldSlot ≠ slotInactive ∨ s.tiw.pos < monotonicToClktcks currTime ∨
      s.tiw.nto = 0) s₁ r)
    (h₂ : Agrees (s.tiw.yieldSlot ≠ slotInactive ∨ s.tiw.pos < monotonicToClktcks currTime ∨
      s.tiw.nto = 0) s₂ r) : SameEnd currTime s s₁ s₂ := by
  have hrest := h₁.rest.trans h₂.rest.symm
  have hnto : s₁.tiw.nto = s₂.tiw.nto := (congrArg Wheel.nto hrest :)
  refine ⟨h₁.fired.trans h₂.fired.symm, (congrArg Wheel.w hrest :), (congrArg Wheel.slot hrest :),
    hnto, (congrArg Wheel.atOnceNto hrest :), (congrArg Wheel.soonNto hrest :),
    (congrArg Wheel.laterNto hrest :), (congrArg Wheel.scnt hrest :), fun hplace => ?_⟩
  have hsame : s₁.tiw.core = s₂.tiw.core := by
    rcases hplace with hy | hlt | hzero | hne
    · exact (h₁.place (Or.inl (Or.inl hy))).trans (h₂.place (Or.inl (Or.inl hy))).symm
    · exact (h₁.place (Or.inl (Or.inr (Or.inl hlt)))).trans
        (h₂.place (Or.inl (Or.inr (Or.inl hlt)))).symm
    · exact (h₁.place (Or.inl (Or.inr (Or.inr hzero)))).trans
        (h₂.place (Or.inl (Or.inr (Or.inr hzero)))).symm
    · exact (h₁.place (Or.inr (hnto.trans_ne hne))).trans (h₂.place (Or.inr hne)).symm
  exact ⟨(congrArg Wheel.pos hsame :), (congrArg Wheel.laterPos hsame :)⟩

/-- **A bump with yields** gets to an end with any budgets, as one without yields does, and to
the same one. -/
theorem bump_with_yields (h : wheelSystem.Reach s) (hpc : s.pc = .idle)
    (hclock : s.clock ≤ currTime) :
    (∃ budget s₂, Bumps currTime [budget] s s₂) ∧
    (∀ budgets : ℕ → ℤ, (∀ i, 0 < budgets i) →
      ∃ n s₁, Bumps currTime ((List.range (n + 1)).map budgets) s s₁) ∧
    ∀ budgets s₁ budget s₂, Bumps currTime budgets s s₁ → Bumps currTime [budget] s s₂ →
      SameEnd currTime s s₁ s₂ := by
  have hshelved := (inOrder_of_reach h).shelved
  refine ⟨exists_unlimited hshelved hpc hclock,
    fun budgets hpos => exists_bumps hshelved hpc hclock hpos,
    fun budgets s₁ budget s₂ hb₁ hb₂ => ?_⟩
  obtain ⟨m, r, hends⟩ := (onCourse_bumpWith hshelved hpc currTime 0).ends
  have hagree : ∀ budgets s', Bumps currTime budgets s s' → Agrees
      (s.tiw.yieldSlot ≠ slotInactive ∨ s.tiw.pos < monotonicToClktcks currTime ∨ s.tiw.nto = 0)
      s' r :=
    fun budgets s' hb => hb.agrees hshelved (kept_bumpWith hshelved hpc) hends
  exact (hagree budgets s₁ hb₁).sameEnd (hagree [budget] s₂ hb₂)

/-! ## Two timers at once -/

/-- Steps of a bump, the world answering `answers`. -/
def State.goOnAlone (s : State) : List Answers → Option State
  | [] => some s
  | a :: answers => (s.alone a).bind (State.goOnAlone · answers)

theorem runs_of_goOnAlone {answers : List Answers} (hs : s.goOnAlone answers = some s') :
    Runs s s' := by
  induction answers generalizing s with
  | nil =>
    obtain rfl := Option.some.inj hs
    exact .refl s
  | cons a answers ih =>
    obtain ⟨s₁, hs₁, hrest⟩ := Option.bind_eq_some_iff.1 hs
    exact .step hs₁ (ih hrest)

/-- A timer is set for tick 0. -/
def setNow (s : State) (p : Tmr) : State :=
  let tiw := s.tiw.setTimer p 0 noTimerfd
  (s.withTiw tiw).record (.set p (tiw.timeoutPos p))

/-- Timers 0 and 1 are due at once, at the time 0. -/
def bothDue : State := setNow (setNow fresh 0) 1

theorem bothDue_reach : wheelSystem.Reach bothDue :=
  .next (a := .set 1 0 noTimerfd) (.next (a := .set 0 0 noTimerfd) (.start fresh_init) rfl) rfl

/-- A bump of both, with any budgets. -/
theorem bothDue_bump :
    (∃ budget s₂, Bumps 0 [budget] bothDue s₂) ∧
    (∀ budgets : ℕ → ℤ, (∀ i, 0 < budgets i) →
      ∃ n s₁, Bumps 0 ((List.range (n + 1)).map budgets) bothDue s₁) ∧
    ∀ budgets s₁ budget s₂, Bumps 0 budgets bothDue s₁ → Bumps 0 [budget] bothDue s₂ →
      SameEnd 0 bothDue s₁ s₂ :=
  bump_with_yields bothDue_reach rfl le_rfl

/-- The world at the time `now`, for `n` steps. -/
def answersAt (now : ℤ) (n : ℕ) : List Answers := List.replicate n ⟨noTimerfd, now⟩

/-- A call that triggers the first timer and yields. -/
def between : State := ((bothDue.bumpWith 0 1).goOnAlone (answersAt 0 4)).getD bothDue

/-- **The place of the empty wheel.** After a yield between the two timers it is left at tick 0,
without the yield it is moved to the tick in which the bump ends. -/
theorem bothDue_place : ∃ s s₁ s₂, wheelSystem.Reach s ∧ s.pc = .idle ∧ s.clock ≤ 0 ∧
    Bumps 0 [1, 1] s s₁ ∧ Bumps 0 [10000] s s₂ ∧ s₁.tiw.pos = 0 ∧ s₂.tiw.pos = 1 := by
  have hmid : (bothDue.bumpWith 0 1).goOnAlone (answersAt 0 4) = some between := rfl
  have hs₁ : (between.bumpWith 0 1).goOnAlone (answersAt 0 7) = some _ := rfl
  have hs₂ : (bothDue.bumpWith 0 10000).goOnAlone (answersAt 1000000 8) = some _ := rfl
  refine ⟨bothDue, _, _, bothDue_reach, rfl, le_rfl,
    .more ⟨rfl, le_rfl, runs_of_goOnAlone hmid, rfl⟩ (by decide)
      (.last ⟨rfl, le_rfl, runs_of_goOnAlone hs₁, rfl⟩ rfl),
    .last ⟨rfl, le_rfl, runs_of_goOnAlone hs₂, rfl⟩ rfl, rfl, rfl⟩

end

end PonBeam.TimerWheel
