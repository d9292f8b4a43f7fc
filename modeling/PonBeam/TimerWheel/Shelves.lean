import PonBeam.TimerWheel.BumpSteps

/-!
# The lists of the wheel in every run

The invariant of `TimerWheel.Steps` is lost by a step that takes a timer out of the later
wheel too early. The lists of the wheel are not: in every run, whatever the positions, each
active timer is in one list, the at-once counter is the length of the at-once lists, and a
bump in a wheel is in one of its slots.
-/

namespace PonBeam.TimerWheel

/-- The slot the list in `sentinel` was taken from, if one was. -/
def State.taken (s : State) : Option ℤ :=
  match s.pc with
  | .idle => if s.tiw.yieldSlot = slotInactive then none else some s.tiw.yieldSlot
  | .next .atOnce => some slotAtOnce
  | .callback .atOnce => some slotAtOnce
  | .next _ => some s.loc.slot
  | .callback _ => some s.loc.slot
  | _ => none

/-- A slot of this wheel. -/
def Home.Has (slot : ℤ) : Home → Prop
  | .atOnce => True
  | .soon => 0 ≤ slot ∧ slot < 16384
  | .later => 16384 ≤ slot ∧ slot < 32768

/-- A bump is in a slot of the wheel it goes through, which is one of those left. -/
def State.InWheel (s : State) : Prop :=
  match s.pc with
  | .idle => s.tiw.yieldSlot = -2 ∨ s.tiw.yieldSlot = -1 ∨
      0 ≤ s.tiw.yieldSlot ∧ s.tiw.yieldSlot < 32768 ∧ 1 ≤ s.tiw.yieldSlotsLeft
  | .soon => Home.soon.Has s.loc.slot
  | .later => Home.later.Has s.loc.slot
  | .next home => home.Has s.loc.slot ∧ (home ≠ .atOnce → 1 ≤ s.loc.slots)
  | .callback home => home.Has s.loc.slot ∧ (home ≠ .atOnce → 1 ≤ s.loc.slots)
  | _ => True

/-- **The lists.** -/
structure Shelved (s : State) : Prop where
  /-- the active timers are in them -/
  lists : Lists s.tiw.w s.tiw.sentinel s.tiw.slot (s.taken.getD (-1))
  /-- no list was taken -/
  rest : s.taken = none → s.tiw.sentinel = []
  /-- the at-once counter -/
  atOnce : s.tiw.atOnceNto = (s.tiw.w (-1)).length +
    (if s.taken = some (-1) then (s.tiw.sentinel.length : ℤ) else 0)
  /-- where a bump is -/
  inWheel : s.InWheel

section

variable {s s' : State} {home : Home} {p : Tmr} {rest : List Tmr}

theorem taken_next (hpc : s.pc = .next home) :
    s.taken = some (home.stage s.loc.slot s.loc.slots).cur := by
  unfold State.taken
  rw [hpc]
  cases home <;> rfl

theorem taken_callback (hpc : s.pc = .callback home) :
    s.taken = some (home.stage s.loc.slot s.loc.slots).cur := by
  unfold State.taken
  rw [hpc]
  cases home <;> rfl

/-! ## Setting and cancelling -/

/-- Between two calls and in a callback the bump stays where it is. -/
theorem Shelved.keeps {tiw : Wheel} (h : Shelved s) (hacc : s.accepts = true)
    (hk : Keeps p s.tiw tiw) (hlists : Lists tiw.w tiw.sentinel tiw.slot (s.taken.getD (-1)))
    (hrest : s.taken = none → tiw.sentinel = [])
    (hcount : tiw.atOnceNto = (tiw.w (-1)).length +
      (if s.taken = some (-1) then (tiw.sentinel.length : ℤ) else 0)) (e : Event) :
    Shelved ((s.withTiw tiw).record e) := by
  have htaken : ((s.withTiw tiw).record e).taken = s.taken := by
    simp only [State.taken, State.record, State.withTiw, hk.yieldSlot]
  refine ⟨?_, ?_, ?_, ?_⟩
  · rw [htaken]
    exact hlists
  · rw [htaken]
    exact hrest
  · rw [htaken]
    exact hcount
  · have hin := h.inWheel
    unfold State.InWheel at hin ⊢
    rcases accepts_cases hacc with hpc | ⟨home, hpc⟩
    · have hpc' : ((s.withTiw tiw).record e).pc = .idle := hpc
      rw [hpc] at hin
      rw [hpc']
      change tiw.yieldSlot = -2 ∨ tiw.yieldSlot = -1 ∨
        0 ≤ tiw.yieldSlot ∧ tiw.yieldSlot < 32768 ∧ 1 ≤ tiw.yieldSlotsLeft
      rw [hk.yieldSlot, hk.yieldSlotsLeft]
      exact hin
    · have hpc' : ((s.withTiw tiw).record e).pc = .callback home := hpc
      rw [hpc] at hin
      rw [hpc']
      exact hin

theorem Shelved.set (h : Shelved s) (timeoutPos : ℤ) (a : ArmAnswers) (hacc : s.accepts = true)
    (hslot : s.tiw.slot p = -2) (e : Event) :
    Shelved ((s.withTiw (s.tiw.setTimer p timeoutPos a)).record e) := by
  obtain ⟨hk, -⟩ := setTimer_effect s.tiw p timeoutPos a
  have hfit := (fits_targetSlot s.tiw p timeoutPos).bounds
  obtain ⟨b, pos, time, fd, d, he, -⟩ := Wheel.noteTimeout_eq
    ((s.tiw.startTimer p timeoutPos).insertTimerIntoSlot (s.tiw.targetSlot timeoutPos) p)
    (s.tiw.wakeUpPos timeoutPos) a
  have hset : s.tiw.setTimer p timeoutPos a = _ := he
  refine h.keeps hacc hk ?_ ?_ ?_ e
  · rw [hset]
    simp only [Wheel.insertTimerIntoSlot_w, Wheel.insertTimerIntoSlot_sentinel,
      Wheel.insertTimerIntoSlot_slot]
    exact h.lists.insert hslot (by omega)
  · rw [hset]
    simp only [Wheel.insertTimerIntoSlot_sentinel]
    exact h.rest
  · have hcount := h.atOnce
    rw [hset]
    simp only [Wheel.insertTimerIntoSlot_w, Wheel.insertTimerIntoSlot_sentinel,
      Wheel.insertTimerIntoSlot_atOnceNto]
    change s.tiw.atOnceNto + _ = _ + (if s.taken = some (-1) then (s.tiw.sentinel.length : ℤ) else 0)
    by_cases ht : s.tiw.targetSlot timeoutPos = -1
    · rw [ht, Function.update_self, if_pos rfl, List.length_append, hcount]
      push_cast
      rw [List.length_singleton]
      change ((s.tiw.w (-1)).length : ℤ) + _ + 1 = (s.tiw.w (-1)).length + 1 + _
      omega
    · rw [Function.update_of_ne (Ne.symm ht), if_neg ht, hcount]
      change ((s.tiw.w (-1)).length : ℤ) + _ + 0 = (s.tiw.w (-1)).length + _
      omega

theorem removeTimer_atOnceNto (tiw : Wheel) (p : Tmr) : (tiw.removeTimer p).atOnceNto
    = tiw.atOnceNto - (if tiw.slot p = -1 then 1 else 0) := by
  unfold Wheel.removeTimer slotAtOnce
  dsimp only
  split_ifs <;> first | rfl | exact (sub_zero _).symm

/-- A timer leaves the at-once lists, if it is in one. -/
theorem Shelved.erase_atOnce (h : Shelved s) (hact : s.tiw.slot p ≠ -2) :
    (s.tiw.atOnceNto : ℤ) - (if s.tiw.slot p = -1 then 1 else 0) =
      (Function.update s.tiw.w (s.tiw.slot p) ((s.tiw.w (s.tiw.slot p)).erase p) (-1)).length +
        (if s.taken = some (-1) then ((s.tiw.sentinel.erase p).length : ℤ) else 0) := by
  have hlists := h.lists
  rw [h.atOnce]
  by_cases hslot : s.tiw.slot p = -1
  · rw [hslot, Function.update_self, if_pos rfl]
    rcases hlists.cover p hact with hw | hsent
    · rw [hslot] at hw
      have hpos := List.length_pos_of_mem hw
      rw [List.length_erase_of_mem hw]
      split_ifs with htaken
      · rw [htaken, Option.getD_some] at hlists
        rw [List.erase_of_not_mem fun hm => hlists.apart p hm hw]
        omega
      · omega
    · have hcur := hlists.slot_of_sentinel p hsent
      have htaken : s.taken = some (-1) := by
        cases ht : s.taken with
        | none =>
          rw [h.rest ht] at hsent
          exact absurd hsent List.not_mem_nil
        | some i =>
          rw [ht, Option.getD_some, hslot] at hcur
          rw [hcur]
      rw [htaken, Option.getD_some] at hlists
      have hpos := List.length_pos_of_mem hsent
      rw [if_pos htaken, if_pos htaken, List.length_erase_of_mem hsent,
        List.erase_of_not_mem (hlists.apart p hsent)]
      omega
  · rw [Function.update_of_ne (Ne.symm hslot), if_neg hslot, sub_zero]
    split_ifs with htaken
    · rw [htaken, Option.getD_some] at hlists
      rw [List.erase_of_not_mem fun hm => hslot (hlists.slot_of_sentinel p hm)]
    · rfl

theorem Shelved.cancel (h : Shelved s) (p : Tmr) (hacc : s.accepts = true) (e : Event) :
    Shelved ((s.withTiw (s.tiw.cancelTimer p)).record e) := by
  obtain ⟨hk, -⟩ := cancelTimer_effect s.tiw p
  by_cases hact : s.tiw.slot p ≠ slotInactive
  · have hcancel : s.tiw.cancelTimer p =
        { s.tiw.removeTimer p with nto := (s.tiw.removeTimer p).nto - 1 } := if_pos hact
    have hcur : Lists s.tiw.w s.tiw.sentinel s.tiw.slot (Stage.soon (s.taken.getD (-1)) 0).cur :=
      h.lists
    obtain ⟨hw, hsent⟩ := removeTimer_lists (p := p) hcur
    refine h.keeps hacc hk ?_ ?_ ?_ e
    · rw [hcancel]
      have hslot : (s.tiw.removeTimer p).slot = Function.update s.tiw.slot p (-2) := by
        unfold Wheel.removeTimer
        dsimp only
        split_ifs <;> rfl
      change Lists (s.tiw.removeTimer p).w (s.tiw.removeTimer p).sentinel
        (s.tiw.removeTimer p).slot _
      rw [hw, hsent, hslot]
      exact h.lists.remove
    · rw [hcancel]
      intro htaken
      change (s.tiw.removeTimer p).sentinel = []
      rw [hsent, h.rest htaken]
      rfl
    · rw [hcancel]
      change (s.tiw.removeTimer p).atOnceNto = ((s.tiw.removeTimer p).w (-1)).length +
        (if s.taken = some (-1) then ((s.tiw.removeTimer p).sentinel.length : ℤ) else 0)
      rw [hw, hsent, removeTimer_atOnceNto]
      exact h.erase_atOnce hact
  · have hcancel : s.tiw.cancelTimer p = s.tiw := if_neg hact
    rw [hcancel] at hk ⊢
    exact h.keeps hacc hk h.lists h.rest h.atOnce e

/-! ## The list of a slot -/

theorem inWheel_next (h : Shelved s) (hpc : s.pc = .next home) :
    home.Has s.loc.slot ∧ (home ≠ .atOnce → 1 ≤ s.loc.slots) := by
  have hin := h.inWheel
  unfold State.InWheel at hin
  rw [hpc] at hin
  exact hin

theorem cur_eq_iff (hhas : home.Has s.loc.slot) :
    (home.stage s.loc.slot s.loc.slots).cur = -1 ↔ home = .atOnce := by
  cases home with
  | atOnce => exact iff_of_true rfl rfl
  | soon =>
    have h0 : 0 ≤ s.loc.slot := hhas.1
    refine iff_of_false ?_ (by simp)
    change s.loc.slot ≠ -1
    omega
  | later =>
    have h0 : 16384 ≤ s.loc.slot := hhas.1
    refine iff_of_false ?_ (by simp)
    change s.loc.slot ≠ -1
    omega

/-- What becomes of the first timer of the list: it is triggered, or put into a slot of one of
the wheels. -/
inductive Dealt (p : Tmr) (tiw tiw' : Wheel) (home : Home) : Pc → Prop where
  /-- triggered -/
  | fired (hw : tiw'.w = tiw.w) (hslot : tiw'.slot = Function.update tiw.slot p (-2))
      (hcount : tiw'.atOnceNto = tiw.atOnceNto - (if home = .atOnce then 1 else 0)) :
      Dealt p tiw tiw' home (.callback home)
  /-- put into the slot `i` -/
  | moved (i : ℤ) (hi : 0 ≤ i) (hw : tiw'.w = Function.update tiw.w i (tiw.w i ++ [p]))
      (hslot : tiw'.slot = Function.update tiw.slot p i)
      (hcount : tiw'.atOnceNto = tiw.atOnceNto) (hhome : home ≠ .atOnce) :
      Dealt p tiw tiw' home (.next home)

theorem dealt_insert {tiw tiw' : Wheel} {i : ℤ} (hi : 0 ≤ i) (hhome : home ≠ .atOnce)
    (hw : tiw'.w = tiw.w) (hslot : tiw'.slot = tiw.slot) (hcount : tiw'.atOnceNto = tiw.atOnceNto) :
    Dealt p tiw (tiw'.insertTimerIntoSlot i p) home (.next home) := by
  refine .moved i hi ?_ ?_ ?_ hhome
  · rw [tiw'.insertTimerIntoSlot_w, hw]
  · rw [tiw'.insertTimerIntoSlot_slot, hslot]
  · rw [tiw'.insertTimerIntoSlot_atOnceNto, if_neg (by omega), add_zero, hcount]

theorem soonSlot_range (pos : ℤ) : Home.soon.Has (soonSlot pos) := by
  unfold Home.Has soonSlot soonWheelSize
  omega

theorem laterSlot_range (pos : ℤ) : Home.later.Has (laterSlot pos) := by
  unfold Home.Has laterSlot laterWheelFirstSlot laterWheelSize laterWheelSlotSize soonWheelSize
  omega

/-- What `bumpTimer` leaves alone of the bump, and what it does to the timer. -/
theorem bumpTimer_dealt (s : State) (hhas : home.Has s.loc.slot) :
    (s.bumpTimer home p).loc.slot = s.loc.slot ∧ (s.bumpTimer home p).loc.slots = s.loc.slots ∧
    (s.bumpTimer home p).tiw.sentinel = s.tiw.sentinel ∧
    Dealt p s.tiw (s.bumpTimer home p).tiw home (s.bumpTimer home p).pc := by
  cases home with
  | atOnce => exact ⟨rfl, rfl, rfl, .fired rfl rfl rfl⟩
  | soon =>
    unfold State.bumpTimer State.bumpSoon
    dsimp only
    split_ifs
    · exact ⟨rfl, rfl, rfl, .fired rfl rfl (sub_zero _).symm⟩
    · refine ⟨rfl, rfl, Wheel.insertTimerIntoSlot_sentinel .., ?_⟩
      exact dealt_insert hhas.1 (by decide) rfl rfl rfl
  | later =>
    have h0 : 0 ≤ s.loc.slot := le_trans (by decide) hhas.1
    unfold State.bumpTimer State.bumpLater
    dsimp only
    split_ifs
    · refine ⟨rfl, rfl, Wheel.insertTimerIntoSlot_sentinel .., ?_⟩
      exact dealt_insert h0 (by decide) rfl rfl rfl
    · refine ⟨rfl, rfl, Wheel.insertTimerIntoSlot_sentinel .., ?_⟩
      exact dealt_insert (soonSlot_range _).1 (by decide) rfl rfl rfl
    · exact ⟨rfl, rfl, rfl, .fired rfl rfl (sub_zero _).symm⟩

/-- **The first timer of the list.** -/
theorem Shelved.bumpTimer (h : Shelved s) (hpc : s.pc = .next home)
    (hs : s.tiw.sentinel = p :: rest) :
    Shelved ((s.withTiw { s.tiw with sentinel := rest }).bumpTimer home p) := by
  obtain ⟨hhas, hslots⟩ := inWheel_next h hpc
  obtain ⟨hl, hls, hsent, hdealt⟩ := bumpTimer_dealt (p := p)
    (s.withTiw { s.tiw with sentinel := rest }) hhas
  obtain ⟨t, ht⟩ : ∃ t, t = (s.withTiw { s.tiw with sentinel := rest }).bumpTimer home p := ⟨_, rfl⟩
  rw [← ht] at hl hls hsent hdealt ⊢
  change t.loc.slot = s.loc.slot at hl
  change t.loc.slots = s.loc.slots at hls
  change t.tiw.sentinel = rest at hsent
  have hlists := h.lists
  have hcount := h.atOnce
  have hcur := cur_eq_iff (s := s) hhas
  rw [taken_next hpc] at hlists hcount
  rw [Option.getD_some, hs] at hlists
  have hpop := hlists.pop
  have hwheel : home.Has t.loc.slot ∧ (home ≠ .atOnce → 1 ≤ t.loc.slots) := by
    rw [hl, hls]
    exact ⟨hhas, hslots⟩
  have hlen : ((s.tiw.sentinel.length : ℕ) : ℤ) = rest.length + 1 := by
    rw [hs, List.length_cons]
    push_cast
    rfl
  cases hp : t.pc with
  | callback home' =>
    rw [hp] at hdealt
    cases hdealt with
    | fired hw hslot hcount' =>
      have htaken := taken_callback hp
      rw [hl, hls] at htaken
      refine ⟨?_, ?_, ?_, ?_⟩
      · rw [htaken, Option.getD_some, hsent, hw, hslot]
        exact hpop
      · rw [htaken]
        intro hn
        exact nomatch hn
      · rw [htaken, hw, hcount', hsent]
        change s.tiw.atOnceNto - _ = ((s.tiw.w (-1)).length : ℤ) + _
        simp only [hcount, Option.some.injEq, hcur, hlen]
        split_ifs <;> omega
      · unfold State.InWheel
        rw [hp]
        exact hwheel
  | next home' =>
    rw [hp] at hdealt
    cases hdealt with
    | moved i hi hw hslot hcount' hhome =>
      have htaken := taken_next hp
      rw [hl, hls] at htaken
      refine ⟨?_, ?_, ?_, ?_⟩
      · rw [htaken, Option.getD_some, hsent, hw, hslot]
        have hins := hpop.insert (p := p) (i := i) (Function.update_self ..) (by omega)
        rw [Function.update_idem] at hins
        exact hins
      · rw [htaken]
        intro hn
        exact nomatch hn
      · rw [htaken, hw, hcount', hsent, Function.update_of_ne (by omega)]
        change s.tiw.atOnceNto = ((s.tiw.w (-1)).length : ℤ) + _
        simp only [hcount, Option.some.injEq, hcur, if_neg hhome]
      · unfold State.InWheel
        rw [hp]
        exact hwheel
  | _ =>
    rw [hp] at hdealt
    cases hdealt

/-- No list is taken, and the lists of the slots are those of `s`. -/
theorem Shelved.rested (h : Shelved s) (hs : s.tiw.sentinel = []) (hw : s'.tiw.w = s.tiw.w)
    (hslot : s'.tiw.slot = s.tiw.slot) (hsent : s'.tiw.sentinel = [])
    (hcount : s'.tiw.atOnceNto = s.tiw.atOnceNto) (htaken : s'.taken = none)
    (hin : s'.InWheel) : Shelved s' := by
  have hlists := h.lists
  have hatOnce := h.atOnce
  rw [hs] at hlists hatOnce
  refine ⟨?_, fun _ => hsent, ?_, hin⟩
  · rw [hw, hslot, hsent]
    exact hlists.of_nil (by rw [htaken]; decide)
  · rw [hw, hsent, hcount, hatOnce, htaken]
    split_ifs <;> rfl

theorem nextSlot_inWheel (hhas : home.Has s.loc.slot) (hslots : home ≠ .atOnce → 1 ≤ s.loc.slots) :
    (s.nextSlot home).InWheel := by
  cases home with
  | atOnce => trivial
  | soon =>
    obtain ⟨d, -, he, -⟩ := scntSoonWheelNext_moved s.tiw.bumpScnt s.loc.slot s.loc.slots hhas.1
      hhas.2 (hslots (by decide))
    change Home.soon.Has (scntSoonWheelNext s.loc.slot s.loc.slots s.tiw.bumpScnt).1
    rw [he]
    exact soonSlot_range (s.loc.slot + d)
  | later =>
    obtain ⟨d, -, he, -⟩ := scntLaterWheelNext_moved s.tiw.bumpScnt s.loc.slot s.loc.slots hhas.1
      hhas.2 (hslots (by decide))
    change Home.later.Has (scntLaterWheelNext s.loc.slot s.loc.slots s.tiw.bumpScnt).1
    rw [he]
    unfold Home.Has
    dsimp only
    omega

/-- The list is done. -/
theorem Shelved.nextSlot (h : Shelved s) (hs : s.tiw.sentinel = []) (hhas : home.Has s.loc.slot)
    (hslots : home ≠ .atOnce → 1 ≤ s.loc.slots) : Shelved (s.nextSlot home) := by
  refine h.rested hs ?_ ?_ ?_ ?_ ?_ (nextSlot_inWheel hhas hslots)
  · cases home <;> rfl
  · cases home <;> rfl
  · cases home <;> exact hs
  · cases home <;> rfl
  · cases home <;> rfl

/-- **The list of a slot is taken** and started on. -/
theorem Shelved.takeSlot (h : Shelved s) (htaken : s.taken = none) (home : Home)
    (hhas : home.Has s.loc.slot) (hslots : home ≠ .atOnce → 1 ≤ s.loc.slots) :
    Shelved (s.takeSlot home (home.stage s.loc.slot s.loc.slots).cur) := by
  have hs := h.rest htaken
  unfold State.takeSlot
  split
  · exact h.nextSlot hs hhas hslots
  case h_2 p rest hw =>
    have hrest : (if rest = [] then s.tiw.sentinel else rest) = rest := by
      split_ifs with he
      · rw [hs, he]
      · rfl
    have hcur := cur_eq_iff (s := s) hhas
    have hlists := h.lists
    have hcount := h.atOnce
    rw [hs] at hlists
    rw [htaken] at hcount
    have hne : (home.stage s.loc.slot s.loc.slots).cur ≠ -2 := by
      cases home with
      | atOnce => exact (by decide : (-1 : ℤ) ≠ -2)
      | soon =>
        have h0 : 0 ≤ s.loc.slot := hhas.1
        change s.loc.slot ≠ -2
        omega
      | later =>
        have h0 : 16384 ≤ s.loc.slot := hhas.1
        change s.loc.slot ≠ -2
        omega
    -- the state with the whole list hanging on the sentinel
    have htook : Shelved ((s.withTiw { s.tiw with
        w := Function.update s.tiw.w (home.stage s.loc.slot s.loc.slots).cur []
        sentinel := s.tiw.w (home.stage s.loc.slot s.loc.slots).cur }).goto (.next home)) := by
      have htaken' : ((s.withTiw { s.tiw with
          w := Function.update s.tiw.w (home.stage s.loc.slot s.loc.slots).cur []
          sentinel := s.tiw.w (home.stage s.loc.slot s.loc.slots).cur }).goto (.next home)).taken =
          some (home.stage s.loc.slot s.loc.slots).cur := taken_next rfl
      refine ⟨?_, ?_, ?_, ⟨hhas, hslots⟩⟩
      · rw [htaken']
        exact hlists.take hne
      · rw [htaken']
        intro hn
        exact nomatch hn
      · rw [htaken']
        change s.tiw.atOnceNto = ((Function.update s.tiw.w
          (home.stage s.loc.slot s.loc.slots).cur [] (-1)).length : ℤ) + (if some
            (home.stage s.loc.slot s.loc.slots).cur = some (-1) then
              ((s.tiw.w (home.stage s.loc.slot s.loc.slots).cur).length : ℤ) else 0)
        rw [hcount]
        by_cases hone : (home.stage s.loc.slot s.loc.slots).cur = -1
        · rw [hone, Function.update_self, if_pos rfl]
          simp
        · rw [Function.update_of_ne (Ne.symm hone), if_neg fun he => hone (Option.some.inj he)]
          simp
    have hgood := htook.bumpTimer rfl hw
    dsimp only
    rw [hrest, ← bumpTimer_goto _ (.next home)]
    exact hgood

/-- **A yield** leaves the bump where it is. -/
theorem Shelved.yieldIn (h : Shelved s) (hpc : s.pc = .next home) : Shelved (s.yieldIn home) := by
  obtain ⟨hhas, hslots⟩ := inWheel_next h hpc
  have hlists := h.lists
  have hcount := h.atOnce
  rw [taken_next hpc] at hlists hcount
  have htaken : (s.yieldIn home).taken = some (home.stage s.loc.slot s.loc.slots).cur := by
    cases home with
    | atOnce => rfl
    | soon =>
      have h0 : 0 ≤ s.loc.slot := hhas.1
      exact if_neg (by change s.loc.slot ≠ -2; omega)
    | later =>
      have h0 : 16384 ≤ s.loc.slot := hhas.1
      exact if_neg (by change s.loc.slot ≠ -2; omega)
  refine ⟨?_, ?_, ?_, ?_⟩
  · rw [htaken]
    cases home <;> exact hlists
  · rw [htaken]
    intro hn
    exact nomatch hn
  · rw [htaken]
    cases home <;> exact hcount
  · cases home with
    | atOnce => exact Or.inr (Or.inl rfl)
    | soon => exact Or.inr (Or.inr ⟨hhas.1, lt_trans hhas.2 (by decide), hslots (by decide)⟩)
    | later =>
      exact Or.inr (Or.inr ⟨le_trans (by decide) hhas.1, hhas.2, hslots (by decide)⟩)

/-- **The next timer of the list.** -/
theorem Shelved.nextTimer (h : Shelved s) (hpc : s.pc = .next home) :
    Shelved (s.nextTimer home) := by
  obtain ⟨hhas, hslots⟩ := inWheel_next h hpc
  unfold State.nextTimer
  split
  case h_1 hs => exact h.nextSlot hs hhas hslots
  case h_2 p rest hs =>
    split_ifs
    · exact h.yieldIn hpc
    · exact h.bumpTimer hpc hs

/-- **A callback returns.** -/
theorem Shelved.callbackDone (h : Shelved s) (hpc : s.pc = .callback home) :
    Shelved (s.callbackDone home) := by
  have hlists := h.lists
  have hcount := h.atOnce
  have hin := h.inWheel
  unfold State.InWheel at hin
  rw [hpc] at hin
  have htaken : (s.callbackDone home).taken = s.taken := by
    have hnext : (s.callbackDone home).pc = .next home := rfl
    rw [taken_callback hpc, taken_next hnext]
    cases home <;> rfl
  refine ⟨?_, ?_, ?_, ?_⟩
  · rw [htaken]
    cases home <;> exact hlists
  · rw [htaken]
    cases home <;> exact h.rest
  · rw [htaken]
    cases home <;> exact hcount
  · cases home <;> exact hin

/-! ## Runs -/

theorem Shelved.pay (h : Shelved s) (cost : ℤ) : Shelved (s.pay cost) :=
  ⟨h.lists, h.rest, h.atOnce, h.inWheel⟩

/-- Arming the canary and searching leave the lists alone. -/
theorem findNextTimeout_shelf (tiw : Wheel) (currTime : ℤ) :
    (tiw.findNextTimeout currTime).w = tiw.w ∧
    (tiw.findNextTimeout currTime).sentinel = tiw.sentinel ∧
    (tiw.findNextTimeout currTime).slot = tiw.slot ∧
    (tiw.findNextTimeout currTime).atOnceNto = tiw.atOnceNto ∧
    (tiw.findNextTimeout currTime).yieldSlot = tiw.yieldSlot ∧
    (tiw.findNextTimeout currTime).yieldSlotsLeft = tiw.yieldSlotsLeft := by
  unfold Wheel.findNextTimeout Wheel.findLaterTimeout Wheel.findSoonTimeout
  dsimp only
  split_ifs <;> exact ⟨rfl, rfl, rfl, rfl, rfl, rfl⟩

/-- A search between two calls. -/
theorem Shelved.search (h : Shelved s) (hpc : s.pc = .idle) (now : ℤ) (e : Event) :
    Shelved { (s.withTiw (s.tiw.findNextTimeout now)).record e with clock := now } := by
  obtain ⟨h1, h2, h3, h4, h5, h6⟩ := findNextTimeout_shelf s.tiw now
  have htaken : ({ (s.withTiw (s.tiw.findNextTimeout now)).record e with clock := now } :
      State).taken = s.taken := by
    simp only [State.taken, State.record, State.withTiw, h5]
  have hin := h.inWheel
  unfold State.InWheel at hin
  rw [hpc] at hin
  refine ⟨?_, ?_, ?_, ?_⟩
  · rw [htaken]
    change Lists (s.tiw.findNextTimeout now).w (s.tiw.findNextTimeout now).sentinel
      (s.tiw.findNextTimeout now).slot _
    rw [h1, h2, h3]
    exact h.lists
  · rw [htaken]
    exact fun hn => h2.trans (h.rest hn)
  · rw [htaken]
    change (s.tiw.findNextTimeout now).atOnceNto = ((s.tiw.findNextTimeout now).w (-1)).length +
      (if s.taken = some (-1) then ((s.tiw.findNextTimeout now).sentinel.length : ℤ) else 0)
    rw [h1, h2, h4]
    exact h.atOnce
  · unfold State.InWheel
    dsimp only [State.record, State.withTiw]
    rw [hpc, h5, h6]
    exact hin

theorem Shelved.emptyWheel (h : Shelved s) (htaken : s.taken = none) (a : ArmAnswers) :
    Shelved (s.emptyWheel a) := by
  have hs := h.rest htaken
  obtain ⟨fd, d, he⟩ := Wheel.ponTimerWheelArm_eq
    { s.tiw.setNextTimeout (s.loc.bumpTo + clktcksWeek) with
      trueNextTimeoutTime := false
      pos := s.loc.bumpTo
      laterPos := laterPosMask (s.loc.bumpTo + soonWheelSize)
      yieldSlot := slotInactive } a
  have htiw : (s.emptyWheel a).tiw = _ := he
  refine h.rested hs ?_ ?_ ?_ ?_ ?_ ?_
  · rw [htiw]
    rfl
  · rw [htiw]
    rfl
  · rw [htiw]
    exact hs
  · rw [htiw]
    rfl
  · change (if (s.emptyWheel a).tiw.yieldSlot = slotInactive then none else some _) = none
    rw [htiw]
    exact if_pos rfl
  · refine Or.inl ?_
    rw [htiw]
    rfl

theorem Shelved.finish (h : Shelved s) (htaken : s.taken = none)
    (hy : s.tiw.yieldSlot = slotInactive) (a : Answers) : Shelved (s.finish a) := by
  have hs := h.rest htaken
  obtain ⟨fd, d, he⟩ := Wheel.ponTimerWheelArm_eq
    (Wheel.findNextTimeout { s.tiw with trueNextTimeoutTime := false } a.now) a.arm
  have htiw : (s.finish a).tiw = _ := he
  obtain ⟨h1, h2, h3, h4, h5, -⟩ :=
    findNextTimeout_shelf { s.tiw with trueNextTimeoutTime := false } a.now
  refine h.rested hs ?_ ?_ ?_ ?_ ?_ ?_
  · rw [htiw]
    exact h1
  · rw [htiw]
    exact h3
  · rw [htiw]
    exact h2.trans hs
  · rw [htiw]
    exact h4
  · change (if (s.finish a).tiw.yieldSlot = slotInactive then none else some _) = none
    rw [htiw]
    exact if_pos (h5.trans hy)
  · refine Or.inl ?_
    rw [htiw]
    exact h5.trans hy

/-- **One step of a bump.** -/
theorem Shelved.runStep (h : Shelved s) (hy : s.tiw.yieldSlot = slotInactive) {a : Answers}
    (hs : s.runStep a = some s') : Shelved s' := by
  have hin := h.inWheel
  unfold State.InWheel at hin
  unfold State.runStep at hs
  cases hpc : s.pc with
  | idle =>
    rw [hpc] at hs
    cases hs
  | callback home =>
    rw [hpc] at hs
    cases hs
  | pass =>
    rw [hpc] at hs
    obtain rfl := Option.some.inj hs
    have hnil := h.rest (by rw [State.taken, hpc])
    exact h.rested hnil rfl rfl hnil rfl rfl trivial
  | top =>
    have htaken : s.taken = none := by rw [State.taken, hpc]
    rw [hpc] at hs
    obtain rfl := Option.some.inj hs
    split_ifs
    · exact h.emptyWheel htaken a.arm
    · exact h.takeSlot htaken .atOnce trivial (fun hne => absurd rfl hne)
  | atOnceDone =>
    have htaken : s.taken = none := by rw [State.taken, hpc]
    have hnil := h.rest htaken
    rw [hpc] at hs
    obtain rfl := Option.some.inj hs
    unfold State.atOnceDone
    split_ifs
    · exact h.rested hnil rfl rfl hnil rfl rfl trivial
    · exact h.rested hnil rfl rfl hnil rfl rfl trivial
    · exact h.emptyWheel htaken a.arm
    · exact h.rested hnil rfl rfl hnil rfl rfl (soonSlot_range _)
  | soon =>
    have htaken : s.taken = none := by rw [State.taken, hpc]
    have hnil := h.rest htaken
    rw [hpc] at hs hin
    obtain rfl := Option.some.inj hs
    split_ifs with hslots
    · exact (h.pay costSlot).takeSlot htaken .soon hin (fun _ => hslots)
    · exact h.rested hnil rfl rfl hnil rfl rfl trivial
    · exact h.rested hnil rfl rfl hnil rfl rfl trivial
  | enterLater =>
    have htaken : s.taken = none := by rw [State.taken, hpc]
    have hnil := h.rest htaken
    rw [hpc] at hs
    obtain rfl := Option.some.inj hs
    unfold State.enterLater
    dsimp only
    split_ifs
    · exact h.rested hnil rfl rfl hnil rfl rfl trivial
    · exact h.rested hnil rfl rfl hnil rfl rfl (laterSlot_range _)
    · exact h.rested hnil rfl rfl hnil rfl rfl (laterSlot_range _)
  | later =>
    have htaken : s.taken = none := by rw [State.taken, hpc]
    have hnil := h.rest htaken
    rw [hpc] at hs hin
    obtain rfl := Option.some.inj hs
    split_ifs with hslots
    · exact (h.pay costSlot).takeSlot htaken .later hin (fun _ => hslots)
    · exact h.rested hnil rfl rfl hnil rfl rfl trivial
  | passDone =>
    have htaken : s.taken = none := by rw [State.taken, hpc]
    have hnil := h.rest htaken
    rw [hpc] at hs
    dsimp only at hs
    split_ifs at hs
    · obtain rfl := Option.some.inj hs
      exact h.rested hnil rfl rfl hnil rfl rfl trivial
    · obtain rfl := Option.some.inj hs
      exact h.finish htaken hy a
  | next home =>
    rw [hpc] at hs
    obtain rfl := Option.some.inj hs
    exact h.nextTimer hpc

/-- Where a call of `erts_bump_timers` goes on. -/
theorem Shelved.bumpTimers_cases (h : Shelved s) (hpc : s.pc = .idle) (currTime : ℤ) :
    (s.tiw.yieldSlot = -2 ∧ (s.bumpTimers currTime).pc = .pass) ∨
    ∃ home : Home, s.tiw.yieldSlot ≠ -2 ∧ (s.bumpTimers currTime).pc = .next home ∧
      home.Has s.tiw.yieldSlot ∧ (home ≠ .atOnce → 1 ≤ s.tiw.yieldSlotsLeft) ∧
      (home.stage s.tiw.yieldSlot s.tiw.yieldSlotsLeft).cur = s.tiw.yieldSlot := by
  have hin := h.inWheel
  unfold State.InWheel at hin
  rw [hpc] at hin
  dsimp only at hin
  by_cases h1 : s.tiw.yieldSlot = -2
  · exact Or.inl ⟨h1, if_pos h1⟩
  right
  by_cases h2 : s.tiw.yieldSlot ≥ 16384
  · refine ⟨.later, h1, (if_neg h1).trans (if_pos h2), ⟨h2, ?_⟩, fun _ => ?_, rfl⟩ <;> omega
  by_cases h3 : s.tiw.yieldSlot = -1
  · exact ⟨.atOnce, h1, (if_neg h1).trans ((if_neg h2).trans (if_pos h3)), trivial,
      fun hne => absurd rfl hne, h3.symm⟩
  · refine ⟨.soon, h1, (if_neg h1).trans ((if_neg h2).trans (if_neg h3)), ⟨?_, ?_⟩,
      fun _ => ?_, rfl⟩ <;> omega

/-- **The call of `erts_bump_timers`.** -/
theorem Shelved.bumpTimers (h : Shelved s) (hpc : s.pc = .idle) (currTime : ℤ) :
    Shelved (s.bumpTimers currTime) := by
  have htaken : s.taken = if s.tiw.yieldSlot = slotInactive then none else some s.tiw.yieldSlot := by
    rw [State.taken, hpc]
  rcases h.bumpTimers_cases hpc currTime with ⟨hy, hpc'⟩ | ⟨home, hy, hpc', hhas, hslots, hcur⟩
  · have hnone : s.taken = none := htaken.trans (if_pos hy)
    refine h.rested (h.rest hnone) rfl rfl (h.rest hnone) rfl ?_ ?_
    · rw [State.taken, hpc']
    · rw [State.InWheel, hpc']
      trivial
  · have htaken' : (s.bumpTimers currTime).taken = s.taken := by
      rw [htaken.trans (if_neg hy), taken_next hpc']
      exact congrArg some hcur
    refine ⟨?_, ?_, ?_, ?_⟩
    · rw [htaken']
      exact h.lists
    · rw [htaken']
      exact h.rest
    · rw [htaken']
      exact h.atOnce
    · rw [State.InWheel, hpc']
      exact ⟨hhas, hslots⟩

theorem bumpTimer_yieldSlot (s : State) (home : Home) (p : Tmr) :
    (s.bumpTimer home p).tiw.yieldSlot = s.tiw.yieldSlot := by
  cases home with
  | atOnce => rfl
  | soon =>
    unfold State.bumpTimer State.bumpSoon
    dsimp only
    split_ifs
    · rfl
    · exact Wheel.insertTimerIntoSlot_yieldSlot ..
  | later =>
    unfold State.bumpTimer State.bumpLater
    dsimp only
    split_ifs
    · exact Wheel.insertTimerIntoSlot_yieldSlot ..
    · exact Wheel.insertTimerIntoSlot_yieldSlot ..
    · rfl

theorem nextSlot_yieldSlot (s : State) (home : Home) :
    (s.nextSlot home).tiw.yieldSlot = s.tiw.yieldSlot := by
  cases home <;> rfl

theorem takeSlot_yieldSlot (s : State) (home : Home) (slot : ℤ) :
    (s.takeSlot home slot).tiw.yieldSlot = s.tiw.yieldSlot := by
  unfold State.takeSlot
  split
  · exact nextSlot_yieldSlot s home
  · exact bumpTimer_yieldSlot ..

/-- A bump that goes on leaves `yield_slot` alone. -/
theorem runStep_yieldSlot {a : Answers} (hs : s.runStep a = some s') (hne : s'.pc ≠ .idle) :
    s'.tiw.yieldSlot = s.tiw.yieldSlot := by
  unfold State.runStep at hs
  cases hpc : s.pc with
  | idle => rw [hpc] at hs; cases hs
  | callback home => rw [hpc] at hs; cases hs
  | pass =>
    rw [hpc] at hs
    obtain rfl := Option.some.inj hs
    rfl
  | top =>
    rw [hpc] at hs
    obtain rfl := Option.some.inj hs
    split_ifs at hne ⊢
    · exact absurd rfl hne
    · exact takeSlot_yieldSlot ..
  | atOnceDone =>
    rw [hpc] at hs
    obtain rfl := Option.some.inj hs
    unfold State.atOnceDone at hne ⊢
    split_ifs at hne ⊢
    · rfl
    · rfl
    · exact absurd rfl hne
    · rfl
  | soon =>
    rw [hpc] at hs
    obtain rfl := Option.some.inj hs
    split_ifs
    · exact takeSlot_yieldSlot ..
    · rfl
    · rfl
  | enterLater =>
    rw [hpc] at hs
    obtain rfl := Option.some.inj hs
    unfold State.enterLater
    dsimp only
    split_ifs <;> rfl
  | later =>
    rw [hpc] at hs
    obtain rfl := Option.some.inj hs
    split_ifs
    · exact takeSlot_yieldSlot ..
    · rfl
  | passDone =>
    rw [hpc] at hs
    dsimp only at hs
    split_ifs at hs
    · obtain rfl := Option.some.inj hs
      rfl
    · obtain rfl := Option.some.inj hs
      exact absurd rfl hne
  | next home =>
    rw [hpc] at hs
    obtain rfl := Option.some.inj hs
    unfold State.nextTimer at hne ⊢
    split at hne
    · exact nextSlot_yieldSlot s home
    · split_ifs at hne ⊢
      · cases home <;> exact absurd rfl hne
      · exact bumpTimer_yieldSlot ..

/-- The lists, and no yield is left over while a bump runs. -/
structure InOrder (s : State) : Prop where
  /-- the lists -/
  shelved : Shelved s
  /-- a running bump has not yielded -/
  running : s.pc ≠ .idle → s.tiw.yieldSlot = slotInactive

/-- **Every step** keeps the lists in order. -/
theorem InOrder.step {l : Label} (h : InOrder s) (hs : s.step l = some s') : InOrder s' := by
  cases l with
  | set p timeoutPos a =>
    simp only [State.step] at hs
    split_ifs at hs with hok
    obtain rfl := Option.some.inj hs
    refine ⟨h.shelved.set timeoutPos a hok.1 hok.2 _, fun hne => ?_⟩
    exact (setTimer_effect s.tiw p timeoutPos a).1.yieldSlot.trans (h.running hne)
  | cancel p =>
    simp only [State.step] at hs
    split_ifs at hs with hok
    obtain rfl := Option.some.inj hs
    refine ⟨h.shelved.cancel p hok _, fun hne => ?_⟩
    exact (cancelTimer_effect s.tiw p).1.yieldSlot.trans (h.running hne)
  | check remain now =>
    simp only [State.step] at hs
    split_ifs at hs with hok
    obtain rfl := Option.some.inj hs
    refine ⟨?_, fun hne => absurd hok.1 hne⟩
    rcases checkNextTimeoutTime_cases s.tiw remain now with he | ⟨-, he⟩
    · rw [he]
      exact ⟨h.shelved.lists, h.shelved.rest, h.shelved.atOnce, h.shelved.inWheel⟩
    · rw [he]
      exact h.shelved.search hok.1 now _
  | bump currTime =>
    simp only [State.step] at hs
    split_ifs at hs with hok
    obtain rfl := Option.some.inj hs
    exact ⟨h.shelved.bumpTimers hok.1 currTime, fun _ => rfl⟩
  | run a =>
    have hne : s.pc ≠ .idle := by
      intro hidle
      rw [State.step, State.runStep, hidle] at hs
      cases hs
    refine ⟨h.shelved.runStep (h.running hne) hs, fun hne' => ?_⟩
    exact (runStep_yieldSlot hs hne').trans (h.running hne)
  | ret =>
    simp only [State.step] at hs
    split at hs
    case h_1 home hpc =>
      obtain rfl := Option.some.inj hs
      refine ⟨h.shelved.callbackDone hpc, fun _ => ?_⟩
      have hy := h.running (by rw [hpc]; exact fun he => by cases he)
      cases home <;> exact hy
    · cases hs

theorem inOrder_of_reach (h : wheelSystem.Reach s) : InOrder s := by
  refine h.invariant ?_ fun _ _ _ ho hs => ho.step hs
  rintro s ⟨hpc, -, a, bumpScnt, left, timeoutPos, htiw⟩
  obtain ⟨fd, d, he⟩ := Wheel.ponTimerWheelArm_eq _ a
  unfold Wheel.create at htiw
  dsimp only at htiw
  rw [he] at htiw
  have hy : s.tiw.yieldSlot = slotInactive := by rw [htiw]
  have htaken : s.taken = none := by
    rw [State.taken, hpc]
    exact if_pos hy
  refine ⟨⟨?_, fun _ => by rw [htiw], ?_, ?_⟩, fun hne => absurd hpc hne⟩
  · rw [htaken, htiw]
    exact ⟨fun _ _ ht => absurd ht List.not_mem_nil, rfl, fun _ => List.nodup_nil,
      fun _ ht => absurd ht List.not_mem_nil, by decide, List.nodup_nil,
      fun _ ht => absurd ht List.not_mem_nil, fun _ ht => absurd rfl ht⟩
  · rw [htaken, htiw]
    rfl
  · rw [State.InWheel, hpc]
    exact Or.inl hy

end

end PonBeam.TimerWheel
