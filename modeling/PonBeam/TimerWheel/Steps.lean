import PonBeam.TimerWheel.Passes
import PonBeam.TimerWheel.Trace

/-!
# The steps of the wheel

What holds at each place of `erts_bump_timers`, of the wheel (`Phase`), of the local
variables and the times (`Times`) and of the log, and that every step keeps it. The one
step that does not takes a timer out of the later wheel that `bump_scnt` has not counted.
-/

namespace PonBeam.TimerWheel

theorem monotonicToClktcks_mono {a b : ℤ} (h : a ≤ b) :
    monotonicToClktcks a ≤ monotonicToClktcks b := by
  unfold monotonicToClktcks clktckUnit
  omega

/-- A position starts no later than the times in it. -/
theorem clktcksToMonotonic_le (t : ℤ) : clktcksToMonotonic (monotonicToClktcks t) ≤ t := by
  unfold clktcksToMonotonic monotonicToClktcks clktckUnit
  omega

/-! ## The invariant of a run -/

namespace Home

/-- The stage a list from here belongs to. -/
def stage (slot slots : ℤ) : Home → Stage
  | .atOnce => .atOnce
  | .soon => .soon slot slots
  | .later => .later slot slots

/-- Is a callback still counted in `nto`? -/
def inNto : Home → ℤ
  | .atOnce => 0
  | .soon => 1
  | .later => 1

/-- Is it still counted in `bump_scnt`? -/
def inBumpScnt : Home → ℤ
  | .atOnce => 0
  | .soon => 1
  | .later => 0

end Home

/-- What holds of the wheel. -/
def Phase (A : Finset Tmr) (s : State) : Prop :=
  match s.pc with
  | .idle => (s.tiw.yieldSlot = -2 ∧ Inv A s.tiw .atOnce false 0 0) ∨
      ∃ home : Home, (home = .atOnce → s.tiw.yieldSlot = -1) ∧
        Inv A s.tiw (home.stage s.tiw.yieldSlot s.tiw.yieldSlotsLeft) true 0 0
  | .pass => Inv A s.tiw .atOnce false 0 0
  | .top => Inv A s.tiw .atOnce false 0 0
  | .atOnceDone => Inv A s.tiw .atOnce false 0 0
  | .soon => Inv A s.tiw (.soon s.loc.slot s.loc.slots) false 0 0
  | .enterLater => Inv A s.tiw (.soon s.loc.slot s.loc.slots) false 0 0 ∧ s.loc.slots ≤ 0 ∧
      s.tiw.laterPos ≤ s.tiw.pos + 8192
  | .later => Inv A s.tiw (.later s.loc.slot s.loc.slots) false 0 0
  | .passDone => Inv A s.tiw .atOnce false 0 0 ∧ s.tiw.atOnceNto = 0 ∧ s.loc.bumpTo ≤ s.tiw.pos
  | .next home => Inv A s.tiw (home.stage s.loc.slot s.loc.slots) true 0 0
  | .callback home =>
    Inv A s.tiw (home.stage s.loc.slot s.loc.slots) true home.inNto home.inBumpScnt

/-- Places in the scan of a wheel. -/
def Pc.scanning : Pc → Bool
  | .soon | .enterLater | .later => true
  | .next .soon | .next .later | .callback .soon | .callback .later => true
  | _ => false

/-- What holds of the times; `ok` is assumed of the runs in which the next timeout is to be
trusted. -/
structure Times (ok : Prop) (s : State) : Prop where
  /-- the wheel is not ahead of the clock -/
  clock : s.tiw.pos ≤ monotonicToClktcks s.clock
  /-- the next timeout in both units -/
  time : s.tiw.nextTimeoutTime = clktcksToMonotonic s.tiw.nextTimeoutPos
  /-- a wheel at rest knows of all its timers -/
  rest : ok → s.pc = .idle → s.tiw.yieldSlot = -2 → ∀ t, s.tiw.slot t ≠ -2 →
    s.tiw.nextTimeoutPos ≤ s.tiw.timeoutPos t
  /-- a bump that yielded is to be resumed at once -/
  yielded : s.pc = .idle → s.tiw.yieldSlot ≠ -2 → s.loc.currTime ≤ s.clock ∧
    (ok → s.tiw.nextTimeoutPos ≤ monotonicToClktcks s.loc.currTime)
  /-- a running bump -/
  bump : s.pc ≠ .idle → s.tiw.yieldSlot = -2 ∧ s.loc.currTime ≤ s.clock ∧
    s.tiw.pos ≤ s.loc.bumpTo ∧ s.loc.bumpTo ≤ monotonicToClktcks s.loc.currTime
  /-- a running pass -/
  started : s.pc ≠ .idle → s.pc ≠ .pass →
    (ok → s.tiw.nextTimeoutPos ≤ monotonicToClktcks s.loc.currTime) ∧
    (s.loc.restarted = false → s.loc.bumpTo = monotonicToClktcks s.loc.currTime)
  /-- a running scan -/
  scanning : s.pc.scanning = true → s.loc.bumpTo = s.tiw.pos

/-- The `timeout_pos` of an active timer. -/
def Wheel.active (tiw : Wheel) (t : Tmr) : Option ℤ :=
  if tiw.slot t = -2 then none else some (tiw.timeoutPos t)

/-- **The invariant of a run.** -/
structure Good (ok : Prop) (s : State) : Prop where
  /-- the wheel -/
  phase : ∃ A, Phase A s
  /-- the times -/
  times : Times ok s
  /-- the log knows the active timers -/
  logged : ∀ t, pending s.log t = s.tiw.active t
  /-- and is sound -/
  sound : Sound s.log

/-! ## Setting, cancelling, checking -/

section

variable {ok : Prop} {s s' : State}

theorem accepts_cases (h : s.accepts = true) : s.pc = .idle ∨ ∃ home, s.pc = .callback home := by
  unfold State.accepts at h
  split at h
  · exact Or.inl (by assumption)
  · exact Or.inr ⟨_, by assumption⟩
  · cases h

/-- An operation that keeps the bump's place keeps the times, if it does not put off the next
timeout. -/
theorem Times.keeps {p : Tmr} {tiw : Wheel} (h : Times ok s) (hk : Keeps p s.tiw tiw)
    (htime : tiw.nextTimeoutTime = clktcksToMonotonic tiw.nextTimeoutPos)
    (hnext : tiw.nextTimeoutPos ≤ s.tiw.nextTimeoutPos)
    (hp : tiw.slot p ≠ -2 → tiw.nextTimeoutPos ≤ tiw.timeoutPos p) (e : Event) :
    Times ok ((s.withTiw tiw).record e) := by
  refine ⟨?_, htime, fun hok hpc hy t ht => ?_, fun hpc hy => ?_, fun hpc => ?_,
    fun hpc hpass => ?_, fun hpc => ?_⟩
  · change tiw.pos ≤ _
    rw [hk.pos]
    exact h.clock
  · change tiw.yieldSlot = -2 at hy
    change tiw.nextTimeoutPos ≤ tiw.timeoutPos t
    change tiw.slot t ≠ -2 at ht
    rw [hk.yieldSlot] at hy
    by_cases htp : t = p
    · subst htp
      exact hp ht
    · rw [hk.slot t htp] at ht
      rw [hk.timeoutPos t htp]
      exact hnext.trans (h.rest hok hpc hy t ht)
  · change tiw.yieldSlot ≠ -2 at hy
    rw [hk.yieldSlot] at hy
    obtain ⟨h1, h2⟩ := h.yielded hpc hy
    exact ⟨h1, fun hok => hnext.trans (h2 hok)⟩
  · obtain ⟨h1, h2, h3, h4⟩ := h.bump hpc
    change tiw.yieldSlot = -2 ∧ _ ∧ tiw.pos ≤ _ ∧ _
    rw [hk.yieldSlot, hk.pos]
    exact ⟨h1, h2, h3, h4⟩
  · obtain ⟨h1, h2⟩ := h.started hpc hpass
    exact ⟨fun hok => hnext.trans (h1 hok), h2⟩
  · change _ = tiw.pos
    rw [hk.pos]
    exact h.scanning hpc

/-- Such an operation also keeps the phase, if it keeps the invariant in every stage. -/
theorem phase_keeps {A B : Finset Tmr} {p : Tmr} {tiw : Wheel} (hacc : s.accepts = true)
    (h : Phase A s) (hk : Keeps p s.tiw tiw)
    (hinv : ∀ st busy pn pb, Inv A s.tiw st busy pn pb → Inv B tiw st busy pn pb) (e : Event) :
    Phase B ((s.withTiw tiw).record e) := by
  unfold Phase at h ⊢
  rcases accepts_cases hacc with hpc | ⟨home, hpc⟩
  · have hpc' : ((s.withTiw tiw).record e).pc = .idle := hpc
    rw [hpc] at h
    rw [hpc']
    dsimp only at h ⊢
    change (tiw.yieldSlot = -2 ∧ _) ∨ ∃ home : Home, (home = .atOnce → tiw.yieldSlot = -1) ∧
      Inv B tiw (home.stage tiw.yieldSlot tiw.yieldSlotsLeft) true 0 0
    rw [hk.yieldSlot, hk.yieldSlotsLeft]
    rcases h with ⟨hy, h⟩ | ⟨home, hy, h⟩
    · exact Or.inl ⟨hy, hinv _ _ _ _ h⟩
    · exact Or.inr ⟨home, hy, hinv _ _ _ _ h⟩
  · have hpc' : ((s.withTiw tiw).record e).pc = .callback home := hpc
    rw [hpc] at h
    rw [hpc']
    exact hinv _ _ _ _ h

/-- **Setting a timer.** -/
theorem Good.set (h : Good ok s) {p : Tmr} (timeoutPos : ℤ) (a : ArmAnswers)
    (hacc : s.accepts = true) (hslot : s.tiw.slot p = -2) :
    Good ok ((s.withTiw (s.tiw.setTimer p timeoutPos a)).record
      (.set p ((s.tiw.setTimer p timeoutPos a).timeoutPos p))) := by
  obtain ⟨A, hphase⟩ := h.phase
  obtain ⟨hk, hact, hnext, hp, htime⟩ := setTimer_effect s.tiw p timeoutPos a
  refine ⟨⟨insert p A, phase_keeps hacc hphase hk (fun _ _ _ _ hi => hi.setTimer hslot) _⟩,
    h.times.keeps hk (htime h.times.time) hnext (fun _ => hp) _, fun t => ?_,
    h.sound.cons trivial⟩
  change (if t = p then some _ else pending s.log t) = (s.tiw.setTimer p timeoutPos a).active t
  unfold Wheel.active
  by_cases ht : t = p
  · rw [if_pos ht, ht, if_neg hact]
  · rw [if_neg ht, hk.slot t ht, hk.timeoutPos t ht]
    exact h.logged t

/-- **Cancelling a timer.** -/
theorem Good.cancel (h : Good ok s) (p : Tmr) (hacc : s.accepts = true) :
    Good ok ((s.withTiw (s.tiw.cancelTimer p)).record (.cancel p)) := by
  obtain ⟨A, hphase⟩ := h.phase
  obtain ⟨hk, hslot, hpos, htime⟩ := cancelTimer_effect s.tiw p
  refine ⟨⟨A, phase_keeps hacc hphase hk (fun _ _ _ _ hi => hi.cancelTimer) _⟩,
    h.times.keeps hk ?_ (le_of_eq hpos) (fun hne => absurd hslot hne) _, fun t => ?_,
    h.sound.cons trivial⟩
  · rw [hpos, htime]
    exact h.times.time
  · change (if t = p then none else pending s.log t) = (s.tiw.cancelTimer p).active t
    unfold Wheel.active
    by_cases ht : t = p
    · rw [if_pos ht, ht, if_pos hslot]
    · rw [if_neg ht, hk.slot t ht, hk.timeoutPos t ht]
      exact h.logged t

/-- Does `erts_check_next_timeout_time` go on to `find_next_timeout`? -/
def Wheel.Searches (tiw : Wheel) (remain : Option ℤ) : Prop :=
  tiw.trueNextTimeoutTime = false ∧ tiw.nextTimeoutPos ≤ tiw.pos + soonWheelSize ∧
    tiw.ponTimerWheelCanSkipScan remain = false

theorem checkNextTimeoutTime_cases (tiw : Wheel) (remain : Option ℤ) (currTime : ℤ) :
    tiw.checkNextTimeoutTime remain currTime = tiw ∨
      (tiw.Searches remain ∧
        tiw.checkNextTimeoutTime remain currTime = tiw.findNextTimeout currTime) := by
  unfold Wheel.checkNextTimeoutTime
  split_ifs with h1 h2 h3
  · exact Or.inl rfl
  · exact Or.inl rfl
  · exact Or.inl rfl
  · exact Or.inr ⟨⟨Bool.eq_false_iff.mpr h1, not_lt.mp h2, Bool.eq_false_iff.mpr h3⟩, rfl⟩

theorem phase_of_rest {A : Finset Tmr} (hpc : s.pc = .idle) (hy : s.tiw.yieldSlot = -2)
    (h : Inv A s.tiw .atOnce false 0 0) : Phase A s := by
  unfold Phase
  rw [hpc]
  exact Or.inl ⟨hy, h⟩

theorem phase_rest {A : Finset Tmr} (h : Phase A s) (hpc : s.pc = .idle)
    (hy : s.tiw.yieldSlot = -2) : Inv A s.tiw .atOnce false 0 0 := by
  unfold Phase at h
  rw [hpc] at h
  rcases h with ⟨-, h⟩ | ⟨home, hat, h⟩
  · exact h
  · cases home with
    | atOnce =>
      have hone := hat rfl
      omega
    | soon =>
      have hrange := Inv.soon_range h
      omega
    | later =>
      have hrange := Inv.later_range h
      omega

/-- A search keeps the phase of a wheel between calls. -/
theorem phase_search {A : Finset Tmr} (h : Phase A s) (hpc : s.pc = .idle) (now : ℤ) (e : Event) :
    Phase A { (s.withTiw (s.tiw.findNextTimeout now)).record e with clock := now } := by
  have hs := s.tiw.findNextTimeout_searched now
  have hpc' : ({ (s.withTiw (s.tiw.findNextTimeout now)).record e with clock := now } : State).pc
      = .idle := hpc
  unfold Phase at h ⊢
  rw [hpc] at h
  rw [hpc']
  change ((s.tiw.findNextTimeout now).yieldSlot = -2 ∧ _) ∨ ∃ home : Home,
    (home = .atOnce → (s.tiw.findNextTimeout now).yieldSlot = -1) ∧
      Inv A (s.tiw.findNextTimeout now) (home.stage (s.tiw.findNextTimeout now).yieldSlot
        (s.tiw.findNextTimeout now).yieldSlotsLeft) true 0 0
  rw [hs.yieldSlot, hs.yieldSlotsLeft]
  rcases h with ⟨hy, h⟩ | ⟨home, hy, h⟩
  · exact Or.inl ⟨hy, h.findNextTimeout now⟩
  · exact Or.inr ⟨home, hy, h.findNextTimeout now⟩

/-- **Checking the next timeout.** The answer is to be trusted when a search finds the wheel at
rest. -/
theorem Good.check (h : Good ok s) (hpc : s.pc = .idle) (remain : Option ℤ) {now : ℤ}
    (hnow : s.clock ≤ now)
    (hreg : ok → s.tiw.Searches remain → s.tiw.atOnceNto = 0 ∧ s.tiw.yieldSlot = -2) :
    Good ok { (s.withTiw (s.tiw.checkNextTimeoutTime remain now)).record
      (.checked (s.tiw.checkNextTimeoutTime remain now).nextTimeoutTime) with clock := now } := by
  obtain ⟨A, hphase⟩ := h.phase
  have hclock := h.times.clock.trans (monotonicToClktcks_mono hnow)
  rcases checkNextTimeoutTime_cases s.tiw remain now with he | ⟨hsearch, he⟩
  · rw [he]
    refine ⟨⟨A, hphase⟩, ⟨hclock, h.times.time, h.times.rest, fun hi hy => ?_,
      fun hne => absurd hpc hne, fun hne => absurd hpc hne, h.times.scanning⟩, h.logged,
      h.sound.cons trivial⟩
    obtain ⟨h1, h2⟩ := h.times.yielded hi hy
    exact ⟨h1.trans hnow, h2⟩
  · rw [he]
    have hs := s.tiw.findNextTimeout_searched now
    refine ⟨⟨A, phase_search hphase hpc now _⟩, ⟨?_, hs.time, fun hok _ _ t ht => ?_,
      fun _ hne => ?_, fun hne => absurd hpc hne, fun hne => absurd hpc hne, fun hsc => ?_⟩,
      fun t => ?_, h.sound.cons trivial⟩
    · change (s.tiw.findNextTimeout now).pos ≤ monotonicToClktcks now
      rcases hs.pos with hp | hp
      · rw [hp]
        exact hclock
      · exact le_of_eq hp
    · change (s.tiw.findNextTimeout now).slot t ≠ -2 at ht
      rw [hs.slot] at ht
      change _ ≤ (s.tiw.findNextTimeout now).timeoutPos t
      rw [hs.timeoutPos]
      obtain ⟨hat, hy⟩ := hreg hok hsearch
      exact (phase_rest hphase hpc hy).findNextTimeout_le hat now ht
    · change (s.tiw.findNextTimeout now).yieldSlot ≠ -2 at hne
      rw [hs.yieldSlot] at hne
      exact ⟨(h.times.yielded hpc hne).1.trans hnow,
        fun hok => absurd (hreg hok hsearch).2 hne⟩
    · change s.pc.scanning = true at hsc
      rw [hpc] at hsc
      cases hsc
    · change pending s.log t = (s.tiw.findNextTimeout now).active t
      rw [h.logged t]
      unfold Wheel.active
      rw [hs.slot, hs.timeoutPos]

end

end PonBeam.TimerWheel
