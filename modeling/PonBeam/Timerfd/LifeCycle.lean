import PonBeam.Timerfd.Model
import Mathlib.Data.List.Perm.Subperm

/-!
# The life cycle of a timer instigation

In a run that creates timers only on freshly initialised objects, an object that holds an
unread timerfd is running: it is not fired, its descriptor is registered with it, and its newest
activation is the one the descriptor was armed for. Nothing else that is registered can become
readable again. So what `epoll_wait` reports are exactly the running objects whose time has
come, and every one of them is fired.
-/

namespace PonBeam.Timerfd

open State

/-! ## Reads after writes -/

section Reads

variable (s : State) (i j : Inst) (f : ErtsTimerInstigation → ErtsTimerInstigation) (fd fd' : Fd)

@[simp] theorem modify_now : (s.modify i f).now = s.now := rfl

@[simp] theorem modify_fds : (s.modify i f).fds = s.fds := rfl

@[simp] theorem modify_interest : (s.modify i f).interest = s.interest := rfl

@[simp] theorem modify_inst_self : (s.modify i f).inst i = f (s.inst i) := by
  simp [State.modify]

theorem modify_inst_of_ne (h : j ≠ i) : (s.modify i f).inst j = s.inst j := by
  simp [State.modify, Function.update_of_ne h]

@[simp] theorem consume_now : (s.consume fd).now = s.now := rfl

@[simp] theorem consume_inst : (s.consume fd).inst = s.inst := rfl

@[simp] theorem consume_interest : (s.consume fd).interest = s.interest := rfl

theorem consume_fds_of_ne (h : fd' ≠ fd) : (s.consume fd).fds fd' = s.fds fd' := by
  simp [consume, Function.update_of_ne h]

theorem consume_fds_self :
    (s.consume fd).fds fd = (s.fds fd).map fun t => { t with consumed := true } := by
  simp [consume]

end Reads

/-- A readable descriptor is armed, not read, and its time has come. -/
theorem readable_iff {s : State} {fd : Fd} :
    s.readable fd = true ↔ ∃ d, s.fds fd = some ⟨some d, false⟩ ∧ d ≤ s.now := by
  rw [readable]
  split
  · next d h => simp [h]
  · next h =>
    refine ⟨(fun hb => nomatch hb), ?_⟩
    rintro ⟨d, hd, -⟩
    exact absurd hd (h d)

theorem mem_ready {s : State} {e : Fd × Inst} :
    e ∈ s.ready ↔ e ∈ s.interest ∧ s.readable e.1 = true := by
  rw [ready, List.mem_filter]

/-! ## The invariant -/

/-- An activation that has nothing left to do. -/
def Activation.Over (a : Activation) : Prop := a.cancelled = true ∨ a.fires = 1

/-- The object holds a timer that was not fired. -/
def Running (s : State) (i : Inst) (fd : Fd) : Prop :=
  (s.inst i).timerFd = some fd ∧ (s.inst i).fired = false

/-- Objects, descriptors, registrations and activations belong together. -/
structure Inv (g : Seen) : Prop where
  /-- a running object is registered, and armed for its newest activation -/
  running : ∀ i fd, Running g.state i fd → (fd, i) ∈ g.state.interest ∧
    ∃ a rest, g.acts i = a :: rest ∧ a.cancelled = false ∧ a.fires = 0 ∧
      g.state.fds fd = some ⟨some a.due, false⟩
  /-- the other objects have nothing left to do -/
  idle : ∀ i, (∀ fd, ¬ Running g.state i fd) → ∀ a ∈ g.acts i, a.Over
  /-- nor have older activations -/
  older : ∀ i, ∀ a ∈ (g.acts i).tail, a.Over
  /-- no activation was fired twice, early, or after a cancel -/
  sane : ∀ i, ∀ a ∈ g.acts i, a.fires ≤ 1 ∧ a.early = 0 ∧ a.late = 0
  /-- what is registered and not read belongs to the object it is registered with -/
  registered : ∀ fd i, (fd, i) ∈ g.state.interest →
    ∃ t, g.state.fds fd = some t ∧ (t.consumed = false → Running g.state i fd)
  /-- a descriptor is registered once -/
  nodup : (g.state.interest.map Prod.fst).Nodup
  /-- an object's descriptor is open -/
  held : ∀ i fd, (g.state.inst i).timerFd = some fd → g.state.fds fd ≠ none
  /-- and no other object has it -/
  holder : ∀ i j fd, (g.state.inst i).timerFd = some fd → (g.state.inst j).timerFd = some fd →
    i = j

namespace Inv

variable {g : Seen} {i : Inst} {fd : Fd}

/-- What `epoll_wait` can report are the running objects whose time has come. -/
theorem mem_ready_iff (h : Inv g) :
    (fd, i) ∈ g.state.ready ↔
      Running g.state i fd ∧ ∃ a rest, g.acts i = a :: rest ∧ a.due ≤ g.state.now := by
  rw [mem_ready]
  constructor
  · rintro ⟨hreg, hread⟩
    obtain ⟨d, hfd, hd⟩ := readable_iff.mp hread
    obtain ⟨t, ht, hrun⟩ := h.registered fd i hreg
    obtain rfl : ⟨some d, false⟩ = t := Option.some.inj (hfd.symm.trans ht)
    obtain ⟨-, a, rest, hacts, -, -, hfd'⟩ := h.running i fd (hrun rfl)
    obtain rfl : d = a.due := by simpa using hfd.symm.trans hfd'
    exact ⟨hrun rfl, a, rest, hacts, hd⟩
  · rintro ⟨hrun, a, rest, hacts, hd⟩
    obtain ⟨hreg, b, rest', hacts', -, -, hfd⟩ := h.running i fd hrun
    obtain ⟨rfl, -⟩ : b = a ∧ rest' = rest := by simpa using hacts'.symm.trans hacts
    exact ⟨hreg, readable_iff.mpr ⟨_, hfd, hd⟩⟩

theorem interest_nodup (h : Inv g) : g.state.interest.Nodup := h.nodup.of_map

theorem ready_nodup (h : Inv g) : g.state.ready.Nodup := h.interest_nodup.filter _

/-- Each object is reported at most once. -/
theorem ready_objects_nodup (h : Inv g) : (g.state.ready.map Prod.snd).Nodup := by
  refine h.ready_nodup.map_on ?_
  rintro ⟨fd, i⟩ hi ⟨fd', j⟩ hj rfl
  have hfd := (h.mem_ready_iff.mp hi).1.1
  have hfd' := (h.mem_ready_iff.mp hj).1.1
  rw [hfd] at hfd'
  rw [Option.some.inj hfd']

end Inv

/-! ## One fire -/

/-- The state after a timer was fired. -/
def firedState (s : State) (i : Inst) (fd : Fd) : State :=
  (s.consume fd).modify i fun t => { t with fired := true }

/-- `pon_timer_instigation_fire` fires a running object whose descriptor is readable, and does
nothing else. -/
theorem fire_cases (s : State) (i : Inst) :
    (∃ fd, Running s i fd ∧ s.readable fd = true ∧
      ponTimerInstigationFire s i = firedState s i fd) ∨
    ((∀ fd, Running s i fd → s.readable fd = false) ∧ ponTimerInstigationFire s i = s) := by
  rw [ponTimerInstigationFire]
  cases hf : (s.inst i).fired with
  | true => exact .inr ⟨fun fd hrun => by simp [Running, hf] at hrun, by simp⟩
  | false =>
    cases hfd : (s.inst i).timerFd with
    | none => exact .inr ⟨fun fd hrun => by simp [Running, hfd] at hrun, by simp⟩
    | some fd =>
      cases hr : s.readable fd with
      | true => exact .inl ⟨fd, ⟨hfd, hf⟩, hr, by simp [hr, firedState]⟩
      | false =>
        refine .inr ⟨fun fd' hrun => ?_, by simp [hr]⟩
        obtain rfl : fd = fd' := Option.some.inj (hfd.symm.trans hrun.1)
        exact hr

section Fired

variable {s : State} {i j : Inst} {fd fd' : Fd}

theorem firedState_inst_of_ne (h : j ≠ i) : (firedState s i fd).inst j = s.inst j := by
  rw [firedState, modify_inst_of_ne _ _ _ _ h, consume_inst]

theorem firedState_fired : ((firedState s i fd).inst i).fired = true := by
  simp [firedState]

theorem firedState_timerFd : ((firedState s i fd).inst j).timerFd = (s.inst j).timerFd := by
  by_cases h : j = i
  · subst h
    simp [firedState]
  · rw [firedState_inst_of_ne h]

/-- What still runs is what ran before, less the fired object. -/
theorem running_firedState : Running (firedState s i fd) j fd' ↔ j ≠ i ∧ Running s j fd' := by
  by_cases h : j = i
  · subst h
    simp [Running, firedState_fired]
  · simp [Running, firedState_inst_of_ne h, h]

theorem firedState_fds_of_ne (h : fd' ≠ fd) : (firedState s i fd).fds fd' = s.fds fd' := by
  rw [firedState, modify_fds, consume_fds_of_ne _ _ _ h]

theorem went_firedState (h : (s.inst i).fired = false) :
    Went s (firedState s i fd) j ↔ j = i := by
  by_cases hj : j = i
  · subst hj
    simp [Went, h, firedState_fired]
  · simp [Went, firedState_inst_of_ne hj, hj]

end Fired

theorem creditFires_self (s : State) (acts : Inst → List Activation) :
    creditFires s s acts = acts := by
  funext i
  rw [creditFires, if_neg]
  rintro ⟨h₁, h₂⟩
  rw [h₁] at h₂
  cases h₂

/-- Firing keeps the invariant. -/
theorem Inv.fire {g : Seen} (h : Inv g) (i : Inst) : Inv (g.fire i) := by
  rcases fire_cases g.state i with ⟨fd, hrun, hread, heq⟩ | ⟨-, heq⟩
  · obtain ⟨hreg, a, rest, hacts, hnc, hf0, hfd⟩ := h.running i fd hrun
    have hdue : a.due ≤ g.state.now := by
      obtain ⟨d, hd, hle⟩ := readable_iff.mp hread
      obtain rfl : a.due = d := by simpa using hfd.symm.trans hd
      exact hle
    have hself : (g.fire i).acts i = a.fire g.state.now :: rest := by
      simp only [Seen.fire, heq, creditFires, if_pos ((went_firedState hrun.2).mpr rfl), hacts,
        onNewest]
    have hother : ∀ j, j ≠ i → (g.fire i).acts j = g.acts j := by
      intro j hj
      simp only [Seen.fire, heq, creditFires,
        if_neg fun hw => hj ((went_firedState hrun.2).mp hw)]
    have hstate : (g.fire i).state = firedState g.state i fd := heq
    have hint : (g.fire i).state.interest = g.state.interest := by
      rw [hstate]
      rfl
    -- the descriptor of another running object is not the one that was read
    have hne : ∀ j fd', Running g.state j fd' → j ≠ i → fd' ≠ fd := by
      rintro j fd' hj hji rfl
      exact hji (h.holder j i fd' hj.1 hrun.1)
    refine ⟨?_, ?_, ?_, ?_, ?_, ?_, ?_, ?_⟩
    · intro j fd' hj
      rw [hstate] at hj
      obtain ⟨hji, hj⟩ := running_firedState.mp hj
      rw [hint, hother j hji, hstate, firedState_fds_of_ne (hne j fd' hj hji)]
      exact h.running j fd' hj
    · intro j hj b hb
      by_cases hji : j = i
      · subst hji
        rw [hself] at hb
        rcases List.mem_cons.mp hb with rfl | hb
        · exact .inr (by simp [Activation.fire, hf0])
        · exact h.older j b (by rw [hacts]; exact hb)
      · rw [hother j hji] at hb
        refine h.idle j (fun fd' hrun' => hj fd' ?_) b hb
        rw [hstate]
        exact running_firedState.mpr ⟨hji, hrun'⟩
    · intro j b hb
      by_cases hji : j = i
      · subst hji
        rw [hself] at hb
        exact h.older j b (by rw [hacts]; exact hb)
      · rw [hother j hji] at hb
        exact h.older j b hb
    · intro j b hb
      by_cases hji : j = i
      · subst hji
        rw [hself] at hb
        rcases List.mem_cons.mp hb with rfl | hb
        · obtain ⟨-, hearly, hlate⟩ := h.sane j a (by rw [hacts]; exact List.mem_cons_self ..)
          simp [Activation.fire, hf0, hnc, hearly, hlate, hdue]
        · exact h.sane j b (by rw [hacts]; exact List.mem_cons_of_mem _ hb)
      · rw [hother j hji] at hb
        exact h.sane j b hb
    · intro fd' j hj
      rw [hint] at hj
      obtain ⟨t, ht, hrun'⟩ := h.registered fd' j hj
      rw [hstate]
      by_cases hfd' : fd' = fd
      · subst hfd'
        refine ⟨{ t with consumed := true }, ?_, fun hb => nomatch hb⟩
        rw [firedState, modify_fds, consume_fds_self, ht]
        rfl
      · refine ⟨t, ?_, fun hc => running_firedState.mpr ⟨?_, hrun' hc⟩⟩
        · rw [firedState_fds_of_ne hfd', ht]
        · rintro rfl
          exact hfd' (Option.some.inj ((hrun' hc).1.symm.trans hrun.1))
    · rw [hint]
      exact h.nodup
    · intro j fd' hj
      rw [hstate, firedState_timerFd] at hj
      rw [hstate]
      by_cases hfd' : fd' = fd
      · subst hfd'
        rw [firedState, modify_fds, consume_fds_self, hfd]
        exact Option.some_ne_none _
      · rw [firedState_fds_of_ne hfd']
        exact h.held j fd' hj
    · intro j k fd' hj hk
      rw [hstate, firedState_timerFd] at hj hk
      exact h.holder j k fd' hj hk
  · have hg : g.fire i = g := by
      obtain ⟨s, acts, returned, went⟩ := g
      have heq' : ponTimerInstigationFire s i = s := heq
      simp only [Seen.fire, heq', creditFires_self]
    rw [hg]
    exact h

end PonBeam.Timerfd
