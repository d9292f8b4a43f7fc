import PonBeam.Timerfd.Process

/-!
# Exactly one fire per activation

The remaining calls keep the invariant of `LifeCycle`, as long as an object is initialised before
it is created again. Over such runs every activation is fired once, and enough calls of
`pon_timer_process_expirations` in a row leave nothing due.
-/

namespace PonBeam.Timerfd

open State

/-! ## `pon_timer_instigation_create` -/

/-- The state after a successful create. -/
def createdState (s : State) (i : Inst) (tfd : Fd) : State :=
  let timeoutMs := (s.inst i).expirationMs
  let s := s.timerfdCreate tfd
  let s := s.timerfdSettime tfd (timeoutMs / 1000) (timeoutMs % 1000 * 1000000)
  (s.epollAdd tfd i).modify i fun t => { t with timerFd := some tfd }

/-- Closing a descriptor that was just opened leaves no trace. -/
theorem close_fresh {s s' : State} {tfd : Fd} (hs : s'.inst = s.inst ∧ s'.now = s.now)
    (hepoll : s'.epoll = s.epoll) (hfds : ∀ fd, fd ≠ tfd → s'.fds fd = s.fds fd)
    (hfree : s.fds tfd = none) (hout : ∀ i, (tfd, i) ∉ s.interest) : s'.close tfd = s := by
  obtain ⟨now, fds, epoll, inst⟩ := s
  obtain ⟨now', fds', epoll', inst'⟩ := s'
  obtain ⟨rfl, rfl⟩ := hs
  obtain rfl : epoll' = epoll := hepoll
  have hmap : (epoll'.map fun l => l.filter fun e => decide (e.1 ≠ tfd)) = epoll' := by
    cases epoll' with
    | none => rfl
    | some l =>
      rw [Option.map_some, List.filter_eq_self.mpr]
      rintro ⟨fd, i⟩ he
      refine decide_eq_true ?_
      rintro rfl
      exact hout i he
  have hupd : Function.update fds' tfd none = fds := by
    funext fd
    by_cases hfd : fd = tfd
    · rw [hfd, Function.update_self]
      exact hfree.symm
    · rw [Function.update_of_ne hfd]
      exact hfds fd hfd
  simp only [close, epollDel, hmap, hupd]

/-- The timeout is long enough, and no system call of `pon_timer_instigation_create` fails. -/
structure CreateOk (s : State) (i : Inst) (env : CreateEnv) : Prop where
  min : ponTimerMinMs ≤ (s.inst i).expirationMs
  tfd : env.tfd.isSome = true
  settime : env.settimeOk = true
  ctl : s.epoll.isSome = true → env.ctlOk = true

/-- A create fails and changes nothing, or it installs a new descriptor. -/
theorem Inv.create_cases {g : Seen} (h : Inv g) {i : Inst} {env : CreateEnv}
    (hfree : ∀ fd, env.tfd = some fd → g.state.fds fd = none) :
    ponTimerInstigationCreate g.state i env = (-1, g.state) ∨
    ∃ tfd, CreateOk g.state i env ∧ g.state.fds tfd = none ∧
      ponTimerInstigationCreate g.state i env = (0, createdState g.state i tfd) := by
  have hout : ∀ tfd, g.state.fds tfd = none → ∀ j, (tfd, j) ∉ g.state.interest := by
    intro tfd hnone j hj
    obtain ⟨t, ht, -⟩ := h.registered tfd j hj
    rw [hnone] at ht
    cases ht
  rw [ponTimerInstigationCreate]
  by_cases hmin : (g.state.inst i).expirationMs < ponTimerMinMs
  · exact .inl (by simp only [if_pos hmin])
  · simp only [if_neg hmin]
    cases htfd : env.tfd with
    | none => exact .inl rfl
    | some tfd =>
      have hnone := hfree tfd htfd
      cases hset : env.settimeOk with
      | false =>
        left
        simp only [Bool.false_eq_true, if_false]
        have hclose : (g.state.timerfdCreate tfd).close tfd = g.state :=
          close_fresh ⟨rfl, rfl⟩ rfl (fun fd hfd => Function.update_of_ne hfd ..) hnone
            (hout tfd hnone)
        rw [hclose]
      | true =>
        simp only [if_true]
        cases hep : g.state.epoll with
        | none =>
          right
          refine ⟨tfd, ⟨not_lt.mp hmin, by rw [htfd]; rfl, hset, fun h => ?_⟩, hnone, ?_⟩
          · rw [hep] at h
            cases h
          simp only [createdState, epollAdd, timerfdSettime, timerfdCreate, hep, Option.map_none]
        | some l =>
          cases hctl : env.ctlOk with
          | true =>
            right
            refine ⟨tfd, ⟨not_lt.mp hmin, by rw [htfd]; rfl, hset, fun _ => hctl⟩, hnone, ?_⟩
            simp only [createdState, epollAdd, timerfdSettime, timerfdCreate, hep,
              Option.map_some, if_true]
          | false =>
            left
            simp only [timerfdSettime, timerfdCreate, hep, Bool.false_eq_true, if_false]
            refine congrArg (Prod.mk (-1)) ?_
            refine close_fresh ⟨rfl, rfl⟩ hep.symm (fun fd hfd => ?_) hnone (hout tfd hnone)
            simp only [Function.update_of_ne hfd]

section Created

variable {s : State} {i j : Inst} {tfd fd : Fd}

theorem createdState_inst_of_ne (h : j ≠ i) : (createdState s i tfd).inst j = s.inst j := by
  rw [createdState, modify_inst_of_ne _ _ _ _ h]
  rfl

theorem createdState_inst_self :
    (createdState s i tfd).inst i = { s.inst i with timerFd := some tfd } := by
  rw [createdState, modify_inst_self]
  rfl

theorem createdState_fds_of_ne (h : fd ≠ tfd) : (createdState s i tfd).fds fd = s.fds fd := by
  simp [createdState, epollAdd, timerfdSettime, timerfdCreate, Function.update_of_ne h]

/-- The new descriptor expires when the timeout has elapsed. -/
theorem createdState_fds_self (h : ponTimerMinMs ≤ (s.inst i).expirationMs) :
    (createdState s i tfd).fds tfd =
      some ⟨some (s.now + (s.inst i).expirationMs * 1000000), false⟩ := by
  have hdelay : (s.inst i).expirationMs / 1000 * 1000000000 +
      (s.inst i).expirationMs % 1000 * 1000000 = (s.inst i).expirationMs * 1000000 := by
    omega
  have hpos : (s.inst i).expirationMs * 1000000 ≠ 0 := by
    rw [ponTimerMinMs] at h
    omega
  simp [createdState, epollAdd, timerfdSettime, timerfdCreate, hdelay, hpos]

theorem createdState_interest (h : s.epoll.isSome = true) :
    (createdState s i tfd).interest = (tfd, i) :: s.interest := by
  obtain ⟨l, hl⟩ := Option.isSome_iff_exists.mp h
  simp [createdState, epollAdd, timerfdSettime, timerfdCreate, interest, State.modify, hl]

end Created

/-! ## The condition and the property -/

/-- Where the code does what it should: a timer is created on an object as
`ERTS_INIT_TIMER_INSTIGATION` leaves it, after `pon_timer_init`, and an object is initialised
again only when its timer does not run. A create that fails may come at any time. -/
def Allowed (g : Seen) : Label → Prop
  | .create i env => CreateOk g.state i env →
      (g.state.inst i).fired = false ∧ (g.state.inst i).timerFd = none ∧
        g.state.epoll.isSome = true
  | .init i _ => (g.state.inst i).fired = true ∨ (g.state.inst i).timerFd = none
  | _ => True

/-- No activation was fired twice, before its time or after it was cancelled, and
`pon_timer_process_expirations` returned the number of its fires. -/
def Lawful (g : Seen) : Prop :=
  (∀ i, ∀ a ∈ g.acts i, a.fires ≤ 1 ∧ a.early = 0 ∧ a.late = 0) ∧ g.returned = g.went

/-- Every activation whose time has come was fired once, unless it was cancelled. -/
def AllFired (g : Seen) : Prop :=
  ∀ i, ∀ a ∈ g.acts i, a.cancelled = false → a.due ≤ g.state.now → a.fires = 1

/-- `n` calls of `pon_timer_process_expirations` in a row. -/
def ProcessCalls : ℕ → Seen → Seen → Prop
  | 0, g, g' => g = g'
  | n + 1, g, g' => ∃ events, EpollWait g.state events ∧ ProcessCalls n (g.process events) g'

theorem Inv.create {g : Seen} (h : Inv g) {i : Inst} {env : CreateEnv}
    (hfree : ∀ fd, env.tfd = some fd → g.state.fds fd = none)
    (hok : Allowed g (.create i env)) : Inv (g.create i env) := by
  rcases h.create_cases (i := i) hfree with heq | ⟨tfd, hcreate, hnone, heq⟩
  · have hg : g.create i env = g := by
      obtain ⟨s, acts, returned, went⟩ := g
      have heq' : ponTimerInstigationCreate s i env = (-1, s) := heq
      simp [Seen.create, heq']
    rw [hg]
    exact h
  · obtain ⟨hf, hfd, hep⟩ := hok hcreate
    have hmin := hcreate.min
    have hstate : (g.create i env).state = createdState g.state i tfd := by
      simp only [Seen.create, heq]
    have hself : (g.create i env).acts i =
        ⟨g.state.now + (g.state.inst i).expirationMs * 1000000, false, 0, 0, 0⟩ ::
          g.acts i := by
      simp only [Seen.create, heq, if_true, Function.update_self]
    have hother : ∀ j, j ≠ i → (g.create i env).acts j = g.acts j := by
      intro j hj
      simp only [Seen.create, heq, if_true, Function.update_of_ne hj]
    have hrun : Running (createdState g.state i tfd) i tfd := by
      simp [Running, createdState_inst_self, hf]
    have hnot : ∀ fd, ¬ Running g.state i fd := fun fd hr => by simp [Running, hfd] at hr
    have hrest : ∀ j fd, j ≠ i →
        (Running (createdState g.state i tfd) j fd ↔ Running g.state j fd) := by
      intro j fd hj
      rw [Running, Running, createdState_inst_of_ne hj]
    have hfresh : ∀ fd, g.state.fds fd ≠ none → fd ≠ tfd := by
      rintro fd hopen rfl
      exact hopen hnone
    refine ⟨?_, ?_, ?_, ?_, ?_, ?_, ?_, ?_⟩
    · intro j fd hj
      rw [hstate] at hj ⊢
      rw [createdState_interest hep]
      by_cases hji : j = i
      · subst hji
        obtain rfl : tfd = fd := by simpa [createdState_inst_self] using hj.1
        refine ⟨List.mem_cons_self .., _, _, hself, rfl, rfl, createdState_fds_self hmin⟩
      · have hj' := (hrest j fd hji).mp hj
        obtain ⟨hreg, a, rest, hacts, hnc, hf0, hafd⟩ := h.running j fd hj'
        refine ⟨List.mem_cons_of_mem _ hreg, a, rest, (hother j hji).trans hacts, hnc, hf0, ?_⟩
        rw [createdState_fds_of_ne (hfresh fd (by simp [hafd])), hafd]
    · intro j hj b hb
      rw [hstate] at hj
      by_cases hji : j = i
      · subst hji
        exact absurd hrun (hj tfd)
      · rw [hother j hji] at hb
        exact h.idle j (fun fd hr => hj fd ((hrest j fd hji).mpr hr)) b hb
    · intro j b hb
      by_cases hji : j = i
      · subst hji
        rw [hself] at hb
        exact h.idle j hnot b hb
      · rw [hother j hji] at hb
        exact h.older j b hb
    · intro j b hb
      by_cases hji : j = i
      · subst hji
        rw [hself] at hb
        rcases List.mem_cons.mp hb with rfl | hb
        · exact ⟨Nat.zero_le _, rfl, rfl⟩
        · exact h.sane j b hb
      · rw [hother j hji] at hb
        exact h.sane j b hb
    · intro fd j hj
      rw [hstate] at hj ⊢
      rw [createdState_interest hep] at hj
      rcases List.mem_cons.mp hj with heq' | hj
      · obtain ⟨rfl, rfl⟩ : fd = tfd ∧ j = i := by simpa using heq'
        exact ⟨_, createdState_fds_self hmin, fun _ => hrun⟩
      · obtain ⟨t, ht, hr⟩ := h.registered fd j hj
        refine ⟨t, ?_, fun hc => (hrest j fd ?_).mpr (hr hc)⟩
        · rw [createdState_fds_of_ne (hfresh fd (by simp [ht])), ht]
        · rintro rfl
          exact hnot fd (hr hc)
    · rw [hstate, createdState_interest hep, List.map_cons, List.nodup_cons]
      refine ⟨fun hm => ?_, h.nodup⟩
      obtain ⟨⟨fd, j⟩, hj, rfl⟩ := List.mem_map.mp hm
      obtain ⟨t, ht, -⟩ := h.registered fd j hj
      exact hfresh fd (by simp [ht]) rfl
    · intro j fd hj
      rw [hstate] at hj ⊢
      by_cases hji : j = i
      · subst hji
        obtain rfl : tfd = fd := by simpa [createdState_inst_self] using hj
        rw [createdState_fds_self hmin]
        exact Option.some_ne_none _
      · rw [createdState_inst_of_ne hji] at hj
        have hopen := h.held j fd hj
        rwa [createdState_fds_of_ne (hfresh fd hopen)]
    · intro j k fd hj hk
      rw [hstate] at hj hk
      by_cases hji : j = i <;> by_cases hki : k = i
      · rw [hji, hki]
      · subst hji
        rw [createdState_inst_of_ne hki] at hk
        obtain rfl : tfd = fd := by simpa [createdState_inst_self] using hj
        exact absurd hnone (h.held k tfd hk)
      · subst hki
        rw [createdState_inst_of_ne hji] at hj
        obtain rfl : tfd = fd := by simpa [createdState_inst_self] using hk
        exact absurd hnone (h.held j tfd hj)
      · rw [createdState_inst_of_ne hji] at hj
        rw [createdState_inst_of_ne hki] at hk
        exact h.holder j k fd hj hk

/-! ## `pon_timer_instigation_cancel` and the rest -/

/-- Cancelling the newest activation leaves the counts alone. -/
theorem mem_onNewest_cancel {l : List Activation} {a : Activation}
    (h : a ∈ onNewest Activation.cancel l) :
    (a ∈ l.tail ∨ a.cancelled = true) ∧
      ∃ b ∈ l, a.fires = b.fires ∧ a.early = b.early ∧ a.late = b.late ∧ (b.Over → a.Over) := by
  cases l with
  | nil => cases h
  | cons b l =>
    rcases List.mem_cons.mp h with rfl | hl
    · refine ⟨.inr rfl, b, List.mem_cons_self .., rfl, rfl, rfl, fun _ => .inl rfl⟩
    · exact ⟨.inl hl, a, List.mem_cons_of_mem _ hl, rfl, rfl, rfl, id⟩

theorem tail_onNewest (f : Activation → Activation) (l : List Activation) :
    (onNewest f l).tail = l.tail := by
  cases l <;> rfl

theorem Inv.cancel {g : Seen} (h : Inv g) (i : Inst) : Inv (g.cancel i) := by
  have hself : (g.cancel i).acts i = onNewest Activation.cancel (g.acts i) := by
    simp only [Seen.cancel, Function.update_self]
  have hother : ∀ j, j ≠ i → (g.cancel i).acts j = g.acts j := by
    intro j hj
    simp only [Seen.cancel, Function.update_of_ne hj]
  have hinst : ∀ j, j ≠ i → (g.cancel i).state.inst j = g.state.inst j := by
    intro j hj
    simp only [Seen.cancel, ponTimerInstigationCancel]
    split
    · rfl
    · rw [modify_inst_of_ne _ _ _ _ hj]
      rfl
  have hnone : ((g.cancel i).state.inst i).timerFd = none := by
    simp only [Seen.cancel, ponTimerInstigationCancel]
    split
    · next hfd => exact hfd
    · simp
  have hnot : ∀ fd, ¬ Running (g.cancel i).state i fd := by
    rintro fd ⟨hfd, -⟩
    rw [hnone] at hfd
    cases hfd
  have hrun : ∀ j fd, j ≠ i → (Running (g.cancel i).state j fd ↔ Running g.state j fd) := by
    intro j fd hj
    rw [Running, Running, hinst j hj]
  -- only the object's own descriptor is closed
  have hfds : ∀ fd, (g.state.inst i).timerFd ≠ some fd →
      (g.cancel i).state.fds fd = g.state.fds fd := by
    intro fd hfd
    simp only [Seen.cancel, ponTimerInstigationCancel]
    split
    · rfl
    · next fd' hfd' =>
      have hne : fd ≠ fd' := by
        rintro rfl
        exact hfd hfd'
      simp [close, epollDel, Function.update_of_ne hne]
  have hreg : ∀ fd j, (fd, j) ∈ (g.cancel i).state.interest ↔
      (fd, j) ∈ g.state.interest ∧ (g.state.inst i).timerFd ≠ some fd := by
    intro fd j
    simp only [Seen.cancel, ponTimerInstigationCancel]
    split
    · next hfd => simp [hfd]
    · next fd' hfd' =>
      rw [hfd']
      cases hep : g.state.epoll with
      | none => simp [interest, close, epollDel, State.modify, hep]
      | some l =>
        simp only [interest, close, epollDel, State.modify, hep, Option.map_some,
          Option.getD_some, List.mem_filter, decide_eq_true_eq, Option.some.injEq, ne_eq]
        tauto
  have hsub : (g.cancel i).state.interest.Sublist g.state.interest := by
    simp only [Seen.cancel, ponTimerInstigationCancel]
    split
    · exact List.Sublist.refl _
    · cases hep : g.state.epoll with
      | none => simp [interest, close, epollDel, State.modify, hep]
      | some l =>
        simp only [interest, close, epollDel, State.modify, hep, Option.map_some,
          Option.getD_some]
        exact List.filter_sublist.trans List.filter_sublist
  -- an object other than `i` does not hold the descriptor of `i`
  have hkeep : ∀ j fd, j ≠ i → (g.state.inst j).timerFd = some fd →
      (g.state.inst i).timerFd ≠ some fd := fun j fd hj hfd hfd' => hj (h.holder j i fd hfd hfd')
  refine ⟨?_, ?_, ?_, ?_, ?_, h.nodup.sublist (hsub.map _), ?_, ?_⟩
  · intro j fd hj
    by_cases hji : j = i
    · subst hji
      exact absurd hj (hnot fd)
    · have hj' := (hrun j fd hji).mp hj
      obtain ⟨hmem, a, rest, hacts, hnc, hf0, hafd⟩ := h.running j fd hj'
      have hne := hkeep j fd hji hj'.1
      refine ⟨(hreg fd j).mpr ⟨hmem, hne⟩, a, rest, (hother j hji).trans hacts, hnc, hf0, ?_⟩
      rw [hfds fd hne, hafd]
  · intro j hj b hb
    by_cases hji : j = i
    · subst hji
      rw [hself] at hb
      rcases (mem_onNewest_cancel hb).1 with ht | hc
      · exact h.older j b ht
      · exact .inl hc
    · rw [hother j hji] at hb
      exact h.idle j (fun fd hr => hj fd ((hrun j fd hji).mpr hr)) b hb
  · intro j b hb
    by_cases hji : j = i
    · subst hji
      rw [hself, tail_onNewest] at hb
      exact h.older j b hb
    · rw [hother j hji] at hb
      exact h.older j b hb
  · intro j b hb
    by_cases hji : j = i
    · subst hji
      rw [hself] at hb
      obtain ⟨-, c, hc, hf, he, hl, -⟩ := mem_onNewest_cancel hb
      rw [hf, he, hl]
      exact h.sane j c hc
    · rw [hother j hji] at hb
      exact h.sane j b hb
  · intro fd j hj
    obtain ⟨hmem, hne⟩ := (hreg fd j).mp hj
    obtain ⟨t, ht, hr⟩ := h.registered fd j hmem
    refine ⟨t, (hfds fd hne).trans ht, fun hc => (hrun j fd ?_).mpr (hr hc)⟩
    rintro rfl
    exact hne (hr hc).1
  · intro j fd hj
    by_cases hji : j = i
    · subst hji
      rw [hnone] at hj
      cases hj
    · rw [hinst j hji] at hj
      rw [hfds fd (hkeep j fd hji hj)]
      exact h.held j fd hj
  · intro j k fd hj hk
    by_cases hji : j = i
    · subst hji
      rw [hnone] at hj
      cases hj
    · by_cases hki : k = i
      · subst hki
        rw [hnone] at hk
        cases hk
      · rw [hinst j hji] at hj
        rw [hinst k hki] at hk
        exact h.holder j k fd hj hk

theorem Inv.init {g : Seen} (h : Inv g) {i : Inst} {timeoutMs : ℕ}
    (hok : Allowed g (.init i timeoutMs)) :
    Inv { g with state := ertsInitTimerInstigation g.state i timeoutMs } := by
  have hnot : ∀ fd, ¬ Running g.state i fd := by
    rintro fd ⟨hfd, hf⟩
    rcases hok with h' | h' <;> simp [h'] at hfd hf
  have hself : (ertsInitTimerInstigation g.state i timeoutMs).inst i =
      ⟨false, none, timeoutMs⟩ := modify_inst_self ..
  have hinst : ∀ j, j ≠ i →
      (ertsInitTimerInstigation g.state i timeoutMs).inst j = g.state.inst j :=
    fun j hj => modify_inst_of_ne _ _ _ _ hj
  have hrun : ∀ j fd, Running (ertsInitTimerInstigation g.state i timeoutMs) j fd ↔
      Running g.state j fd := by
    intro j fd
    by_cases hji : j = i
    · subst hji
      refine iff_of_false (fun hr => ?_) (hnot fd)
      rw [Running, hself] at hr
      cases hr.1
    · rw [Running, Running, hinst j hji]
  have hfd : ∀ j fd, ((ertsInitTimerInstigation g.state i timeoutMs).inst j).timerFd = some fd →
      (g.state.inst j).timerFd = some fd := by
    intro j fd hj
    by_cases hji : j = i
    · subst hji
      rw [hself] at hj
      cases hj
    · rwa [hinst j hji] at hj
  refine ⟨fun j fd hj => h.running j fd ((hrun j fd).mp hj),
    fun j hj => h.idle j fun fd hr => hj fd ((hrun j fd).mpr hr), h.older, h.sane, ?_, h.nodup,
    fun j fd hj => h.held j fd (hfd j fd hj),
    fun j k fd hj hk => h.holder j k fd (hfd j fd hj) (hfd k fd hk)⟩
  intro fd j hj
  obtain ⟨t, ht, hr⟩ := h.registered fd j hj
  exact ⟨t, ht, fun hc => (hrun j fd).mpr (hr hc)⟩

/-! ## Runs -/

/-- Every allowed step keeps the invariant, and returned values and fires together. -/
theorem next_keeps {g : Seen} {l : Label} (hpos : Possible g.state l) (hok : Allowed g l)
    (h : Inv g) (hsum : g.returned = g.went) :
    Inv (next g l) ∧ (next g l).returned = (next g l).went := by
  cases l with
  | tick ns =>
    exact ⟨⟨h.running, h.idle, h.older, h.sane, h.registered, h.nodup, h.held, h.holder⟩, hsum⟩
  | init i timeoutMs => exact ⟨h.init hok, hsum⟩
  | create i env => exact ⟨h.create hpos hok, hsum⟩
  | cancel i => exact ⟨h.cancel i, hsum⟩
  | fire i => exact ⟨h.fire i, hsum⟩
  | process events =>
    have hret := h.process_returns hpos
    exact ⟨h.process hpos, by rw [hsum] at hret; exact sub_left_inj.mp hret⟩

theorem inv_of_reach {g : Seen} (h : (timers.restrict Allowed).Reach g) :
    Inv g ∧ g.returned = g.went := by
  refine System.Reach.invariant (I := fun g => Inv g ∧ g.returned = g.went) ?_ ?_ h
  · rintro g ⟨hinst, hfds, hint, hacts, hret, hwent⟩
    refine ⟨⟨?_, ?_, ?_, ?_, ?_, ?_, ?_, ?_⟩, by simp [hret, hwent]⟩
    · rintro i fd ⟨hfd, -⟩
      rw [(hinst i).2] at hfd
      cases hfd
    all_goals intros
    all_goals simp_all
  · rintro g l g' ⟨hinv, hsum⟩ ⟨hok, hpos, rfl⟩
    exact next_keeps hpos hok hinv hsum

/-- Calls in a row keep the invariant and handle `PON_TIMER_MAX_EVENTS` events each. -/
theorem Inv.processCalls {n : ℕ} {g g' : Seen} (h : Inv g) (hcalls : ProcessCalls n g g') :
    Inv g' ∧ g'.state.ready.length ≤ g.state.ready.length - ponTimerMaxEvents * n := by
  induction n generalizing g with
  | zero =>
    obtain rfl : g = g' := hcalls
    exact ⟨h, by simp⟩
  | succ n ih =>
    obtain ⟨events, hev, hrest⟩ := hcalls
    obtain ⟨hinv, hle⟩ := ih (h.process hev) hrest
    refine ⟨hinv, hle.trans ?_⟩
    have hlen := hev.2
    have hready := h.ready_process hev
    rw [ponTimerMaxEvents] at *
    omega

/-- With nothing ready, everything due was fired. -/
theorem Inv.allFired {g : Seen} (h : Inv g) (hready : g.state.ready = []) : AllFired g := by
  intro i a ha hnc hdue
  by_cases hidle : ∀ fd, ¬ Running g.state i fd
  · exact (h.idle i hidle a ha).resolve_left (by simp [hnc])
  · simp only [not_forall, not_not] at hidle
    obtain ⟨fd, hrun⟩ := hidle
    obtain ⟨-, b, rest, hacts, -, -, -⟩ := h.running i fd hrun
    rw [hacts] at ha
    rcases List.mem_cons.mp ha with rfl | ha
    · have hmem := h.mem_ready_iff.mpr ⟨hrun, a, rest, hacts, hdue⟩
      rw [hready] at hmem
      cases hmem
    · exact (h.older i a (by rw [hacts]; exact ha)).resolve_left (by simp [hnc])

/-- **Exactly one fire per activation.** When timers are created on freshly initialised objects,
no activation is fired twice, early or after a cancel, the values returned by
`pon_timer_process_expirations` add up to the fires in these calls, and as many calls as the
ready descriptors need leave every activation fired whose time has come. -/
theorem fired_exactly_once {g : Seen} (h : (timers.restrict Allowed).Reach g) :
    Lawful g ∧ ∀ n g', ProcessCalls n g g' →
      g.state.ready.length ≤ ponTimerMaxEvents * n → AllFired g' := by
  obtain ⟨hinv, hsum⟩ := inv_of_reach h
  refine ⟨⟨hinv.sane, hsum⟩, fun n g' hcalls hn => ?_⟩
  obtain ⟨hinv', hle⟩ := hinv.processCalls hcalls
  exact hinv'.allFired (List.length_eq_zero_iff.mp (by omega))

/-! ## An object created again

One object, initialised once with a timeout of 1 ms, whose timer is created, expires, is fired,
and is created again. -/

namespace Again

/-- After `pon_timer_init`. -/
def start : Seen :=
  ⟨⟨0, fun _ => none, some [], fun _ => ⟨false, none, 1⟩⟩, fun _ => [], 0, 0⟩

/-- The timer was created, and its time has come. -/
noncomputable def first : Seen := next (next start (.create 0 ⟨some 3, true, true⟩)) (.tick 1000000)

/-- It was fired. -/
noncomputable def fired : Seen := next first (.process [(3, 0)])

/-- It was created again, and its time has come again. -/
noncomputable def second : Seen :=
  next (next fired (.create 0 ⟨some 4, true, true⟩)) (.tick 1000000)

theorem first_ready : first.state.ready = [(3, 0)] := rfl

theorem second_ready : second.state.ready = [(4, 0)] := rfl

theorem epollWait_of_ready {s : State} {e : Fd × Inst} (h : s.ready = [e]) : EpollWait s [e] :=
  ⟨h ▸ List.Subperm.refl _, by rw [h]; rfl⟩

theorem start_initial : Initial start :=
  ⟨fun _ => ⟨rfl, rfl⟩, fun _ => rfl, rfl, fun _ => rfl, rfl, rfl⟩

end Again

/-- The first timer is fired by one call. -/
theorem fired_exactly_once_first :
    (timers.restrict Allowed).Reach Again.first ∧ AllFired Again.fired := by
  have hreach : (timers.restrict Allowed).Reach Again.first := by
    refine .next (a := .tick 1000000) (.next (a := .create 0 ⟨some 3, true, true⟩)
      (.start Again.start_initial) ⟨fun _ => ⟨rfl, rfl, rfl⟩, fun _ _ => rfl, rfl⟩)
      ⟨trivial, trivial, rfl⟩
  refine ⟨hreach, (fired_exactly_once hreach).2 1 Again.fired ?_ ?_⟩
  · exact ⟨[(3, 0)], Again.epollWait_of_ready Again.first_ready, rfl⟩
  · rw [Again.first_ready]
    decide

/-- Created again without a new initialisation, the object is reported and counted, but its
second activation is never fired. -/
theorem created_again_never_fired :
    timers.Reach Again.second ∧
      ProcessCalls 1 Again.second (next Again.second (.process [(4, 0)])) ∧
      Again.second.state.ready.length ≤ ponTimerMaxEvents * 1 ∧
      ¬ AllFired (next Again.second (.process [(4, 0)])) ∧
      ¬ Lawful (next Again.second (.process [(4, 0)])) := by
  have hev₁ := Again.epollWait_of_ready Again.first_ready
  have hev₂ := Again.epollWait_of_ready Again.second_ready
  have hfired : timers.Reach Again.fired := by
    refine .next (a := .process [(3, 0)]) (.next (a := .tick 1000000)
      (.next (a := .create 0 ⟨some 3, true, true⟩) (.start Again.start_initial)
        ⟨fun _ _ => rfl, rfl⟩) ⟨trivial, rfl⟩) ⟨hev₁, rfl⟩
  have hreach : timers.Reach Again.second := by
    refine .next (a := .tick 1000000) (.next (a := .create 0 ⟨some 4, true, true⟩) hfired
      ⟨fun fd hfd => ?_, rfl⟩) ⟨trivial, rfl⟩
    obtain rfl : 4 = fd := Option.some.inj hfd
    rfl
  refine ⟨hreach, ⟨[(4, 0)], hev₂, rfl⟩, by rw [Again.second_ready]; decide, fun hall => ?_,
    fun hlaw => ?_⟩
  · have hacts : (next Again.second (.process [(4, 0)])).acts 0 =
        [⟨2000000, false, 0, 0, 0⟩, ⟨1000000, false, 1, 0, 0⟩] := rfl
    have hbad := hall 0 ⟨2000000, false, 0, 0, 0⟩ (hacts ▸ List.mem_cons_self ..) rfl le_rfl
    cases hbad
  · -- both calls returned 1, but only in the first one did the object become fired
    have hret : (next Again.second (.process [(4, 0)])).returned = 2 := rfl
    have hnone : {i | Went Again.second.state (next Again.second (.process [(4, 0)])).state i} =
        ∅ := by
      refine Set.eq_empty_of_forall_notMem fun i hi => ?_
      exact Bool.false_ne_true (hi.1.symm.trans hi.2)
    have hone : {i | Went Again.first.state Again.fired.state i} ⊆ {0} := by
      intro i hi
      by_contra hne
      have hinst : Again.fired.state.inst i = Again.first.state.inst i :=
        fire_inst_of_ne (s := Again.first.state) (i := 0) hne
      exact Bool.false_ne_true (hi.1.symm.trans (hinst ▸ hi.2))
    have hwent : (next Again.second (.process [(4, 0)])).went ≤ 1 := by
      have hle := Set.ncard_le_ncard hone
      rw [Set.ncard_singleton] at hle
      have heq : (next Again.second (.process [(4, 0)])).went =
          0 + Set.ncard {i | Went Again.first.state Again.fired.state i} +
            Set.ncard {i | Went Again.second.state
              (next Again.second (.process [(4, 0)])).state i} := rfl
      rw [heq, hnone, Set.ncard_empty]
      omega
    have hsum := hlaw.2
    rw [hret] at hsum
    omega

end PonBeam.Timerfd
