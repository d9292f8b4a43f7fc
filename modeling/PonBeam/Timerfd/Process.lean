import PonBeam.Timerfd.LifeCycle

/-!
# A call of `pon_timer_process_expirations`

The call fires one object after the other, and every object it was told about is still ready
when its turn comes. So its result is the number of fires, and what it reported is no longer
ready.
-/

namespace PonBeam.Timerfd

open State

/-- `pon_timer_instigation_fire` on one object after the other. -/
def fireList (s : State) : List Inst → State
  | [] => s
  | i :: l => fireList (ponTimerInstigationFire s i) l

theorem processLoop_eq (events : List (Fd × Inst)) (p : ℤ) (s : State) :
    processLoop events (p, s) = (p + events.length, fireList s (events.map Prod.snd)) := by
  induction events generalizing p s with
  | nil => simp [processLoop, fireList]
  | cons e events ih =>
    rw [processLoop, ih, List.map_cons, fireList, List.length_cons]
    push_cast
    rw [add_assoc, add_comm 1]

section FireList

variable {s : State} {i j : Inst} {fd : Fd} {l : List Inst}

theorem fire_inst_of_ne (h : j ≠ i) : (ponTimerInstigationFire s i).inst j = s.inst j := by
  rcases fire_cases s i with ⟨fd, -, -, heq⟩ | ⟨-, heq⟩
  · rw [heq, firedState_inst_of_ne h]
  · rw [heq]

theorem fire_now : (ponTimerInstigationFire s i).now = s.now := by
  rcases fire_cases s i with ⟨fd, -, -, heq⟩ | ⟨-, heq⟩
  · rw [heq]
    rfl
  · rw [heq]

theorem fire_interest : (ponTimerInstigationFire s i).interest = s.interest := by
  rcases fire_cases s i with ⟨fd, -, -, heq⟩ | ⟨-, heq⟩
  · rw [heq]
    rfl
  · rw [heq]

theorem fire_fired (h : (s.inst j).fired = true) :
    ((ponTimerInstigationFire s i).inst j).fired = true := by
  by_cases hj : j = i
  · subst hj
    simp [ponTimerInstigationFire, h]
  · rw [fire_inst_of_ne hj, h]

theorem fireList_inst_of_notMem (h : j ∉ l) : (fireList s l).inst j = s.inst j := by
  induction l generalizing s with
  | nil => rfl
  | cons i l ih =>
    rw [List.mem_cons, not_or] at h
    rw [fireList, ih h.2, fire_inst_of_ne h.1]

theorem fireList_interest : (fireList s l).interest = s.interest := by
  induction l generalizing s with
  | nil => rfl
  | cons i l ih => rw [fireList, ih, fire_interest]

theorem fireList_fired (h : (s.inst j).fired = true) :
    ((fireList s l).inst j).fired = true := by
  induction l generalizing s with
  | nil => exact h
  | cons i l ih => exact ih (fire_fired h)

/-- What is readable afterwards was readable before. -/
theorem readable_of_fire (h : (ponTimerInstigationFire s i).readable fd = true) :
    s.readable fd = true := by
  rcases fire_cases s i with ⟨fd', -, hread, heq⟩ | ⟨-, heq⟩
  · by_cases hfd : fd = fd'
    · rwa [hfd]
    · obtain ⟨d, hd, hle⟩ := readable_iff.mp h
      rw [heq, firedState_fds_of_ne hfd] at hd
      rw [fire_now] at hle
      exact readable_iff.mpr ⟨d, hd, hle⟩
  · rwa [heq] at h

theorem readable_of_fireList (h : (fireList s l).readable fd = true) : s.readable fd = true := by
  induction l generalizing s with
  | nil => exact h
  | cons i l ih => exact readable_of_fire (ih h)

end FireList

/-- Fires seen one after the other are the fires seen together. -/
theorem creditFires_trans (s s₁ s₂ : State) (acts : Inst → List Activation)
    (hnow : s₁.now = s.now)
    (h₁ : ∀ i, (s.inst i).fired = true → (s₁.inst i).fired = true)
    (h₂ : ∀ i, (s₁.inst i).fired = true → (s₂.inst i).fired = true) :
    creditFires s₁ s₂ (creditFires s s₁ acts) = creditFires s s₂ acts := by
  funext i
  simp only [creditFires, hnow]
  by_cases hw₁ : Went s s₁ i
  · have hw : Went s s₂ i := ⟨hw₁.1, h₂ i hw₁.2⟩
    have hw₂ : ¬ Went s₁ s₂ i := fun hw₂ => Bool.false_ne_true (hw₂.1.symm.trans hw₁.2)
    rw [if_pos hw₁, if_neg hw₂, if_pos hw]
  · rw [if_neg hw₁]
    have hiff : Went s₁ s₂ i ↔ Went s s₂ i := by
      constructor
      · rintro ⟨hno, hyes⟩
        refine ⟨Bool.eq_false_iff.mpr fun hs => ?_, hyes⟩
        exact Bool.false_ne_true (hno.symm.trans (h₁ i hs))
      · rintro ⟨hno, hyes⟩
        exact ⟨Bool.eq_false_iff.mpr fun hs => hw₁ ⟨hno, hs⟩, hyes⟩
    simp only [hiff]

/-- Firing a list of objects keeps the invariant. -/
theorem Inv.fireList {g : Seen} (h : Inv g) (l : List Inst) (r : ℤ) (w : ℕ) :
    Inv ⟨fireList g.state l, creditFires g.state (fireList g.state l) g.acts, r, w⟩ := by
  induction l generalizing g with
  | nil =>
    simp only [Timerfd.fireList, creditFires_self]
    exact ⟨h.running, h.idle, h.older, h.sane, h.registered, h.nodup, h.held, h.holder⟩
  | cons i l ih =>
    have hrest := ih (h.fire i)
    have hcredit := creditFires_trans g.state (g.fire i).state
      (Timerfd.fireList (g.fire i).state l) g.acts fire_now
      (fun j => fire_fired) fun j => fireList_fired
    rw [Seen.fire] at hrest hcredit
    rw [hcredit] at hrest
    exact hrest

/-- Every ready object is fired, however the events are ordered. -/
theorem Inv.fireList_fires {g : Seen} (h : Inv g) {l : List (Fd × Inst)}
    (hl : ∀ e ∈ l, (g.state.inst e.2).fired = true ∨
      (g.state.inst e.2).timerFd = some e.1 ∧ g.state.readable e.1 = true) :
    ∀ e ∈ l, ((Timerfd.fireList g.state (l.map Prod.snd)).inst e.2).fired = true := by
  induction l generalizing g with
  | nil => exact fun e he => nomatch he
  | cons d l ih =>
    obtain ⟨fd, i⟩ := d
    -- one object is fired; the ready ones among the others stay ready
    have hhead : ((ponTimerInstigationFire g.state i).inst i).fired = true := by
      rcases hl (fd, i) (List.mem_cons_self ..) with hf | ⟨hfd, hr⟩
      · exact fire_fired hf
      · rcases fire_cases g.state i with ⟨fd', -, -, heq⟩ | ⟨hno, -⟩
        · rw [heq, firedState_fired]
        · cases hf : (g.state.inst i).fired with
          | true => exact fire_fired hf
          | false =>
            rw [hno fd ⟨hfd, hf⟩] at hr
            cases hr
    have htail : ∀ e ∈ l, ((g.fire i).state.inst e.2).fired = true ∨
        ((g.fire i).state.inst e.2).timerFd = some e.1 ∧
          (g.fire i).state.readable e.1 = true := by
      rintro ⟨fd', j⟩ he
      by_cases hj : j = i
      · subst hj
        exact .inl hhead
      · rcases hl (fd', j) (List.mem_cons_of_mem _ he) with hf | ⟨hfd, hr⟩
        · exact .inl (fire_fired hf)
        · refine .inr ⟨(fire_inst_of_ne (s := g.state) hj).symm ▸ hfd, ?_⟩
          rcases fire_cases g.state i with ⟨fd₀, hrun, -, heq⟩ | ⟨-, heq⟩
          · have hne : fd' ≠ fd₀ := fun e => hj (h.holder j i fd₀ (e ▸ hfd) hrun.1)
            obtain ⟨d, hd, hle⟩ := readable_iff.mp hr
            refine readable_iff.mpr ⟨d, ?_, ?_⟩
            · rw [Seen.fire, heq, firedState_fds_of_ne hne, hd]
            · rw [Seen.fire, fire_now]
              exact hle
          · rw [Seen.fire, heq]
            exact hr
    rintro e he
    rcases List.mem_cons.mp he with rfl | he
    · rw [List.map_cons, Timerfd.fireList]
      exact fireList_fired hhead
    · exact ih (h.fire i) htail e he

section Process

variable {g : Seen} {events : List (Fd × Inst)}

/-- Without an epoll descriptor nothing is reported, and the call does nothing. -/
theorem process_eq (hev : EpollWait g.state events) :
    ponTimerProcessExpirations g.state events =
      ((events.length : ℤ), Timerfd.fireList g.state (events.map Prod.snd)) := by
  rw [ponTimerProcessExpirations]
  split
  · next hnone =>
    have hready : g.state.ready = [] := by simp [ready, interest, hnone]
    obtain rfl : events = [] := by
      have := hev.2
      rw [hready, List.length_nil, Nat.min_zero] at this
      exact List.length_eq_zero_iff.mp this
    rfl
  · rw [processLoop_eq, zero_add]

/-- The objects fired by the call are those reported. -/
theorem Inv.went_process_iff (h : Inv g) (hev : EpollWait g.state events) (i : Inst) :
    Went g.state (Timerfd.fireList g.state (events.map Prod.snd)) i ↔
      i ∈ events.map Prod.snd := by
  have hready : ∀ e ∈ events, e ∈ g.state.ready := fun e he => hev.1.subset he
  constructor
  · rintro ⟨hno, hyes⟩
    by_contra hout
    rw [fireList_inst_of_notMem hout, hno] at hyes
    cases hyes
  · intro hi
    obtain ⟨⟨fd, j⟩, he, rfl⟩ := List.mem_map.mp hi
    refine ⟨(h.mem_ready_iff.mp (hready _ he)).1.2, ?_⟩
    refine h.fireList_fires (fun e he => .inr ?_) (fd, j) he
    exact ⟨(h.mem_ready_iff.mp (hready e he)).1.1, (mem_ready.mp (hready e he)).2⟩

theorem Inv.events_nodup (h : Inv g) (hev : EpollWait g.state events) : events.Nodup := by
  obtain ⟨l, hperm, hsub⟩ := hev.1
  exact hperm.nodup_iff.mp (h.ready_nodup.sublist hsub)

theorem Inv.objects_nodup (h : Inv g) (hev : EpollWait g.state events) :
    (events.map Prod.snd).Nodup := by
  obtain ⟨l, hperm, hsub⟩ := hev.1
  exact (hperm.map _).nodup_iff.mp (h.ready_objects_nodup.sublist (hsub.map _))

/-- `pon_timer_process_expirations` returns the number of objects it fired. -/
theorem Inv.process_returns (h : Inv g) (hev : EpollWait g.state events) :
    (g.process events).returned - g.returned =
      (((g.process events).went : ℤ) - g.went) := by
  have hset : {i | Went g.state (Timerfd.fireList g.state (events.map Prod.snd)) i} =
      ((events.map Prod.snd).toFinset : Set Inst) := by
    ext i
    rw [List.coe_toFinset]
    exact h.went_process_iff hev i
  have hcard : Set.ncard {i | Went g.state (Timerfd.fireList g.state (events.map Prod.snd)) i} =
      events.length := by
    rw [hset, Set.ncard_coe_finset, List.toFinset_card_of_nodup (h.objects_nodup hev),
      List.length_map]
  simp only [Seen.process, process_eq hev, hcard]
  push_cast
  rw [add_sub_cancel_left, add_sub_cancel_left]

theorem Inv.process (h : Inv g) (hev : EpollWait g.state events) : Inv (g.process events) := by
  simp only [Seen.process, process_eq hev]
  exact h.fireList _ _ _

/-- The call takes what it reports off what is ready. -/
theorem Inv.ready_process (h : Inv g) (hev : EpollWait g.state events) :
    (g.process events).state.ready.length + events.length ≤ g.state.ready.length := by
  have hstate : (g.process events).state =
      Timerfd.fireList g.state (events.map Prod.snd) := by
    simp only [Seen.process, process_eq hev]
  have hinv := h.process hev
  have hdisj : ∀ e ∈ (g.process events).state.ready, ∀ d ∈ events, e ≠ d := by
    rintro ⟨fd, i⟩ he d hd rfl
    have hrun := (hinv.mem_ready_iff.mp he).1.2
    have hwent := (h.went_process_iff hev i).mpr (List.mem_map.mpr ⟨_, hd, rfl⟩)
    rw [hstate, hwent.2] at hrun
    cases hrun
  have hnodup : ((g.process events).state.ready ++ events).Nodup :=
    List.nodup_append.mpr ⟨hinv.ready_nodup, h.events_nodup hev, hdisj⟩
  have hsub : (g.process events).state.ready ++ events ⊆ g.state.ready := by
    intro e he
    rcases List.mem_append.mp he with he | he
    · obtain ⟨hreg, hread⟩ := mem_ready.mp he
      rw [hstate, fireList_interest] at hreg
      rw [hstate] at hread
      exact mem_ready.mpr ⟨hreg, readable_of_fireList hread⟩
    · exact hev.1.subset he
  rw [← List.length_append]
  exact (List.subperm_of_subset hnodup hsub).length_le

end Process

end PonBeam.Timerfd
