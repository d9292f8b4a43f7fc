import PonBeam.Condition.Model

/-!
# Wake-ups

A scheduler asleep in `epoll_wait` with work in `ready_list` needs somebody to write the
eventfd. `WakeInv` says who will: while `satisfied` is 1 there is a wake-up pending in
the counter or on its way, and a scheduler past its look at the empty list finds, for
every push it missed, the counter or a notifier that has not returned.

The invariant is lost at one place: after a take, `wait` drains the eventfd without
looking at `satisfied` again. A notifier that had read `satisfied = 0` before the take
may by then have set the flag and written the counter; the drain removes the wake-up
and leaves the flag, and the next notifier trusts the flag. `KeepsWakeUp` is the
condition that this does not happen.
-/

namespace PonBeam.Condition

open Cond

/-- The lost wake-up: asleep with work queued, nobody left to wake the scheduler. -/
def LostWakeUp (s : Cond) : Prop :=
  s.sched = .waitEpoll ∧ s.counter = 0 ∧ s.readyList ≠ none ∧ ∀ t, s.notifier t = .idle

/-- The scheduler has found the list empty and is on its way to sleep. -/
def SchedPc.Falling : SchedPc → Prop
  | .waitReadSat | .waitReadFd | .waitResetBlock | .waitEpoll => True
  | _ => False

/-- The scheduler is about to write `satisfied = 0`, and will look at the list again. -/
def SchedPc.Resetting : SchedPc → Prop
  | .waitReset _ | .waitResetContinue | .tryReset => True
  | _ => False

theorem SchedPc.Falling.not_resetting {pc : SchedPc} (h : pc.Falling) : ¬ pc.Resetting := by
  cases pc <;> simp_all [SchedPc.Falling, SchedPc.Resetting]

/-- The notifier has pushed and not returned. -/
def NotifyPc.Telling : NotifyPc → Prop
  | .readSat | .writeSat | .writeFd => True
  | _ => False

/-- The wake-up invariant. -/
structure WakeInv (s : Cond) : Prop where
  /-- the flag is backed by a wake-up, pending or on its way, or the list is in sight -/
  flag : s.satisfied = true → 0 < s.counter ∨ (∃ t, s.notifier t = .writeFd) ∨
    s.sched.Resetting ∨ s.readyList ≠ none ∧ ¬ s.sched.Falling
  /-- a push that the scheduler missed is backed by the counter or by its notifier -/
  missed : s.sched.Falling → s.readyList ≠ none →
    0 < s.counter ∨ ∃ t, (s.notifier t).Telling
  /-- `epoll_wait` returns on a counter that is not 0 -/
  woken : s.sched = .waitSetSat → 0 < s.counter

/-- The steps that keep the wake-up: no drain of `wait` reads the eventfd while the list is
empty, the flag is 1 and no notifier is between its store to the flag and its write. -/
def KeepsWakeUp (s : Cond) : Move → Prop
  | .sched => ∀ head, s.sched = .waitDrain head → 0 < s.counter →
      ¬ (s.readyList = none ∧ s.satisfied = true ∧ ∀ t, s.notifier t ≠ .writeFd)
  | _ => True

/-! ## Threads -/

section Threads

variable {s s' : Cond} {t : ℕ} {pc : NotifyPc} {P : NotifyPc → Prop}

theorem goto_self (s : Cond) (t : ℕ) (pc : NotifyPc) : (s.goto t pc).notifier t = pc :=
  Function.update_self ..

theorem goto_of_ne (s : Cond) {t u : ℕ} (pc : NotifyPc) (h : u ≠ t) :
    (s.goto t pc).notifier u = s.notifier u :=
  Function.update_of_ne h ..

theorem exists_goto_of_self (h : P pc) : ∃ u, P ((s.goto t pc).notifier u) :=
  ⟨t, by rw [goto_self]; exact h⟩

/-- A thread that moves on without giving up `P` leaves somebody with `P`. -/
theorem exists_goto (h : ∃ u, P (s.notifier u)) (hpc : P (s.notifier t) → P pc) :
    ∃ u, P ((s.goto t pc).notifier u) := by
  obtain ⟨u, hu⟩ := h
  by_cases hut : u = t
  · subst hut
    exact exists_goto_of_self (hpc hu)
  · exact ⟨u, by rw [goto_of_ne s pc hut]; exact hu⟩

theorem writeFd_pos (s : Cond) : 0 < s.writeFd.counter := by
  unfold Cond.writeFd
  dsimp only
  split <;> omega

end Threads

/-! ## Steps -/

/-- A notifier that stays out of the second half of its call changes nothing here. -/
theorem WakeInv.goto_quiet {s : Cond} (h : WakeInv s) {t : ℕ} {pc : NotifyPc}
    (hpc : ¬ (s.notifier t).Telling) : WakeInv (s.goto t pc) := by
  have hw : s.notifier t ≠ .writeFd := fun he => hpc (by rw [he]; trivial)
  refine ⟨fun hs => ?_, fun hf hl => ?_, h.woken⟩
  · exact (h.flag hs).imp_right fun h' => h'.imp_left fun hex =>
      exists_goto (P := (· = .writeFd)) hex fun he => absurd he hw
  · exact (h.missed hf hl).imp_right fun hex => exists_goto hex fun he => absurd he hpc

theorem WakeInv.notifierStep {s s' : Cond} {t : ℕ} (h : WakeInv s)
    (hstep : notifierStep s t = some s') : WakeInv s' := by
  cases hpc : s.notifier t <;> simp only [Condition.notifierStep, hpc] at hstep
  case idle => cases hstep
  case load p =>
    obtain rfl := Option.some.inj hstep
    exact h.goto_quiet (by rw [hpc]; exact id)
  case store p oldHead =>
    obtain rfl := Option.some.inj hstep
    exact WakeInv.goto_quiet (s := s.storeNext p oldHead) ⟨h.flag, h.missed, h.woken⟩
      (by change ¬ (s.notifier t).Telling; rw [hpc]; exact id)
  case cas p oldHead =>
    split at hstep
    · -- the push: its notifier still has to look at the flag
      obtain rfl := Option.some.inj hstep
      have hw : s.notifier t ≠ .writeFd := by rw [hpc]; simp
      refine ⟨fun hs => ?_, fun _ _ => Or.inr (exists_goto_of_self trivial), h.woken⟩
      rcases h.flag hs with hc | hex | hr | ⟨-, hf⟩
      · exact Or.inl hc
      · exact Or.inr (Or.inl (exists_goto (s := s.push p) (P := (· = .writeFd)) hex
          fun he => absurd he hw))
      · exact Or.inr (Or.inr (Or.inl hr))
      · exact Or.inr (Or.inr (Or.inr ⟨by simp [goto, push], hf⟩))
    · obtain rfl := Option.some.inj hstep
      exact h.goto_quiet (by rw [hpc]; exact id)
  case readSat =>
    obtain rfl := Option.some.inj hstep
    have hw : s.notifier t ≠ .writeFd := by rw [hpc]; simp
    refine ⟨fun hs => ?_, fun hf hl => ?_, h.woken⟩
    · exact (h.flag hs).imp_right fun h' => h'.imp_left fun hex =>
        exists_goto (P := (· = .writeFd)) hex fun he => absurd he hw
    · -- it leaves only if the flag is 1, and then the flag is backed
      cases hsat : s.satisfied with
      | false => exact Or.inr (exists_goto_of_self (by simp [NotifyPc.Telling]))
      | true =>
        rcases h.flag hsat with hc | ⟨u, hu⟩ | hr | ⟨-, hnf⟩
        · exact Or.inl hc
        · have hut : u ≠ t := fun he => hw (he ▸ hu)
          exact Or.inr ⟨u, by rw [goto_of_ne s _ hut, hu]; trivial⟩
        · exact absurd hr hf.not_resetting
        · exact absurd hf hnf
  case writeSat =>
    obtain rfl := Option.some.inj hstep
    refine ⟨fun _ => Or.inr (Or.inl (exists_goto_of_self (P := (· = .writeFd)) rfl)),
      fun _ _ => ?_, h.woken⟩
    exact Or.inr (exists_goto_of_self trivial)
  case writeFd =>
    obtain rfl := Option.some.inj hstep
    exact ⟨fun _ => Or.inl (writeFd_pos s), fun _ _ => Or.inl (writeFd_pos s),
      fun _ => writeFd_pos s⟩

/-- With the flag 0 only a missed push needs a wake-up. -/
theorem WakeInv.of_unset {s : Cond} (hs : s.satisfied = false)
    (hm : s.sched.Falling → s.readyList ≠ none → 0 < s.counter ∨ ∃ t, (s.notifier t).Telling)
    (hw : s.sched = .waitSetSat → 0 < s.counter) : WakeInv s :=
  ⟨fun h => absurd (hs.symm.trans h) Bool.false_ne_true, hm, hw⟩

/-- Falling on, from one point on the way to sleep to another. -/
theorem WakeInv.fall {s : Cond} (h : WakeInv s) {pc : SchedPc} (hf : s.sched.Falling)
    (hpc : pc.Falling) : WakeInv (s.schedGoto pc) := by
  refine ⟨fun hs => ?_, fun _ hl => h.missed hf hl, fun he => ?_⟩
  · rcases h.flag hs with hc | hex | hr | ⟨-, hnf⟩
    · exact Or.inl hc
    · exact Or.inr (Or.inl hex)
    · exact absurd hr hf.not_resetting
    · exact absurd hf hnf
  · change pc = .waitSetSat at he
    rw [he] at hpc
    exact hpc.elim

theorem WakeInv.schedStep {s s' : Cond} (h : WakeInv s) (hok : KeepsWakeUp s .sched)
    (hstep : schedStep s = some s') : WakeInv s' := by
  have hflag := h.flag
  have hmissed := h.missed
  cases hpc : s.sched <;> rw [hpc] at hflag hmissed <;>
    simp only [Condition.schedStep, hpc] at hstep
  case idle => cases hstep
  case waitLoad =>
    split at hstep
    · obtain rfl := Option.some.inj hstep
      rename_i head hhead
      refine ⟨fun hs => ?_, fun hf => hf.elim, fun he => by cases he⟩
      exact Or.inr (Or.inr (Or.inr ⟨by simp [schedGoto, hhead], id⟩))
    · obtain rfl := Option.some.inj hstep
      rename_i hnone
      refine ⟨fun hs => ?_, fun _ hl => absurd hnone hl, fun he => by cases he⟩
      rcases hflag hs with hc | hex | hr | ⟨hl, -⟩
      · exact Or.inl hc
      · exact Or.inr (Or.inl hex)
      · exact hr.elim
      · exact absurd hnone hl
  case waitCas head =>
    split at hstep
    · obtain rfl := Option.some.inj hstep
      exact ⟨fun _ => Or.inr (Or.inr (Or.inl trivial)), fun hf => hf.elim, fun he => by cases he⟩
    · obtain rfl := Option.some.inj hstep
      exact ⟨hflag, fun hf => hf.elim, fun he => by cases he⟩
  case waitReset head =>
    obtain rfl := Option.some.inj hstep
    exact WakeInv.of_unset rfl (fun hf => hf.elim) fun he => by cases he
  case waitDrain head =>
    split at hstep
    · -- the drain: the flag is 0, or the list is in sight, or a write is still to come
      rename_i hc
      obtain rfl := Option.some.inj hstep
      have hkeep := hok head hpc hc
      refine ⟨fun hs => ?_, fun hf => ?_, fun he => ?_⟩
      · by_cases hl : s.readyList = none
        · refine Or.inr (Or.inl ?_)
          by_contra hn
          exact hkeep ⟨hl, hs, fun t ht => hn ⟨t, ht⟩⟩
        · refine Or.inr (Or.inr (Or.inr ⟨hl, ?_⟩))
          change ¬ s.sched.Falling
          rw [hpc]
          exact id
      · change s.sched.Falling at hf
        rw [hpc] at hf
        exact hf.elim
      · change s.sched = .waitSetSat at he
        rw [hpc] at he
        cases he
    · obtain rfl := Option.some.inj hstep
      exact ⟨hflag, fun hf => hf.elim, fun he => by cases he⟩
  case waitReadSat =>
    obtain rfl := Option.some.inj hstep
    refine h.fall (by rw [hpc]; trivial) ?_
    split <;> trivial
  case waitReadFd =>
    split at hstep
    · obtain rfl := Option.some.inj hstep
      exact ⟨fun _ => Or.inr (Or.inr (Or.inl trivial)), fun hf => hf.elim, fun he => by cases he⟩
    · obtain rfl := Option.some.inj hstep
      exact h.fall (by rw [hpc]; trivial) trivial
  case waitResetContinue =>
    obtain rfl := Option.some.inj hstep
    exact WakeInv.of_unset rfl (fun hf => hf.elim) fun he => by cases he
  case waitResetBlock =>
    obtain rfl := Option.some.inj hstep
    exact WakeInv.of_unset rfl (fun _ hl => hmissed trivial hl) fun he => by cases he
  case waitEpoll =>
    split at hstep
    · rename_i hc
      obtain rfl := Option.some.inj hstep
      exact ⟨fun _ => Or.inl hc, fun hf => hf.elim, fun _ => hc⟩
    · cases hstep
  case waitSetSat =>
    obtain rfl := Option.some.inj hstep
    exact ⟨fun _ => Or.inl (h.woken hpc), fun hf => hf.elim, fun he => by cases he⟩
  case tryLoad =>
    split at hstep <;>
    · obtain rfl := Option.some.inj hstep
      exact ⟨hflag, fun hf => hf.elim, fun he => by cases he⟩
  case tryNext head =>
    obtain rfl := Option.some.inj hstep
    exact ⟨hflag, fun hf => hf.elim, fun he => by cases he⟩
  case tryCas head next =>
    split at hstep
    · obtain rfl := Option.some.inj hstep
      cases next with
      | none =>
        exact ⟨fun _ => Or.inr (Or.inr (Or.inl trivial)), fun hf => hf.elim, fun he => by cases he⟩
      | some q =>
        refine ⟨fun _ => Or.inr (Or.inr (Or.inr ⟨?_, id⟩)), fun hf => hf.elim,
          fun he => by cases he⟩
        simp [schedGoto, takeHead, finish]
    · obtain rfl := Option.some.inj hstep
      exact ⟨hflag, fun hf => hf.elim, fun he => by cases he⟩
  case tryReset =>
    obtain rfl := Option.some.inj hstep
    exact WakeInv.of_unset rfl (fun hf => hf.elim) fun he => by cases he

/-- The scheduler starts a call. -/
theorem WakeInv.call {s s' : Cond} (h : WakeInv s) {pc : SchedPc}
    (hstep : (if s.sched = .idle then some (s.schedGoto pc) else none) = some s')
    (hf : ¬ pc.Falling) (hw : pc ≠ .waitSetSat) : WakeInv s' := by
  split at hstep
  · rename_i hpc
    obtain rfl := Option.some.inj hstep
    refine ⟨fun hs => ?_, fun hfall => absurd hfall hf, fun he => absurd he hw⟩
    rcases h.flag hs with hc | hex | hr | ⟨hl, -⟩
    · exact Or.inl hc
    · exact Or.inr (Or.inl hex)
    · rw [hpc] at hr
      exact hr.elim
    · exact Or.inr (Or.inr (Or.inr ⟨hl, hf⟩))
  · cases hstep

/-- **One move** that meets `KeepsWakeUp` keeps the invariant. -/
theorem WakeInv.move {s s' : Cond} {a : Move} (h : WakeInv s) (hok : KeepsWakeUp s a)
    (hstep : move s a = some s') : WakeInv s' := by
  cases a with
  | notify t p =>
    simp only [Condition.move] at hstep
    split at hstep
    · rename_i hidle
      obtain rfl := Option.some.inj hstep
      refine WakeInv.goto_quiet (s := { s with free := Function.update s.free p false })
        ⟨h.flag, h.missed, h.woken⟩ ?_
      change ¬ (s.notifier t).Telling
      rw [hidle.1]
      exact id
    · cases hstep
  | notifier t => exact h.notifierStep hstep
  | spurious t =>
    simp only [Condition.move] at hstep
    split at hstep
    · rename_i p oldHead hpc
      obtain rfl := Option.some.inj hstep
      exact h.goto_quiet (by rw [hpc]; exact id)
    · cases hstep
  | wait => exact h.call hstep id (by simp)
  | tryDequeue => exact h.call hstep id (by simp)
  | sched => exact h.schedStep hok hstep
  | interrupt =>
    simp only [Condition.move] at hstep
    split at hstep
    · rename_i hpc
      obtain rfl := Option.some.inj hstep
      refine ⟨fun hs => ?_, fun hf => hf.elim, fun he => by cases he⟩
      rcases h.flag hs with hc | hex | hr | ⟨hl, -⟩
      · exact Or.inl hc
      · exact Or.inr (Or.inl hex)
      · rw [hpc] at hr
        exact hr.elim
      · exact Or.inr (Or.inr (Or.inr ⟨hl, id⟩))
    · cases hstep
  | follow i =>
    simp only [Condition.move] at hstep
    split at hstep
    · split at hstep
      · obtain rfl := Option.some.inj hstep
        exact ⟨h.flag, h.missed, h.woken⟩
      · cases hstep
    · cases hstep

theorem wakeInv_create : WakeInv create :=
  WakeInv.of_unset rfl (fun hf => hf.elim) fun he => by cases he

/-- **No lost wake-up** in a run whose moves all meet `KeepsWakeUp`: from there on too, a
scheduler asleep with work queued has its wake-up in the counter or a notifier that has not
returned. -/
theorem no_lost_wakeUp {s : Cond} (h : (condSystem.restrict KeepsWakeUp).Reach s) :
    ¬ LostWakeUp s := by
  have hinv : WakeInv s := h.invariant (fun _ hs => hs ▸ wakeInv_create)
    fun _ _ _ hi hst => hi.move hst.1 hst.2
  rintro ⟨hsched, hcount, hlist, hidle⟩
  rcases hinv.missed (by rw [hsched]; trivial) hlist with hc | ⟨t, ht⟩
  · omega
  · rw [hidle] at ht
    exact ht

/-- Asleep on an empty list, and then process 1 is pushed: its notifier has still to speak. -/
theorem asleep_pushed_not_lost :
    ∃ s, (condSystem.restrict KeepsWakeUp).Reach s ∧ s.sched = .waitEpoll ∧
      s.readyList = some 1 ∧ s.counter = 0 ∧ ¬ LostWakeUp s := by
  have h₀ : (condSystem.restrict KeepsWakeUp).Reach create := .start rfl
  have h₁ : (condSystem.restrict KeepsWakeUp).Reach (create.schedGoto .waitLoad) :=
    h₀.next (a := Move.wait) ⟨trivial, rfl⟩
  have h₂ : (condSystem.restrict KeepsWakeUp).Reach (create.schedGoto .waitReadSat) :=
    h₁.next (a := Move.sched) ⟨(fun _ he => by cases he), rfl⟩
  have h₃ : (condSystem.restrict KeepsWakeUp).Reach (create.schedGoto .waitEpoll) :=
    h₂.next (a := Move.sched) ⟨(fun _ he => by cases he), rfl⟩
  have h₄ := h₃.next (a := Move.notify 1 1) ⟨trivial, rfl⟩
  have h₅ := h₄.next (a := Move.notifier 1) ⟨trivial, rfl⟩
  have h₆ := h₅.next (a := Move.notifier 1) ⟨trivial, rfl⟩
  have h₇ := h₆.next (a := Move.notifier 1) ⟨trivial, rfl⟩
  exact ⟨_, h₇, rfl, rfl, rfl, no_lost_wakeUp h₇⟩

/-- Notifier 1 has pushed process 1 and read the flag as 0; the scheduler takes the list and
clears the flag; notifier 1 sets the flag and writes the eventfd, which the scheduler drains.
The scheduler looks at the list again and finds it empty; notifier 2 pushes process 2, reads
the flag as 1 and returns; the scheduler clears the flag and goes to sleep. -/
def lostRun : List Move :=
  [.notify 1 1, .notifier 1, .notifier 1, .notifier 1, .notifier 1,
   .wait, .sched, .sched, .sched,
   .notifier 1, .notifier 1,
   .sched, .sched, .follow 0,
   .wait, .sched,
   .notify 2 2, .notifier 2, .notifier 2, .notifier 2, .notifier 2,
   .sched, .sched, .sched]

/-- **A lost wake-up**, with two notifiers on two processes. -/
theorem lostRun_lost : ∃ s, run create lostRun = some s ∧ condSystem.Reach s ∧ LostWakeUp s := by
  have hrun : run create lostRun = some ((run create lostRun).getD create) := rfl
  have hlist : ((run create lostRun).getD create).readyList = some 2 := rfl
  refine ⟨_, hrun, reach_of_run (.start rfl) hrun, rfl, rfl, by rw [hlist]; simp, fun t => ?_⟩
  match t with
  | 0 => rfl
  | 1 => rfl
  | 2 => rfl
  | _ + 3 => rfl

end PonBeam.Condition
