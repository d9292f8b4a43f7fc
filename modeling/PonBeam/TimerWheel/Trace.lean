import PonBeam.TimerWheel.Bump
import Mathlib.Tactic.SplitIfs

/-!
# What a user of the wheel sees

A log is read without looking at the wheel: `pending` finds the activation of a timer that
was neither cancelled nor triggered, and `Sound` says what a log of the wheel ought to be.
-/

namespace PonBeam.TimerWheel

/-- The `timeout_pos` of the activation of `p` that is still to be triggered. -/
def pending : List Event → Tmr → Option ℤ
  | [], _ => none
  | .set q timeoutPos :: log, p => if p = q then some timeoutPos else pending log p
  | .cancel q :: log, p => if p = q then none else pending log p
  | .fire q _ _ :: log, p => if p = q then none else pending log p
  | .bumped _ _ :: log, p => pending log p
  | .checked _ :: log, p => pending log p

/-- What the newest event of a log has to be. -/
def Lawful (log : List Event) : Event → Prop
  | .fire p bumpTo currTime =>
    ∃ v, pending log p = some v ∧ v ≤ bumpTo ∧ bumpTo ≤ monotonicToClktcks currTime
  | .bumped currTime false => ∀ p v, pending log p = some v → monotonicToClktcks currTime < v
  | _ => True

/-- **A sound log.** A callback is run for a pending activation, by a bump whose target is not
before it; and a bump that returns without yielding leaves nothing that was due. -/
def Sound (log : List Event) : Prop :=
  ∀ newer e older, log = newer ++ e :: older → Lawful older e

theorem sound_nil : Sound [] := by
  intro newer e older h
  cases newer <;> cases h

theorem Sound.cons {log : List Event} {e : Event} (h : Sound log) (he : Lawful log e) :
    Sound (e :: log) := by
  intro newer e' older heq
  cases newer with
  | nil =>
    obtain ⟨rfl, rfl⟩ := List.cons.inj heq
    exact he
  | cons x newer => exact h newer e' older (List.cons.inj heq).2

/-- Something pending was set since the last event that ended an activation. -/
theorem set_of_pending {p : Tmr} {v : ℤ} {e : Event} {newer older : List Event}
    (he : pending (e :: older) p = none) (h : pending (newer ++ e :: older) p = some v) :
    ∃ u, Event.set p u ∈ newer := by
  induction newer with
  | nil =>
    rw [List.nil_append, he] at h
    cases h
  | cons x newer ih =>
    have hrest : pending (newer ++ e :: older) p = some v → ∃ u, Event.set p u ∈ x :: newer :=
      fun hp => (ih hp).imp fun u hu => List.mem_cons_of_mem _ hu
    rw [List.cons_append] at h
    cases x with
    | set q u =>
      by_cases hq : p = q
      · exact ⟨u, by rw [hq]; exact List.mem_cons_self ..⟩
      · rw [pending, if_neg hq] at h
        exact hrest h
    | cancel q =>
      rw [pending] at h
      split_ifs at h
      exact hrest h
    | fire q b c =>
      rw [pending] at h
      split_ifs at h
      exact hrest h
    | bumped c y => exact hrest h
    | checked c => exact hrest h

/-- **At most once**: between two callbacks of a timer it was set. -/
theorem Sound.fire_once {log a b c : List Event} {p : Tmr} {t₁ c₁ t₂ c₂ : ℤ} (h : Sound log)
    (hlog : log = a ++ .fire p t₂ c₂ :: (b ++ .fire p t₁ c₁ :: c)) : ∃ u, Event.set p u ∈ b := by
  obtain ⟨v, hv, -⟩ := h _ _ _ hlog
  exact set_of_pending (by rw [pending, if_pos rfl]) hv

/-- **Never after a cancel**: between a cancel of a timer and its callback it was set. -/
theorem Sound.fire_not_cancelled {log a b c : List Event} {p : Tmr} {t₁ c₁ : ℤ} (h : Sound log)
    (hlog : log = a ++ .fire p t₁ c₁ :: (b ++ .cancel p :: c)) : ∃ u, Event.set p u ∈ b := by
  obtain ⟨v, hv, -⟩ := h _ _ _ hlog
  exact set_of_pending (by rw [pending, if_pos rfl]) hv

end PonBeam.TimerWheel
