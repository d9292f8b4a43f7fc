import PonBeam.Condition.Model
import PonBeam.Lib.Seg

/-!
# Calls one after another

Nobody else moves while a call runs. A notification writes the `next` word of its process,
whether the process is in the list already or not. In the list it was the way on from the
process; now it leads back to the head, from which there is a way to the process: the list
has no end any more, and what came after the process is lost.
-/

namespace PonBeam.Condition

open Cond

/-! ## The calls -/

/-- `pon_condition_notify`; the exchange succeeds, since nobody else moves. -/
def ponConditionNotify (s : Cond) (p : Process) : Cond :=
  let s := s.storeNext p s.readyList
  let s := s.push p
  if s.satisfied then s else (s.setSatisfied true).writeFd

/-- How one turn of the loop of `pon_condition_wait` ends. -/
inductive WaitTurn : Type where
  /-- with the list that starts at `head` -/
  | returned (head : Process) (s : Cond)
  /-- with another turn -/
  | again (s : Cond)
  /-- in `epoll_wait`, with nobody to wake it up -/
  | blocked

/-- One turn of the loop of `pon_condition_wait`. -/
def waitTurn (s : Cond) : WaitTurn :=
  match s.readyList with
  | some head => .returned head (s.takeAll.setSatisfied false).readFd
  | none =>
    if s.satisfied ∧ 0 < s.counter then .again (s.readFd.setSatisfied false)
    else
      let s := s.setSatisfied false
      if 0 < s.counter then .again (s.setSatisfied true) else .blocked

/-- `pon_condition_wait`, in so many turns: the head of the list it returns, or nothing if it
does not return. -/
def ponConditionWait : ℕ → Cond → Option (Process × Cond)
  | 0, _ => none
  | turns + 1, s =>
    match waitTurn s with
    | .returned head s => some (head, s)
    | .again s => ponConditionWait turns s
    | .blocked => none

/-- `pon_condition_try_dequeue` -/
def ponConditionTryDequeue (s : Cond) : Option Process × Cond :=
  match s.readyList with
  | none => (none, s)
  | some head =>
    let next := s.next head
    let s := { s with readyList := next }
    (some head, if next = none then s.setSatisfied false else s)

/-- What `wait` returns is the whole list. -/
theorem ponConditionWait_readyList {turns : ℕ} {s s' : Cond} {head : Process}
    (h : ponConditionWait turns s = some (head, s')) : s'.readyList = none := by
  induction turns generalizing s with
  | zero => cases h
  | succ turns ih =>
    rw [ponConditionWait] at h
    split at h
    · rename_i hturn
      obtain ⟨-, rfl⟩ := Prod.mk.inj (Option.some.inj h)
      unfold waitTurn at hturn
      split at hturn
      · obtain ⟨-, rfl⟩ := WaitTurn.returned.inj hturn
        rfl
      · split at hturn
        · cases hturn
        · dsimp only at hturn
          split at hturn <;> cases hturn
    · exact ih h
    · cases h

/-! ## Runs of them -/

/-- The Condition, and what is known of the calls so far. -/
structure Sequential where
  /-- the Condition -/
  cond : Cond
  /-- the processes that were notified and not yet taken -/
  pending : List Process

/-- A call. -/
inductive Call : Type where
  /-- `pon_condition_notify(cond, p)` -/
  | notify (p : Process)
  /-- `pon_condition_wait(cond)` -/
  | wait
  /-- `pon_condition_try_dequeue(cond)` -/
  | tryDequeue
  deriving DecidableEq, Repr

/-- One call, if it returns. What `wait` returns is taken with all that is linked to it. -/
def call (s : Sequential) : Call → Option Sequential
  | .notify p => some ⟨ponConditionNotify s.cond p, p :: s.pending⟩
  | .wait => (ponConditionWait 4 s.cond).map fun taken => ⟨taken.2, []⟩
  | .tryDequeue =>
    match ponConditionTryDequeue s.cond with
    | (none, cond) => some { s with cond := cond }
    | (some p, cond) => some ⟨cond, s.pending.filter fun q => q ≠ p⟩

/-- Calls at one Condition, one after another. -/
def sequentialSystem : System Sequential Call where
  init s := s = ⟨create, []⟩
  step s c s' := call s c = some s'

/-- The list from `ready_list` ends, and holds the processes notified and not yet taken. -/
def ListIntact (s : Sequential) : Prop :=
  ∃ l, Seg s.cond.next s.cond.readyList l none ∧ ∀ p ∈ s.pending, p ∈ l

/-- The process is not in the list. -/
def NotPending (s : Sequential) : Call → Prop
  | .notify p => ∀ l, Seg s.cond.next s.cond.readyList l none → p ∉ l
  | _ => True

section

variable {s s' : Sequential} {p : Process}

/-- The links and the head after a notification. -/
theorem ponConditionNotify_next (s : Cond) (p : Process) :
    (ponConditionNotify s p).next = Function.update s.next p s.readyList ∧
      (ponConditionNotify s p).readyList = some p := by
  unfold ponConditionNotify
  dsimp only
  split <;> exact ⟨rfl, rfl⟩

/-- **A process that is not in the list** is put in front of it. -/
theorem ListIntact.notify (h : ListIntact s) (hp : NotPending s (.notify p)) :
    ListIntact ⟨ponConditionNotify s.cond p, p :: s.pending⟩ := by
  obtain ⟨l, hl, hpending⟩ := h
  obtain ⟨hnext, hready⟩ := ponConditionNotify_next s.cond p
  have hsame : ∀ q ∈ l, Function.update s.cond.next p s.cond.readyList q = s.cond.next q := by
    intro q hq
    refine Function.update_of_ne ?_ ..
    rintro rfl
    exact hp l hl hq
  refine ⟨p :: l, ?_, fun q hq => ?_⟩
  · dsimp only
    rw [hnext, hready]
    refine ⟨rfl, ?_⟩
    rw [Function.update_self]
    exact (Seg.congr hsame).mpr hl
  · rcases List.mem_cons.mp hq with rfl | hq
    · exact List.mem_cons_self ..
    · exact List.mem_cons_of_mem _ (hpending q hq)

/-- **A process that is in the list** closes a cycle through the head. -/
theorem not_listIntact_notify (hp : ¬NotPending s (.notify p)) :
    ¬ListIntact ⟨ponConditionNotify s.cond p, p :: s.pending⟩ := by
  simp only [NotPending, not_forall, not_not] at hp
  obtain ⟨l, hl, hpl⟩ := hp
  obtain ⟨hnext, hready⟩ := ponConditionNotify_next s.cond p
  rintro ⟨l', hl', -⟩
  dsimp only at hl'
  rw [hnext, hready] at hl'
  obtain ⟨l₁, l₂, rfl⟩ := List.append_of_mem hpl
  -- from the head to the process nothing has changed
  have hfresh : p ∉ l₁ := fun h =>
    (List.nodup_append.mp hl.nodup).2.2 p h p (List.mem_cons_self ..) rfl
  have hsame : ∀ q ∈ l₁, Function.update s.cond.next p s.cond.readyList q = s.cond.next q := by
    intro q hq
    refine Function.update_of_ne ?_ ..
    rintro rfl
    exact hfresh hq
  obtain ⟨m, hto, rfl, -⟩ := Seg.append_iff.mp hl
  have hcycle : Seg (Function.update s.cond.next p s.cond.readyList) (some p) (p :: l₁)
      (some p) := by
    refine ⟨rfl, ?_⟩
    rw [Function.update_self]
    exact (Seg.congr hsame).mpr hto
  exact hcycle.endless_of_cycle hl'

/-- **One call** on a process that is not in the list. -/
theorem ListIntact.call {c : Call} (h : ListIntact s) (hc : NotPending s c)
    (hcall : call s c = some s') : ListIntact s' := by
  cases c with
  | notify p =>
    obtain rfl := Option.some.inj hcall
    exact h.notify hc
  | wait =>
    obtain ⟨⟨head, cond⟩, hwait, rfl⟩ := Option.map_eq_some_iff.mp hcall
    refine ⟨[], ponConditionWait_readyList hwait, fun q hq => (nomatch hq)⟩
  | tryDequeue =>
    obtain ⟨l, hl, hpending⟩ := h
    simp only [Condition.call, ponConditionTryDequeue] at hcall
    cases hready : s.cond.readyList with
    | none =>
      simp only [hready] at hcall
      obtain rfl := Option.some.inj hcall
      exact ⟨l, hl, hpending⟩
    | some head =>
      simp only [hready] at hcall
      obtain rfl := Option.some.inj hcall
      rw [hready] at hl
      cases l with
      | nil => cases hl
      | cons p l =>
        obtain ⟨hp, hl⟩ := hl
        obtain rfl := Option.some.inj hp
        refine ⟨l, ?_, fun q hq => ?_⟩
        · dsimp only
          split <;> exact hl
        · obtain ⟨hq, hne⟩ := List.mem_filter.mp hq
          exact (List.mem_cons.mp (hpending q hq)).resolve_left (of_decide_eq_true hne)

/-- **The list stays intact** in a run that notifies no process which is in the list, and the
first notification of one that is ends it. -/
theorem listIntact_of_reach (h : (sequentialSystem.restrict NotPending).Reach s) :
    ListIntact s ∧
      ∀ p, ListIntact ⟨ponConditionNotify s.cond p, p :: s.pending⟩ ↔
        NotPending s (.notify p) := by
  have hs : ListIntact s :=
    h.invariant (fun s hs => hs ▸ ⟨[], rfl, fun q hq => (nomatch hq)⟩)
      fun _ _ _ hi hstep => hi.call hstep.1 hstep.2
  exact ⟨hs, fun p => ⟨fun hp => of_not_not fun hnot => not_listIntact_notify hnot hp, hs.notify⟩⟩

end

/-- Processes 1 and 2 are notified: the list holds both, and may get a third. -/
theorem two_notified_intact :
    ∃ s, (sequentialSystem.restrict NotPending).Reach s ∧ s.pending = [2, 1] ∧ ListIntact s := by
  have h₀ : (sequentialSystem.restrict NotPending).Reach ⟨create, []⟩ := .start rfl
  have h₁ := h₀.next (a := Call.notify 1) ⟨fun l hl => ?_, rfl⟩
  · have h₂ := h₁.next (a := Call.notify 2) ⟨fun l hl => ?_, rfl⟩
    · exact ⟨_, h₂, rfl, (listIntact_of_reach h₂).1⟩
    · obtain rfl := hl.unique (show Seg _ _ [1] none from ⟨rfl, rfl⟩)
      decide
  · obtain rfl := hl.unique (show Seg _ _ [] none from rfl)
    exact List.not_mem_nil

/-- **Process 1 is notified twice**: it is linked to itself, and the list has no end. -/
theorem notified_twice_endless : ¬∀ s, sequentialSystem.Reach s → ListIntact s := by
  intro h
  have h₀ : sequentialSystem.Reach ⟨create, []⟩ := .start rfl
  have h₁ := h₀.next (a := Call.notify 1) rfl
  have h₂ := h₁.next (a := Call.notify 1) rfl
  obtain ⟨l, hl, -⟩ := h _ h₂
  have hcycle : Seg (ponConditionNotify (ponConditionNotify create 1) 1).next (some 1) [1]
      (some 1) := ⟨rfl, rfl⟩
  exact hcycle.endless_of_cycle hl

end PonBeam.Condition
