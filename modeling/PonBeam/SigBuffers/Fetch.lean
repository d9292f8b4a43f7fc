import PonBeam.SigBuffers.Holder

/-!
# Enqueueing on the in-queue, and fetching it

Between clearing the bits of `state` and setting them again a fetch looks at `nonempty_slots` and
at the kinds. What it needs to find there are the signals that were put into a buffer after its
flush by senders that saw `state` set before it was cleared.
-/

namespace PonBeam.SigBuffers

variable {Pid Payload : Type} [DecidableEq Pid] {slotOf : Pid → Slot}
  {s s' : State Pid Payload} {t : Pid} {a : Addr} {m : Msgq Pid Payload}

/-- **A sender enqueues on the in-queue.** -/
theorem Inv.link (h : Inv slotOf s) {d : Direct Pid Payload} (hm : s.msgq = .link d) :
    Inv slotOf ((State.setFlags { s with sigInq := s.sigInq ++ d.chain, msgq := .free } d.msg d.nmsg
      (decide (d.chain.countP (·.isMsg) ≠ 0))
      (nonmsg d.chain && s.sigInq.all (·.isMsg))).setSender d.sender .idle) := by
  have hmsgq := h.msgq
  rw [MsgqInv, hm] at hmsgq
  obtain ⟨⟨⟨hin, hvalid⟩, hmsg, hnmsg⟩, hnil⟩ := hmsgq
  have hplain : s.msgq.Plain := by
    rw [hm]
    exact ⟨rfl, id, fun _ => id, rfl, id⟩
  generalize hs₁ : ({ s with sigInq := s.sigInq ++ d.chain, msgq := .free } :
    State Pid Payload) = s₁
  generalize hs' : s₁.setFlags d.msg d.nmsg (decide (d.chain.countP (·.isMsg) ≠ 0))
    (nonmsg d.chain && s.sigInq.all (·.isMsg)) = s₂
  have hinQ : ∀ k, s.inQ k = true → s₂.inQ k = true := fun k hk => by
    rw [← hs']
    refine State.setFlags_inQ ?_
    rw [← hs₁]
    cases k <;> exact hk
  have hptr : s₂.sigInqBuffers = s.sigInqBuffers := by
    rw [← hs', State.setFlags_sigInqBuffers, ← hs₁]
  have harrays : s₂.arrays = s.arrays := by rw [← hs', State.setFlags_arrays, ← hs₁]
  have hsenders : s₂.senders = s.senders := by rw [← hs', State.setFlags_senders, ← hs₁]
  have hmsgq : s₂.msgq = .free := by rw [← hs', State.setFlags_msgq, ← hs₁]
  have hsigInq : s₂.sigInq = s.sigInq ++ d.chain := by
    rw [← hs', State.setFlags_sigInq, ← hs₁]
  have hstep : HolderStep slotOf s s₂ := .of_slots h hptr hsenders fun _ => by rw [harrays]
  have h₂ : Inv slotOf s₂ := by
    refine h.holder hstep (fun a ha => ?_) (fun a ha i => ?_) (fun k hk => ?_) (fun ht => ?_) ?_
    · have := h.alive a (hptr ▸ ha)
      rw [hm] at this
      rw [hmsgq, harrays]
      exact this
    · rw [harrays]
      exact (h.plainBuffer hplain (hptr ▸ ha) i _ _ _).mono Iff.rfl id (fun _ => id)
        fun k hk => hk.imp (hinQ k) id
    · rw [hsigInq] at hk
      rcases has_append.1 hk with hk | hk
      · exact hinQ k (h.inQ k hk)
      · cases k with
        | true =>
          cases hd : d.msg with
          | true => exact hinQ true (hmsg hd)
          | false =>
            rw [← hs']
            exact State.setFlags_set (decide_eq_true (has_msg_iff.1 hk)) hd
        | false =>
          cases hd : d.nmsg with
          | true => exact hinQ false (hnmsg hd)
          | false =>
            by_cases hq : Has false s.sigInq
            · exact hinQ false (h.inQ false hq)
            · rw [← hs']
              refine State.setFlags_set (Bool.and_eq_true_iff.2 ⟨hvalid.nonmsg hk, ?_⟩) hd
              exact Bool.eq_true_of_not_eq_false (mt has_nonmsg_iff.2 hq)
    · rw [hmsgq] at ht
      exact ht.elim
    · rw [MsgqInv, hmsgq]
      trivial
  refine h₂.setSender ?_ ?_ ?_
  · rw [hsenders, hin]
    exact fun hc => by cases hc
  · have hfree : (s₂.setSender d.sender .idle).msgq = .free := hmsgq
    rw [MsgqInv, hfree]
    trivial
  · rw [SenderInv, State.setSender_self]
    trivial

/-! ## A fetch -/

/-- The in-queue has been taken, and what is left to show is about `state`. -/
theorem Inv.taking (h : Inv slotOf s) (hleft : s.msgq.left = none) (hpending : s.msgq.pending = [])
    (hclearing : ¬ s.msgq.Clearing) (hptr : s'.sigInqBuffers = s.sigInqBuffers)
    (hsenders : s'.senders = s.senders) (harrays : s'.arrays = s.arrays)
    (hsigInq : s'.sigInq = []) (hleft' : s'.msgq.left = none)
    (hcarried : ∀ a, s.sigInqBuffers = some a → ∀ i,
      (((s.arrays a).slots i).Marked → i ∈ (s.arrays a).nonemptySlots) →
      (∀ k, ((s.arrays a).slots i).Carries k → (s.arrays a).inSlots k = true) →
      ∀ k, ((s.arrays a).slots i).Carries k → s'.inQ k = true ∨ s'.msgq.Covers k)
    (hmsgq : MsgqInv slotOf s') : Inv slotOf s' := by
  refine h.holder (.of_slots h hptr hsenders fun _ => by rw [harrays]) (fun a ha => ?_)
    (fun a ha i => ?_) (fun k hk => ?_) (fun _ => hsigInq) hmsgq
  · have := h.alive a (hptr ▸ ha)
    rw [hleft] at this
    rw [hleft', harrays]
    exact this
  · have hold := h.buffers a (hptr ▸ ha) i
    have hmarked : ((s.arrays a).slots i).Marked → i ∈ (s.arrays a).nonemptySlots := fun hi =>
      (hold.marked hi).resolve_right fun hp => by
        rw [hpending] at hp
        cases hp
    have hchecked : ∀ k, ((s.arrays a).slots i).Checked k → (s.arrays a).inSlots k = true :=
      fun k hk => (hold.checked k (hmarked hk.marked) hk).resolve_right hclearing
    rw [harrays]
    exact ⟨fun hi => Or.inl (hmarked hi), fun k _ hk => Or.inl (hchecked k hk),
      hcarried a (hptr ▸ ha) i hmarked fun k hk => hchecked k hk.checked, hold.counted⟩
  · rw [hsigInq] at hk
    exact absurd hk has_nil

/-- The in-queue is taken, if there is anything. -/
theorem Inv.move (h : Inv slotOf s) {buffers : Option Addr} (hm : s.msgq = .move buffers) :
    Inv slotOf (if s.sigInq = [] ∧ s.msgSigInQ = false ∧ s.nmsgSigInQ = false then
      { s with msgq := .free }
    else { s with sigQs := s.sigQs ++ s.sigInq, sigInq := [], msgq := .clearState buffers }) := by
  have hmsgq := h.msgq
  rw [MsgqInv, hm] at hmsgq
  have hplain : s.msgq.Plain := by
    rw [hm]
    exact ⟨rfl, id, fun _ => id, rfl, id⟩
  split
  · exact h.setMsgq hplain ⟨rfl, id, fun _ => id, rfl, id⟩ trivial
  · refine h.taking hplain.left hplain.pending hplain.clearing rfl rfl rfl rfl rfl
      (fun a ha i _ _ k hk => Or.inl ?_) hmsgq
    exact ((h.buffers a ha i).carried k hk).resolve_right (hplain.covers k)

/-- The bits of `state` are cleared. -/
theorem Inv.clearState (h : Inv slotOf s) {buffers : Option Addr}
    (hm : s.msgq = .clearState buffers) : Inv slotOf { s with
      msgSigInQ := false
      nmsgSigInQ := false
      msgq := match buffers with
        | none => .free
        | some a => .recheckBits a } := by
  have hmsgq := h.msgq
  rw [MsgqInv, hm] at hmsgq
  have hsigInq : s.sigInq = [] := h.taken (by rw [hm]; trivial)
  cases buffers with
  | none =>
    have hnone : s.sigInqBuffers = none := hmsgq.elim id id
    refine h.taking ?_ ?_ ?_ rfl rfl rfl hsigInq rfl (fun a ha => ?_) trivial
    · rw [hm]
      rfl
    · rw [hm]
      rfl
    · rw [hm]
      exact id
    · rw [hnone] at ha
      cases ha
  | some a =>
    refine h.taking ?_ ?_ ?_ rfl rfl rfl hsigInq rfl (fun _ _ _ _ _ _ _ => Or.inr trivial) hmsgq
    · rw [hm]
      rfl
    · rw [hm]
      rfl
    · rw [hm]
      exact id

/-- `nonempty_slots` is looked at again. -/
theorem Inv.recheckBits (h : Inv slotOf s) (hm : s.msgq = .recheckBits a) :
    Inv slotOf (if (s.arrays a).nonemptySlots = ∅ then { s with msgq := .free }
      else { s with msgq := .recheckNonmsgs a }) := by
  have hmsgq := h.msgq
  rw [MsgqInv, hm] at hmsgq
  have hsigInq : s.sigInq = [] := h.taken (by rw [hm]; trivial)
  have hleft : s.msgq.left = none := by rw [hm]; rfl
  have hpending : s.msgq.pending = [] := by rw [hm]; rfl
  have hclearing : ¬ s.msgq.Clearing := by rw [hm]; exact id
  split
  · rename_i hempty
    refine h.taking hleft hpending hclearing rfl rfl rfl hsigInq rfl
      (fun a' ha' i hmarked _ k hk => ?_) trivial
    obtain rfl : a' = a := hmsgq.elim (fun hn => by rw [hn] at ha'; cases ha') fun hs =>
      Option.some.inj (ha'.symm.trans hs)
    have hbit := hmarked hk.checked.marked
    rw [hempty] at hbit
    exact absurd hbit (Finset.notMem_empty i)
  · exact h.taking hleft hpending hclearing rfl rfl rfl hsigInq rfl
      (fun _ _ _ _ _ _ _ => Or.inr trivial) hmsgq

/-- `nonmsgs_in_slots` is read. -/
theorem Inv.recheckNonmsgs (h : Inv slotOf s) (hm : s.msgq = .recheckNonmsgs a) :
    Inv slotOf { s with msgq := .recheckMsgs a (s.arrays a).nonmsgsInSlots } := by
  have hmsgq := h.msgq
  rw [MsgqInv, hm] at hmsgq
  refine h.taking (by rw [hm]; rfl) (by rw [hm]; rfl) (by rw [hm]; exact id) rfl rfl rfl
    (h.taken (by rw [hm]; trivial)) rfl (fun a' ha' i _ hwords k hk => Or.inr ?_) hmsgq
  obtain rfl : a' = a := hmsgq.elim (fun hn => by rw [hn] at ha'; cases ha') fun hs =>
    Option.some.inj (ha'.symm.trans hs)
  cases k with
  | true => exact Or.inl rfl
  | false => exact Or.inr (hwords false hk)

/-- `msgs_in_slots` is read. -/
theorem Inv.recheckMsgs (h : Inv slotOf s) {nmsg : Bool} (hm : s.msgq = .recheckMsgs a nmsg) :
    Inv slotOf { s with msgq := .setState (s.arrays a).msgsInSlots nmsg } := by
  have hmsgq := h.msgq
  rw [MsgqInv, hm] at hmsgq
  refine h.taking (by rw [hm]; rfl) (by rw [hm]; rfl) (by rw [hm]; exact id) rfl rfl rfl
    (h.taken (by rw [hm]; trivial)) rfl (fun a' ha' i _ hwords k hk => ?_) trivial
  obtain rfl : a' = a := hmsgq.elim (fun hn => by rw [hn] at ha'; cases ha') fun hs =>
    Option.some.inj (ha'.symm.trans hs)
  cases k with
  | true => exact Or.inr (hwords true hk)
  | false =>
    have hold := (h.buffers a' ha' i).carried false hk
    rw [hm] at hold
    exact hold.imp id fun hc => hc.resolve_left Bool.false_ne_true

/-- The bits of `state` are set again. -/
theorem Inv.setState (h : Inv slotOf s) {msg nmsg : Bool} (hm : s.msgq = .setState msg nmsg) :
    Inv slotOf { s with
      msgSigInQ := s.msgSigInQ || msg, nmsgSigInQ := s.nmsgSigInQ || nmsg, msgq := .free } := by
  refine h.taking (by rw [hm]; rfl) (by rw [hm]; rfl) (by rw [hm]; exact id) rfl rfl rfl
    (h.taken (by rw [hm]; trivial)) rfl (fun a' ha' i _ _ k hk => Or.inl ?_) trivial
  have hold := (h.buffers a' ha' i).carried k hk
  rw [hm] at hold
  cases k with
  | true => exact Bool.or_eq_true_iff.2 hold
  | false => exact Bool.or_eq_true_iff.2 hold

end PonBeam.SigBuffers
