import PonBeam.SigBuffers.History

/-!
# Runs of senders and receiver

In every run, with whatever interleaving of the steps, the signals of each sender are fetched in
the order in which they were sent, once each; and where the receiver might stop looking, the bits
of its `state` are set for what is still to be fetched.
-/

namespace PonBeam.SigBuffers

variable {Pid Payload : Type} [DecidableEq Pid] {slotOf : Pid → Slot}
  {s s' : State Pid Payload} {t : Pid} {a : Addr} {i : Slot}

/-- The invariant holds after a step, and no signal has been lost, added or overtaken. -/
def Follows (slotOf : Pid → Slot) (s s' : State Pid Payload) : Prop :=
  Inv slotOf s' ∧ ∀ t, s'.history slotOf t = s.history slotOf t

/-- Words are written that no signal depends on. -/
theorem history_setArray {x : BufferArray Pid Payload} {m : Msgq Pid Payload}
    (hslots : x.slots = (s.arrays a).slots) (hsending : m.sending = s.msgq.sending) (t : Pid) :
    State.history slotOf { s.setArray a x with msgq := m } t = s.history slotOf t := by
  refine history_congr (s := s) ?_ (fun a' => ?_) ?_ ?_ hsending t
  · rfl
  · show ((s.setArray a x).arrays a').slots = _
    by_cases ha : a' = a
    · rw [ha, State.setArray_self, hslots]
    · rw [State.setArray_of_ne ha]
  · rfl
  · rfl

/-- Deinstalling starts. -/
theorem history_deinstallBuffers (s : State Pid Payload) (a : Addr) {task : Task Pid Payload}
    (hsending : (Msgq.flush task a .rounds).sending = s.msgq.sending) (t : Pid) :
    State.history slotOf (s.deinstallBuffers task a) t = s.history slotOf t := by
  rw [State.deinstallBuffers]
  split
  · refine history_congr (s := s) ?_ (fun a' => ?_) ?_ ?_ ?_ t
    · rfl
    · show ((s.setArray a _).arrays a').slots = _
      by_cases ha : a' = a
      · rw [ha, State.setArray_self]
      · rw [State.setArray_of_ne ha]
    · rfl
    · rfl
    · exact (sending_flush task a _ _).trans hsending
  · have hflushed := (sending_flushed s (some a) a task .rounds).trans hsending
    refine history_congr (s := s) ?_ (fun _ => ?_) ?_ ?_ hflushed t <;> rfl

/-- The array has been deinstalled. -/
theorem history_deinstalled (h : Inv slotOf s) {x : BufferArray Pid Payload}
    {m : Msgq Pid Payload} (hs : s.sigInqBuffers = some a)
    (hdead : ∀ i, ¬ ((s.arrays a).slots i).alive = true) (hsending : m.sending = s.msgq.sending)
    (t : Pid) :
    State.history slotOf { s.setArray a x with sigInqBuffers := none, msgq := m } t =
      s.history slotOf t := by
  have hbuffered : s.buffered slotOf t = [] := by
    rw [State.buffered, hs]
    exact if_neg (hdead _)
  have hunderway : State.underway slotOf { s.setArray a x with
      sigInqBuffers := none, msgq := m } t = s.underway slotOf t := by
    rw [State.underway, State.underway, hs, ← hsending]
    cases hsender : s.senders t with
    | inBuffer =>
      have hlock : (s.bufferOf slotOf a t).lock = none := by
        cases hl : (s.bufferOf slotOf a t).lock with
        | none => rfl
        | some e => exact absurd (h.locked a _ e hl).1 (hdead _)
      simp only [State.setArray_senders, hsender, Option.bind_some, hlock]
      rfl
    | _ =>
      simp only [State.setArray_senders, hsender]
  rw [State.history, State.history, hbuffered, hunderway]
  rfl

/-- The end of a round. -/
theorem Follows.rounds (h : Inv slotOf s) {task : Task Pid Payload}
    (hm : s.msgq = .flush task a .rounds) (hrun : s.flushStep task a .rounds = some s') :
    Follows slotOf s s' := by
  have hcounters : ∀ (s : State Pid Payload) (r n : ℕ), Inv slotOf s →
      s.msgq = .flush task a .rounds →
      Inv slotOf (s.setArray a { s.arrays a with nrOfRoundsLeft := r, nrOfEnqueues := n }) ∧
        ∀ t, State.history slotOf (s.setArray a { s.arrays a with
          nrOfRoundsLeft := r, nrOfEnqueues := n }) t = s.history slotOf t := by
    intro s r n h hm
    refine ⟨h.setArray rfl rfl (funext fun k => by cases k <;> rfl) rfl, fun t => ?_⟩
    refine history_setArray (m := s.msgq) ?_ ?_ t <;> rfl
  have hdone : ∀ s : State Pid Payload, Inv slotOf s → s.msgq = .flush task a .rounds →
      Follows slotOf s { s with msgq := s.flushed (some a) task } := by
    intro s h hm
    obtain ⟨hs, htask⟩ := h.flush hm
    refine ⟨h.flushed ?_ (Or.inr hs) htask, fun t => ?_⟩
    · rw [hm]
      exact ⟨rfl, id, fun _ => id, rfl, id⟩
    · have hsending : (s.flushed (some a) task).sending = s.msgq.sending := by
        rw [sending_flushed _ _ a _ .rounds, hm]
      refine history_congr (s := s) ?_ (fun _ => ?_) ?_ ?_ hsending t <;> rfl
  rw [State.flushStep] at hrun
  dsimp only at hrun
  obtain ⟨h₁, hhistory⟩ := hcounters s ((s.arrays a).nrOfRoundsLeft - 1) (s.arrays a).nrOfEnqueues
    h hm
  split at hrun
  · split at hrun
    · cases hrun
      obtain ⟨hs, htask⟩ := h₁.flush hm
      refine ⟨h₁.deinstallBuffers ?_ hs htask, fun t => ?_⟩
      · exact hm ▸ ⟨rfl, id, fun _ => id, rfl, id⟩
      · refine (history_deinstallBuffers _ a ?_ t).trans (hhistory t)
        exact congrArg Msgq.sending hm.symm
    · cases hrun
      obtain ⟨h₂, hhistory₂⟩ := hcounters _ minFlushAllOpsBeforeChange 0 h₁ hm
      rw [State.setArray_self] at h₂ hhistory₂
      obtain ⟨h₃, hhistory₃⟩ := hdone _ h₂ hm
      exact ⟨h₃, fun t => (hhistory₃ t).trans ((hhistory₂ t).trans (hhistory t))⟩
  · cases hrun
    obtain ⟨h₂, hhistory₂⟩ := hdone _ h₁ hm
    exact ⟨h₂, fun t => (hhistory₂ t).trans (hhistory t)⟩

/-- A step of a flush. -/
theorem Follows.flushStep (h : Inv slotOf s) {task : Task Pid Payload} {pc : FlushPc}
    (hm : s.msgq = .flush task a pc) (hrun : s.flushStep task a pc = some s') :
    Follows slotOf s s' := by
  have hs := (h.flush hm).1
  have hsending : ∀ pc', (Msgq.flush task a pc').sending = s.msgq.sending := fun pc' => by
    rw [hm, sending_flush task a pc']
  cases pc with
  | clearMsgs =>
    rw [State.flushStep] at hrun
    cases hrun
    exact ⟨h.clear hm (Or.inl rfl) (Or.inl rfl) rfl rfl rfl, history_setArray rfl (hsending _)⟩
  | clearNonmsgs =>
    rw [State.flushStep] at hrun
    cases hrun
    exact ⟨h.clear hm (Or.inr rfl) (Or.inr rfl) rfl rfl rfl, history_setArray rfl (hsending _)⟩
  | exchange =>
    rw [State.flushStep] at hrun
    cases hrun
    exact ⟨h.exchange hm, history_setArray rfl (hsending _)⟩
  | slots pending =>
    cases pending with
    | nil =>
      rw [State.flushStep] at hrun
      cases hrun
      refine ⟨h.endSlots hm, fun t => ?_⟩
      refine history_congr (s := s) ?_ (fun _ => ?_) ?_ ?_ (hsending .rounds) t <;> rfl
    | cons i pending =>
      rw [State.flushStep] at hrun
      split at hrun
      · cases hrun
      · rename_i hfree
        cases hrun
        have hlock := Option.not_isSome_iff_eq_none.1 hfree
        have halive := h.alive a hs
        rw [hm] at halive
        refine ⟨h.flushBuffer hm hlock, fun t => ?_⟩
        rw [flushBuffer_eq (halive.2 i) (h.buffers a hs i).counted.1]
        refine history_takeBuffer h hs (halive.2 i) hlock ?_ (fun _ => ?_) ?_ (hsending _) t
        · exact hlock
        · rfl
        · rfl
  | rounds => exact .rounds h hm hrun
  | deinstall left =>
    have halive := h.alive a hs
    rw [hm] at halive
    cases left with
    | nil =>
      rw [State.flushStep] at hrun
      cases hrun
      refine ⟨h.deinstalled hm rfl, fun t => history_deinstalled h hs (fun i hi => ?_) ?_ t⟩
      · exact absurd ((halive.2 i).1 hi) List.not_mem_nil
      · rw [sending_flushed _ _ a _ (.deinstall []), hm]
    | cons i left =>
      rw [State.flushStep] at hrun
      split at hrun
      · cases hrun
      · rename_i hfree
        cases hrun
        have hlock := Option.not_isSome_iff_eq_none.1 hfree
        have hi := (halive.2 i).2 List.mem_cons_self
        refine ⟨h.deinstall hm hlock, fun t => ?_⟩
        refine history_takeBuffer (x := s.arrays a) h hs hi hlock ?_ (fun hd => ?_) rfl
          (hsending _) t
        · exact hlock
        · cases hd

/-- **A step of the holder of `MSGQ`.** -/
theorem Follows.msgqStep (h : Inv slotOf s) (hrun : s.msgqStep = some s') :
    Follows slotOf s s' := by
  -- most steps only move the holder
  have hmoved : ∀ {s₁ : State Pid Payload}, s₁.sigInqBuffers = s.sigInqBuffers →
      s₁.arrays = s.arrays → s₁.sigQs ++ s₁.sigInq = s.sigQs ++ s.sigInq →
      s₁.senders = s.senders → s₁.msgq.sending = s.msgq.sending → ∀ t,
      s₁.history slotOf t = s.history slotOf t := fun hptr harrays hqueues hsenders hsending t =>
    history_congr hptr (fun _ => by rw [harrays]) hqueues hsenders hsending t
  cases hm : s.msgq with
  | free =>
    rw [State.msgqStep, hm] at hrun
    cases hrun
  | readState t chain force =>
    have h' := h.readState hm
    rw [State.msgqStep, hm] at hrun
    cases force with
    | true =>
      cases hrun
      refine ⟨h', history_flushBuffers _ _ fun a => ?_⟩
      rw [hm]
      rfl
    | false =>
      cases hrun
      exact ⟨h', hmoved rfl rfl rfl rfl (by rw [hm]; rfl)⟩
  | install d offHeap =>
    have h' := h.install hm
    rw [State.msgqStep, hm] at hrun
    have hm' : (s.maybeInstallBuffers offHeap).msgq = .install d offHeap := by
      rw [State.maybeInstallBuffers, ← hm]
      split <;> rfl
    cases offHeap with
    | true =>
      cases hrun
      refine ⟨h', fun t => ?_⟩
      rw [history_flushBuffers _ _ fun a => by rw [hm']; rfl]
      exact history_maybeInstallBuffers s true t
    | false =>
      cases hrun
      refine ⟨h', fun t => ?_⟩
      rw [← history_maybeInstallBuffers s false t]
      refine history_congr ?_ (fun _ => ?_) ?_ ?_ (by rw [hm']; rfl) t <;> rfl
  | flush task a pc =>
    rw [State.msgqStep, hm] at hrun
    exact .flushStep h hm hrun
  | link d =>
    rw [State.msgqStep, hm] at hrun
    cases hrun
    exact ⟨h.link hm, history_link h hm _ _ _ _⟩
  | move buffers =>
    have h' := h.move hm
    rw [State.msgqStep, hm] at hrun
    dsimp only at hrun
    split at hrun
    · rename_i hempty
      rw [if_pos hempty] at h'
      cases hrun
      exact ⟨h', hmoved rfl rfl rfl rfl (by rw [hm]; rfl)⟩
    · rename_i hempty
      rw [if_neg hempty] at h'
      cases hrun
      exact ⟨h', hmoved rfl rfl (List.append_nil _) rfl (by rw [hm]; rfl)⟩
  | clearState buffers =>
    have h' := h.clearState hm
    rw [State.msgqStep, hm] at hrun
    cases buffers with
    | none =>
      cases hrun
      exact ⟨h', hmoved rfl rfl rfl rfl (by rw [hm]; rfl)⟩
    | some a =>
      cases hrun
      exact ⟨h', hmoved rfl rfl rfl rfl (by rw [hm]; rfl)⟩
  | recheckBits a =>
    have h' := h.recheckBits hm
    rw [State.msgqStep, hm] at hrun
    dsimp only at hrun
    split at hrun
    · rename_i hempty
      rw [if_pos hempty] at h'
      cases hrun
      exact ⟨h', hmoved rfl rfl rfl rfl (by rw [hm]; rfl)⟩
    · rename_i hempty
      rw [if_neg hempty] at h'
      cases hrun
      exact ⟨h', hmoved rfl rfl rfl rfl (by rw [hm]; rfl)⟩
  | recheckNonmsgs a =>
    have h' := h.recheckNonmsgs hm
    rw [State.msgqStep, hm] at hrun
    cases hrun
    exact ⟨h', hmoved rfl rfl rfl rfl (by rw [hm]; rfl)⟩
  | recheckMsgs a nmsg =>
    have h' := h.recheckMsgs hm
    rw [State.msgqStep, hm] at hrun
    cases hrun
    exact ⟨h', hmoved rfl rfl rfl rfl (by rw [hm]; rfl)⟩
  | setState msg nmsg =>
    have h' := h.setState hm
    rw [State.msgqStep, hm] at hrun
    cases hrun
    exact ⟨h', hmoved rfl rfl rfl rfl (by rw [hm]; rfl)⟩

/-! ## All steps -/

/-- The contention counter and the flag do not matter. -/
theorem Inv.setContention (h : Inv slotOf s) (c : ℕ) : Inv slotOf { s with contention := c } :=
  ⟨h.installed, h.locked, h.hashed, h.alive, h.buffers, h.inQ, h.taken,
    h.msgq.congr rfl rfl (fun _ ht => ⟨ht, id⟩) fun _ => id,
    fun t => (h.senders t).congr rfl (fun _ => Or.inl) id⟩

theorem Inv.setOffHeap (h : Inv slotOf s) (on : Bool) : Inv slotOf { s with offHeap := on } :=
  ⟨h.installed, h.locked, h.hashed, h.alive, h.buffers, h.inQ, h.taken,
    h.msgq.congr rfl rfl (fun _ ht => ⟨ht, id⟩) fun _ => id,
    fun t => (h.senders t).congr rfl (fun _ => Or.inl) id⟩

/-- Nothing has been sent. -/
theorem inv_init : Inv slotOf (State.init : State Pid Payload) := by
  refine ⟨fun a i hi => ?_, fun a i e he => ?_, fun a ha => ?_, fun a ha => ?_, fun a ha => ?_,
    fun k hk => absurd hk has_nil, fun ht => ht.elim, trivial, fun t => trivial⟩
  · cases hi
  · cases he
  · cases ha
  · cases ha
  · cases ha

/-- What an event sends for `t`. -/
def Event.sent (t : Pid) : Event Pid Payload → List (Signal Pid Payload)
  | .send t' chain _ => if t' = t then chain else []
  | _ => []

/-- What `t` sends in a run. -/
def sentBy (t : Pid) (events : List (Event Pid Payload)) : List (Signal Pid Payload) :=
  events.flatMap (·.sent t)

/-- A sender goes to a place with its chain. -/
theorem Follows.setSender (h : Inv slotOf s) {u : Pid} {x : Sender Pid Payload}
    {chain : List (Signal Pid Payload)} (hbuffer : s.senders u ≠ .inBuffer)
    (hmsgq : s.senders u ≠ .inMsgq) (hx : SenderInv slotOf (s.setSender u x) u)
    (hunderway : State.underway slotOf (s.setSender u x) u = s.underway slotOf u ++ chain) :
    Inv slotOf (s.setSender u x) ∧ ∀ t, State.history slotOf (s.setSender u x) t =
      s.history slotOf t ++ if u = t then chain else [] := by
  refine ⟨h.setSender hbuffer (h.msgq_setSender hmsgq) hx, fun t => ?_⟩
  by_cases ht : u = t
  · rw [if_pos ht, ← ht]
    exact history_setSender_self hunderway
  · rw [if_neg ht, List.append_nil]
    exact history_setSender (Ne.symm ht)

/-- **A sender begins to send.** -/
theorem step_send (h : Inv slotOf s) {chain : List (Signal Pid Payload)} {u : Pid} {force : Bool}
    (hvalid : ValidChain u chain) (hrun : s.step slotOf (.send u chain force) = some s') :
    Inv slotOf s' ∧
      ∀ t, s'.history slotOf t = s.history slotOf t ++ if u = t then chain else [] := by
  rw [State.step] at hrun
  cases hsender : s.senders u with
  | idle =>
    simp only [hsender] at hrun
    have hbuffer : s.senders u ≠ .inBuffer := by
      rw [hsender]
      exact fun hc => by cases hc
    have hmsgq : s.senders u ≠ .inMsgq := by
      rw [hsender]
      exact fun hc => by cases hc
    have hidle : s.underway slotOf u = [] := by rw [State.underway, hsender]
    cases force with
    | true =>
      cases hrun
      refine Follows.setSender h hbuffer hmsgq ?_ ?_
      · rw [SenderInv, State.setSender_self]
        exact ⟨hvalid, fun hf => by cases hf⟩
      · rw [hidle, State.underway, State.setSender_self]
        rfl
    | false =>
      rw [if_neg Bool.false_ne_true] at hrun
      cases hs : s.sigInqBuffers with
      | some a =>
        simp only [hs] at hrun
        cases hrun
        refine Follows.setSender h hbuffer hmsgq ?_ ?_
        · rw [SenderInv, State.setSender_self]
          refine ⟨hvalid, ?_⟩
          cases halive : (s.bufferOf slotOf a u).alive with
          | true => exact Or.inl ⟨hs, halive⟩
          | false =>
            refine Or.inr ?_
            show s.buffered slotOf u = []
            rw [State.buffered, hs]
            exact if_neg (by rw [halive]; exact Bool.false_ne_true)
        · rw [hidle, State.underway, State.setSender_self]
          rfl
      | none =>
        simp only [hs] at hrun
        cases hrun
        refine Follows.setSender h hbuffer hmsgq ?_ ?_
        · rw [SenderInv, State.setSender_self]
          refine ⟨hvalid, fun _ => ?_⟩
          show s.buffered slotOf u = []
          rw [State.buffered, hs]
        · rw [hidle, State.underway, State.setSender_self]
          rfl
  | _ =>
    simp only [hsender] at hrun
    cases hrun

/-- **A sender locks its buffer**, or finds that it is dead. -/
theorem step_lockBuffer (h : Inv slotOf s) {u : Pid}
    (hrun : s.step slotOf (.lockBuffer u) = some s') : Follows slotOf s s' := by
  rw [State.step] at hrun
  cases hsender : s.senders u with
  | lockBuffer a chain =>
    simp only [hsender] at hrun
    split at hrun
    · cases hrun
    · rename_i hfree
      have hlock := Option.not_isSome_iff_eq_none.1 hfree
      split at hrun
      · rename_i halive
        cases hrun
        exact ⟨h.lockBuffer hsender halive, history_lockBuffer h hsender hlock halive⟩
      · rename_i hdead
        cases hrun
        have hinv := h.senders u
        rw [SenderInv, hsender] at hinv
        obtain ⟨hvalid, hopen⟩ := hinv
        have hnil := hopen.resolve_left fun ho => hdead ho.2
        have hunderway : State.underway slotOf (s.setSender u (.lockMsgq chain false)) u =
            s.underway slotOf u ++ [] := by
          rw [List.append_nil, State.underway, State.underway, State.setSender_self, hsender]
        obtain ⟨h', hhistory⟩ := Follows.setSender h (by rw [hsender]; exact fun hc => by cases hc)
          (by rw [hsender]; exact fun hc => by cases hc)
          (by rw [SenderInv, State.setSender_self]; exact ⟨hvalid, fun _ => hnil⟩) hunderway
        refine ⟨h', fun t => ?_⟩
        rw [hhistory, ite_self, List.append_nil]
  | _ =>
    simp only [hsender] at hrun
    cases hrun

/-- **A sender locks `MSGQ`.** -/
theorem step_lockMsgq (h : Inv slotOf s) {u : Pid} {busy : Bool}
    (hrun : s.step slotOf (.lockMsgq u busy) = some s') : Follows slotOf s s' := by
  rw [State.step] at hrun
  cases hsender : s.senders u with
  | lockMsgq chain force =>
    cases hm : s.msgq with
    | free =>
      simp only [hsender, hm] at hrun
      cases hrun
      have hinv := h.senders u
      rw [SenderInv, hsender] at hinv
      obtain ⟨hvalid, hnil⟩ := hinv
      have hm' : (s.setSender u .inMsgq).msgq = .free := hm
      have h' : Inv slotOf (s.setSender u .inMsgq) := by
        refine h.setSender ?_ ?_ ?_
        · rw [hsender]
          exact fun hc => by cases hc
        · rw [MsgqInv, hm']
          trivial
        · rw [SenderInv, State.setSender_self]
          trivial
      have hplain : (s.setSender u .inMsgq).msgq.Plain := by
        rw [hm']
        exact ⟨rfl, id, fun _ => id, rfl, id⟩
      have h'' : Inv slotOf { s.setSender u .inMsgq with msgq := .readState u chain force } :=
        h'.setMsgq hplain ⟨rfl, id, fun _ => id, rfl, id⟩
          ⟨⟨State.setSender_self s u _, hvalid⟩, hnil⟩
      refine ⟨h''.setContention _, fun t => ?_⟩
      have hunderway : State.underway slotOf ({ s with
          contention := sigQueueLock busy s.contention
          msgq := .readState u chain force }.setSender u .inMsgq) t = s.underway slotOf t := by
        by_cases ht : t = u
        · rw [ht, State.underway, State.underway, State.setSender_self, hsender]
          exact if_pos rfl
        · have hsame : ({ s with
              contention := sigQueueLock busy s.contention
              msgq := .readState u chain force }.setSender u .inMsgq).senders t = s.senders t :=
            State.setSender_of_ne ht _
          rw [State.underway, State.underway, hsame]
          cases s.senders t with
          | inMsgq =>
            rw [hm]
            exact if_neg (Ne.symm ht)
          | _ => rfl
      rw [State.history, hunderway]
      rfl
    | _ =>
      simp only [hsender, hm] at hrun
      cases hrun
  | _ =>
    simp only [hsender] at hrun
    cases hrun

/-- **A step.** -/
theorem step_follows (h : Inv slotOf s) {event : Event Pid Payload} (hvalid : event.Valid)
    (hrun : s.step slotOf event = some s') :
    Inv slotOf s' ∧ ∀ t, s'.history slotOf t = s.history slotOf t ++ event.sent t := by
  have hquiet : (∀ t, event.sent t = []) → Follows slotOf s s' →
      Inv slotOf s' ∧ ∀ t, s'.history slotOf t = s.history slotOf t ++ event.sent t := by
    rintro hsent ⟨h', hhistory⟩
    exact ⟨h', fun t => by rw [hhistory, hsent, List.append_nil]⟩
  cases event with
  | send u chain force => exact step_send h hvalid hrun
  | lockBuffer u => exact hquiet (fun _ => rfl) (step_lockBuffer h hrun)
  | buffer a i =>
    rw [State.step] at hrun
    exact hquiet (fun _ => rfl) ⟨h.buffer hrun, history_buffer h hrun⟩
  | lockMsgq u busy => exact hquiet (fun _ => rfl) (step_lockMsgq h hrun)
  | fetch busy =>
    refine hquiet (fun _ => rfl) ?_
    rw [State.step] at hrun
    split at hrun
    · rename_i hm
      have hc : Inv slotOf { s with contention := sigQueueLock busy s.contention } :=
        h.setContention _
      have hplain : s.msgq.Plain := by
        rw [hm]
        exact ⟨rfl, id, fun _ => id, rfl, id⟩
      dsimp only at hrun
      split at hrun
      · cases hrun
        exact ⟨hc, fun _ => rfl⟩
      · cases hrun
        refine ⟨hc.flushBuffers hplain trivial, fun t => ?_⟩
        refine (history_flushBuffers _ _ (fun a => ?_) t).trans rfl
        show (Msgq.flush Task.fetch a .clearMsgs).sending = s.msgq.sending
        rw [hm]
        rfl
    · cases hrun
  | change =>
    refine hquiet (fun _ => rfl) ?_
    rw [State.step] at hrun
    cases hm : s.msgq with
    | free =>
      cases hs : s.sigInqBuffers with
      | none =>
        simp only [hm, hs] at hrun
        cases hrun
      | some a =>
        simp only [hm, hs] at hrun
        cases hrun
        refine ⟨h.deinstallBuffers ?_ hs trivial, history_deinstallBuffers s a ?_⟩
        · rw [hm]
          exact ⟨rfl, id, fun _ => id, rfl, id⟩
        · rw [hm]
          rfl
    | _ =>
      simp only [hm] at hrun
      cases hrun
  | msgq =>
    rw [State.step] at hrun
    exact hquiet (fun _ => rfl) (.msgqStep h hrun)
  | setOffHeap on =>
    refine hquiet (fun _ => rfl) ?_
    rw [State.step] at hrun
    cases hrun
    exact ⟨h.setOffHeap on, fun _ => rfl⟩

/-- **A run.** -/
theorem run_follows (h : Inv slotOf s) {events : List (Event Pid Payload)}
    (hvalid : ∀ event ∈ events, event.Valid) (hrun : s.run slotOf events = some s') :
    Inv slotOf s' ∧ ∀ t, s'.history slotOf t = s.history slotOf t ++ sentBy t events := by
  induction events generalizing s with
  | nil =>
    cases hrun
    exact ⟨h, fun t => (List.append_nil _).symm⟩
  | cons event events ih =>
    obtain ⟨hevent, hrest⟩ := List.forall_mem_cons.1 hvalid
    rw [State.run, Option.bind_eq_some_iff] at hrun
    obtain ⟨s₁, hstep, hrun⟩ := hrun
    obtain ⟨h₁, hhistory₁⟩ := step_follows h hevent hstep
    obtain ⟨h', hhistory⟩ := ih h₁ hrest hrun
    refine ⟨h', fun t => ?_⟩
    rw [hhistory, hhistory₁, List.append_assoc, sentBy, sentBy, List.flatMap_cons]

/-! ## The receiver -/

/-- **Signals are delivered in order, and none is forgotten.** In every state that is reached by
senders, the receiver and those who hold `MSGQ` in its stead, in whatever order they take their
steps: the signals of a sender that have been fetched, are in the in-queue, are in its buffer or
are underway are what it has sent, in the order in which it has sent it; and if nobody holds
`MSGQ`, the bits of `state` are set for all signals that are still to be fetched, and a buffer
that has signals has its bit in `nonempty_slots`. -/
theorem signals_in_order (slotOf : Pid → Slot) (events : List (Event Pid Payload))
    (hvalid : ∀ event ∈ events, event.Valid) {s : State Pid Payload}
    (hrun : State.init.run slotOf events = some s) :
    (∀ t, (s.sigQs ++ s.sigInq).filter (·.sender = t) ++ s.buffered slotOf t ++
      s.underway slotOf t = sentBy t events) ∧
    (s.msgq = .free → (∀ x ∈ s.sigInq, s.inQ x.isMsg = true) ∧
      ∀ a, s.sigInqBuffers = some a → ∀ i, ∀ x ∈ ((s.arrays a).slots i).queue,
        s.inQ x.isMsg = true ∧ i ∈ (s.arrays a).nonemptySlots) ∧
    ∀ a, s.sigInqBuffers = some a → ∀ i,
      (((s.arrays a).slots i).queue = [] ↔ ((s.arrays a).slots i).nrOfEnqueues = 0) := by
  obtain ⟨h, hhistory⟩ := run_follows inv_init hvalid hrun
  refine ⟨fun t => hhistory t, fun hfree => ⟨fun x hx => h.inQ _ ⟨x, hx, rfl⟩,
    fun a ha i x hx => ?_⟩, fun a ha i => (h.buffers a ha i).counted⟩
  have hb := h.buffers a ha i
  rw [hfree] at hb
  refine ⟨(hb.carried _ (Or.inl ⟨x, hx, rfl⟩)).resolve_right id, ?_⟩
  exact (hb.marked (Or.inl (List.ne_nil_of_mem hx))).resolve_right List.not_mem_nil

/-! ## A run in which buffers are installed -/

/-- A message. -/
def message (t payload : ℕ) : Signal ℕ ℕ := ⟨t, true, payload⟩

/-- Another signal. -/
def nonMessage (t payload : ℕ) : Signal ℕ ℕ := ⟨t, false, payload⟩

instance (chain : List (Signal Pid Payload)) : Decidable (Shape chain) :=
  inferInstanceAs (Decidable (_ ∧ (_ ∨ _ ∨ _ ∧ _)))

instance (t : ℕ) (chain : List (Signal ℕ ℕ)) : Decidable (ValidChain t chain) :=
  inferInstanceAs (Decidable (_ ∧ _))

instance (event : Event ℕ ℕ) : Decidable event.Valid :=
  match event with
  | .send t chain _ => inferInstanceAs (Decidable (ValidChain t chain))
  | .lockBuffer _ | .buffer _ _ | .lockMsgq _ _ | .fetch _ | .change | .msgq | .setOffHeap _ =>
    isTrue trivial

/-- The senders are spread over the buffers. -/
def modSlots (t : ℕ) : Slot := ⟨t % nrOfBuffers, Nat.mod_lt _ (Nat.zero_lt_succ _)⟩

/-- The sender 1 enqueues a message on the in-queue, whose lock it has to wait for. -/
def waits (payload : ℕ) : List (Event ℕ ℕ) :=
  [.send 1 [message 1 payload] false, .lockMsgq 1 true, .msgq, .msgq, .msgq]

/-- The sender 2 goes on in its buffer. -/
def goesOn : Event ℕ ℕ := .buffer 0 (modSlots 2)

/-- After 51 enqueues there are buffers. A fetch clears the kinds while the sender 2 is setting
them, and takes its bit; later a sender with `force_flush` waits for a buffer. -/
def raced : List (Event ℕ ℕ) :=
  .setOffHeap true :: (List.range 51).flatMap waits ++ List.replicate 5 .msgq ++
    [.send 2 [nonMessage 2 0, message 2 1] false, .lockBuffer 2, goesOn, .fetch false, .msgq,
      goesOn, .msgq, goesOn, .msgq] ++ List.replicate 9 goesOn ++ List.replicate 9 .msgq ++
    [.send 2 [message 2 2] false, .lockBuffer 2] ++ List.replicate 7 goesOn ++
    [.send 1 [message 1 51] true, .lockMsgq 1 false, .msgq]

theorem raced_in_order :
    ((State.init.run modSlots raced).map fun s =>
      (s.sigQs.length, ((s.arrays 0).slots (modSlots 2)).queue)) = some (53, [message 2 2]) ∧
    ∃ s, State.init.run modSlots raced = some s ∧
      (∀ t, (s.sigQs ++ s.sigInq).filter (·.sender = t) ++ s.buffered modSlots t ++
        s.underway modSlots t = sentBy t raced) ∧
      (s.msgq = .free → (∀ x ∈ s.sigInq, s.inQ x.isMsg = true) ∧
        ∀ a, s.sigInqBuffers = some a → ∀ i, ∀ x ∈ ((s.arrays a).slots i).queue,
          s.inQ x.isMsg = true ∧ i ∈ (s.arrays a).nonemptySlots) ∧
      ∀ a, s.sigInqBuffers = some a → ∀ i,
        (((s.arrays a).slots i).queue = [] ↔ ((s.arrays a).slots i).nrOfEnqueues = 0) := by
  have hsome : (State.init.run modSlots raced).isSome = true := by decide +kernel
  obtain ⟨s, hrun⟩ := Option.isSome_iff_exists.1 hsome
  exact ⟨by decide +kernel, s, hrun, signals_in_order modSlots raced (by decide +kernel) hrun⟩

end PonBeam.SigBuffers
