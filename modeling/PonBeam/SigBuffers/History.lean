import PonBeam.SigBuffers.Fetch

/-!
# The signals of a sender

Where the signals of one sender are, from those that have been fetched to those that it is about
to enqueue: no step loses one, adds one or changes their order.
-/

namespace PonBeam.SigBuffers

variable {Pid Payload : Type} {slotOf : Pid → Slot} {s s' : State Pid Payload} {t : Pid}
  {a : Addr} {i : Slot}

/-- What the holder of `MSGQ` is about to enqueue, with its sender. -/
def Msgq.sending : Msgq Pid Payload → Option (Pid × List (Signal Pid Payload))
  | .readState t chain _ => some (t, chain)
  | .install d _ | .flush (.direct d _ _) _ _ | .link d => some (d.sender, d.chain)
  | _ => none

theorem sending_flush (task : Task Pid Payload) (a : Addr) (pc pc' : FlushPc) :
    (Msgq.flush task a pc).sending = (Msgq.flush task a pc').sending := by
  cases task <;> rfl

/-- What the holder is about to enqueue stays, also when a flush is done. -/
theorem sending_flushed (s : State Pid Payload) (buffers : Option Addr) (a : Addr)
    (task : Task Pid Payload) (pc : FlushPc) :
    (s.flushed buffers task).sending = (Msgq.flush task a pc).sending := by
  cases task with
  | direct d force again =>
    rcases flushed_direct s buffers d force again with h | ⟨a', -, h⟩ <;> rw [h] <;> rfl
  | _ => rfl

variable [DecidableEq Pid]

/-- What a thread in a buffer is about to enqueue, if it is `t`. -/
def Enqueuer.pending (t : Pid) (e : Enqueuer Pid Payload) : List (Signal Pid Payload) :=
  if e.sender = t ∧ e.pc ≠ .unlock then e.chain else []

/-- What `t` is about to enqueue. -/
def State.underway (slotOf : Pid → Slot) (s : State Pid Payload) (t : Pid) :
    List (Signal Pid Payload) :=
  match s.senders t with
  | .idle => []
  | .lockBuffer _ chain | .lockMsgq chain _ => chain
  | .inBuffer =>
    match s.sigInqBuffers.bind fun a => (s.bufferOf slotOf a t).lock with
    | some e => e.pending t
    | none => []
  | .inMsgq =>
    match s.msgq.sending with
    | some (t', chain) => if t' = t then chain else []
    | none => []

/-- All signals of `t`, in the order they will be fetched. -/
def State.history (slotOf : Pid → Slot) (s : State Pid Payload) (t : Pid) :
    List (Signal Pid Payload) :=
  (s.sigQs ++ s.sigInq).filter (·.sender = t) ++ s.buffered slotOf t ++ s.underway slotOf t

/-- The buffers are as before. -/
theorem history_congr (hptr : s'.sigInqBuffers = s.sigInqBuffers)
    (hslots : ∀ a, (s'.arrays a).slots = (s.arrays a).slots)
    (hqueues : s'.sigQs ++ s'.sigInq = s.sigQs ++ s.sigInq) (hsenders : s'.senders = s.senders)
    (hsending : s'.msgq.sending = s.msgq.sending) (t : Pid) :
    s'.history slotOf t = s.history slotOf t := by
  have hbuffer : ∀ a, s'.bufferOf slotOf a t = s.bufferOf slotOf a t := fun a => by
    rw [State.bufferOf, hslots]
    rfl
  have hbuffered : s'.buffered slotOf t = s.buffered slotOf t :=
    buffered_congr hptr (fun a _ => by rw [hbuffer]) fun a _ => by rw [hbuffer]
  rw [State.history, State.history, hqueues, hbuffered, State.underway, State.underway, hptr,
    hsenders, hsending]
  simp only [hbuffer]

/-- The signals in a buffer are moved to the in-queue. -/
theorem history_takeBuffer (h : Inv slotOf s) {x : BufferArray Pid Payload}
    {b : Buffer Pid Payload} {m : Msgq Pid Payload} (hs : s.sigInqBuffers = some a)
    (halive : ((s.arrays a).slots i).alive = true)
    (hlock : ((s.arrays a).slots i).lock = none) (hb : b.lock = none)
    (htaken : b.alive = true → b.queue = []) (hx : x.slots = (s.arrays a).slots)
    (hsending : m.sending = s.msgq.sending) (t : Pid) :
    State.history slotOf { s.setArray a (x.setSlot i b) with
      sigInq := s.sigInq ++ ((s.arrays a).slots i).queue, msgq := m } t =
      s.history slotOf t := by
  generalize hs' : ({ s.setArray a (x.setSlot i b) with
    sigInq := s.sigInq ++ ((s.arrays a).slots i).queue, msgq := m } : State Pid Payload) = s'
  have hptr : s'.sigInqBuffers = s.sigInqBuffers := by rw [← hs']; rfl
  have hslots : (s'.arrays a).slots = (x.setSlot i b).slots := by
    rw [← hs']
    exact congrArg BufferArray.slots (State.setArray_self s a _)
  have hunderway : s'.underway slotOf t = s.underway slotOf t := by
    have hmsgq : s'.msgq.sending = s.msgq.sending := by rw [← hs', ← hsending]
    have hsenders : s'.senders = s.senders := by rw [← hs']; rfl
    have hbuf : (s'.bufferOf slotOf a t).lock = (s.bufferOf slotOf a t).lock := by
      rw [State.bufferOf, State.bufferOf, hslots]
      by_cases hi : slotOf t = i
      · rw [hi, BufferArray.setSlot_self, hb, hlock]
      · rw [BufferArray.setSlot_of_ne hi, hx]
    rw [State.underway, State.underway, hsenders, hmsgq, hptr, hs]
    show (match s.senders t with
      | .idle => _
      | .lockBuffer _ _ => _
      | .lockMsgq _ _ => _
      | .inBuffer => match (s'.bufferOf slotOf a t).lock with
        | some _ => _
        | none => _
      | .inMsgq => _) = _
    rw [hbuf]
    rfl
  have hqueues : s'.sigQs ++ s'.sigInq =
      s.sigQs ++ s.sigInq ++ ((s.arrays a).slots i).queue := by
    rw [← hs', List.append_assoc]
    rfl
  have hbuffered : ((s.arrays a).slots i).queue.filter (·.sender = t) ++ s'.buffered slotOf t =
      s.buffered slotOf t := by
    rw [State.buffered, State.buffered, hptr, hs]
    show _ ++ (if _ then List.filter _ (s'.bufferOf slotOf a t).queue else _) =
      if _ then List.filter _ (s.bufferOf slotOf a t).queue else _
    rw [State.bufferOf, State.bufferOf, hslots]
    by_cases hi : slotOf t = i
    · rw [hi, BufferArray.setSlot_self, if_pos halive]
      split
      · rename_i hb'
        rw [htaken hb', List.filter_nil, List.append_nil]
      · exact List.append_nil _
    · have hnil : ((s.arrays a).slots i).queue.filter (·.sender = t) = [] := by
        rw [List.filter_eq_nil_iff]
        intro y hy hsender
        exact hi (by rw [← h.hashed a hs i y hy, of_decide_eq_true hsender])
      rw [BufferArray.setSlot_of_ne hi, hx, hnil]
      rfl
  rw [State.history, State.history, hqueues, hunderway, List.filter_append, List.append_assoc,
    List.append_assoc, List.append_assoc, ← hbuffered, List.append_assoc]

/-! ## Steps of a sender -/

theorem Enqueuer.pending_of_ne {e : Enqueuer Pid Payload} (h : e.sender ≠ t) :
    e.pending t = [] := if_neg fun hc => h hc.1

/-- What another sender is about to enqueue. -/
theorem BufferStep.underway {u : Pid} (h : BufferStep s s' a i u) (ht : t ≠ u)
    (hlock : ∀ e, ((s.arrays a).slots i).lock = some e → e.sender = u)
    (hlock' : ∀ e, ((s'.arrays a).slots i).lock = some e → e.sender = u) :
    s'.underway slotOf t = s.underway slotOf t := by
  rw [State.underway, State.underway, h.senders t ht, h.msgq, h.sigInqBuffers]
  cases hs : s.sigInqBuffers with
  | none => rfl
  | some a' =>
    have hbuf : (match (s'.bufferOf slotOf a' t).lock with
        | some e => e.pending t
        | none => []) = match (s.bufferOf slotOf a' t).lock with
        | some e => e.pending t
        | none => [] := by
      rw [State.bufferOf, State.bufferOf]
      by_cases hj : a' = a ∧ slotOf t = i
      · -- the thread in this buffer is another
        rw [hj.1, hj.2]
        have hnil : ∀ lock : Option (Enqueuer Pid Payload), (∀ e, lock = some e → e.sender = u) →
            (match lock with
              | some e => e.pending t
              | none => []) = [] := by
          intro lock hl
          cases lock with
          | none => rfl
          | some e => exact e.pending_of_ne (by rw [hl e rfl]; exact ht.symm)
        rw [hnil _ hlock, hnil _ hlock']
      · rw [h.slots_of_ne hj]
    cases hsender : s.senders t with
    | inBuffer => exact hbuf
    | _ => rfl

/-- What `t` has in its buffer. -/
theorem buffered_self {b : Buffer Pid Payload} (hs : s.sigInqBuffers = some a)
    (hb : (s.arrays a).slots (slotOf t) = b) (halive : b.alive = true) :
    s.buffered slotOf t = b.queue.filter (·.sender = t) := by
  rw [State.buffered, hs, ← hb]
  exact if_pos (by rw [State.bufferOf, hb, halive])

/-- What `t` is about to enqueue on it. -/
theorem underway_inBuffer {b : Buffer Pid Payload} {e : Enqueuer Pid Payload}
    (hs : s.sigInqBuffers = some a) (hb : (s.arrays a).slots (slotOf t) = b)
    (hin : s.senders t = .inBuffer) (hlock : b.lock = some e) :
    s.underway slotOf t = e.pending t := by
  have hlock' : (s.bufferOf slotOf a t).lock = some e := by rw [State.bufferOf, hb, hlock]
  rw [State.underway, hin, hs]
  show (match (s.bufferOf slotOf a t).lock with
    | some e => e.pending t
    | none => []) = _
  rw [hlock']

theorem Enqueuer.pending_self {e : Enqueuer Pid Payload} (h : e.pc ≠ .unlock) :
    e.pending e.sender = e.chain := if_pos ⟨rfl, h⟩

/-- **A step of a sender in its buffer**, which had `b` and has `b'` in it. -/
theorem BufferStep.history {u : Pid} {b b' : Buffer Pid Payload}
    (h : BufferStep s s' a (slotOf u) u) (hqs : s'.sigQs = s.sigQs)
    (hs : s.sigInqBuffers = some a) (hb : (s.arrays a).slots (slotOf u) = b)
    (hb' : (s'.arrays a).slots (slotOf u) = b') (halive : b.alive = true)
    (hlock : ∀ e, b.lock = some e → e.sender = u) (hlock' : ∀ e, b'.lock = some e → e.sender = u)
    (hu : b'.queue.filter (·.sender = u) ++ s'.underway slotOf u =
      b.queue.filter (·.sender = u) ++ s.underway slotOf u) (t : Pid) :
    s'.history slotOf t = s.history slotOf t := by
  rw [State.history, State.history, hqs, h.sigInq, List.append_assoc, List.append_assoc]
  by_cases ht : t = u
  · have halive' : b'.alive = true := by rw [← hb', h.alive, hb, halive]
    rw [ht, buffered_self hs hb halive,
      buffered_self (h.sigInqBuffers.trans hs) hb' halive', hu]
  · rw [h.buffered ht, h.underway ht (by rw [hb]; exact hlock) (by rw [hb']; exact hlock')]

/-- What a step in the buffer `i` at `a` by `e` does. -/
inductive BufferAction (s : State Pid Payload) (a : Addr) (i : Slot) (e : Enqueuer Pid Payload) :
    State Pid Payload → Prop where
  /-- it goes on, and sets words -/
  | goto (x : BufferArray Pid Payload) (pc : Pc) : e.pc ≠ .unlock → pc ≠ .unlock →
      x.slots = (s.arrays a).slots → x.alive = (s.arrays a).alive →
      (∀ j, j ≠ i → (j ∈ (s.arrays a).nonemptySlots ↔ j ∈ x.nonemptySlots)) →
      (∀ k, (s.arrays a).inSlots k = true → x.inSlots k = true) →
      BufferAction s a i e (s.setArray a (x.setSlot i
        { (s.arrays a).slots i with lock := some { e with pc := pc } }))
  /-- it appends its signals -/
  | enqueue (msg nmsg : Bool) : e.pc = .enqueue msg nmsg →
      BufferAction s a i e ((s.setBuffer a i { (s.arrays a).slots i with
          lock := some { e with pc := .unlock }
          queue := ((s.arrays a).slots i).queue ++ e.chain
          nrOfEnqueues := ((s.arrays a).slots i).nrOfEnqueues + 1 }).setFlags msg nmsg
        (decide (e.chain.countP (·.isMsg) ≠ 0))
        (nonmsg e.chain && ((s.arrays a).slots i).queue.all (·.isMsg)))
  /-- it unlocks the buffer -/
  | unlock : e.pc = .unlock →
      BufferAction s a i e ((s.setBuffer a i { (s.arrays a).slots i with
        lock := none }).setSender e.sender .idle)

theorem bufferStep_cases (hrun : s.bufferStep a i = some s') :
    ∃ e, ((s.arrays a).slots i).lock = some e ∧ BufferAction s a i e s' := by
  rw [State.bufferStep] at hrun
  cases hlock : ((s.arrays a).slots i).lock with
  | none =>
    rw [hlock] at hrun
    cases hrun
  | some e =>
    simp only [hlock] at hrun
    refine ⟨e, rfl, ?_⟩
    cases hpc : e.pc with
    | setMsgs =>
      simp only [hpc] at hrun
      cases hrun
      refine .goto _ _ (by rw [hpc]; exact Pc.noConfusion) Pc.noConfusion ?_ ?_ ?_ fun k hk => ?_
      · split <;> rfl
      · split <;> rfl
      · intro j _
        split <;> rfl
      · split
        · cases k
          · exact hk
          · rfl
        · exact hk
    | setNonmsgs =>
      simp only [hpc] at hrun
      cases hrun
      refine .goto _ _ (by rw [hpc]; exact Pc.noConfusion) Pc.noConfusion ?_ ?_ ?_ fun k hk => ?_
      · split <;> rfl
      · split <;> rfl
      · intro j _
        split <;> rfl
      · split
        · cases k
          · rfl
          · exact hk
        · exact hk
    | mark =>
      simp only [hpc] at hrun
      split at hrun
      · cases hrun
        refine .goto _ _ (by rw [hpc]; exact Pc.noConfusion) Pc.noConfusion rfl rfl (fun j hj => ?_)
          fun k hk => by cases k <;> exact hk
        exact (Finset.mem_insert.trans (or_iff_right hj)).symm
      · split at hrun <;> cases hrun <;>
          exact .goto _ _ (by rw [hpc]; exact Pc.noConfusion) Pc.noConfusion rfl rfl
            (fun _ _ => Iff.rfl) fun _ => id
    | checkMsgs =>
      simp only [hpc] at hrun
      split at hrun <;> cases hrun <;>
        exact .goto _ _ (by rw [hpc]; exact Pc.noConfusion) Pc.noConfusion rfl rfl
          (fun _ _ => Iff.rfl) fun _ => id
    | checkNonmsgs =>
      simp only [hpc] at hrun
      split at hrun <;> cases hrun <;>
        exact .goto _ _ (by rw [hpc]; exact Pc.noConfusion) Pc.noConfusion rfl rfl
          (fun _ _ => Iff.rfl) fun _ => id
    | readState =>
      simp only [hpc] at hrun
      cases hrun
      exact .goto _ _ (by rw [hpc]; exact Pc.noConfusion) Pc.noConfusion rfl rfl
        (fun _ _ => Iff.rfl) fun _ => id
    | enqueue msg nmsg =>
      simp only [hpc] at hrun
      cases hrun
      exact .enqueue msg nmsg hpc
    | unlock =>
      simp only [hpc] at hrun
      cases hrun
      exact .unlock hpc

/-- **A step of the sender that has locked a buffer.** -/
theorem history_buffer (h : Inv slotOf s) (hrun : s.bufferStep a i = some s') (t : Pid) :
    s'.history slotOf t = s.history slotOf t := by
  obtain ⟨e, hlock, haction⟩ := bufferStep_cases hrun
  obtain ⟨halive, hin, rfl, hvalid⟩ := h.locked a i e hlock
  have hs := h.installed a _ halive
  have hsender : ∀ e', ((s.arrays a).slots (slotOf e.sender)).lock = some e' →
      e'.sender = e.sender := fun e' he' => by rw [Option.some.inj (he'.symm.trans hlock)]
  have hnotIn : s.senders e.sender ≠ .inMsgq := by
    rw [hin]
    exact fun hc => by cases hc
  have hunderway := underway_inBuffer hs rfl hin hlock
  cases haction with
  | goto x pc hne hne' hslots hax hbits hwords =>
    have hself : ((s.setArray a (x.setSlot (slotOf e.sender) { (s.arrays a).slots
        (slotOf e.sender) with lock := some { e with pc := pc } })).arrays a).slots
        (slotOf e.sender) = { (s.arrays a).slots (slotOf e.sender) with
          lock := some { e with pc := pc } } := by
      rw [State.setArray_self, BufferArray.setSlot_self]
    refine BufferStep.history (.goto hin hslots hax hbits hwords) rfl hs rfl hself halive hsender
      (fun e' he' => by rw [← Option.some.inj he']) ?_ t
    rw [hunderway, Enqueuer.pending_self hne]
    refine congrArg _ ((underway_inBuffer ?_ hself ?_ rfl).trans
      (Enqueuer.pending_self (e := { e with pc := pc }) hne'))
    · exact hs
    · exact hin
  | enqueue msg nmsg hpc =>
    have hself : (((s.setBuffer a (slotOf e.sender) { (s.arrays a).slots (slotOf e.sender) with
          lock := some { e with pc := .unlock }
          queue := ((s.arrays a).slots (slotOf e.sender)).queue ++ e.chain
          nrOfEnqueues := ((s.arrays a).slots (slotOf e.sender)).nrOfEnqueues + 1 }).setFlags
        msg nmsg (decide (e.chain.countP (·.isMsg) ≠ 0))
        (nonmsg e.chain && ((s.arrays a).slots (slotOf e.sender)).queue.all (·.isMsg))).arrays
        a).slots (slotOf e.sender) = { (s.arrays a).slots (slotOf e.sender) with
          lock := some { e with pc := .unlock }
          queue := ((s.arrays a).slots (slotOf e.sender)).queue ++ e.chain
          nrOfEnqueues := ((s.arrays a).slots (slotOf e.sender)).nrOfEnqueues + 1 } := by
      rw [State.setFlags_arrays, State.setBuffer_self]
    refine BufferStep.history (.enqueue hin hvalid) ?_ hs rfl hself halive hsender
      (fun e' he' => by rw [← Option.some.inj he']) ?_ t
    · rw [State.setFlags_sigQs]
      rfl
    rw [hunderway, Enqueuer.pending_self (by rw [hpc]; exact Pc.noConfusion),
      List.filter_append, hvalid.filter_self, underway_inBuffer ?_ hself ?_ rfl]
    · rw [Enqueuer.pending, if_neg fun hc => hc.2 rfl, List.append_nil]
    · rw [State.setFlags_sigInqBuffers]
      exact hs
    · rw [State.setFlags_senders]
      exact hin
  | unlock hpc =>
    have hself : ((((s.setBuffer a (slotOf e.sender) { (s.arrays a).slots (slotOf e.sender) with
        lock := none }).setSender e.sender .idle).arrays a).slots (slotOf e.sender)) =
        { (s.arrays a).slots (slotOf e.sender) with lock := none } :=
      State.setBuffer_self _ _ _ _
    refine BufferStep.history (.setSender (.setBuffer hnotIn ?_ fun _ _ => ?_) _) rfl hs rfl hself
      halive hsender (fun e' he' => ?_) ?_ t
    · rfl
    · rfl
    · cases he'
    · rw [hunderway, Enqueuer.pending, if_neg fun hc => hc.2 hpc, State.underway,
        State.setSender_self]

/-- A sender locks its buffer. -/
theorem history_lockBuffer (h : Inv slotOf s) {chain : List (Signal Pid Payload)} {u : Pid}
    (hsender : s.senders u = .lockBuffer a chain)
    (hlock : ((s.arrays a).slots (slotOf u)).lock = none)
    (halive : ((s.arrays a).slots (slotOf u)).alive = true) (t : Pid) :
    State.history slotOf ((s.setBuffer a (slotOf u) { (s.arrays a).slots (slotOf u) with
      lock := some ⟨u, chain, .setMsgs⟩ }).setSender u .inBuffer) t = s.history slotOf t := by
  have hs := h.installed a _ halive
  have hself : (((s.setBuffer a (slotOf u) { (s.arrays a).slots (slotOf u) with
      lock := some ⟨u, chain, .setMsgs⟩ }).setSender u .inBuffer).arrays a).slots (slotOf u) =
      { (s.arrays a).slots (slotOf u) with lock := some ⟨u, chain, .setMsgs⟩ } :=
    State.setBuffer_self _ _ _ _
  refine BufferStep.history (.setSender (.setBuffer ?_ ?_ fun _ _ => ?_) _) rfl hs rfl hself halive
    (fun e he => ?_) (fun e he => ?_) ?_ t
  · rw [hsender]
    exact fun hc => by cases hc
  · rfl
  · rfl
  · rw [hlock] at he
    cases he
  · rw [← Option.some.inj he]
  · rw [underway_inBuffer ?_ hself (State.setSender_self _ _ _) rfl]
    · rw [State.underway, hsender]
      exact congrArg _ (Enqueuer.pending_self (e := ⟨u, chain, .setMsgs⟩) Pc.noConfusion)
    · exact hs

/-- What a sender is about to enqueue changes with what it does next only. -/
theorem history_setSender {x : Sender Pid Payload} {u : Pid} (ht : t ≠ u) :
    State.history slotOf (s.setSender u x) t = s.history slotOf t := by
  have hunderway : State.underway slotOf (s.setSender u x) t = s.underway slotOf t := by
    rw [State.underway, State.underway, State.setSender_of_ne ht]
    rfl
  rw [State.history, hunderway]
  rfl

/-- Another chain is what it is about to enqueue. -/
theorem history_setSender_self {x : Sender Pid Payload} {chain : List (Signal Pid Payload)}
    (hx : State.underway slotOf (s.setSender t x) t = s.underway slotOf t ++ chain) :
    State.history slotOf (s.setSender t x) t = s.history slotOf t ++ chain := by
  rw [State.history, hx, ← List.append_assoc]
  rfl

/-! ## Steps of the holder of `MSGQ` -/

/-- Buffers are installed. -/
theorem history_maybeInstallBuffers (s : State Pid Payload) (offHeap : Bool) (t : Pid) :
    State.history slotOf (s.maybeInstallBuffers offHeap) t = s.history slotOf t := by
  rw [State.maybeInstallBuffers]
  split
  · rfl
  · rename_i hcond
    have hnone : s.sigInqBuffers = none := by
      by_contra hne
      exact hcond (Or.inr (Or.inl hne))
    generalize hs' : ({ s.setArray s.nextArray .fresh with
      contention := 0, nextArray := s.nextArray + 1, sigInqBuffers := some s.nextArray } :
        State Pid Payload) = s'
    have hptr : s'.sigInqBuffers = some s.nextArray := by rw [← hs']
    have hfresh : s'.arrays s.nextArray = .fresh := by
      rw [← hs']
      exact State.setArray_self s _ _
    have hbuffered : s'.buffered slotOf t = s.buffered slotOf t := by
      rw [State.buffered, State.buffered, hptr, hnone]
      show (if _ then _ else _) = _
      rw [State.bufferOf, hfresh]
      rfl
    have hunderway : s'.underway slotOf t = s.underway slotOf t := by
      have hsenders : s'.senders = s.senders := by rw [← hs']; rfl
      have hmsgq : s'.msgq = s.msgq := by rw [← hs']; rfl
      rw [State.underway, State.underway, hsenders, hmsgq, hptr, hnone]
      cases s.senders t with
      | inBuffer =>
        show (match (s'.bufferOf slotOf s.nextArray t).lock with
          | some e => e.pending t
          | none => []) = _
        rw [State.bufferOf, hfresh]
        rfl
      | _ => rfl
    rw [State.history, State.history, hbuffered, hunderway, ← hs']
    rfl

theorem history_flushBuffers (s : State Pid Payload) (task : Task Pid Payload)
    (hsending : ∀ a, (Msgq.flush task a .clearMsgs).sending = s.msgq.sending) (t : Pid) :
    State.history slotOf (s.flushBuffers task) t = s.history slotOf t := by
  rw [State.flushBuffers]
  split
  · refine history_congr (s := s) ?_ (fun _ => ?_) ?_ ?_ (hsending _) t <;> rfl
  · have hflushed := (sending_flushed s none 0 task .clearMsgs).trans (hsending 0)
    refine history_congr (s := s) ?_ (fun _ => ?_) ?_ ?_ hflushed t <;> rfl

/-- **A sender enqueues on the in-queue.** -/
theorem history_link (h : Inv slotOf s) {d : Direct Pid Payload} (hm : s.msgq = .link d)
    (seenMsg seenNmsg msg nmsg : Bool) (t : Pid) :
    State.history slotOf ((State.setFlags { s with
      sigInq := s.sigInq ++ d.chain, msgq := .free } seenMsg seenNmsg msg nmsg).setSender d.sender
        .idle) t = s.history slotOf t := by
  have hmsgq := h.msgq
  rw [MsgqInv, hm] at hmsgq
  obtain ⟨⟨⟨hin, hvalid⟩, -, -⟩, hnil⟩ := hmsgq
  generalize hs' : (State.setFlags { s with sigInq := s.sigInq ++ d.chain, msgq := .free } seenMsg
    seenNmsg msg nmsg).setSender d.sender .idle = s'
  have hptr : s'.sigInqBuffers = s.sigInqBuffers := by
    rw [← hs']
    exact State.setFlags_sigInqBuffers _ _ _ _ _
  have harrays : s'.arrays = s.arrays := by
    rw [← hs']
    exact State.setFlags_arrays _ _ _ _ _
  have hqueues : s'.sigQs ++ s'.sigInq = s.sigQs ++ s.sigInq ++ d.chain := by
    rw [← hs', List.append_assoc]
    exact congrArg₂ _ (State.setFlags_sigQs _ _ _ _ _) (State.setFlags_sigInq _ _ _ _ _)
  have hbuffer : ∀ a, s'.bufferOf slotOf a t = s.bufferOf slotOf a t := fun a => by
    rw [State.bufferOf, harrays]
    rfl
  have hbuffered : s'.buffered slotOf t = s.buffered slotOf t :=
    buffered_congr hptr (fun a _ => by rw [hbuffer]) fun a _ => by rw [hbuffer]
  rw [State.history, State.history, hqueues, hbuffered, List.filter_append]
  by_cases ht : t = d.sender
  · rw [ht, hvalid.filter_self, hnil, List.append_nil, List.append_nil, State.underway,
      State.underway, hin, hm, ← hs', State.setSender_self, List.append_nil]
    exact congrArg _ (if_pos rfl).symm
  · have hsender : s'.senders t = s.senders t := by
      rw [← hs', State.setSender_of_ne ht, State.setFlags_senders]
    have hmsgq : s'.msgq = .free := by
      rw [← hs']
      exact State.setFlags_msgq _ _ _ _ _
    rw [hvalid.filter_of_ne ht, List.append_nil, State.underway, State.underway, hsender, hptr,
      hmsgq, hm]
    simp only [hbuffer]
    cases s.senders t with
    | inMsgq => exact congrArg _ (if_neg (Ne.symm ht)).symm
    | _ => rfl

end PonBeam.SigBuffers
