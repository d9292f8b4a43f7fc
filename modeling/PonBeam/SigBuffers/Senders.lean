import PonBeam.SigBuffers.Invariant

/-!
# Steps of the senders

What a sender does to a buffer is seen by the holder of `MSGQ` only through the shared words.
While its buffer is locked a sender loses no bit but to a flush, and then it either finds the
words cleared, and sets them again, or the flush waits for it.
-/

namespace PonBeam.SigBuffers

variable {Pid Payload : Type} {slotOf : Pid → Slot} {s s' : State Pid Payload} {t : Pid}
  {a : Addr} {i : Slot}

/-! ## Writing -/

namespace State

@[simp] theorem setArray_sigInqBuffers (s : State Pid Payload) (a : Addr)
    (x : BufferArray Pid Payload) : (s.setArray a x).sigInqBuffers = s.sigInqBuffers := rfl

@[simp] theorem setArray_senders (s : State Pid Payload) (a : Addr)
    (x : BufferArray Pid Payload) : (s.setArray a x).senders = s.senders := rfl

@[simp] theorem setArray_msgq (s : State Pid Payload) (a : Addr)
    (x : BufferArray Pid Payload) : (s.setArray a x).msgq = s.msgq := rfl

@[simp] theorem setArray_sigInq (s : State Pid Payload) (a : Addr)
    (x : BufferArray Pid Payload) : (s.setArray a x).sigInq = s.sigInq := rfl

@[simp] theorem setArray_sigQs (s : State Pid Payload) (a : Addr)
    (x : BufferArray Pid Payload) : (s.setArray a x).sigQs = s.sigQs := rfl

@[simp] theorem setArray_inQ (s : State Pid Payload) (a : Addr)
    (x : BufferArray Pid Payload) : (s.setArray a x).inQ = s.inQ := by
  funext k
  cases k <;> rfl

@[simp] theorem setArray_self (s : State Pid Payload) (a : Addr)
    (x : BufferArray Pid Payload) : (s.setArray a x).arrays a = x := if_pos rfl

theorem setArray_of_ne {a' : Addr} (h : a' ≠ a) (x : BufferArray Pid Payload) :
    (s.setArray a x).arrays a' = s.arrays a' := if_neg h

/-- Bits of `state` are only set. -/
theorem setFlags_inQ {k seenMsg seenNmsg msg nmsg : Bool} (h : s.inQ k = true) :
    (s.setFlags seenMsg seenNmsg msg nmsg).inQ k = true := by
  rw [setFlags]
  split
  · exact h
  · cases k
    · exact (congrArg (· || nmsg) h).trans (Bool.true_or _)
    · exact (congrArg (· || msg) h).trans (Bool.true_or _)

/-- A bit that is to be set and has not been seen is set. -/
theorem setFlags_set {k seenMsg seenNmsg msg nmsg : Bool}
    (hset : (if k then msg else nmsg) = true) (hseen : (if k then seenMsg else seenNmsg) = false) :
    (s.setFlags seenMsg seenNmsg msg nmsg).inQ k = true := by
  rw [setFlags, if_neg]
  · cases k
    · exact (congrArg (s.nmsgSigInQ || ·) hset).trans (Bool.or_true _)
    · exact (congrArg (s.msgSigInQ || ·) hset).trans (Bool.or_true _)
  · rintro ⟨hmsg, hnmsg⟩
    cases k
    · exact Bool.false_ne_true (hseen.symm.trans (hnmsg hset))
    · exact Bool.false_ne_true (hseen.symm.trans (hmsg hset))

section SetFlags

variable (s : State Pid Payload) (seenMsg seenNmsg msg nmsg : Bool)

@[simp] theorem setFlags_sigInqBuffers :
    (s.setFlags seenMsg seenNmsg msg nmsg).sigInqBuffers = s.sigInqBuffers := by
  rw [setFlags]
  split <;> rfl

@[simp] theorem setFlags_arrays :
    (s.setFlags seenMsg seenNmsg msg nmsg).arrays = s.arrays := by
  rw [setFlags]
  split <;> rfl

@[simp] theorem setFlags_sigInq :
    (s.setFlags seenMsg seenNmsg msg nmsg).sigInq = s.sigInq := by
  rw [setFlags]
  split <;> rfl

@[simp] theorem setFlags_sigQs :
    (s.setFlags seenMsg seenNmsg msg nmsg).sigQs = s.sigQs := by
  rw [setFlags]
  split <;> rfl

@[simp] theorem setFlags_msgq :
    (s.setFlags seenMsg seenNmsg msg nmsg).msgq = s.msgq := by
  rw [setFlags]
  split <;> rfl

@[simp] theorem setFlags_senders :
    (s.setFlags seenMsg seenNmsg msg nmsg).senders = s.senders := by
  rw [setFlags]
  split <;> rfl

end SetFlags

section SetBuffer

variable (s : State Pid Payload) (a : Addr) (i : Slot) (b : Buffer Pid Payload)

@[simp] theorem setBuffer_self : ((s.setBuffer a i b).arrays a).slots i = b := by
  rw [setBuffer, setArray_self]
  exact if_pos rfl

@[simp] theorem setBuffer_nonemptySlots :
    ((s.setBuffer a i b).arrays a).nonemptySlots = (s.arrays a).nonemptySlots := by
  rw [setBuffer, setArray_self]
  rfl

@[simp] theorem setBuffer_inSlots :
    ((s.setBuffer a i b).arrays a).inSlots = (s.arrays a).inSlots := by
  rw [setBuffer, setArray_self]
  funext k
  cases k <;> rfl

@[simp] theorem setBuffer_alive :
    ((s.setBuffer a i b).arrays a).alive = (s.arrays a).alive := by
  rw [setBuffer, setArray_self]
  rfl

@[simp] theorem setBuffer_inQ : (s.setBuffer a i b).inQ = s.inQ := setArray_inQ _ _ _

end SetBuffer

end State

theorem BufferInv.setBuffer {b : Buffer Pid Payload} {pending clearing : Prop}
    {covers : Bool → Prop} (h : BufferInv b (i ∈ (s.arrays a).nonemptySlots) pending clearing
      (s.arrays a).inSlots s.inQ covers) :
    BufferInv (((s.setBuffer a i b).arrays a).slots i)
      (i ∈ ((s.setBuffer a i b).arrays a).nonemptySlots) pending clearing
      ((s.setBuffer a i b).arrays a).inSlots (s.setBuffer a i b).inQ covers := by
  rw [State.setBuffer_self, State.setBuffer_nonemptySlots, State.setBuffer_inSlots,
    State.setBuffer_inQ]
  exact h

@[simp] theorem BufferArray.setSlot_self (x : BufferArray Pid Payload) (i : Slot)
    (b : Buffer Pid Payload) : (x.setSlot i b).slots i = b := if_pos rfl

theorem BufferArray.setSlot_of_ne {x : BufferArray Pid Payload} {j : Slot} (h : j ≠ i)
    (b : Buffer Pid Payload) : (x.setSlot i b).slots j = x.slots j := if_neg h

theorem DirectInv.congr {chain : List (Signal Pid Payload)} (h : DirectInv s t chain)
    (hsender : s.senders t = .inMsgq → s'.senders t = .inMsgq) : DirectInv s' t chain :=
  ⟨hsender h.inMsgq, h.valid⟩

theorem SeenInv.congr {d : Direct Pid Payload} (h : SeenInv s d)
    (hsender : s.senders d.sender = .inMsgq → s'.senders d.sender = .inMsgq)
    (hq : ∀ k, s.inQ k = true → s'.inQ k = true) : SeenInv s' d :=
  ⟨h.toDirectInv.congr hsender, fun hmsg => hq true (h.msg hmsg),
    fun hnmsg => hq false (h.nmsg hnmsg)⟩

variable [DecidableEq Pid]

@[simp] theorem State.setSender_self (s : State Pid Payload) (t : Pid) (x : Sender Pid Payload) :
    (s.setSender t x).senders t = x := if_pos rfl

theorem State.setSender_of_ne {t' : Pid} (h : t' ≠ t) (x : Sender Pid Payload) :
    (s.setSender t x).senders t' = s.senders t' := if_neg h

/-! ## What does not change -/

/-- The signals of `t` in the array that is installed. -/
theorem buffered_eq (hs : s.sigInqBuffers = some a) : s.buffered slotOf t =
    if (s.bufferOf slotOf a t).alive then (s.bufferOf slotOf a t).queue.filter (·.sender = t)
    else [] := by
  rw [State.buffered, hs]

/-- For each sender, the array that is installed, whether its buffer is alive and what it has
there are the same. -/
theorem buffered_congr (hptr : s'.sigInqBuffers = s.sigInqBuffers)
    (halive : ∀ a, s.sigInqBuffers = some a →
      (s'.bufferOf slotOf a t).alive = (s.bufferOf slotOf a t).alive)
    (hqueue : ∀ a, s.sigInqBuffers = some a →
      (s'.bufferOf slotOf a t).queue.filter (·.sender = t) =
        (s.bufferOf slotOf a t).queue.filter (·.sender = t)) :
    s'.buffered slotOf t = s.buffered slotOf t := by
  rw [State.buffered, State.buffered, hptr]
  cases hs : s.sigInqBuffers with
  | none => rfl
  | some a =>
    show (if _ then _ else _) = if _ then _ else _
    rw [halive a hs, hqueue a hs]

/-- A sender that is not concerned. -/
theorem SenderInv.congr (h : SenderInv slotOf s t) (hsender : s'.senders t = s.senders t)
    (hopen : ∀ a, s.Open slotOf a t → s'.Open slotOf a t ∨ s'.buffered slotOf t = [])
    (hnil : s.buffered slotOf t = [] → s'.buffered slotOf t = []) : SenderInv slotOf s' t := by
  rw [SenderInv] at h ⊢
  rw [hsender]
  cases hs : s.senders t with
  | lockBuffer a chain =>
    rw [hs] at h
    exact ⟨h.1, h.2.elim (hopen a) fun hb => Or.inr (hnil hb)⟩
  | lockMsgq chain force =>
    rw [hs] at h
    exact ⟨h.1, fun hforce => hnil (h.2 hforce)⟩
  | _ => trivial

/-- The holder of `MSGQ`, after a step of a sender. -/
theorem MsgqInv.congr (h : MsgqInv slotOf s) (hmsgq : s'.msgq = s.msgq)
    (hptr : s'.sigInqBuffers = s.sigInqBuffers)
    (hsender : ∀ t, s.senders t = .inMsgq → s'.senders t = .inMsgq ∧
      (s.buffered slotOf t = [] → s'.buffered slotOf t = []))
    (hq : ∀ k, s.inQ k = true → s'.inQ k = true) : MsgqInv slotOf s' := by
  rw [MsgqInv] at h ⊢
  rw [hmsgq, hptr]
  cases hm : s.msgq with
  | readState t chain force =>
    rw [hm] at h
    exact ⟨h.1.congr fun ht => (hsender t ht).1,
      fun hforce => (hsender t h.1.inMsgq).2 (h.2 hforce)⟩
  | install d offHeap =>
    rw [hm] at h
    exact ⟨h.1.congr (fun ht => (hsender _ ht).1) hq, (hsender _ h.1.inMsgq).2 h.2⟩
  | link d =>
    rw [hm] at h
    exact ⟨h.1.congr (fun ht => (hsender _ ht).1) hq, (hsender _ h.1.inMsgq).2 h.2⟩
  | flush task a pc =>
    rw [hm] at h
    obtain ⟨ha, htask⟩ := h
    refine ⟨ha, ?_⟩
    cases task with
    | direct d force again =>
      obtain ⟨hseen, hdrains⟩ := htask
      have hnil := (hsender _ hseen.inMsgq).2
      refine ⟨hseen.congr (fun ht => (hsender _ ht).1) hq, ?_⟩
      cases pc with
      | slots pending => exact fun hne => hdrains fun hb => hne (hnil hb)
      | rounds => exact hnil hdrains
      | deinstall left => exact hnil hdrains
      | _ => exact fun hforce => hnil (hdrains hforce)
    | _ => trivial
  | free => trivial
  | setState msg nmsg => trivial
  | move buffers | clearState buffers | recheckBits a | recheckNonmsgs a | recheckMsgs a nmsg =>
    rw [hm] at h
    exact h

/-! ## A step of one sender in its buffer -/

/-- What a step of the sender `u` in the buffer `i` at `a` leaves as it is. -/
structure BufferStep (s s' : State Pid Payload) (a : Addr) (i : Slot) (u : Pid) : Prop where
  /-- the array that is installed -/
  sigInqBuffers : s'.sigInqBuffers = s.sigInqBuffers
  /-- the holder of `MSGQ` -/
  msgq : s'.msgq = s.msgq
  /-- the in-queue -/
  sigInq : s'.sigInq = s.sigInq
  /-- other arrays -/
  arrays : ∀ a', a' ≠ a → s'.arrays a' = s.arrays a'
  /-- the array -/
  array : (s'.arrays a).alive = (s.arrays a).alive
  /-- other buffers -/
  slots : ∀ j, j ≠ i → (s'.arrays a).slots j = (s.arrays a).slots j
  /-- other bits -/
  bits : ∀ j, j ≠ i → (j ∈ (s.arrays a).nonemptySlots ↔ j ∈ (s'.arrays a).nonemptySlots)
  /-- words are set only -/
  words : ∀ k, (s.arrays a).inSlots k = true → (s'.arrays a).inSlots k = true
  /-- bits of `state` are set only -/
  inQ : ∀ k, s.inQ k = true → s'.inQ k = true
  /-- the buffer is alive or not -/
  alive : ((s'.arrays a).slots i).alive = ((s.arrays a).slots i).alive
  /-- the signals of other senders -/
  queue : ∀ t, t ≠ u → ((s'.arrays a).slots i).queue.filter (·.sender = t) =
    ((s.arrays a).slots i).queue.filter (·.sender = t)
  /-- other senders -/
  senders : ∀ t, t ≠ u → s'.senders t = s.senders t
  /-- the sender has not locked `MSGQ` -/
  notInMsgq : s.senders u ≠ .inMsgq

namespace BufferStep

variable {u : Pid}

theorem slots_of_ne (h : BufferStep s s' a i u) {a' : Addr} {j : Slot}
    (hne : ¬ (a' = a ∧ j = i)) : (s'.arrays a').slots j = (s.arrays a').slots j := by
  by_cases ha : a' = a
  · rw [ha]
    exact h.slots j fun hj => hne ⟨ha, hj⟩
  · rw [h.arrays a' ha]

theorem slots_alive (h : BufferStep s s' a i u) (a' : Addr) (j : Slot) :
    ((s'.arrays a').slots j).alive = ((s.arrays a').slots j).alive := by
  by_cases hj : a' = a ∧ j = i
  · rw [hj.1, hj.2]
    exact h.alive
  · rw [h.slots_of_ne hj]

theorem open_iff (h : BufferStep s s' a i u) (a' : Addr) :
    s'.Open slotOf a' t ↔ s.Open slotOf a' t := by
  rw [State.Open, State.Open, h.sigInqBuffers, State.bufferOf, State.bufferOf, h.slots_alive]

theorem buffered (h : BufferStep s s' a i u) (ht : t ≠ u) :
    s'.buffered slotOf t = s.buffered slotOf t := by
  refine buffered_congr h.sigInqBuffers (fun a' _ => h.slots_alive a' _) fun a' _ => ?_
  rw [State.bufferOf, State.bufferOf]
  by_cases hj : a' = a ∧ slotOf t = i
  · rw [hj.1, hj.2]
    exact h.queue t ht
  · rw [h.slots_of_ne hj]

/-- It overwrites its buffer. -/
theorem setBuffer {b : Buffer Pid Payload} (hu : s.senders u ≠ .inMsgq)
    (halive : b.alive = ((s.arrays a).slots i).alive)
    (hqueue : ∀ t, t ≠ u → b.queue.filter (·.sender = t) =
      ((s.arrays a).slots i).queue.filter (·.sender = t)) :
    BufferStep s (s.setBuffer a i b) a i u := by
  refine ⟨rfl, rfl, rfl, fun a' ha' => State.setArray_of_ne ha' _, ?_, fun j hj => ?_,
    fun j _ => ?_, fun k hk => ?_, fun k hk => ?_, ?_, fun t ht => ?_, fun _ _ => rfl, hu⟩
  · rw [State.setBuffer_alive]
  · rw [State.setBuffer, State.setArray_self]
    exact BufferArray.setSlot_of_ne hj b
  · rw [State.setBuffer_nonemptySlots]
  · rw [State.setBuffer_inSlots]
    exact hk
  · rw [State.setBuffer_inQ]
    exact hk
  · rw [State.setBuffer_self]
    exact halive
  · rw [State.setBuffer_self]
    exact hqueue t ht

/-- It sets bits of `state`. -/
theorem setFlags (h : BufferStep s s' a i u) (seenMsg seenNmsg msg nmsg : Bool) :
    BufferStep s (s'.setFlags seenMsg seenNmsg msg nmsg) a i u := by
  obtain ⟨h₁, h₂, h₃, h₄, h₅, h₆, h₇, h₈, h₉, h₁₀, h₁₁, h₁₂, h₁₃⟩ := h
  refine ⟨?_, ?_, ?_, ?_, ?_, ?_, ?_, ?_, fun k hk => State.setFlags_inQ (h₉ k hk), ?_, ?_, ?_,
    h₁₃⟩ <;> simp only [State.setFlags_sigInqBuffers, State.setFlags_msgq,
      State.setFlags_sigInq, State.setFlags_arrays, State.setFlags_senders] <;> assumption

/-- It goes elsewhere. -/
theorem setSender (h : BufferStep s s' a i u) (x : Sender Pid Payload) :
    BufferStep s (s'.setSender u x) a i u :=
  { h with
    senders := fun t ht => (State.setSender_of_ne ht x).trans (h.senders t ht) }

end BufferStep

/-- **A sender in its buffer** keeps the invariant, if it leaves its buffer in order. -/
theorem Inv.bufferStep (h : Inv slotOf s) {u : Pid} (hstep : BufferStep s s' a i u)
    (hlock : ∀ e, ((s'.arrays a).slots i).lock = some e →
      ((s.arrays a).slots i).alive = true ∧ s'.senders e.sender = .inBuffer ∧
        slotOf e.sender = i ∧ ValidChain e.sender e.chain)
    (hother : ∀ a' j e, ((s.arrays a').slots j).lock = some e → ¬ (a' = a ∧ j = i) →
      e.sender ≠ u)
    (hhash : s.sigInqBuffers = some a →
      ∀ x ∈ ((s'.arrays a).slots i).queue, slotOf x.sender = i)
    (hinv : s.sigInqBuffers = some a → BufferInv ((s'.arrays a).slots i)
      (i ∈ (s'.arrays a).nonemptySlots) (i ∈ s.msgq.pending) s.msgq.Clearing
      (s'.arrays a).inSlots s'.inQ s.msgq.Covers)
    (hsender : SenderInv slotOf s' u) : Inv slotOf s' := by
  refine ⟨fun a' j hj => ?_, fun a' j e he => ?_, fun a' ha' j => ?_, fun a' ha' => ?_,
    fun a' ha' j => ?_, fun k hk => hstep.inQ k (h.inQ k (hstep.sigInq ▸ hk)), ?_, ?_,
    fun t => ?_⟩
  · rw [hstep.slots_alive] at hj
    rw [hstep.sigInqBuffers]
    exact h.installed a' j hj
  · by_cases hj : a' = a ∧ j = i
    · obtain ⟨rfl, rfl⟩ := hj
      rw [hstep.alive]
      exact hlock e he
    · rw [hstep.slots_of_ne hj] at he ⊢
      obtain ⟨halive, hin, hslot, hvalid⟩ := h.locked a' j e he
      rw [hstep.senders _ (hother a' j e he hj)]
      exact ⟨halive, hin, hslot, hvalid⟩
  · rw [hstep.sigInqBuffers] at ha'
    by_cases hj : a' = a ∧ j = i
    · obtain ⟨rfl, rfl⟩ := hj
      exact hhash ha'
    · rw [hstep.slots_of_ne hj]
      exact h.hashed a' ha' j
  · rw [hstep.sigInqBuffers] at ha'
    have harray : (s'.arrays a').alive = (s.arrays a').alive := by
      by_cases ha : a' = a
      · rw [ha, hstep.array]
      · rw [hstep.arrays a' ha]
    simp only [hstep.msgq, harray, hstep.slots_alive]
    exact h.alive a' ha'
  · rw [hstep.sigInqBuffers] at ha'
    rw [hstep.msgq]
    by_cases hj : a' = a ∧ j = i
    · obtain ⟨rfl, rfl⟩ := hj
      exact hinv ha'
    · rw [hstep.slots_of_ne hj]
      by_cases ha : a' = a
      · obtain rfl := ha
        have hne : j ≠ i := fun he => hj ⟨rfl, he⟩
        exact (h.buffers a' ha' j).mono (hstep.bits j hne) id
          (fun k hk => hk.imp (hstep.words k) id) fun k hk => hk.imp (hstep.inQ k) id
      · rw [hstep.arrays a' ha]
        exact (h.buffers a' ha' j).mono Iff.rfl id (fun _ => id) fun k hk =>
          hk.imp (hstep.inQ k) id
  · rw [hstep.msgq, hstep.sigInq]
    exact h.taken
  · refine h.msgq.congr hstep.msgq hstep.sigInqBuffers (fun t ht => ?_) hstep.inQ
    have hne : t ≠ u := by
      rintro rfl
      exact hstep.notInMsgq ht
    rw [hstep.senders t hne, hstep.buffered hne]
    exact ⟨ht, id⟩
  · by_cases ht : t = u
    · rw [ht]
      exact hsender
    · refine (h.senders t).congr (hstep.senders t ht)
        (fun a' hopen => Or.inl ((hstep.open_iff a').2 hopen)) fun hnil => ?_
      rw [hstep.buffered ht]
      exact hnil

/-! ## The steps in a buffer -/

/-- Nobody else is in another buffer under the name of the sender. -/
theorem Inv.sender_ne (h : Inv slotOf s) {e e' : Enqueuer Pid Payload} {a' : Addr} {j : Slot}
    (he : ((s.arrays a).slots i).lock = some e) (he' : ((s.arrays a').slots j).lock = some e')
    (hne : ¬ (a' = a ∧ j = i)) : e'.sender ≠ e.sender := by
  obtain ⟨halive, -, hslot, -⟩ := h.locked a i e he
  obtain ⟨halive', -, hslot', -⟩ := h.locked a' j e' he'
  intro hsender
  refine hne ⟨?_, ?_⟩
  · have hptr := h.installed a i halive
    rw [h.installed a' j halive'] at hptr
    exact Option.some.inj hptr
  · rw [← hslot, ← hslot', hsender]

/-- A step that leaves the queue. -/
theorem BufferStep.goto {e e' : Enqueuer Pid Payload} {x : BufferArray Pid Payload}
    (hin : s.senders e.sender = .inBuffer)
    (hslots : x.slots = (s.arrays a).slots) (halive : x.alive = (s.arrays a).alive)
    (hbits : ∀ j, j ≠ i → (j ∈ (s.arrays a).nonemptySlots ↔ j ∈ x.nonemptySlots))
    (hwords : ∀ k, (s.arrays a).inSlots k = true → x.inSlots k = true) :
    BufferStep s (s.setArray a (x.setSlot i { (s.arrays a).slots i with lock := some e' })) a i
      e.sender := by
  refine ⟨rfl, rfl, rfl, fun a' ha' => ?_, ?_, fun j hj => ?_, fun j hj => ?_, fun k hk => ?_,
    fun k hk => ?_, ?_, fun t _ => ?_, fun _ _ => rfl, ?_⟩
  · exact State.setArray_of_ne ha' _
  · rw [State.setArray_self]
    exact halive
  · rw [State.setArray_self, BufferArray.setSlot_of_ne hj, hslots]
  · rw [State.setArray_self]
    exact hbits j hj
  · rw [State.setArray_self]
    cases k
    · exact hwords false hk
    · exact hwords true hk
  · rw [State.setArray_inQ]
    exact hk
  · rw [State.setArray_self, BufferArray.setSlot_self]
  · rw [State.setArray_self, BufferArray.setSlot_self]
  · rw [hin]
    exact fun hc => by cases hc

theorem Inv.goto (h : Inv slotOf s) {e : Enqueuer Pid Payload} {pc : Pc}
    {x : BufferArray Pid Payload} (hlock : ((s.arrays a).slots i).lock = some e)
    (hslots : x.slots = (s.arrays a).slots) (halive : x.alive = (s.arrays a).alive)
    (hbits : ∀ j, j ≠ i → (j ∈ (s.arrays a).nonemptySlots ↔ j ∈ x.nonemptySlots))
    (hwords : ∀ k, (s.arrays a).inSlots k = true → x.inSlots k = true)
    (hinv : BufferInv { (s.arrays a).slots i with lock := some { e with pc := pc } }
      (i ∈ x.nonemptySlots) (i ∈ s.msgq.pending) s.msgq.Clearing x.inSlots s.inQ
      s.msgq.Covers) :
    Inv slotOf (s.setArray a
      (x.setSlot i { (s.arrays a).slots i with lock := some { e with pc := pc } })) := by
  obtain ⟨hb, hin, hslot, hvalid⟩ := h.locked a i e hlock
  refine h.bufferStep (.goto hin hslots halive hbits hwords) ?_
    (fun a' j e' he' hne => h.sender_ne hlock he' hne) ?_ ?_ ?_
  · rw [State.setArray_self, BufferArray.setSlot_self]
    rintro e' he'
    obtain rfl := Option.some.inj he'
    exact ⟨hb, hin, hslot, hvalid⟩
  · rw [State.setArray_self, BufferArray.setSlot_self]
    exact fun hs => h.hashed a hs i
  · rw [State.setArray_self, BufferArray.setSlot_self, State.setArray_inQ]
    exact fun _ => hinv
  · rw [SenderInv, State.setArray_senders, hin]
    trivial

/-- The sender appends its signals. -/
theorem BufferStep.enqueue {e e' : Enqueuer Pid Payload} {n : ℕ} {seenMsg seenNmsg msg nmsg : Bool}
    (hin : s.senders e.sender = .inBuffer) (hvalid : ValidChain e.sender e.chain) :
    BufferStep s ((s.setBuffer a i { (s.arrays a).slots i with
        lock := some e'
        queue := ((s.arrays a).slots i).queue ++ e.chain
        nrOfEnqueues := n }).setFlags seenMsg seenNmsg msg nmsg) a i e.sender := by
  refine .setFlags (.setBuffer ?_ ?_ fun t ht => ?_) _ _ _ _
  · rw [hin]
    exact fun hc => by cases hc
  · rfl
  · rw [List.filter_append, hvalid.filter_of_ne ht, List.append_nil]

theorem Inv.enqueue (h : Inv slotOf s) {e : Enqueuer Pid Payload} {msg nmsg : Bool}
    (hlock : ((s.arrays a).slots i).lock = some e) (hpc : e.pc = .enqueue msg nmsg) :
    Inv slotOf ((s.setBuffer a i { (s.arrays a).slots i with
        lock := some { e with pc := .unlock }
        queue := ((s.arrays a).slots i).queue ++ e.chain
        nrOfEnqueues := ((s.arrays a).slots i).nrOfEnqueues + 1 }).setFlags msg nmsg
      (decide (e.chain.countP (·.isMsg) ≠ 0))
      (nonmsg e.chain && ((s.arrays a).slots i).queue.all (·.isMsg))) := by
  obtain ⟨hb, hin, hslot, hvalid⟩ := h.locked a i e hlock
  have hptr := h.installed a i hb
  have hold := h.buffers a hptr i
  refine h.bufferStep (.enqueue hin hvalid) ?_
    (fun a' j e' he' hne => h.sender_ne hlock he' hne) ?_ ?_ ?_
  · rw [State.setFlags_arrays, State.setFlags_senders, State.setBuffer_self]
    intro e' he'
    obtain rfl := Option.some.inj he'
    exact ⟨hb, hin, hslot, hvalid⟩
  · rw [State.setFlags_arrays, State.setBuffer_self]
    intro hs x hx
    rcases List.mem_append.1 hx with hx | hx
    · exact h.hashed a hs i x hx
    · rw [hvalid.2 x hx, hslot]
  · intro _
    rw [State.setFlags_arrays, State.setBuffer_self, State.setBuffer_nonemptySlots,
      State.setBuffer_inSlots]
    have hpast : ∀ k, Has k e.chain → ((s.arrays a).slots i).Checked k := fun k hk =>
      Or.inr ⟨e, hlock, by rw [hpc]; rfl, hk⟩
    have hmono : ∀ k, s.inQ k = true → _ := fun k hk =>
      @State.setFlags_inQ _ _ _ k msg nmsg (decide (e.chain.countP (·.isMsg) ≠ 0))
        (nonmsg e.chain && ((s.arrays a).slots i).queue.all (·.isMsg))
        ((State.setBuffer_inQ s a i { (s.arrays a).slots i with
          lock := some { e with pc := .unlock }
          queue := ((s.arrays a).slots i).queue ++ e.chain
          nrOfEnqueues := ((s.arrays a).slots i).nrOfEnqueues + 1 }).symm ▸ hk)
    refine ⟨fun _ => hold.marked (Or.inr ⟨e, hlock, by rw [hpc]; rfl⟩), fun k hbit hk => ?_,
      fun k hk => ?_, ?_⟩
    · refine hold.checked k hbit ?_
      rcases hk with hk | ⟨e', he', hc, -⟩
      · exact (has_append.1 hk).elim Or.inl (hpast k)
      · obtain rfl := Option.some.inj he'
        cases hc
    · rcases hk with hk | ⟨e', he', hc, -⟩
      · rcases has_append.1 hk with hk | hk
        · exact (hold.carried k (Or.inl hk)).imp (hmono k) id
        · by_cases hseen : e.pc.seen k = true
          · exact (hold.carried k (Or.inr ⟨e, hlock, hseen, hk⟩)).imp (hmono k) id
          · rw [hpc] at hseen
            cases k with
            | true =>
              refine Or.inl (State.setFlags_set ?_ (Bool.eq_false_of_not_eq_true hseen))
              exact decide_eq_true (has_msg_iff.1 hk)
            | false =>
              by_cases hq : Has false ((s.arrays a).slots i).queue
              · exact (hold.carried false (Or.inl hq)).imp (hmono false) id
              · -- it is the first one here that is not a message
                refine Or.inl (State.setFlags_set ?_ (Bool.eq_false_of_not_eq_true hseen))
                have hall := mt has_nonmsg_iff.2 hq
                exact Bool.and_eq_true_iff.2
                  ⟨hvalid.nonmsg hk, Bool.eq_true_of_not_eq_false hall⟩
      · obtain rfl := Option.some.inj he'
        cases hc
    · refine iff_of_false (fun hnil => ?_) (Nat.succ_ne_zero _)
      exact hvalid.1.1 (List.append_eq_nil_iff.1 hnil).2
  · have hin' : (s.setBuffer a i { (s.arrays a).slots i with
        lock := some { e with pc := .unlock }
        queue := ((s.arrays a).slots i).queue ++ e.chain
        nrOfEnqueues := ((s.arrays a).slots i).nrOfEnqueues + 1 }).senders e.sender =
          .inBuffer := hin
    rw [SenderInv, State.setFlags_senders, hin']
    trivial

/-- The sender unlocks its buffer. -/
theorem Inv.unlock (h : Inv slotOf s) {e : Enqueuer Pid Payload}
    (hlock : ((s.arrays a).slots i).lock = some e) :
    Inv slotOf ((s.setBuffer a i { (s.arrays a).slots i with lock := none }).setSender e.sender
      .idle) := by
  obtain ⟨hb, hin, -, -⟩ := h.locked a i e hlock
  have hold := h.buffers a (h.installed a i hb) i
  refine h.bufferStep (u := e.sender) (a := a) (i := i)
    (.setSender (.setBuffer ?_ ?_ fun t _ => ?_) _) (fun e' he' => ?_)
    (fun a' j e' he' hne => h.sender_ne hlock he' hne) ?_ ?_ ?_
  · rw [hin]
    exact fun hc => by cases hc
  · rfl
  · rfl
  · have hnone : (((s.setBuffer a i { (s.arrays a).slots i with lock := none }).arrays a).slots
        i).lock = none := by rw [State.setBuffer_self]
    exact absurd (hnone.symm.trans he') (Option.some_ne_none e').symm
  · show s.sigInqBuffers = some a → ∀ x ∈ (((s.setBuffer a i _).arrays a).slots i).queue, _
    rw [State.setBuffer_self]
    exact fun hs => h.hashed a hs i
  · exact fun _ => hold.unlock.setBuffer
  · rw [SenderInv, State.setSender_self]
    trivial

/-- A sender that has not locked a buffer goes somewhere else. -/
theorem Inv.setSender (h : Inv slotOf s) {x : Sender Pid Payload}
    (hbuffer : s.senders t ≠ .inBuffer) (hmsgq : MsgqInv slotOf (s.setSender t x))
    (hx : SenderInv slotOf (s.setSender t x) t) : Inv slotOf (s.setSender t x) := by
  refine ⟨h.installed, fun a i e he => ?_, h.hashed, h.alive, h.buffers, h.inQ, h.taken, hmsgq,
    fun t' => ?_⟩
  · obtain ⟨halive, hin, hslot, hvalid⟩ := h.locked a i e he
    have hne : e.sender ≠ t := by
      rintro rfl
      exact hbuffer hin
    exact ⟨halive, (State.setSender_of_ne hne x).trans hin, hslot, hvalid⟩
  · by_cases ht : t' = t
    · rw [ht]
      exact hx
    · exact (h.senders t').congr (State.setSender_of_ne ht x) (fun a => Or.inl) id

/-- It has not locked `MSGQ` either. -/
theorem Inv.msgq_setSender (h : Inv slotOf s) {x : Sender Pid Payload}
    (hmsgq : s.senders t ≠ .inMsgq) : MsgqInv slotOf (s.setSender t x) := by
  refine h.msgq.congr rfl rfl (fun t' ht' => ⟨?_, id⟩) fun _ => id
  have hne : t' ≠ t := by
    rintro rfl
    exact hmsgq ht'
  exact (State.setSender_of_ne hne x).trans ht'

/-- A sender locks its buffer. -/
theorem Inv.lockBuffer (h : Inv slotOf s) {chain : List (Signal Pid Payload)}
    (hsender : s.senders t = .lockBuffer a chain)
    (halive : ((s.arrays a).slots (slotOf t)).alive = true) :
    Inv slotOf ((s.setBuffer a (slotOf t) { (s.arrays a).slots (slotOf t) with
      lock := some ⟨t, chain, .setMsgs⟩ }).setSender t .inBuffer) := by
  have hptr := h.installed a _ halive
  have hold := h.buffers a hptr (slotOf t)
  have hvalid : ValidChain t chain := by
    have := h.senders t
    rw [SenderInv, hsender] at this
    exact this.1
  refine h.bufferStep (u := t) (a := a) (i := slotOf t)
    (.setSender (.setBuffer ?_ ?_ fun t _ => ?_) _) (fun e' he' => ?_)
    (fun a' j e' he' hne => ?_) ?_ ?_ ?_
  · rw [hsender]
    exact fun hc => by cases hc
  · rfl
  · rfl
  · have he : (((s.setBuffer a (slotOf t) { (s.arrays a).slots (slotOf t) with
        lock := some ⟨t, chain, .setMsgs⟩ }).arrays a).slots (slotOf t)).lock =
        some ⟨t, chain, .setMsgs⟩ := by rw [State.setBuffer_self]
    obtain rfl := Option.some.inj (he.symm.trans he')
    exact ⟨halive, State.setSender_self _ _ _, rfl, hvalid⟩
  · rintro rfl
    have hin := (h.locked a' j e' he').2.1
    rw [hsender] at hin
    cases hin
  · show s.sigInqBuffers = some a →
      ∀ x ∈ (((s.setBuffer a (slotOf t) _).arrays a).slots (slotOf t)).queue, _
    rw [State.setBuffer_self]
    exact fun hs => h.hashed a hs _
  · exact fun _ =>
      (hold.lock ⟨t, chain, .setMsgs⟩ rfl (fun _ => rfl) fun _ => rfl).setBuffer
  · rw [SenderInv, State.setSender_self]
    trivial

/-- **A step of the sender that has locked a buffer.** -/
theorem Inv.buffer (h : Inv slotOf s) (hrun : s.bufferStep a i = some s') : Inv slotOf s' := by
  rw [State.bufferStep] at hrun
  cases hlock : ((s.arrays a).slots i).lock with
  | none =>
    rw [hlock] at hrun
    cases hrun
  | some e =>
    simp only [hlock] at hrun
    obtain ⟨hb, hin, hslot, hvalid⟩ := h.locked a i e hlock
    have hold := h.buffers a (h.installed a i hb) i
    have hsame : ∀ {pc : Pc},
        (pc.marked = true → e.pc.marked = true ∨ ((s.arrays a).slots i).queue ≠ []) →
        (∀ k, i ∈ (s.arrays a).nonemptySlots → pc.checked k = true → Has k e.chain →
          e.pc.checked k = true ∨ (s.arrays a).inSlots k = true) →
        (∀ k, pc.seen k = true → e.pc.seen k = true ∨ s.inQ k = true) →
        Inv slotOf (s.setArray a ((s.arrays a).setSlot i
          { (s.arrays a).slots i with lock := some { e with pc := pc } })) :=
      fun hmarked hchecked hseen => h.goto hlock rfl rfl (fun _ _ => Iff.rfl) (fun _ => id)
        (hold.setPc hlock hmarked hchecked hseen)
    have hback : ∀ {pc : Pc}, pc.marked = false → (∀ k, pc.checked k = false) →
        (∀ k, pc.seen k = false) → ∀ {x : BufferArray Pid Payload},
        x.slots = (s.arrays a).slots → x.alive = (s.arrays a).alive →
        x.nonemptySlots = (s.arrays a).nonemptySlots →
        (∀ k, (s.arrays a).inSlots k = true → x.inSlots k = true) →
        Inv slotOf (s.setArray a (x.setSlot i
          { (s.arrays a).slots i with lock := some { e with pc := pc } })) := by
      intro pc hmarked hchecked hseen x hslots halive hbits hwords
      refine h.goto hlock hslots halive (fun j _ => by rw [hbits]) hwords ?_
      rw [hbits]
      refine (hold.setPc hlock (fun hm => ?_) (fun k _ hc => ?_) fun k hc => ?_).mono Iff.rfl id
        (fun k hk => hk.imp (hwords k) id) fun _ => id
      · exact absurd hm (by rw [hmarked]; exact Bool.false_ne_true)
      · exact absurd hc (by rw [hchecked]; exact Bool.false_ne_true)
      · exact absurd hc (by rw [hseen]; exact Bool.false_ne_true)
    cases hpc : e.pc with
    | setMsgs =>
      simp only [hpc] at hrun
      cases hrun
      split
      · refine hback rfl (fun _ => rfl) (fun _ => rfl) rfl rfl rfl fun k hk => ?_
        cases k
        · exact hk
        · rfl
      · exact hback rfl (fun _ => rfl) (fun _ => rfl) rfl rfl rfl fun _ => id
    | setNonmsgs =>
      simp only [hpc] at hrun
      cases hrun
      split
      · refine hback rfl (fun _ => rfl) (fun _ => rfl) rfl rfl rfl fun k hk => ?_
        cases k
        · rfl
        · exact hk
      · exact hback rfl (fun _ => rfl) (fun _ => rfl) rfl rfl rfl fun _ => id
    | mark =>
      simp only [hpc] at hrun
      by_cases hqueue : ((s.arrays a).slots i).queue = []
      · rw [if_pos hqueue] at hrun
        cases hrun
        refine h.goto hlock rfl rfl (fun j hj => ?_) (fun k hk => ?_) ?_
        · exact (Finset.mem_insert.trans (or_iff_right hj)).symm
        · cases k <;> exact hk
        · refine (hold.setBit hqueue fun k => rfl).mono ?_ id (fun k hk => ?_) fun _ => id
          · exact iff_of_true trivial (Finset.mem_insert_self i _)
          · cases k <;> exact hk
      · rw [if_neg hqueue] at hrun
        by_cases hbit : i ∈ (s.arrays a).nonemptySlots
        · rw [if_pos hbit] at hrun
          cases hrun
          exact hsame (fun _ => Or.inr hqueue) (fun k _ hc => absurd hc Bool.false_ne_true)
            fun k hc => absurd hc Bool.false_ne_true
        · -- a flush has taken the bit and will come to this buffer
          rw [if_neg hbit] at hrun
          cases hrun
          exact hsame (fun _ => Or.inr hqueue) (fun k hb _ => absurd hb hbit)
            fun k hc => absurd hc Bool.false_ne_true
    | checkMsgs =>
      simp only [hpc] at hrun
      split at hrun
      · cases hrun
        exact hback rfl (fun _ => rfl) (fun _ => rfl) rfl rfl rfl fun _ => id
      · rename_i hcond
        cases hrun
        refine hsame (fun _ => Or.inl (by rw [hpc]; rfl)) (fun k _ hc hk => Or.inr ?_)
          fun k hc => absurd hc Bool.false_ne_true
        obtain rfl : k = true := hc
        exact Bool.eq_true_of_not_eq_false fun hw => hcond ⟨has_msg_iff.1 hk, hw⟩
    | checkNonmsgs =>
      simp only [hpc] at hrun
      split at hrun
      · cases hrun
        exact hback rfl (fun _ => rfl) (fun _ => rfl) rfl rfl rfl fun _ => id
      · rename_i hcond
        cases hrun
        refine hsame (fun _ => Or.inl (by rw [hpc]; rfl)) (fun k _ _ hk => ?_)
          fun k hc => absurd hc Bool.false_ne_true
        cases k with
        | true => exact Or.inl (by rw [hpc]; rfl)
        | false =>
          exact Or.inr (Bool.eq_true_of_not_eq_false fun hw => hcond ⟨hvalid.nonmsg hk, hw⟩)
    | readState =>
      simp only [hpc] at hrun
      cases hrun
      refine hsame (fun _ => Or.inl (by rw [hpc]; rfl)) (fun k _ _ _ => Or.inl (by rw [hpc]; rfl))
        fun k hc => Or.inr ?_
      cases k <;> exact hc
    | enqueue msg nmsg =>
      simp only [hpc] at hrun
      cases hrun
      exact h.enqueue hlock hpc
    | unlock =>
      simp only [hpc] at hrun
      cases hrun
      exact h.unlock hlock

end PonBeam.SigBuffers
