import PonBeam.SigBuffers.Model

/-!
# What holds between the steps

A buffer with signals has its bit in `nonempty_slots`, or the flush that has taken the bit will
come to it. While the bit is set, `msgs_in_slots` and `nonmsgs_in_slots` know the kinds of the
signals, unless a flush that has not yet taken the bit has cleared them. The `state` of the
receiver knows the kinds of all signals, unless a fetch that has cleared it is about to set it
again. Messages and other signals are treated alike: a kind is what `isMsg` says.
-/

namespace PonBeam.SigBuffers

variable {Pid Payload : Type}

/-! ## Kinds of signals -/

/-- Some signal is of the kind `k`. -/
def Has (k : Bool) (l : List (Signal Pid Payload)) : Prop := ∃ x ∈ l, x.isMsg = k

section Has

variable {k : Bool} {l chain : List (Signal Pid Payload)} {t : Pid}

@[simp] theorem has_nil : ¬ Has k ([] : List (Signal Pid Payload)) := by
  rintro ⟨x, hx, -⟩
  cases hx

@[simp] theorem has_append : Has k (l ++ chain) ↔ Has k l ∨ Has k chain := by
  simp only [Has, List.mem_append, or_and_right, exists_or]

theorem Has.ne_nil (h : Has k l) : l ≠ [] := by
  rintro rfl
  exact has_nil h

theorem has_msg_iff : Has true l ↔ l.countP (·.isMsg) ≠ 0 := by
  rw [← Nat.pos_iff_ne_zero, List.countP_pos_iff]
  rfl

theorem has_nonmsg_iff : Has false l ↔ l.all (·.isMsg) = false := by
  rw [List.all_eq_false]
  simp only [Has, Bool.not_eq_true]

/-- A non-message signal of a valid chain is announced by its first signal. -/
theorem ValidChain.nonmsg (h : ValidChain t chain) (hk : Has false chain) :
    nonmsg chain = true := by
  obtain ⟨⟨hne, hshape⟩, -⟩ := h
  obtain ⟨x, hx, hkind⟩ := hk
  rcases hshape with hmsgs | hnonmsgs | ⟨hfirst, -⟩
  · rw [hmsgs x hx] at hkind
    cases hkind
  · cases chain with
    | nil => cases hx
    | cons y rest =>
      rw [SigBuffers.nonmsg, hnonmsgs y List.mem_cons_self]
      rfl
  · exact hfirst

section Filter

variable [DecidableEq Pid] {t' : Pid}

theorem ValidChain.filter_self (h : ValidChain t chain) : chain.filter (·.sender = t) = chain :=
  List.filter_eq_self.2 fun x hx => decide_eq_true (h.2 x hx)

theorem ValidChain.filter_of_ne (h : ValidChain t chain) (hne : t' ≠ t) :
    chain.filter (·.sender = t') = [] := by
  rw [List.filter_eq_nil_iff]
  intro x hx
  rw [h.2 x hx, decide_eq_true_iff]
  exact hne.symm

end Filter

end Has

/-! ## Where threads are -/

/-- The sender has made sure of its bit. -/
def Pc.marked : Pc → Bool
  | .checkMsgs | .checkNonmsgs | .readState | .enqueue _ _ => true
  | _ => false

/-- The sender has made sure of `msgs_in_slots`, or of `nonmsgs_in_slots`. -/
def Pc.checked (k : Bool) : Pc → Bool
  | .checkNonmsgs => k
  | .readState | .enqueue _ _ => true
  | _ => false

/-- The sender has seen that `state` is set already. -/
def Pc.seen (k : Bool) : Pc → Bool
  | .enqueue msg nmsg => if k then msg else nmsg
  | _ => false

theorem Pc.checked_of_seen {k : Bool} {pc : Pc} (h : pc.seen k = true) : pc.checked k = true := by
  cases pc with
  | enqueue msg nmsg => rfl
  | _ => cases h

theorem Pc.marked_of_checked {k : Bool} {pc : Pc} (h : pc.checked k = true) :
    pc.marked = true := by
  cases pc with
  | checkNonmsgs | readState | enqueue _ _ => rfl
  | _ => cases h

namespace Msgq

/-- The buffers that the flush has still to come to. -/
def pending : Msgq Pid Payload → List Slot
  | .flush _ _ (.slots pending) => pending
  | _ => []

/-- The flush may have cleared what it has not yet taken. -/
def Clearing : Msgq Pid Payload → Prop
  | .flush _ _ .clearNonmsgs | .flush _ _ .exchange => True
  | _ => False

/-- The fetch is going to set the bit of `state` for this kind, if there is a need. -/
def Covers : Msgq Pid Payload → Bool → Prop
  | .recheckBits _, _ | .recheckNonmsgs _, _ => True
  | .recheckMsgs _ nmsg, k => k = true ∨ nmsg = true
  | .setState msg nmsg, k => (if k then msg else nmsg) = true
  | _, _ => False

/-- The in-queue has been taken. -/
def Taken : Msgq Pid Payload → Prop
  | .clearState _ | .recheckBits _ | .recheckNonmsgs _ | .recheckMsgs _ _ | .setState _ _ => True
  | _ => False

/-- The buffers that are left to deinstall. -/
def left : Msgq Pid Payload → Option (List Slot)
  | .flush _ _ (.deinstall left) => some left
  | _ => none

end Msgq

/-! ## A buffer -/

namespace Buffer

/-- There are signals, or there will be. -/
def Marked (b : Buffer Pid Payload) : Prop :=
  b.queue ≠ [] ∨ ∃ e, b.lock = some e ∧ e.pc.marked = true

/-- There are signals of the kind `k`, or a sender has made sure of them. -/
def Checked (k : Bool) (b : Buffer Pid Payload) : Prop :=
  Has k b.queue ∨ ∃ e, b.lock = some e ∧ e.pc.checked k = true ∧ Has k e.chain

/-- There are signals of the kind `k`, or a sender adds them without setting `state`. -/
def Carries (k : Bool) (b : Buffer Pid Payload) : Prop :=
  Has k b.queue ∨ ∃ e, b.lock = some e ∧ e.pc.seen k = true ∧ Has k e.chain

variable {k : Bool} {b : Buffer Pid Payload}

theorem Carries.checked (h : b.Carries k) : b.Checked k :=
  h.imp id fun ⟨e, he, hseen, hk⟩ => ⟨e, he, Pc.checked_of_seen hseen, hk⟩

theorem Checked.marked (h : b.Checked k) : b.Marked :=
  h.imp Has.ne_nil fun ⟨e, he, hc, _⟩ => ⟨e, he, Pc.marked_of_checked hc⟩

end Buffer

/-- The words of an array that tell the kinds of its signals. -/
def BufferArray.inSlots (buffers : BufferArray Pid Payload) : Bool → Bool
  | true => buffers.msgsInSlots
  | false => buffers.nonmsgsInSlots

/-- The bits of `state`. -/
def State.inQ (s : State Pid Payload) : Bool → Bool
  | true => s.msgSigInQ
  | false => s.nmsgSigInQ

/-- What holds of a buffer of the array that is installed, given its bit, whether a flush has
still to come to it, and so on. -/
structure BufferInv (b : Buffer Pid Payload) (bit pending clearing : Prop)
    (inSlots inQ : Bool → Bool) (covers : Bool → Prop) : Prop where
  /-- its signals will be found -/
  marked : b.Marked → bit ∨ pending
  /-- so will their kinds -/
  checked : ∀ k, bit → b.Checked k → inSlots k = true ∨ clearing
  /-- the receiver knows their kinds, or will -/
  carried : ∀ k, b.Carries k → inQ k = true ∨ covers k
  /-- the enqueues are counted -/
  counted : b.queue = [] ↔ b.nrOfEnqueues = 0

section BufferInv

variable {b : Buffer Pid Payload} {bit pending clearing bit' pending' clearing' : Prop}
  {inSlots inQ inSlots' inQ' : Bool → Bool} {covers covers' : Bool → Prop}

theorem BufferInv.mono (h : BufferInv b bit pending clearing inSlots inQ covers)
    (hbit : bit ↔ bit') (hpending : pending → pending')
    (hslots : ∀ k, inSlots k = true ∨ clearing → inSlots' k = true ∨ clearing')
    (hq : ∀ k, inQ k = true ∨ covers k → inQ' k = true ∨ covers' k) :
    BufferInv b bit' pending' clearing' inSlots' inQ' covers' :=
  ⟨fun hm => (h.marked hm).imp hbit.1 hpending,
    fun k hb hk => hslots k (h.checked k (hbit.2 hb) hk),
    fun k hk => hq k (h.carried k hk), h.counted⟩

/-- A buffer with nothing in it. -/
theorem BufferInv.empty (hlock : b.lock = none) (hqueue : b.queue = [])
    (hn : b.nrOfEnqueues = 0) :
    BufferInv b bit pending clearing inSlots inQ covers := by
  have hchecked : ∀ k, ¬ b.Checked k := by
    rintro k (hk | ⟨e, he, -⟩)
    · rw [hqueue] at hk
      exact has_nil hk
    · rw [hlock] at he
      cases he
  refine ⟨?_, fun k _ hk => absurd hk (hchecked k),
    fun k hk => absurd hk.checked (hchecked k), fun _ => hn, fun _ => hqueue⟩
  rintro (hk | ⟨e, he, -⟩)
  · exact absurd hqueue hk
  · rw [hlock] at he
    cases he

variable {e : Enqueuer Pid Payload} {pc : Pc}

/-- The sender has less to make sure of. -/
theorem BufferInv.setPc (h : BufferInv b bit pending clearing inSlots inQ covers)
    (hlock : b.lock = some e)
    (hmarked : pc.marked = true → e.pc.marked = true ∨ b.queue ≠ [])
    (hchecked : ∀ k, bit → pc.checked k = true → Has k e.chain →
      e.pc.checked k = true ∨ inSlots k = true)
    (hseen : ∀ k, pc.seen k = true → e.pc.seen k = true ∨ inQ k = true) :
    BufferInv { b with lock := some { e with pc := pc } } bit pending clearing inSlots inQ
      covers := by
  refine ⟨fun hm => h.marked ?_, fun k hb hk => ?_, fun k hk => ?_, h.counted⟩
  · rcases hm with hm | ⟨e', he', hm⟩
    · exact Or.inl hm
    · obtain rfl := Option.some.inj he'
      exact (hmarked hm).symm.imp id fun hm => ⟨e, hlock, hm⟩
  · rcases hk with hk | ⟨e', he', hc, hk⟩
    · exact h.checked k hb (Or.inl hk)
    · obtain rfl := Option.some.inj he'
      rcases hchecked k hb hc hk with hc' | hw
      · exact h.checked k hb (Or.inr ⟨e, hlock, hc', hk⟩)
      · exact Or.inl hw
  · rcases hk with hk | ⟨e', he', hc, hk⟩
    · exact h.carried k (Or.inl hk)
    · obtain rfl := Option.some.inj he'
      rcases hseen k hc with hc' | hw
      · exact h.carried k (Or.inr ⟨e, hlock, hc', hk⟩)
      · exact Or.inl hw

/-- The sender sets its bit. -/
theorem BufferInv.setBit (h : BufferInv b bit pending clearing inSlots inQ covers)
    (hqueue : b.queue = []) (hpc : ∀ k, pc.checked k = false) :
    BufferInv { b with lock := some { e with pc := pc } } True pending clearing inSlots inQ
      covers := by
  have hno : ∀ k, ¬ Buffer.Checked k { b with lock := some { e with pc := pc } } := by
    rintro k (hk | ⟨e', he', hc, -⟩)
    · exact has_nil (hqueue ▸ hk)
    · obtain rfl := Option.some.inj he'
      rw [hpc] at hc
      cases hc
  exact ⟨fun _ => Or.inl trivial, fun k _ hk => absurd hk (hno k),
    fun k hk => absurd hk.checked (hno k), h.counted⟩

/-- The buffer is locked. -/
theorem BufferInv.lock (h : BufferInv b bit pending clearing inSlots inQ covers)
    (e : Enqueuer Pid Payload) (hmarked : e.pc.marked = false)
    (hchecked : ∀ k, e.pc.checked k = false) (hseen : ∀ k, e.pc.seen k = false) :
    BufferInv { b with lock := some e } bit pending clearing inSlots inQ covers := by
  refine ⟨fun hm => h.marked (Or.inl ?_), fun k hb hk => h.checked k hb (Or.inl ?_),
    fun k hk => h.carried k (Or.inl ?_), h.counted⟩
  · rcases hm with hm | ⟨e', he', hm⟩
    · exact hm
    · obtain rfl := Option.some.inj he'
      exact absurd hm (by rw [hmarked]; exact Bool.false_ne_true)
  · rcases hk with hk | ⟨e', he', hc, -⟩
    · exact hk
    · obtain rfl := Option.some.inj he'
      exact absurd hc (by rw [hchecked]; exact Bool.false_ne_true)
  · rcases hk with hk | ⟨e', he', hc, -⟩
    · exact hk
    · obtain rfl := Option.some.inj he'
      exact absurd hc (by rw [hseen]; exact Bool.false_ne_true)

/-- The buffer is unlocked. -/
theorem BufferInv.unlock (h : BufferInv b bit pending clearing inSlots inQ covers) :
    BufferInv { b with lock := none } bit pending clearing inSlots inQ covers := by
  refine ⟨fun hm => h.marked (Or.inl ?_), fun k hb hk => h.checked k hb (Or.inl ?_),
    fun k hk => h.carried k (Or.inl ?_), h.counted⟩
  · rcases hm with hm | ⟨e, he, -⟩
    · exact hm
    · cases he
  · rcases hk with hk | ⟨e, he, -⟩
    · exact hk
    · cases he
  · rcases hk with hk | ⟨e, he, -⟩
    · exact hk
    · cases he

end BufferInv

/-! ## A state -/

section Inv

variable [DecidableEq Pid] (slotOf : Pid → Slot) (s : State Pid Payload)

/-- The buffer of `t` in the array at `a`. -/
def State.bufferOf (a : Addr) (t : Pid) : Buffer Pid Payload :=
  (s.arrays a).slots (slotOf t)

/-- The signals of `t` that are in a buffer. -/
def State.buffered (t : Pid) : List (Signal Pid Payload) :=
  match s.sigInqBuffers with
  | none => []
  | some a =>
    if (s.bufferOf slotOf a t).alive then
      (s.bufferOf slotOf a t).queue.filter (·.sender = t)
    else []

/-- The array at `a` is installed, and the buffer of `t` is alive. -/
def State.Open (a : Addr) (t : Pid) : Prop :=
  s.sigInqBuffers = some a ∧ (s.bufferOf slotOf a t).alive = true

/-- What holds of a sender. -/
def SenderInv (t : Pid) : Prop :=
  match s.senders t with
  | .lockBuffer a chain => ValidChain t chain ∧ (s.Open slotOf a t ∨ s.buffered slotOf t = [])
  | .lockMsgq chain force =>
    ValidChain t chain ∧ (force = false → s.buffered slotOf t = [])
  | _ => True

/-- What holds of a sender that has locked `MSGQ`. -/
structure DirectInv (t : Pid) (chain : List (Signal Pid Payload)) : Prop where
  /-- it is there -/
  inMsgq : s.senders t = .inMsgq
  /-- its chain -/
  valid : ValidChain t chain

/-- The bits of `state` that it has read are still set. -/
structure SeenInv (d : Direct Pid Payload) : Prop extends DirectInv s d.sender d.chain where
  /-- for messages -/
  msg : d.msg = true → s.msgSigInQ = true
  /-- for other signals -/
  nmsg : d.nmsg = true → s.nmsgSigInQ = true

/-- A flush keeps the signals of this sender in order: when it is done, no signal of the sender
is in a buffer. -/
def Drains (t : Pid) (force : Bool) : FlushPc → Prop
  | .slots pending => s.buffered slotOf t ≠ [] → slotOf t ∈ pending
  | .rounds | .deinstall _ => s.buffered slotOf t = []
  | _ => force = false → s.buffered slotOf t = []

/-- What holds of a flush for a task. -/
def TaskInv (pc : FlushPc) : Task Pid Payload → Prop
  | .direct d force _ => SeenInv s d ∧ Drains slotOf s d.sender force pc
  | _ => True

/-- What holds of the holder of `MSGQ`. -/
def MsgqInv : Prop :=
  match s.msgq with
  | .free => True
  | .readState t chain force =>
    DirectInv s t chain ∧ (force = false → s.buffered slotOf t = [])
  | .install d _ => SeenInv s d ∧ s.buffered slotOf d.sender = []
  | .flush task a pc => s.sigInqBuffers = some a ∧ TaskInv slotOf s pc task
  | .link d => SeenInv s d ∧ s.buffered slotOf d.sender = []
  | .move buffers | .clearState buffers =>
    s.sigInqBuffers = none ∨ s.sigInqBuffers = buffers
  | .recheckBits a | .recheckNonmsgs a | .recheckMsgs a _ =>
    s.sigInqBuffers = none ∨ s.sigInqBuffers = some a
  | .setState _ _ => True

/-- What holds in every state. -/
structure Inv : Prop where
  /-- only the buffers of the array that is installed are alive -/
  installed : ∀ a i, ((s.arrays a).slots i).alive = true → s.sigInqBuffers = some a
  /-- who has locked a buffer -/
  locked : ∀ a i e, ((s.arrays a).slots i).lock = some e →
    ((s.arrays a).slots i).alive = true ∧ s.senders e.sender = .inBuffer ∧
      slotOf e.sender = i ∧ ValidChain e.sender e.chain
  /-- a signal is in the buffer of its sender -/
  hashed : ∀ a, s.sigInqBuffers = some a →
    ∀ i, ∀ x ∈ ((s.arrays a).slots i).queue, slotOf x.sender = i
  /-- an array is alive, and so are its buffers, until it is deinstalled -/
  alive : ∀ a, s.sigInqBuffers = some a → match s.msgq.left with
    | none => (s.arrays a).alive = true ∧ ∀ i, ((s.arrays a).slots i).alive = true
    | some left => left.Nodup ∧ ∀ i, ((s.arrays a).slots i).alive = true ↔ i ∈ left
  /-- the buffers -/
  buffers : ∀ a, s.sigInqBuffers = some a → ∀ i,
    BufferInv ((s.arrays a).slots i) (i ∈ (s.arrays a).nonemptySlots) (i ∈ s.msgq.pending)
      s.msgq.Clearing (s.arrays a).inSlots s.inQ s.msgq.Covers
  /-- the receiver knows what is in the in-queue -/
  inQ : ∀ k, Has k s.sigInq → s.inQ k = true
  /-- the in-queue is empty while it is taken -/
  taken : s.msgq.Taken → s.sigInq = []
  /-- the holder of `MSGQ` -/
  msgq : MsgqInv slotOf s
  /-- the senders -/
  senders : ∀ t, SenderInv slotOf s t

end Inv

end PonBeam.SigBuffers
