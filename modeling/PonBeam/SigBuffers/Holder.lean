import PonBeam.SigBuffers.Senders

/-!
# Steps of the holder of `MSGQ`

A flush takes all bits, and with them all buffers that have signals at the time. A fetch clears
the bits of `state` only after its flush, so a signal that it has missed is in a buffer that has
got its bit since, and the fetch finds this bit when it looks again.
-/

namespace PonBeam.SigBuffers

variable {Pid Payload : Type} {slotOf : Pid → Slot} {s s' : State Pid Payload} {t : Pid}
  {a : Addr} {i : Slot} {task : Task Pid Payload} {m : Msgq Pid Payload}

/-- What a sender does after a flush. -/
theorem flushed_direct (s : State Pid Payload) (buffers : Option Addr) (d : Direct Pid Payload)
    (force again : Bool) :
    s.flushed buffers (.direct d force again) = .link d ∨ ∃ a, s.sigInqBuffers = some a ∧
      s.flushed buffers (.direct d force again) = .flush (.direct d false false) a .clearMsgs := by
  cases again with
  | false => exact Or.inl (by simp [State.flushed])
  | true =>
    cases hs : s.sigInqBuffers with
    | none => exact Or.inl (by simp [State.flushed, hs])
    | some a => exact Or.inr ⟨a, rfl, by simp [State.flushed, hs]⟩

theorem BufferArray.setSlot_eq_self (x : BufferArray Pid Payload) (i : Slot) :
    x.setSlot i (x.slots i) = x := by
  have hslots : (x.setSlot i (x.slots i)).slots = x.slots := by
    funext j
    by_cases hj : j = i
    · rw [hj, BufferArray.setSlot_self]
    · exact BufferArray.setSlot_of_ne hj _
  exact congrArg (fun slots => { x with slots := slots }) hslots

/-- A buffer that is alive is left empty. -/
theorem flushBuffer_eq (halive : ((s.arrays a).slots i).alive = true)
    (hcounted : ((s.arrays a).slots i).queue = [] → ((s.arrays a).slots i).nrOfEnqueues = 0) :
    s.flushBuffer a i = { s.setArray a (BufferArray.setSlot { s.arrays a with
        nrOfEnqueues := (s.arrays a).nrOfEnqueues + ((s.arrays a).slots i).nrOfEnqueues } i
          { (s.arrays a).slots i with nrOfEnqueues := 0, queue := [] }) with
      sigInq := s.sigInq ++ ((s.arrays a).slots i).queue } := by
  cases hqueue : ((s.arrays a).slots i).queue with
  | nil =>
    have hb : ({ (s.arrays a).slots i with nrOfEnqueues := 0, queue := [] } :
        Buffer Pid Payload) = (s.arrays a).slots i := by
      rw [← hqueue, ← hcounted hqueue]
    rw [State.flushBuffer, hb, List.append_nil]
    simp only [hqueue]
    exact congrArg (s.setArray a) (BufferArray.setSlot_eq_self _ i).symm
  | cons y q =>
    rw [State.flushBuffer]
    simp only [hqueue, halive, if_true]

variable [DecidableEq Pid]

/-- What every step of the holder leaves as it is. -/
structure HolderStep (slotOf : Pid → Slot) (s s' : State Pid Payload) : Prop where
  /-- the senders -/
  senders : s'.senders = s.senders
  /-- who has locked which buffer -/
  lock : ∀ a i, ((s'.arrays a).slots i).lock = ((s.arrays a).slots i).lock
  /-- a buffer that is locked is not killed -/
  alive : ∀ a i e, ((s.arrays a).slots i).lock = some e →
    ((s'.arrays a).slots i).alive = true
  /-- only buffers of the array that is installed are alive -/
  installed : ∀ a i, ((s'.arrays a).slots i).alive = true → s'.sigInqBuffers = some a
  /-- signals are only taken from the buffers -/
  queue : ∀ a, s'.sigInqBuffers = some a → ∀ i, ((s'.arrays a).slots i).queue = [] ∨
    s.sigInqBuffers = some a ∧ ((s'.arrays a).slots i).queue = ((s.arrays a).slots i).queue
  /-- for each sender -/
  buffered : ∀ t, s.buffered slotOf t = [] → s'.buffered slotOf t = []
  /-- a buffer is killed with nothing in it -/
  open_or : ∀ a t, s.Open slotOf a t → s'.Open slotOf a t ∨ s'.buffered slotOf t = []

/-- **The holder of `MSGQ`** keeps the invariant, if it leaves the buffers and words in order. -/
theorem Inv.holder (h : Inv slotOf s) (hstep : HolderStep slotOf s s')
    (halive : ∀ a, s'.sigInqBuffers = some a → match s'.msgq.left with
      | none => (s'.arrays a).alive = true ∧ ∀ i, ((s'.arrays a).slots i).alive = true
      | some left => left.Nodup ∧ ∀ i, ((s'.arrays a).slots i).alive = true ↔ i ∈ left)
    (hbuffers : ∀ a, s'.sigInqBuffers = some a → ∀ i,
      BufferInv ((s'.arrays a).slots i) (i ∈ (s'.arrays a).nonemptySlots) (i ∈ s'.msgq.pending)
        s'.msgq.Clearing (s'.arrays a).inSlots s'.inQ s'.msgq.Covers)
    (hinQ : ∀ k, Has k s'.sigInq → s'.inQ k = true) (htaken : s'.msgq.Taken → s'.sigInq = [])
    (hmsgq : MsgqInv slotOf s') : Inv slotOf s' := by
  refine ⟨hstep.installed, fun a i e he => ?_, fun a ha i x hx => ?_, halive, hbuffers, hinQ,
    htaken, hmsgq, fun t => ?_⟩
  · rw [hstep.lock] at he
    rw [hstep.senders]
    exact ⟨hstep.alive a i e he, (h.locked a i e he).2⟩
  · rcases hstep.queue a ha i with hnil | ⟨ha', hqueue⟩
    · rw [hnil] at hx
      cases hx
    · rw [hqueue] at hx
      exact h.hashed a ha' i x hx
  · exact (h.senders t).congr (by rw [hstep.senders]) (fun a => hstep.open_or a t)
      (hstep.buffered t)

/-- The buffers are as before. -/
theorem HolderStep.of_slots (h : Inv slotOf s) (hptr : s'.sigInqBuffers = s.sigInqBuffers)
    (hsenders : s'.senders = s.senders) (hslots : ∀ a, (s'.arrays a).slots = (s.arrays a).slots) :
    HolderStep slotOf s s' := by
  have hbuffered : ∀ t, s'.buffered slotOf t = s.buffered slotOf t := fun t =>
    buffered_congr hptr (fun a _ => by rw [State.bufferOf, hslots]; rfl)
      fun a _ => by rw [State.bufferOf, hslots]; rfl
  refine ⟨hsenders, fun a i => by rw [hslots], fun a i e he => ?_, fun a i hi => ?_,
    fun a ha i => Or.inr ⟨hptr ▸ ha, by rw [hslots]⟩, fun t ht => by rw [hbuffered, ht],
    fun a t ho => Or.inl ?_⟩
  · rw [hslots]
    exact (h.locked a i e he).1
  · rw [hslots] at hi
    rw [hptr]
    exact h.installed a i hi
  · rw [State.Open, hptr, State.bufferOf, hslots]
    exact ho

/-! ## The holder goes on -/

/-- The holder has done nothing that others do not know of. -/
structure Msgq.Plain (m : Msgq Pid Payload) : Prop where
  /-- no buffer is to be flushed -/
  pending : m.pending = []
  /-- nothing is cleared -/
  clearing : ¬ m.Clearing
  /-- nothing will be set -/
  covers : ∀ k, ¬ m.Covers k
  /-- no buffer is to be deinstalled -/
  left : m.left = none
  /-- the in-queue has not been taken -/
  taken : ¬ m.Taken

/-- What holds of a buffer while the holder is plain. -/
theorem Inv.plainBuffer (h : Inv slotOf s) (hplain : s.msgq.Plain) (ha : s.sigInqBuffers = some a)
    (i : Slot) (pending clearing : Prop) (covers : Bool → Prop) :
    BufferInv ((s.arrays a).slots i) (i ∈ (s.arrays a).nonemptySlots) pending clearing
      (s.arrays a).inSlots s.inQ covers := by
  refine (h.buffers a ha i).mono Iff.rfl (fun hp => ?_) (fun k hk => ?_) fun k hk => ?_
  · rw [hplain.pending] at hp
    cases hp
  · exact hk.imp id fun hc => absurd hc hplain.clearing
  · exact hk.imp id fun hc => absurd hc (hplain.covers k)

/-- From one plain place to another. -/
theorem Inv.setMsgq (h : Inv slotOf s) (hplain : s.msgq.Plain) (hm : m.Plain)
    (hmsgq : MsgqInv slotOf { s with msgq := m }) : Inv slotOf { s with msgq := m } := by
  refine h.holder (.of_slots h rfl rfl fun _ => rfl) (fun a ha => ?_)
    (fun a ha i => h.plainBuffer hplain ha i _ _ _) h.inQ (fun ht => absurd ht hm.taken) hmsgq
  have := h.alive a ha
  rw [hplain.left] at this
  simp only [hm.left]
  exact this

/-- Words that nothing depends on. -/
theorem Inv.setArray (h : Inv slotOf s) {x : BufferArray Pid Payload}
    (hslots : x.slots = (s.arrays a).slots) (hbits : x.nonemptySlots = (s.arrays a).nonemptySlots)
    (hwords : x.inSlots = (s.arrays a).inSlots) (halive : x.alive = (s.arrays a).alive) :
    Inv slotOf (s.setArray a x) := by
  have harrays : ∀ a', ((s.setArray a x).arrays a').slots = (s.arrays a').slots ∧
      ((s.setArray a x).arrays a').nonemptySlots = (s.arrays a').nonemptySlots ∧
      ((s.setArray a x).arrays a').inSlots = (s.arrays a').inSlots ∧
      ((s.setArray a x).arrays a').alive = (s.arrays a').alive := by
    intro a'
    by_cases ha : a' = a
    · rw [ha, State.setArray_self]
      exact ⟨hslots, hbits, hwords, halive⟩
    · rw [State.setArray_of_ne ha]
      exact ⟨rfl, rfl, rfl, rfl⟩
  have hstep : HolderStep slotOf s (s.setArray a x) :=
    .of_slots h rfl rfl fun a' => (harrays a').1
  refine h.holder hstep (fun a' ha' => ?_) (fun a' ha' i => ?_) (fun k hk => ?_) h.taken ?_
  · rw [(harrays a').1, (harrays a').2.2.2]
    exact h.alive a' ha'
  · obtain ⟨h₁, h₂, h₃, -⟩ := harrays a'
    rw [h₁, h₂, h₃, State.setArray_inQ]
    exact h.buffers a' ha' i
  · rw [State.setArray_inQ]
    exact h.inQ k hk
  · refine h.msgq.congr rfl rfl (fun t ht => ⟨ht, hstep.buffered t⟩) fun k hk => ?_
    rw [State.setArray_inQ]
    exact hk

/-- A flush is done, or there are no buffers. -/
theorem Inv.flushed (h : Inv slotOf s) (hplain : s.msgq.Plain) {buffers : Option Addr}
    (hptr : s.sigInqBuffers = none ∨ s.sigInqBuffers = buffers)
    (htask : TaskInv slotOf s .rounds task) :
    Inv slotOf { s with msgq := s.flushed buffers task } := by
  cases task with
  | fetch => exact h.setMsgq hplain ⟨rfl, id, fun _ => id, rfl, id⟩ hptr
  | change => exact h.setMsgq hplain ⟨rfl, id, fun _ => id, rfl, id⟩ trivial
  | direct d force again =>
    obtain ⟨hseen, hnil⟩ := htask
    rcases flushed_direct s buffers d force again with hlink | ⟨a, hs, hflush⟩
    · rw [hlink]
      exact h.setMsgq hplain ⟨rfl, id, fun _ => id, rfl, id⟩
        ⟨hseen.congr id fun _ => id, hnil⟩
    · rw [hflush]
      exact h.setMsgq hplain ⟨rfl, id, fun _ => id, rfl, id⟩
        ⟨hs, hseen.congr id fun _ => id, fun _ => hnil⟩

/-- The start of a flush. -/
theorem Inv.flushBuffers (h : Inv slotOf s) (hplain : s.msgq.Plain)
    (htask : TaskInv slotOf s .clearMsgs task) : Inv slotOf (s.flushBuffers task) := by
  rw [State.flushBuffers]
  split
  · rename_i a hs
    refine h.setMsgq hplain ⟨rfl, id, fun _ => id, rfl, id⟩ ⟨hs, ?_⟩
    cases task with
    | direct d force again => exact ⟨htask.1.congr id fun _ => id, htask.2⟩
    | _ => trivial
  · rename_i hs
    refine h.flushed hplain (Or.inl hs) ?_
    cases task with
    | direct d force again =>
      refine ⟨htask.1, ?_⟩
      show s.buffered slotOf d.sender = []
      rw [State.buffered, hs]
    | _ => trivial

/-! ## Senders at `MSGQ` -/

/-- A sender reads `state`, and goes on. -/
theorem Inv.readState (h : Inv slotOf s) {chain : List (Signal Pid Payload)} {force : Bool}
    (hm : s.msgq = .readState t chain force) :
    Inv slotOf (if force then
      s.flushBuffers (.direct ⟨t, chain, s.msgSigInQ, s.nmsgSigInQ⟩ true s.offHeap)
      else { s with msgq := .install ⟨t, chain, s.msgSigInQ, s.nmsgSigInQ⟩ s.offHeap }) := by
  have hplain : s.msgq.Plain := by
    rw [hm]
    exact ⟨rfl, id, fun _ => id, rfl, id⟩
  have hdirect := h.msgq
  rw [MsgqInv, hm] at hdirect
  obtain ⟨⟨hin, hvalid⟩, hnil⟩ := hdirect
  cases force with
  | true =>
    exact h.flushBuffers hplain ⟨⟨⟨hin, hvalid⟩, id, id⟩, fun hforce => by cases hforce⟩
  | false =>
    exact h.setMsgq hplain ⟨rfl, id, fun _ => id, rfl, id⟩ ⟨⟨⟨hin, hvalid⟩, id, id⟩, hnil rfl⟩

/-- A sender installs buffers. -/
theorem Inv.maybeInstallBuffers (h : Inv slotOf s) {d : Direct Pid Payload} {off offHeap : Bool}
    (hm : s.msgq = .install d off) : Inv slotOf (s.maybeInstallBuffers offHeap) := by
  rw [State.maybeInstallBuffers]
  split
  · exact h
  · rename_i hcond
    have hnone : s.sigInqBuffers = none := by
      by_contra hne
      exact hcond (Or.inr (Or.inl hne))
    have hdead : ∀ a i, ¬ ((s.arrays a).slots i).alive = true := fun a i hi => by
      have := h.installed a i hi
      rw [hnone] at this
      cases this
    have hlock : ∀ a i, ((s.arrays a).slots i).lock = none := fun a i => by
      cases hl : ((s.arrays a).slots i).lock with
      | none => rfl
      | some e => exact absurd (h.locked a i e hl).1 (hdead a i)
    have harrays : ∀ a', ((s.setArray s.nextArray .fresh).arrays a').slots = fun i =>
        if a' = s.nextArray then .fresh else (s.arrays a').slots i := by
      intro a'
      by_cases ha : a' = s.nextArray
      · rw [ha, State.setArray_self]
        funext i
        rw [if_pos rfl]
        rfl
      · rw [State.setArray_of_ne ha]
        funext i
        rw [if_neg ha]
    generalize hs' : ({ s.setArray s.nextArray .fresh with
      contention := 0, nextArray := s.nextArray + 1, sigInqBuffers := some s.nextArray } :
        State Pid Payload) = s'
    have hptr : s'.sigInqBuffers = some s.nextArray := by rw [← hs']
    have hslots : ∀ a', (s'.arrays a').slots = fun i =>
        if a' = s.nextArray then .fresh else (s.arrays a').slots i := by
      rw [← hs']
      exact harrays
    have hfresh : s'.arrays s.nextArray = .fresh := by
      rw [← hs']
      exact State.setArray_self _ _ _
    have hbuffered : ∀ t, s'.buffered slotOf t = [] := fun t => by
      rw [State.buffered, hptr]
      show (if _ then _ else _) = _
      rw [State.bufferOf, hfresh]
      rfl
    have hstep : HolderStep slotOf s s' := by
      refine ⟨by rw [← hs']; rfl, fun a i => ?_, fun a i e he => ?_, fun a i hi => ?_,
        fun a ha i => Or.inl ?_, fun t _ => hbuffered t, fun a t ho => ?_⟩
      · rw [hslots, hlock]
        show (if _ then _ else _ : Buffer Pid Payload).lock = none
        split
        · rfl
        · exact hlock a i
      · rw [hlock] at he
        cases he
      · rw [hslots] at hi
        dsimp only at hi
        split at hi
        · rename_i ha
          rw [hptr, ha]
        · exact absurd hi (hdead a i)
      · obtain rfl : s.nextArray = a := Option.some.inj (hptr.symm.trans ha)
        rw [hfresh]
        rfl
      · exact absurd (hnone.symm.trans ho.1) (by simp)
    have hmsgq := h.msgq
    rw [MsgqInv, hm] at hmsgq
    have hm' : s'.msgq = .install d off := by
      rw [← hs', ← hm]
      rfl
    refine h.holder hstep (fun a ha => ?_) (fun a ha i => ?_) (fun k hk => ?_) (fun ht => ?_) ?_
    · obtain rfl : s.nextArray = a := Option.some.inj (hptr.symm.trans ha)
      rw [hm', hfresh]
      exact ⟨rfl, fun _ => rfl⟩
    · obtain rfl : s.nextArray = a := Option.some.inj (hptr.symm.trans ha)
      rw [hfresh]
      exact .empty rfl rfl rfl
    · rw [← hs'] at hk ⊢
      have := h.inQ k hk
      cases k <;> exact this
    · rw [hm'] at ht
      exact ht.elim
    · rw [MsgqInv, hm']
      refine ⟨hmsgq.1.congr (fun hin => by rw [hstep.senders]; exact hin) fun k hk => ?_,
        hbuffered _⟩
      rw [← hs']
      cases k <;> exact hk

/-- A sender has installed buffers, or not, and goes on. -/
theorem Inv.install (h : Inv slotOf s) {d : Direct Pid Payload} {offHeap : Bool}
    (hm : s.msgq = .install d offHeap) :
    Inv slotOf (if offHeap then
      (s.maybeInstallBuffers offHeap).flushBuffers (.direct d false false)
      else { s.maybeInstallBuffers offHeap with msgq := .link d }) := by
  have h' : Inv slotOf (s.maybeInstallBuffers offHeap) := h.maybeInstallBuffers hm
  have hm' : (s.maybeInstallBuffers offHeap).msgq = .install d offHeap := by
    rw [State.maybeInstallBuffers, ← hm]
    split <;> rfl
  have hplain : (s.maybeInstallBuffers offHeap).msgq.Plain := by
    rw [hm']
    exact ⟨rfl, id, fun _ => id, rfl, id⟩
  have hmsgq := h'.msgq
  rw [MsgqInv, hm'] at hmsgq
  obtain ⟨hseen, hnil⟩ := hmsgq
  split
  · exact h'.flushBuffers hplain ⟨hseen, fun _ => hnil⟩
  · exact h'.setMsgq hplain ⟨rfl, id, fun _ => id, rfl, id⟩ ⟨hseen.congr id fun _ => id, hnil⟩

/-! ## A flush -/

variable {pc pc' : FlushPc} {x : BufferArray Pid Payload}

theorem TaskInv.imp (h : TaskInv slotOf s pc task) (hsenders : s'.senders = s.senders)
    (hq : ∀ k, s.inQ k = true → s'.inQ k = true)
    (hdrains : ∀ t force, s.senders t = .inMsgq → Drains slotOf s t force pc →
      Drains slotOf s' t force pc') : TaskInv slotOf s' pc' task := by
  cases task with
  | direct d force again =>
    obtain ⟨hseen, hd⟩ := h
    exact ⟨hseen.congr (fun hin => by rw [hsenders]; exact hin) hq,
      hdrains _ _ hseen.inMsgq hd⟩
  | _ => trivial

theorem Inv.flush (h : Inv slotOf s) (hm : s.msgq = .flush task a pc) :
    s.sigInqBuffers = some a ∧ TaskInv slotOf s pc task := by
  have hmsgq := h.msgq
  rw [MsgqInv, hm] at hmsgq
  exact hmsgq

/-- Words of the array are written. -/
theorem HolderStep.setArray (h : Inv slotOf s) (hslots : x.slots = (s.arrays a).slots) :
    HolderStep slotOf s { s.setArray a x with msgq := m } := by
  refine .of_slots h rfl rfl fun a' => ?_
  by_cases ha : a' = a
  · rw [ha]
    exact (congrArg BufferArray.slots (State.setArray_self s a x)).trans hslots
  · exact congrArg BufferArray.slots (State.setArray_of_ne ha x)

/-- The kinds are cleared. -/
theorem Inv.clear (h : Inv slotOf s) (hm : s.msgq = .flush task a pc)
    (hpc : pc = .clearMsgs ∨ pc = .clearNonmsgs) (hpc' : pc' = .clearNonmsgs ∨ pc' = .exchange)
    (hslots : x.slots = (s.arrays a).slots) (hbits : x.nonemptySlots = (s.arrays a).nonemptySlots)
    (halive : x.alive = (s.arrays a).alive) :
    Inv slotOf { s.setArray a x with msgq := .flush task a pc' } := by
  obtain ⟨hs, htask⟩ := h.flush hm
  have hstep : HolderStep slotOf s { s.setArray a x with msgq := .flush task a pc' } :=
    .setArray h hslots
  have hself : ({ s.setArray a x with msgq := .flush task a pc' } :
      State Pid Payload).arrays a = x := State.setArray_self _ _ _
  have hinQ : ({ s.setArray a x with msgq := .flush task a pc' } :
      State Pid Payload).inQ = s.inQ := State.setArray_inQ s a x
  have hpending : s.msgq.pending = [] := by
    rw [hm]
    rcases hpc with rfl | rfl <;> rfl
  have hcovers : ∀ k, ¬ s.msgq.Covers k := by
    rw [hm]
    exact fun _ => id
  refine h.holder hstep (fun a' ha' => ?_) (fun a' ha' i => ?_) (fun k hk => ?_)
    (fun ht => ht.elim) ?_
  · obtain rfl := Option.some.inj (hs.symm.trans ha')
    have := h.alive a hs
    rw [hm] at this
    rw [hself, halive, hslots]
    rcases hpc with rfl | rfl <;> rcases hpc' with rfl | rfl <;> exact this
  · obtain rfl := Option.some.inj (hs.symm.trans ha')
    rw [hself, hinQ, hslots, hbits]
    refine (h.buffers a hs i).mono Iff.rfl (fun hp => ?_) (fun k _ => Or.inr ?_) fun k hk => ?_
    · rw [hpending] at hp
      cases hp
    · rcases hpc' with rfl | rfl <;> trivial
    · exact hk.imp id fun hc => absurd hc (hcovers k)
  · rw [hinQ]
    exact h.inQ k hk
  · refine ⟨hs, htask.imp rfl (fun k hk => ?_) fun t force _ hd => ?_⟩
    · rw [hinQ]
      exact hk
    · have hnil : force = false → s.buffered slotOf t = [] := by
        rcases hpc with rfl | rfl <;> exact hd
      have : force = false → State.buffered slotOf { s.setArray a x with
          msgq := .flush task a pc' } t = [] := fun hforce => hstep.buffered t (hnil hforce)
      rcases hpc' with rfl | rfl <;> exact this

/-- The bits are taken. -/
theorem Inv.exchange (h : Inv slotOf s) (hm : s.msgq = .flush task a .exchange) :
    Inv slotOf { s.setArray a { s.arrays a with nonemptySlots := ∅ } with
      msgq := .flush task a
        (.slots ((List.finRange nrOfBuffers).filter (· ∈ (s.arrays a).nonemptySlots))) } := by
  obtain ⟨hs, htask⟩ := h.flush hm
  generalize hpend : (List.finRange nrOfBuffers).filter (· ∈ (s.arrays a).nonemptySlots) = pending
  have hmem : ∀ i, i ∈ (s.arrays a).nonemptySlots → i ∈ pending := fun i hi => by
    rw [← hpend]
    exact List.mem_filter.2 ⟨List.mem_finRange i, decide_eq_true hi⟩
  have hmarked : ∀ i, ((s.arrays a).slots i).Marked → i ∈ pending := fun i hi => by
    rcases (h.buffers a hs i).marked hi with hbit | hp
    · exact hmem i hbit
    · rw [hm] at hp
      cases hp
  have hstep : HolderStep slotOf s { s.setArray a { s.arrays a with nonemptySlots := ∅ } with
      msgq := .flush task a (.slots pending) } := .setArray h rfl
  have hself : ({ s.setArray a { s.arrays a with nonemptySlots := ∅ } with
      msgq := .flush task a (.slots pending) } : State Pid Payload).arrays a =
      { s.arrays a with nonemptySlots := ∅ } := State.setArray_self _ _ _
  have hinQ : ({ s.setArray a { s.arrays a with nonemptySlots := ∅ } with
      msgq := .flush task a (.slots pending) } : State Pid Payload).inQ = s.inQ :=
    State.setArray_inQ s a { s.arrays a with nonemptySlots := ∅ }
  refine h.holder hstep (fun a' ha' => ?_) (fun a' ha' i => ?_) (fun k hk => ?_)
    (fun ht => ht.elim) ?_
  · obtain rfl := Option.some.inj (hs.symm.trans ha')
    have := h.alive a hs
    rw [hm] at this
    rw [hself]
    exact this
  · obtain rfl := Option.some.inj (hs.symm.trans ha')
    have hold := h.buffers a hs i
    rw [hm] at hold
    rw [hself, hinQ]
    exact ⟨fun hi => Or.inr (hmarked i hi), fun k hbit => absurd hbit (Finset.notMem_empty i),
      hold.carried, hold.counted⟩
  · rw [hinQ]
    exact h.inQ k hk
  · refine ⟨hs, htask.imp rfl (fun k hk => ?_) fun t force _ _ hne => ?_⟩
    · rw [hinQ]
      exact hk
    · refine hmarked _ (Or.inl fun hq => hne (hstep.buffered t ?_))
      rw [State.buffered, hs]
      show (if _ then _ else _) = _
      rw [State.bufferOf, hq]
      split <;> rfl

/-- All buffers that the flush has found have been flushed. -/
theorem Inv.endSlots (h : Inv slotOf s) (hm : s.msgq = .flush task a (.slots [])) :
    Inv slotOf { s with msgq := .flush task a .rounds } := by
  obtain ⟨hs, htask⟩ := h.flush hm
  have hplain : s.msgq.Plain := by
    rw [hm]
    exact ⟨rfl, id, fun _ => id, rfl, id⟩
  refine h.setMsgq hplain ⟨rfl, id, fun _ => id, rfl, id⟩
    ⟨hs, htask.imp rfl (fun _ => id) fun t force _ hd => ?_⟩
  by_contra hne
  exact absurd (hd hne) List.not_mem_nil

/-- A buffer is emptied or killed. -/
theorem HolderStep.takeBuffer (h : Inv slotOf s) {x : BufferArray Pid Payload}
    {b : Buffer Pid Payload} {q : List (Signal Pid Payload)} (hs : s.sigInqBuffers = some a)
    (hlock : ((s.arrays a).slots i).lock = none) (hb : b.lock = none)
    (hqueue : b.queue = [] ∨ b.queue = ((s.arrays a).slots i).queue)
    (htaken : b.alive = true → b.queue = []) (hx : x.slots = (s.arrays a).slots) :
    HolderStep slotOf s { s.setArray a (x.setSlot i b) with sigInq := q, msgq := m } := by
  generalize hs' : ({ s.setArray a (x.setSlot i b) with sigInq := q, msgq := m } :
    State Pid Payload) = s'
  have hptr : s'.sigInqBuffers = s.sigInqBuffers := by rw [← hs']; rfl
  have hself : (s'.arrays a).slots i = b := by
    rw [← hs']
    exact (congrArg (fun y => BufferArray.slots y i) (State.setArray_self s a _)).trans
      (BufferArray.setSlot_self x i b)
  have hother : ∀ a' j, ¬ (a' = a ∧ j = i) →
      (s'.arrays a').slots j = (s.arrays a').slots j := by
    intro a' j hne
    rw [← hs']
    by_cases ha : a' = a
    · have hj : j ≠ i := fun hj => hne ⟨ha, hj⟩
      rw [ha]
      refine (congrArg (fun y => BufferArray.slots y j) (State.setArray_self s a _)).trans ?_
      rw [BufferArray.setSlot_of_ne hj, hx]
    · exact congrArg (fun y => BufferArray.slots y j) (State.setArray_of_ne ha _)
  have hnil : ∀ t, slotOf t = i → s'.buffered slotOf t = [] := by
    intro t ht
    rw [State.buffered, hptr, hs]
    show (if _ then _ else _) = _
    rw [State.bufferOf, ht, hself]
    split
    · rename_i hb'
      rw [htaken hb']
      rfl
    · rfl
  refine ⟨by rw [← hs']; rfl, fun a' j => ?_, fun a' j e he => ?_, fun a' j hj => ?_,
    fun a' ha' j => ?_, fun t ht => ?_, fun a' t ho => ?_⟩
  · by_cases hj : a' = a ∧ j = i
    · rw [hj.1, hj.2, hself, hb, hlock]
    · rw [hother a' j hj]
  · by_cases hj : a' = a ∧ j = i
    · rw [hj.1, hj.2, hlock] at he
      cases he
    · rw [hother a' j hj]
      exact (h.locked a' j e he).1
  · rw [hptr]
    by_cases hj' : a' = a ∧ j = i
    · rw [hj'.1]
      exact hs
    · rw [hother a' j hj'] at hj
      exact h.installed a' j hj
  · by_cases hj : a' = a ∧ j = i
    · rw [hj.1, hj.2, hself]
      exact hqueue.imp id fun hq => ⟨hs, hq⟩
    · rw [hother a' j hj]
      exact Or.inr ⟨hptr ▸ ha', rfl⟩
  · by_cases hi : slotOf t = i
    · exact hnil t hi
    · rw [← ht]
      refine buffered_congr hptr (fun a' _ => ?_) fun a' _ => ?_
      · rw [State.bufferOf, hother a' _ fun hc => hi hc.2]
        rfl
      · rw [State.bufferOf, hother a' _ fun hc => hi hc.2]
        rfl
  · by_cases hi : slotOf t = i
    · exact Or.inr (hnil t hi)
    · rw [State.Open, hptr, State.bufferOf, hother a' _ fun hc => hi hc.2]
      exact Or.inl ho

/-- **A buffer is flushed.** -/
theorem Inv.flushBuffer (h : Inv slotOf s) {pending : List Slot}
    (hm : s.msgq = .flush task a (.slots (i :: pending)))
    (hlock : ((s.arrays a).slots i).lock = none) :
    Inv slotOf { s.flushBuffer a i with msgq := .flush task a (.slots pending) } := by
  obtain ⟨hs, htask⟩ := h.flush hm
  have halives := h.alive a hs
  rw [hm] at halives
  have hold := h.buffers a hs
  rw [hm] at hold
  rw [flushBuffer_eq (halives.2 i) (hold i).counted.1]
  have hstep := HolderStep.takeBuffer (m := .flush task a (.slots pending))
    (q := s.sigInq ++ ((s.arrays a).slots i).queue)
    (x := { s.arrays a with
      nrOfEnqueues := (s.arrays a).nrOfEnqueues + ((s.arrays a).slots i).nrOfEnqueues })
    (b := { (s.arrays a).slots i with nrOfEnqueues := 0, queue := [] }) h hs hlock hlock
    (Or.inl rfl) (fun _ => rfl) rfl
  generalize hb : ({ (s.arrays a).slots i with nrOfEnqueues := 0, queue := [] } :
    Buffer Pid Payload) = b at hstep ⊢
  generalize hx : ({ s.arrays a with nrOfEnqueues := (s.arrays a).nrOfEnqueues +
    ((s.arrays a).slots i).nrOfEnqueues } : BufferArray Pid Payload) = x at hstep ⊢
  have hself : (s.setArray a (x.setSlot i b)).arrays a = x.setSlot i b := State.setArray_self _ _ _
  have hinQ : (s.setArray a (x.setSlot i b)).inQ = s.inQ := State.setArray_inQ _ _ _
  refine h.holder hstep (fun a' ha' => ?_) (fun a' ha' j => ?_) (fun k hk => ?_)
    (fun ht => ht.elim) ⟨hs, htask.imp rfl (fun k hk => ?_) fun t force _ hd hne => ?_⟩
  · obtain rfl := Option.some.inj (hs.symm.trans ha')
    show ((s.setArray a (x.setSlot i b)).arrays a).alive = true ∧ ∀ j,
      (((s.setArray a (x.setSlot i b)).arrays a).slots j).alive = true
    rw [hself, ← hx]
    refine ⟨halives.1, fun j => ?_⟩
    by_cases hj : j = i
    · rw [hj, BufferArray.setSlot_self, ← hb]
      exact halives.2 i
    · rw [BufferArray.setSlot_of_ne hj]
      exact halives.2 j
  · obtain rfl := Option.some.inj (hs.symm.trans ha')
    show BufferInv (((s.setArray a (x.setSlot i b)).arrays a).slots j)
      (j ∈ ((s.setArray a (x.setSlot i b)).arrays a).nonemptySlots) (j ∈ pending) False
      ((s.setArray a (x.setSlot i b)).arrays a).inSlots (s.setArray a (x.setSlot i b)).inQ
      fun _ => False
    rw [hself, hinQ]
    by_cases hj : j = i
    · rw [hj, BufferArray.setSlot_self, ← hb]
      exact .empty hlock rfl rfl
    · rw [BufferArray.setSlot_of_ne hj, ← hx]
      exact (hold j).mono Iff.rfl (fun hp => (List.mem_cons.1 hp).resolve_left hj)
        (fun k hk => by cases k <;> exact hk) fun _ => id
  · show (s.setArray a (x.setSlot i b)).inQ k = true
    rw [hinQ]
    rcases has_append.1 hk with hk | hk
    · exact h.inQ k hk
    · exact ((hold i).carried k (Or.inl hk)).resolve_right id
  · show (s.setArray a (x.setSlot i b)).inQ k = true
    rw [hinQ]
    exact hk
  · have hbuf : s.buffered slotOf t ≠ [] := fun hnil => hne (hstep.buffered t hnil)
    refine (List.mem_cons.1 (hd hbuf)).resolve_left fun ht => hne ?_
    refine (buffered_eq (a := a) ?_).trans ?_
    · exact hs
    show (if _ then List.filter _ (((s.setArray a (x.setSlot i b)).arrays a).slots
      (slotOf t)).queue else _) = _
    rw [hself, ht, BufferArray.setSlot_self, ← hb]
    split <;> rfl

/-! ## Deinstalling -/

/-- The start. -/
theorem Inv.deinstallBuffers (h : Inv slotOf s) (hplain : s.msgq.Plain)
    (hs : s.sigInqBuffers = some a) (htask : TaskInv slotOf s .rounds task) :
    Inv slotOf (s.deinstallBuffers task a) := by
  have halives := h.alive a hs
  rw [hplain.left] at halives
  rw [State.deinstallBuffers, if_pos halives.1]
  have hstep : HolderStep slotOf s { s.setArray a { s.arrays a with alive := false } with
      contention := 0, msgq := .flush task a (.deinstall (List.finRange nrOfBuffers)) } := by
    refine .of_slots h rfl rfl fun a' => ?_
    show ((s.setArray a { s.arrays a with alive := false }).arrays a').slots = _
    by_cases ha : a' = a
    · rw [ha, State.setArray_self]
    · rw [State.setArray_of_ne ha]
  have hself : (s.setArray a { s.arrays a with alive := false }).arrays a =
      { s.arrays a with alive := false } := State.setArray_self _ _ _
  have hinQ : (s.setArray a { s.arrays a with alive := false }).inQ = s.inQ :=
    State.setArray_inQ _ _ _
  refine h.holder hstep (fun a' ha' => ?_) (fun a' ha' j => ?_) (fun k hk => ?_)
    (fun ht => ht.elim) ⟨hs, htask.imp rfl (fun k hk => ?_) fun t force _ hd => ?_⟩
  · obtain rfl := Option.some.inj (hs.symm.trans ha')
    refine ⟨List.nodup_finRange _, fun j => ?_⟩
    show (((s.setArray a { s.arrays a with alive := false }).arrays a).slots j).alive = true ↔ _
    rw [hself]
    exact iff_of_true (halives.2 j) (List.mem_finRange j)
  · obtain rfl := Option.some.inj (hs.symm.trans ha')
    show BufferInv (((s.setArray a { s.arrays a with alive := false }).arrays a).slots j)
      (j ∈ ((s.setArray a { s.arrays a with alive := false }).arrays a).nonemptySlots) _ _
      ((s.setArray a { s.arrays a with alive := false }).arrays a).inSlots
      (s.setArray a { s.arrays a with alive := false }).inQ _
    rw [hself, hinQ]
    exact (h.plainBuffer hplain hs j _ _ _).mono Iff.rfl id (fun k hk => by cases k <;> exact hk)
      fun _ => id
  · show (s.setArray a { s.arrays a with alive := false }).inQ k = true
    rw [hinQ]
    exact h.inQ k hk
  · show (s.setArray a { s.arrays a with alive := false }).inQ k = true
    rw [hinQ]
    exact hk
  · exact hstep.buffered t hd

/-- A buffer is deinstalled. -/
theorem Inv.deinstall (h : Inv slotOf s) {left : List Slot}
    (hm : s.msgq = .flush task a (.deinstall (i :: left)))
    (hlock : ((s.arrays a).slots i).lock = none) :
    Inv slotOf { s.setBuffer a i { (s.arrays a).slots i with alive := false } with
      sigInq := s.sigInq ++ ((s.arrays a).slots i).queue
      msgq := .flush task a (.deinstall left) } := by
  obtain ⟨hs, htask⟩ := h.flush hm
  have halives := h.alive a hs
  rw [hm] at halives
  obtain ⟨hnodup, hleft⟩ := halives
  obtain ⟨hi, hnodup⟩ := List.nodup_cons.1 hnodup
  have hold := h.buffers a hs
  rw [hm] at hold
  have hstep := HolderStep.takeBuffer (m := .flush task a (.deinstall left))
    (q := s.sigInq ++ ((s.arrays a).slots i).queue) (x := s.arrays a)
    (b := { (s.arrays a).slots i with alive := false }) h hs hlock hlock
    (Or.inr rfl) (fun hd => by cases hd) rfl
  generalize hb : ({ (s.arrays a).slots i with alive := false } : Buffer Pid Payload) = b
    at hstep ⊢
  have hself : (s.setBuffer a i b).arrays a = (s.arrays a).setSlot i b := State.setArray_self _ _ _
  refine h.holder hstep (fun a' ha' => ?_) (fun a' ha' j => ?_) (fun k hk => ?_)
    (fun ht => ht.elim) ⟨hs, htask.imp rfl (fun k hk => ?_) fun t force _ hd => ?_⟩
  · obtain rfl := Option.some.inj (hs.symm.trans ha')
    refine ⟨hnodup, fun j => ?_⟩
    show (((s.setBuffer a i b).arrays a).slots j).alive = true ↔ j ∈ left
    rw [hself]
    by_cases hj : j = i
    · rw [hj, BufferArray.setSlot_self, ← hb]
      exact iff_of_false Bool.false_ne_true hi
    · rw [BufferArray.setSlot_of_ne hj, hleft j, List.mem_cons, or_iff_right hj]
  · obtain rfl := Option.some.inj (hs.symm.trans ha')
    by_cases hj : j = i
    · rw [hj]
      refine BufferInv.setBuffer (s := s) (a := a) (i := i) (b := b) ?_
      rw [← hb]
      exact ⟨(hold i).marked, (hold i).checked, (hold i).carried, (hold i).counted⟩
    · show BufferInv (((s.setBuffer a i b).arrays a).slots j)
        (j ∈ ((s.setBuffer a i b).arrays a).nonemptySlots) _ _
        ((s.setBuffer a i b).arrays a).inSlots (s.setBuffer a i b).inQ _
      rw [State.setBuffer_nonemptySlots, State.setBuffer_inSlots, State.setBuffer_inQ, hself,
        BufferArray.setSlot_of_ne hj]
      exact hold j
  · show (s.setBuffer a i b).inQ k = true
    rw [State.setBuffer_inQ]
    rcases has_append.1 hk with hk | hk
    · exact h.inQ k hk
    · exact ((hold i).carried k (Or.inl hk)).resolve_right id
  · show (s.setBuffer a i b).inQ k = true
    rw [State.setBuffer_inQ]
    exact hk
  · exact hstep.buffered t hd

/-- The end. -/
theorem Inv.deinstalled (h : Inv slotOf s) (hm : s.msgq = .flush task a (.deinstall []))
    (hx : x.slots = (s.arrays a).slots) :
    Inv slotOf { s.setArray a x with
      sigInqBuffers := none
      msgq := State.flushed { s.setArray a x with sigInqBuffers := none } (some a) task } := by
  obtain ⟨hs, htask⟩ := h.flush hm
  have halives := h.alive a hs
  rw [hm] at halives
  have hdead : ∀ a' i, ¬ ((s.arrays a').slots i).alive = true := fun a' i hi => by
    obtain rfl := Option.some.inj (hs.symm.trans (h.installed a' i hi))
    exact absurd ((halives.2 i).1 hi) List.not_mem_nil
  generalize hm' : State.flushed { s.setArray a x with sigInqBuffers := none } (some a) task = m
  generalize hs' : ({ s.setArray a x with sigInqBuffers := none, msgq := m } :
    State Pid Payload) = s'
  have hptr : s'.sigInqBuffers = none := by rw [← hs']
  have hslots : ∀ a', (s'.arrays a').slots = (s.arrays a').slots := by
    intro a'
    rw [← hs']
    by_cases ha : a' = a
    · rw [ha]
      exact (congrArg BufferArray.slots (State.setArray_self s a x)).trans hx
    · exact congrArg BufferArray.slots (State.setArray_of_ne ha x)
  have hbuffered : ∀ t, s'.buffered slotOf t = [] := fun t => by
    rw [State.buffered, hptr]
  have hinQ : s'.inQ = s.inQ := by
    rw [← hs']
    exact State.setArray_inQ s a x
  have hstep : HolderStep slotOf s s' := by
    refine ⟨by rw [← hs']; rfl, fun a' i => by rw [hslots], fun a' i e he => ?_,
      fun a' i hi => ?_, fun a' ha' => ?_, fun t _ => hbuffered t, fun a' t ho => ?_⟩
    · exact absurd (h.locked a' i e he).1 (hdead a' i)
    · rw [hslots] at hi
      exact absurd hi (hdead a' i)
    · rw [hptr] at ha'
      cases ha'
    · exact absurd ho.2 (hdead a' _)
  refine h.holder hstep (fun a' ha' => ?_) (fun a' ha' => ?_) (fun k hk => ?_) (fun ht => ?_) ?_
  · rw [hptr] at ha'
    cases ha'
  · rw [hptr] at ha'
    cases ha'
  · rw [hinQ]
    rw [← hs'] at hk
    exact h.inQ k hk
  · rw [← hs'] at ht
    cases task with
    | direct d force again =>
      rw [← hm'] at ht
      cases again <;> exact ht.elim
    | _ =>
      rw [← hm'] at ht
      exact ht.elim
  · have hmsgq : s'.msgq = m := by rw [← hs']
    rw [MsgqInv, hmsgq, ← hm']
    cases task with
    | fetch => exact Or.inl hptr
    | change => trivial
    | direct d force again =>
      have hlink : SeenInv s' d ∧ s'.buffered slotOf d.sender = [] := by
        refine ⟨htask.1.congr (fun hin => by rw [hstep.senders]; exact hin) fun k hk => ?_,
          hbuffered _⟩
        rw [hinQ]
        exact hk
      cases again <;> exact hlink

end PonBeam.SigBuffers
