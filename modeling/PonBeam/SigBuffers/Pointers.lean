import PonBeam.SigBuffers.Memory
import PonBeam.SigBuffers.Interference

/-!
# Following the pointers

In every run the queues in memory hold what the lists say: the pointers of the in-queue, of the
buffers and of the queues of the receiver keep the laws of a queue, and the tests that the code
makes on them come out as they do on the lists.
-/

namespace PonBeam.SigBuffers

open SigQueue (Sig SigMem InQueue)

variable {Pid : Type} {s s' : State Pid Sig} {p p' : Memory} {I M : List Sig} {a : Addr} {i : Slot}

/-! ## What the memory holds -/

/-- Nothing has been sent. -/
theorem memRep_init (hqs : p.proc.qs = .empty) (hinq : p.proc.inq = .empty) :
    MemRep (State.init : State Pid Sig) p [] [] := by
  have hnil : ∀ i, (State.init : State Pid Sig).inBuffer i = [] := fun _ => rfl
  refine ⟨SigQueue.rep_empty hqs hinq, rfl, fun a ha => ?_, fun i => ?_, fun i j _ x hx => ?_,
    fun x hx => ?_⟩
  · cases ha
  · exact List.nodup_nil
  · rw [hnil] at hx
    cases hx
  · rcases hx with hx | ⟨i, hx⟩
    · cases hx
    · rw [hnil] at hx
      cases hx

/-- The queues in memory hold what the lists say. -/
structure Threaded (s : State Pid Sig) (p : Memory) : Prop where
  /-- the inner and the middle queue -/
  received : ∃ I M, I ++ M = addresses s.sigQs ∧
    Seg p.proc.mem.next p.proc.qs.first I none ∧ p.proc.qs.last = SigQueue.endSlot .first I ∧
    (∀ x ∈ I, p.proc.mem.isMsg x = true) ∧ p.proc.qs.mqLen = I.length ∧
    SigQueue.QueueLaws p.proc .cont p.proc.qs.cont p.proc.qs.contLast p.proc.qs.nmsigs
      p.proc.qs.mlenoffs M
  /-- the in-queue -/
  inq : SigQueue.QueueLaws p.proc .inqFirst p.proc.inq.first p.proc.inq.last p.proc.inq.nmsigs
    p.proc.inq.mlenoffs (addresses s.sigInq)
  /-- the queue of a buffer, its own `first` taken for the head -/
  buffers : ∀ a, s.sigInqBuffers = some a → ∀ i, ((s.arrays a).slots i).alive = true →
    SigQueue.QueueLaws { p.proc with inq := p.queues a i } .inqFirst (p.queues a i).first
      (p.queues a i).last (p.queues a i).nmsigs (p.queues a i).mlenoffs
      (addresses ((s.arrays a).slots i).queue)
  /-- the kinds of the signals -/
  kinds : ∀ x, s.Queued x → p.proc.mem.isMsg x.payload = x.isMsg

theorem MemRep.threaded (h : MemRep s p I M) : Threaded s p :=
  ⟨⟨I, M, h.fetched, h.queues.innerLinks, h.queues.innerLast, h.queues.innerMsgs,
    h.queues.mqLen, h.queues.middle.laws rfl⟩, h.queues.inq.laws rfl,
    fun a ha i hi => SigQueue.QueueRep.laws (h.buffers a ha i hi) rfl, h.kinds⟩

/-- The kinds of a list of signals, and of their addresses. -/
theorem Threaded.all_isMsg (h : Threaded s p) {l : List (Signal Pid Sig)}
    (hl : ∀ x ∈ l, s.Queued x) :
    (∀ y ∈ addresses l, p.proc.mem.isMsg y = true) ↔ l.all (·.isMsg) = true := by
  rw [List.all_eq_true, addresses, List.forall_mem_map]
  exact forall₂_congr fun x hx => by rw [h.kinds x (hl x hx)]

theorem addresses_eq_nil {l : List (Signal Pid Sig)} : addresses l = [] ↔ l = [] :=
  List.map_eq_nil_iff

/-! ## Steps that move no signal -/

/-- Locks, words and counters are written. -/
theorem sameLists_setArray {x : BufferArray Pid Sig}
    (hslots : ∀ j, (x.slots j).alive = ((s.arrays a).slots j).alive ∧
      (x.slots j).queue = ((s.arrays a).slots j).queue) : SameLists s (s.setArray a x) := by
  refine ⟨⟨rfl, fun a' _ j => ?_⟩, rfl, rfl⟩
  by_cases ha : a' = a
  · rw [ha, State.setArray_self]
    exact hslots j
  · rw [State.setArray_of_ne ha]
    exact ⟨rfl, rfl⟩

theorem sameLists_setSlot {x : BufferArray Pid Sig} {b : Buffer Pid Sig}
    (hx : x.slots = (s.arrays a).slots) (halive : b.alive = ((s.arrays a).slots i).alive)
    (hqueue : b.queue = ((s.arrays a).slots i).queue) :
    SameLists s (s.setArray a (x.setSlot i b)) := by
  refine sameLists_setArray fun j => ?_
  by_cases hj : j = i
  · rw [hj, BufferArray.setSlot_self]
    exact ⟨halive, hqueue⟩
  · rw [BufferArray.setSlot_of_ne hj, hx]
    exact ⟨rfl, rfl⟩

/-- The rest of the state does not matter. -/
theorem SameLists.of_eq {s₁ : State Pid Sig} (h : SameLists s s₁)
    (hptr : s'.sigInqBuffers = s₁.sigInqBuffers) (harrays : s'.arrays = s₁.arrays)
    (hqs : s'.sigQs = s₁.sigQs) (hinq : s'.sigInq = s₁.sigInq) : SameLists s s' := by
  refine ⟨⟨hptr.trans h.sigInqBuffers, fun a ha i => ?_⟩, hqs.trans h.sigQs, hinq.trans h.sigInq⟩
  rw [harrays]
  exact h.slots a ha i

theorem SameLists.refl (s : State Pid Sig) : SameLists s s :=
  ⟨⟨rfl, fun _ _ _ => ⟨rfl, rfl⟩⟩, rfl, rfl⟩

theorem SameLists.trans {s₁ : State Pid Sig} (h : SameLists s s₁) (h' : SameLists s₁ s') :
    SameLists s s' := by
  refine ⟨⟨h'.sigInqBuffers.trans h.sigInqBuffers, fun a ha i => ?_⟩, h'.sigQs.trans h.sigQs,
    h'.sigInq.trans h.sigInq⟩
  obtain ⟨halive, hqueue⟩ := h.slots a ha i
  obtain ⟨halive', hqueue'⟩ := h'.slots a (h.sigInqBuffers.trans ha) i
  exact ⟨halive'.trans halive, hqueue'.trans hqueue⟩

theorem sameLists_flushBuffers (s : State Pid Sig) (task : Task Pid Sig) :
    SameLists s (s.flushBuffers task) := by
  rw [State.flushBuffers]
  split
  · exact .of_eq (.refl s) rfl rfl rfl rfl
  · exact .of_eq (.refl s) rfl rfl rfl rfl

theorem sameLists_deinstallBuffers (s : State Pid Sig) (task : Task Pid Sig) (a : Addr) :
    SameLists s (s.deinstallBuffers task a) := by
  rw [State.deinstallBuffers]
  split
  · have hl : SameLists s (s.setArray a { s.arrays a with alive := false }) :=
      sameLists_setArray fun _ => ⟨rfl, rfl⟩
    exact hl.of_eq rfl rfl rfl rfl
  · exact .of_eq (.refl s) rfl rfl rfl rfl

theorem sameLists_setSender [DecidableEq Pid] (s : State Pid Sig) (t : Pid)
    (x : Sender Pid Sig) : SameLists s (s.setSender t x) := .of_eq (.refl s) rfl rfl rfl rfl

theorem sameLists_setFlags (s : State Pid Sig) (seenMsg seenNmsg msg nmsg : Bool) :
    SameLists s (s.setFlags seenMsg seenNmsg msg nmsg) := by
  rw [State.setFlags]
  split
  · exact .refl s
  · exact .of_eq (.refl s) rfl rfl rfl rfl

/-! ## Steps -/

/-- **Buffers are installed, or not.** -/
theorem MemRep.maybeInstall (h : MemRep s p I M) {d : Direct Pid Sig} {offHeap : Bool}
    (hm : s.msgq = .install d offHeap) (hmem : MemStep s p s.msgqEffect p') :
    MemRep (s.maybeInstallBuffers offHeap) p' I M := by
  rw [State.msgqEffect, hm] at hmem
  dsimp only at hmem
  by_cases hstays : offHeap = false ∨ s.sigInqBuffers ≠ none ∨
      s.contention ≤ contentionInstallLimit
  · have heq : s.maybeInstallBuffers offHeap = s := if_pos hstays
    rw [heq, if_pos rfl] at hmem
    rw [heq]
    cases hmem
    exact h
  · have heq : s.maybeInstallBuffers offHeap = { s.setArray s.nextArray .fresh with
        contention := 0, nextArray := s.nextArray + 1, sigInqBuffers := some s.nextArray } :=
      if_neg hstays
    have hnone : s.sigInqBuffers = none := by
      by_contra hne
      exact hstays (Or.inr (Or.inl hne))
    have hptr : (s.maybeInstallBuffers offHeap).sigInqBuffers = some s.nextArray := by rw [heq]
    rw [if_neg (by rw [hptr, hnone]; exact Option.some_ne_none _)] at hmem
    cases hmem
    refine h.install hnone hptr ?_ ?_ fun i => ?_
    · rw [heq]
      rfl
    · rw [heq]
      rfl
    · rw [heq]
      show ((s.setArray s.nextArray .fresh).arrays s.nextArray).slots i = .fresh
      rw [State.setArray_self]
      rfl

/-- A step that writes nothing. -/
theorem MemRep.stay (h : MemRep s p I M) {effect : Effect Pid} (hmem : MemStep s p effect p')
    (heffect : effect = .none) (hl : SameLists s s') : MemRep s' p' I M := by
  rw [heffect] at hmem
  cases hmem
  exact h.congr hl

section Steps

variable [DecidableEq Pid] {slotOf : Pid → Slot} {e : Enqueuer Pid Sig}

/-- **A step of a sender in its buffer.** -/
theorem MemRep.bufferStep (h : MemRep s p I M) (hinv : Inv slotOf s)
    (hrun : s.bufferStep a i = some s') (hmem : MemStep s p (s.bufferEffect a i) p') :
    MemRep s' p' I M := by
  rw [State.bufferStep] at hrun
  cases hlock : ((s.arrays a).slots i).lock with
  | none =>
    simp only [hlock] at hrun
    cases hrun
  | some e =>
    simp only [hlock] at hrun
    obtain ⟨halive, -, -, -⟩ := hinv.locked a i e hlock
    have hs := hinv.installed a i halive
    -- a step that does not enqueue writes words and the lock only
    have hgoto : ∀ {x : BufferArray Pid Sig} {pc : Pc}, x.slots = (s.arrays a).slots →
        s.bufferEffect a i = .none →
        some (s.setArray a (x.setSlot i { (s.arrays a).slots i with
          lock := some { e with pc := pc } })) = some s' → MemRep s' p' I M := by
      intro x pc hx heffect hrun
      cases hrun
      exact h.stay hmem heffect (sameLists_setSlot hx rfl rfl)
    cases hpc : e.pc with
    | setMsgs | setNonmsgs =>
      simp only [hpc] at hrun
      refine hgoto ?_ ?_ hrun
      · split <;> rfl
      · simp only [State.bufferEffect, hlock, hpc]
    | mark =>
      have heffect : s.bufferEffect a i = .none := by
        simp only [State.bufferEffect, hlock, hpc]
      simp only [hpc] at hrun
      split at hrun
      · cases hrun
        exact h.stay hmem heffect (sameLists_setSlot rfl rfl rfl)
      · split at hrun
        · exact hgoto rfl heffect hrun
        · exact hgoto rfl heffect hrun
    | checkMsgs | checkNonmsgs =>
      have heffect : s.bufferEffect a i = .none := by
        simp only [State.bufferEffect, hlock, hpc]
      simp only [hpc] at hrun
      split at hrun
      · exact hgoto rfl heffect hrun
      · exact hgoto rfl heffect hrun
    | readState =>
      simp only [hpc] at hrun
      refine hgoto rfl ?_ hrun
      simp only [State.bufferEffect, hlock, hpc]
    | enqueue msg nmsg =>
      have heffect : s.bufferEffect a i = .enqueueToBuffer a i e.chain := by
        simp only [State.bufferEffect, hlock, hpc]
      simp only [hpc] at hrun
      rw [heffect] at hmem
      cases hrun
      cases hmem with
      | enqueueToBuffer hprep hc =>
        refine h.enqueueToBuffer hprep hc hs halive ?_ ?_ ?_ (fun j hj => ?_) ⟨?_, ?_⟩
        · rw [State.setFlags_sigInqBuffers]
          rfl
        · rw [State.setFlags_sigQs]
          rfl
        · rw [State.setFlags_sigInq]
          rfl
        · rw [State.setFlags_arrays, State.setBuffer, State.setArray_self]
          exact BufferArray.setSlot_of_ne hj _
        · rw [State.setFlags_arrays, State.setBuffer_self]
        · rw [State.setFlags_arrays, State.setBuffer_self]
    | unlock =>
      have heffect : s.bufferEffect a i = .none := by
        simp only [State.bufferEffect, hlock, hpc]
      simp only [hpc] at hrun
      cases hrun
      have hl : SameLists s (s.setBuffer a i { (s.arrays a).slots i with lock := none }) :=
        sameLists_setSlot rfl rfl rfl
      exact h.stay hmem heffect (hl.of_eq rfl rfl rfl rfl)

/-- **A step of a flush.** -/
theorem MemRep.flushStep (h : MemRep s p I M) (hinv : Inv slotOf s) {task : Task Pid Sig}
    {pc : FlushPc} (hm : s.msgq = .flush task a pc) (hrun : s.flushStep task a pc = some s')
    (hmem : MemStep s p s.msgqEffect p') : MemRep s' p' I M := by
  have hs := (hinv.flush hm).1
  have halive := hinv.alive a hs
  rw [hm] at halive
  rw [State.msgqEffect, hm] at hmem
  cases pc with
  | clearMsgs | clearNonmsgs | exchange =>
    rw [State.flushStep] at hrun
    cases hmem
    cases hrun
    refine h.congr (.of_eq (sameLists_setArray fun _ => ?_) rfl rfl rfl rfl)
    exact ⟨rfl, rfl⟩
  | slots pending =>
    cases pending with
    | nil =>
      rw [State.flushStep] at hrun
      cases hmem
      cases hrun
      exact h.congr (.of_eq (.refl s) rfl rfl rfl rfl)
    | cons i pending =>
      rw [State.flushStep] at hrun
      split at hrun
      · cases hrun
      · cases hrun
        cases hmem
        have hi := halive.2 i
        rw [hi, flushBuffer_eq hi (hinv.buffers a hs i).counted.1]
        refine h.takeBuffer hs hi (p.flushBuffer_proc a i) (fun j hj => p.flushBuffer_of_ne hj)
          ?_ ?_ ?_ (fun j hj => ?_) fun _ => ⟨?_, (h.buffers a hs i hi).flushBuffer⟩
        · rfl
        · rfl
        · rfl
        · show ((State.setArray _ a _).arrays a).slots j = _
          rw [State.setArray_self]
          exact BufferArray.setSlot_of_ne hj _
        · show (((State.setArray _ a _).arrays a).slots i).queue = _
          rw [State.setArray_self, BufferArray.setSlot_self]
  | rounds =>
    cases hmem
    rw [State.flushStep] at hrun
    dsimp only at hrun
    have hcounters : ∀ r n, SameLists s (s.setArray a
        { s.arrays a with nrOfRoundsLeft := r, nrOfEnqueues := n }) := fun _ _ =>
      sameLists_setArray fun _ => ⟨rfl, rfl⟩
    split at hrun
    · split at hrun
      · cases hrun
        exact h.congr ((hcounters _ _).trans (sameLists_deinstallBuffers _ _ _))
      · cases hrun
        refine h.congr ((hcounters _ (s.arrays a).nrOfEnqueues).trans
          (.of_eq (sameLists_setArray (a := a) fun _ => ?_) rfl rfl rfl rfl))
        rw [State.setArray_self]
        exact ⟨rfl, rfl⟩
    · cases hrun
      exact h.congr (.of_eq (hcounters _ _) rfl rfl rfl rfl)
  | deinstall left =>
    cases left with
    | nil =>
      cases hmem
      rw [State.flushStep] at hrun
      cases hrun
      refine h.deinstalled (fun i => ?_) rfl rfl rfl
      rw [inBuffer_eq hs, if_neg fun hi => ?_]
      exact absurd ((halive.2 i).1 hi) List.not_mem_nil
    | cons i left =>
      rw [State.flushStep] at hrun
      split at hrun
      · cases hrun
      · cases hrun
        cases hmem
        have hi := (halive.2 i).2 List.mem_cons_self
        refine h.takeBuffer hs hi (p.deinstallBuffer_proc a i)
          (fun j _ => by rw [p.deinstallBuffer_queues]) ?_ ?_ ?_ (fun j hj => ?_) fun hd => ?_
        · rfl
        · rfl
        · rfl
        · show ((s.setBuffer a i _).arrays a).slots j = _
          rw [State.setBuffer, State.setArray_self]
          exact BufferArray.setSlot_of_ne hj _
        · have hdead : (((s.setBuffer a i { (s.arrays a).slots i with alive := false }).arrays
              a).slots i).alive = false := by rw [State.setBuffer_self]
          exact absurd hd (by rw [hdead]; exact Bool.false_ne_true)

/-- **A step of the holder of `MSGQ`.** -/
theorem MemRep.msgqStep (h : MemRep s p I M) (hinv : Inv slotOf s) (hrun : s.msgqStep = some s')
    (hmem : MemStep s p s.msgqEffect p') : ∃ I' M', MemRep s' p' I' M' := by
  have hstay : s.msgqEffect = .none → SameLists s s' → ∃ I' M', MemRep s' p' I' M' :=
    fun heffect hl => ⟨I, M, h.stay hmem heffect hl⟩
  rw [State.msgqStep] at hrun
  cases hm : s.msgq with
  | free =>
    simp only [hm] at hrun
    cases hrun
  | readState t chain force =>
    refine hstay (by rw [State.msgqEffect, hm]) ?_
    simp only [hm] at hrun
    split at hrun
    · cases hrun
      exact sameLists_flushBuffers _ _
    · cases hrun
      exact .of_eq (.refl s) rfl rfl rfl rfl
  | install d offHeap =>
    have hinstalled := h.maybeInstall hm hmem
    simp only [hm] at hrun
    split at hrun
    · cases hrun
      exact ⟨I, M, hinstalled.congr (sameLists_flushBuffers _ _)⟩
    · cases hrun
      exact ⟨I, M, hinstalled.congr (.of_eq (.refl _) rfl rfl rfl rfl)⟩
  | flush task a pc =>
    simp only [hm] at hrun
    exact ⟨I, M, h.flushStep hinv hm hrun hmem⟩
  | link d =>
    simp only [hm] at hrun
    cases hrun
    rw [State.msgqEffect, hm] at hmem
    cases hmem with
    | enqueue hprep hc =>
      have hl := (sameLists_setFlags { s with sigInq := s.sigInq ++ d.chain, msgq := .free } d.msg
        d.nmsg (decide (d.chain.countP (·.isMsg) ≠ 0))
        (nonmsg d.chain && s.sigInq.all (·.isMsg))).trans (sameLists_setSender _ d.sender .idle)
      exact ⟨I, M, h.enqueue hprep hc ⟨hl.sigInqBuffers, hl.slots⟩ hl.sigQs hl.sigInq⟩
  | move buffers =>
    simp only [hm] at hrun
    rw [State.msgqEffect, hm] at hmem
    cases hmem
    have hb : ∀ s₁ : State Pid Sig, s₁.sigInqBuffers = s.sigInqBuffers → s₁.arrays = s.arrays →
        SameBuffers s s₁ := fun s₁ hptr harrays =>
      ⟨hptr, fun _ _ _ => by rw [harrays]; exact ⟨rfl, rfl⟩⟩
    split at hrun
    · -- nothing is spliced if the in-queue is empty, so the splice may stand for this step too
      rename_i hempty
      cases hrun
      refine h.fetch _ (hb _ rfl rfl) ?_ hempty.1
      show s.sigQs = _
      rw [hempty.1, List.append_nil]
    · cases hrun
      exact h.fetch _ (hb _ rfl rfl) rfl rfl
  | clearState buffers =>
    refine hstay (by rw [State.msgqEffect, hm]) ?_
    simp only [hm] at hrun
    split at hrun <;>
    · cases hrun
      exact .of_eq (.refl s) rfl rfl rfl rfl
  | recheckBits a =>
    refine hstay (by rw [State.msgqEffect, hm]) ?_
    simp only [hm] at hrun
    split at hrun <;>
    · cases hrun
      exact .of_eq (.refl s) rfl rfl rfl rfl
  | recheckNonmsgs a | recheckMsgs a nmsg | setState msg nmsg =>
    refine hstay (by rw [State.msgqEffect, hm]) ?_
    simp only [hm] at hrun
    cases hrun
    exact .of_eq (.refl s) rfl rfl rfl rfl

/-- **A step**, of the lists and in memory. -/
theorem MemRep.step (h : MemRep s p I M) (hinv : Inv slotOf s) {event : Event Pid Sig}
    (hrun : s.step slotOf event = some s') (hmem : MemStep s p (s.effect event) p') :
    ∃ I' M', MemRep s' p' I' M' := by
  have hstay : s.effect event = .none → SameLists s s' → ∃ I' M', MemRep s' p' I' M' :=
    fun heffect hl => ⟨I, M, h.stay hmem heffect hl⟩
  cases event with
  | send u chain force =>
    refine hstay rfl ?_
    rw [State.step] at hrun
    split at hrun
    · split at hrun
      · cases hrun
        exact sameLists_setSender _ _ _
      · split at hrun <;>
        · cases hrun
          exact sameLists_setSender _ _ _
    · cases hrun
  | lockBuffer u =>
    refine hstay rfl ?_
    rw [State.step] at hrun
    split at hrun
    · rename_i a chain hsender
      dsimp only at hrun
      split at hrun
      · cases hrun
      · split at hrun
        · cases hrun
          have hl : SameLists s (s.setBuffer a (slotOf u) { (s.arrays a).slots (slotOf u) with
              lock := some ⟨u, chain, .setMsgs⟩ }) := sameLists_setSlot rfl rfl rfl
          exact hl.trans (sameLists_setSender _ _ _)
        · cases hrun
          exact sameLists_setSender _ _ _
    · cases hrun
  | buffer a i => exact ⟨I, M, h.bufferStep hinv hrun hmem⟩
  | lockMsgq u busy =>
    refine hstay rfl ?_
    rw [State.step] at hrun
    split at hrun
    · cases hrun
      exact .of_eq (.refl s) rfl rfl rfl rfl
    · cases hrun
  | fetch busy =>
    refine hstay rfl ?_
    have hl : SameLists s { s with contention := sigQueueLock busy s.contention } :=
      .of_eq (.refl s) rfl rfl rfl rfl
    rw [State.step] at hrun
    split at hrun
    · dsimp only at hrun
      split at hrun
      · cases hrun
        exact hl
      · cases hrun
        exact hl.trans (sameLists_flushBuffers _ _)
    · cases hrun
  | change =>
    refine hstay rfl ?_
    rw [State.step] at hrun
    split at hrun
    · cases hrun
      exact sameLists_deinstallBuffers _ _ _
    · cases hrun
  | msgq => exact h.msgqStep hinv hrun hmem
  | setOffHeap on =>
    cases hrun
    exact hstay rfl (.of_eq (.refl s) rfl rfl rfl rfl)

/-! ## Runs -/

/-- A run, with what its steps do in memory. -/
inductive MemRun (slotOf : Pid → Slot) :
    State Pid Sig → Memory → List (Event Pid Sig) → State Pid Sig → Memory → Prop where
  /-- no step -/
  | nil {s : State Pid Sig} {p : Memory} : MemRun slotOf s p [] s p
  /-- a step first -/
  | cons {s s₁ s' : State Pid Sig} {p p₁ p' : Memory} {event : Event Pid Sig}
      {events : List (Event Pid Sig)} : s.step slotOf event = some s₁ →
      MemStep s p (s.effect event) p₁ → MemRun slotOf s₁ p₁ events s' p' →
      MemRun slotOf s p (event :: events) s' p'

/-- **A run**, of the lists and in memory. -/
theorem MemRep.run (h : MemRep s p I M) (hinv : Inv slotOf s) {events : List (Event Pid Sig)}
    (hvalid : ∀ event ∈ events, event.Valid) (hrun : MemRun slotOf s p events s' p') :
    ∃ I' M', MemRep s' p' I' M' := by
  induction hrun generalizing I M with
  | nil => exact ⟨I, M, h⟩
  | cons hstep hmem _ ih =>
    obtain ⟨hevent, hrest⟩ := List.forall_mem_cons.1 hvalid
    obtain ⟨I₁, M₁, h₁⟩ := h.step hinv hstep hmem
    exact ih h₁ (step_follows hinv hevent hstep).1 hrest

theorem MemRun.run {events : List (Event Pid Sig)} (h : MemRun slotOf s p events s' p') :
    s.run slotOf events = some s' := by
  induction h with
  | nil => rfl
  | cons hstep _ _ ih => rw [State.run, hstep, Option.bind_some, ih]

/-- **The queues in memory.** In every run from empty queues, whatever the order of the steps: the
pointers of the receiver's queues, of the in-queue and of the buffers keep the laws of a queue
and hold what the lists of the model say; the tests for an empty queue and for non-message signals
come out as they do on the lists; and what the lists hold of a sender is what it has sent. -/
theorem queues_in_memory (slotOf : Pid → Slot) (events : List (Event Pid Sig))
    (hvalid : ∀ event ∈ events, event.Valid) {p₀ : Memory} (hqs : p₀.proc.qs = .empty)
    (hinq : p₀.proc.inq = .empty) (hrun : MemRun slotOf .init p₀ events s p) :
    Threaded s p ∧
    (p.proc.inq.first = none ↔ s.sigInq = []) ∧
    (p.proc.inq.nmsigs.next = none ↔ s.sigInq.all (·.isMsg) = true) ∧
    (∀ a, s.sigInqBuffers = some a → ∀ i, ((s.arrays a).slots i).alive = true →
      ((p.queues a i).first = none ↔ ((s.arrays a).slots i).queue = []) ∧
      ((p.queues a i).nmsigs.next = none ↔
        ((s.arrays a).slots i).queue.all (·.isMsg) = true)) ∧
    ∀ t, (s.sigQs ++ s.sigInq).filter (·.sender = t) ++ s.buffered slotOf t ++
      s.underway slotOf t = sentBy t events := by
  obtain ⟨I, M, h⟩ := (memRep_init hqs hinq).run inv_init hvalid hrun
  have hthreaded := h.threaded
  refine ⟨hthreaded, ?_, ?_, fun a ha i hi => ⟨?_, ?_⟩, fun t => ?_⟩
  · rw [hthreaded.inq.head_eq_none, addresses_eq_nil]
  · rw [hthreaded.inq.nmsigs_eq_none, hthreaded.all_isMsg]
    exact fun x hx => Or.inl (List.mem_append_right _ hx)
  · rw [(hthreaded.buffers a ha i hi).head_eq_none, addresses_eq_nil]
  · rw [(hthreaded.buffers a ha i hi).nmsigs_eq_none]
    refine hthreaded.all_isMsg fun x hx => Or.inr ⟨i, ?_⟩
    rwa [inBuffer_alive ha hi]
  · exact (run_follows inv_init hvalid hrun.run).2 t

end Steps

end PonBeam.SigBuffers
