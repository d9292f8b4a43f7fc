import PonBeam.SigBuffers.Pointers
import PonBeam.SigQueue.Prepare

/-!
# Every run has its pointers

The run of the lists determines what the steps do in memory, but for what the senders write to
their signals before they enqueue them. They can always write what is asked of them, as long as
no two signals have the same address; so there are pointers for every run.
-/

namespace PonBeam.SigBuffers

open SigQueue (Sig SigMem)

variable {Pid : Type} {s s' : State Pid Sig} {p : Memory} {x : Signal Pid Sig}
  {chain : List (Signal Pid Sig)} {event : Event Pid Sig} {events : List (Event Pid Sig)}

/-! ## Preparing a chain -/

/-- **A chain that is in no queue can be prepared.** -/
theorem exists_prepared (p : Memory) (hshape : Shape chain) (hnd : (addresses chain).Nodup)
    (hfresh : ∀ x, s.Queued x → x.payload ∉ addresses chain) :
    ∃ m first last lastNext numMsgs, Prepared s p m chain ∧
      SigQueue.ValidChain m first last lastNext numMsgs (addresses chain) := by
  obtain ⟨hne, hkinds⟩ := hshape
  set isMsg : Sig → Bool := fun y => chain.any fun x => decide (x.payload = y) && x.isMsg with hdef
  -- the kind of a signal is that at its address, which no other signal has
  have hisMsg : ∀ x ∈ chain, isMsg x.payload = x.isMsg := by
    intro x hx
    rw [Bool.eq_iff_iff, hdef, List.any_eq_true]
    constructor
    · rintro ⟨z, hz, hzx⟩
      rw [Bool.and_eq_true, decide_eq_true_iff] at hzx
      obtain rfl : z = x := List.inj_on_of_nodup_map hnd hz hx hzx.1
      exact hzx.2
    · intro h
      exact ⟨x, hx, by rw [h, decide_eq_true rfl]; rfl⟩
  have hall : ∀ (l : List (Signal Pid Sig)) (k : Bool), (∀ x ∈ l, x ∈ chain) →
      (∀ x ∈ l, x.isMsg = k) → ∀ y ∈ addresses l, isMsg y = k := by
    intro l k hl h y hy
    obtain ⟨x, hx, rfl⟩ := List.mem_map.1 hy
    rw [hisMsg x (hl x hx), h x hx]
  obtain ⟨first, rest, rfl⟩ := List.exists_cons_of_ne_nil hne
  obtain ⟨last, lastNext, n, hc⟩ := SigQueue.exists_validChain p.proc.mem isMsg hnd <| by
    rcases hkinds with hmsgs | hnmsgs | ⟨hf, hrest⟩
    · exact Or.inl (hall _ true (fun _ => id) hmsgs)
    · exact Or.inr (Or.inl (hall _ false (fun _ => id) hnmsgs))
    · refine Or.inr (Or.inr ⟨?_, hall rest true (fun _ => List.mem_cons_of_mem _) hrest⟩)
      have hf : (!first.isMsg) = true := hf
      rw [hisMsg first List.mem_cons_self, ← Bool.not_eq_true']
      exact hf
  refine ⟨_, _, last, lastNext, n, ⟨hfresh, hnd, fun y hy => SigQueue.sameOn_prepare fun z hz => ?_,
    fun y hy => ?_⟩, hc⟩
  · rw [List.mem_singleton.1 hz]
    exact hfresh y hy
  · rw [← hisMsg y hy]
    exact SigQueue.prepare_isMsg (mem_addresses hy)

/-- The chain that is enqueued, if one is. -/
def Effect.enqueued : Effect Pid → Option (List (Signal Pid Sig))
  | .enqueue chain | .enqueueToBuffer _ _ chain => some chain
  | _ => Option.none

/-- The memory can take a step. -/
theorem exists_memStep (p : Memory) {effect : Effect Pid}
    (h : ∀ chain, effect.enqueued = some chain → Shape chain ∧ (addresses chain).Nodup ∧
      ∀ x, s.Queued x → x.payload ∉ addresses chain) : ∃ p', MemStep s p effect p' := by
  cases effect with
  | none => exact ⟨_, .none⟩
  | install a => exact ⟨_, .install⟩
  | enqueue chain =>
    obtain ⟨hshape, hnd, hfresh⟩ := h chain rfl
    obtain ⟨m, first, last, lastNext, n, hprep, hc⟩ := exists_prepared p hshape hnd hfresh
    exact ⟨_, .enqueue hprep hc⟩
  | enqueueToBuffer a i chain =>
    obtain ⟨hshape, hnd, hfresh⟩ := h chain rfl
    obtain ⟨m, first, last, lastNext, n, hprep, hc⟩ := exists_prepared p hshape hnd hfresh
    exact ⟨_, .enqueueToBuffer hprep hc⟩
  | flushBuffer a i alive => exact ⟨_, .flushBuffer⟩
  | deinstallBuffer a i => exact ⟨_, .deinstallBuffer⟩
  | fetch => exact ⟨_, .fetch false⟩

/-! ## What a run sends -/

/-- What an event sends. -/
def Event.signals : Event Pid Sig → List (Signal Pid Sig)
  | .send _ chain _ => chain
  | _ => []

/-- What a run sends. -/
def sentIn (events : List (Event Pid Sig)) : List (Signal Pid Sig) := events.flatMap (·.signals)

section Senders

variable [DecidableEq Pid] {slotOf : Pid → Slot} {t : Pid}

theorem sentBy_eq (hvalid : ∀ event ∈ events, event.Valid) (t : Pid) :
    sentBy t events = (sentIn events).filter (·.sender = t) := by
  rw [sentBy, sentIn, List.filter_flatMap]
  refine List.flatMap_congr fun event hevent => ?_
  have hv := hvalid event hevent
  cases event with
  | send u chain force =>
    show (if u = t then chain else []) = chain.filter (·.sender = t)
    split
    · rename_i hu
      exact (List.filter_eq_self.2 fun x hx => decide_eq_true ((hv.2 x hx).trans hu)).symm
    · rename_i hu
      refine (List.filter_eq_nil_iff.2 fun x hx hc => hu ?_).symm
      exact (hv.2 x hx).symm.trans (of_decide_eq_true hc)
  | _ => rfl

/-- The signals that have been sent and those that `events` send have addresses of their own. -/
structure Apart (slotOf : Pid → Slot) (s : State Pid Sig) (events : List (Event Pid Sig)) :
    Prop where
  /-- those of one sender -/
  nodup : ∀ t, (addresses (s.history slotOf t ++ sentBy t events)).Nodup
  /-- those of two -/
  disjoint : ∀ t u, t ≠ u → ∀ y ∈ addresses (s.history slotOf t ++ sentBy t events),
    y ∉ addresses (s.history slotOf u ++ sentBy u events)

theorem apart_init (hvalid : ∀ event ∈ events, event.Valid)
    (hnd : (addresses (sentIn events)).Nodup) :
    Apart slotOf (State.init : State Pid Sig) events := by
  have hhistory : ∀ t, (State.init : State Pid Sig).history slotOf t ++ sentBy t events =
      (sentIn events).filter (·.sender = t) := fun t => sentBy_eq hvalid t
  refine ⟨fun t => ?_, fun t u htu y hy hy' => htu ?_⟩
  · rw [hhistory]
    exact hnd.sublist (List.filter_sublist.map _)
  · rw [hhistory] at hy hy'
    obtain ⟨x, hx, rfl⟩ := List.mem_map.1 hy
    obtain ⟨x', hx', heq⟩ := List.mem_map.1 hy'
    obtain ⟨hx, ht⟩ := List.mem_filter.1 hx
    obtain ⟨hx', hu⟩ := List.mem_filter.1 hx'
    obtain rfl : x' = x := List.inj_on_of_nodup_map hnd hx' hx heq
    exact (of_decide_eq_true ht).symm.trans (of_decide_eq_true hu)

theorem Apart.step (h : Apart slotOf s (event :: events))
    (hhistory : ∀ t, s'.history slotOf t = s.history slotOf t ++ event.sent t) :
    Apart slotOf s' events := by
  have heq : ∀ t, s'.history slotOf t ++ sentBy t events =
      s.history slotOf t ++ sentBy t (event :: events) := fun t => by
    rw [hhistory, List.append_assoc, sentBy, sentBy, List.flatMap_cons]
  refine ⟨fun t => ?_, fun t u htu => ?_⟩
  · rw [heq]
    exact h.nodup t
  · rw [heq, heq]
    exact h.disjoint t u htu

/-- A signal that is in a queue has been sent by its sender. -/
theorem Inv.mem_of_queued (hinv : Inv slotOf s) (hx : s.Queued x) :
    x ∈ (s.sigQs ++ s.sigInq).filter (·.sender = x.sender) ++ s.buffered slotOf x.sender := by
  rcases hx with hx | ⟨i, hx⟩
  · exact List.mem_append_left _ (List.mem_filter.2 ⟨hx, decide_eq_true rfl⟩)
  · refine List.mem_append_right _ ?_
    cases hs : s.sigInqBuffers with
    | none =>
      rw [inBuffer_none hs] at hx
      cases hx
    | some a =>
      rw [inBuffer_eq hs] at hx
      split at hx
      · rename_i halive
        have hbuffered : s.buffered slotOf x.sender =
            ((s.arrays a).slots i).queue.filter (·.sender = x.sender) := by
          rw [State.buffered, hs]
          show (if (s.bufferOf slotOf a x.sender).alive then _ else _) = _
          rw [State.bufferOf, hinv.hashed a hs i x hx, if_pos halive]
        rw [hbuffered]
        exact List.mem_filter.2 ⟨hx, decide_eq_true rfl⟩
      · cases hx

/-- What is underway is in no queue. -/
theorem Apart.fresh (h : Apart slotOf s events) (hinv : Inv slotOf s) (hx : s.Queued x) (t : Pid) :
    x.payload ∉ addresses (s.underway slotOf t) := by
  intro hmem
  have hqueued := mem_addresses (hinv.mem_of_queued hx)
  by_cases ht : x.sender = t
  · -- of one sender, what is queued has been sent before what is underway
    rw [ht] at hqueued
    have hnd := h.nodup t
    rw [addresses_append, State.history, addresses_append] at hnd
    exact (List.nodup_append.1 (List.nodup_append.1 hnd).1).2.2 _ hqueued _ hmem rfl
  · refine h.disjoint x.sender t ht x.payload ?_ ?_
    · rw [addresses_append, State.history, addresses_append]
      exact List.mem_append_left _ (List.mem_append_left _ hqueued)
    · rw [addresses_append, State.history, addresses_append]
      exact List.mem_append_left _ (List.mem_append_right _ hmem)

theorem Apart.nodup_underway (h : Apart slotOf s events) (t : Pid) :
    (addresses (s.underway slotOf t)).Nodup := by
  have hnd := h.nodup t
  rw [addresses_append, State.history, addresses_append] at hnd
  exact (List.nodup_append.1 (List.nodup_append.1 hnd).1).2.1

/-- A chain that is enqueued has been underway. -/
theorem Inv.underway_effect (hinv : Inv slotOf s) (h : (s.effect event).enqueued = some chain) :
    Shape chain ∧ ∃ t, s.underway slotOf t = chain := by
  cases event with
  | buffer a i =>
    change (s.bufferEffect a i).enqueued = some chain at h
    rw [State.bufferEffect] at h
    cases hlock : ((s.arrays a).slots i).lock with
    | none =>
      simp only [hlock] at h
      cases h
    | some e =>
      obtain ⟨halive, hin, hslot, hvalid⟩ := hinv.locked a i e hlock
      cases hpc : e.pc with
      | enqueue msg nmsg =>
        simp only [hlock, hpc] at h
        obtain rfl : e.chain = chain := Option.some.inj h
        refine ⟨hvalid.1, e.sender, ?_⟩
        rw [underway_inBuffer (hinv.installed a i halive) (by rw [hslot]) hin hlock]
        exact if_pos ⟨rfl, by rw [hpc]; exact Pc.noConfusion⟩
      | _ =>
        simp only [hlock, hpc] at h
        cases h
  | msgq =>
    change s.msgqEffect.enqueued = some chain at h
    have hm := hinv.msgq
    rw [MsgqInv] at hm
    rw [State.msgqEffect] at h
    cases hmsgq : s.msgq with
    | link d =>
      simp only [hmsgq] at h hm
      obtain rfl : d.chain = chain := Option.some.inj h
      refine ⟨hm.1.valid.1, d.sender, ?_⟩
      rw [State.underway, hm.1.inMsgq, hmsgq]
      exact if_pos rfl
    | install d offHeap =>
      simp only [hmsgq] at h
      by_cases hptr : (s.maybeInstallBuffers offHeap).sigInqBuffers = s.sigInqBuffers
      · rw [if_pos hptr] at h
        cases h
      · rw [if_neg hptr] at h
        cases h
    | flush task a pc =>
      simp only [hmsgq] at h
      cases pc with
      | slots pending => cases pending <;> cases h
      | deinstall left => cases left <;> cases h
      | _ => cases h
    | _ =>
      simp only [hmsgq] at h
      cases h
  | _ => cases h

/-! ## Runs -/

theorem Apart.exists_memRun (h : Apart slotOf s events) (hinv : Inv slotOf s)
    (hvalid : ∀ event ∈ events, event.Valid) (hrun : s.run slotOf events = some s')
    (p : Memory) : ∃ p', MemRun slotOf s p events s' p' := by
  induction events generalizing s p with
  | nil =>
    cases hrun
    exact ⟨p, .nil⟩
  | cons event events ih =>
    obtain ⟨hevent, hrest⟩ := List.forall_mem_cons.1 hvalid
    rw [State.run, Option.bind_eq_some_iff] at hrun
    obtain ⟨s₁, hstep, hrun⟩ := hrun
    obtain ⟨h₁, hhistory⟩ := step_follows hinv hevent hstep
    obtain ⟨p₁, hmem⟩ : ∃ p₁, MemStep s p (s.effect event) p₁ := by
      refine exists_memStep p fun chain hchain => ?_
      obtain ⟨hshape, t, rfl⟩ := hinv.underway_effect hchain
      exact ⟨hshape, h.nodup_underway t, fun x hx => h.fresh hinv hx t⟩
    obtain ⟨p', hrun'⟩ := ih (h.step hhistory) h₁ hrest hrun p₁
    exact ⟨p', .cons hstep hmem hrun'⟩

/-- **Every run has its pointers.** Whatever the order of the steps, if no two signals have the
same address, then the senders can prepare their chains so that the memory follows the run; and
however they do it, the queues in memory hold what the lists say. -/
theorem every_run_in_memory (slotOf : Pid → Slot) (events : List (Event Pid Sig))
    (hvalid : ∀ event ∈ events, event.Valid) (hnd : (addresses (sentIn events)).Nodup)
    {s : State Pid Sig} (hrun : State.init.run slotOf events = some s) {p₀ : Memory}
    (hqs : p₀.proc.qs = .empty) (hinq : p₀.proc.inq = .empty) :
    (∃ p, MemRun slotOf .init p₀ events s p) ∧
      ∀ p, MemRun slotOf .init p₀ events s p → Threaded s p := by
  refine ⟨(apart_init hvalid hnd).exists_memRun inv_init hvalid hrun p₀, fun p hp => ?_⟩
  obtain ⟨I, M, h⟩ := (memRep_init hqs hinq).run inv_init hvalid hp
  exact h.threaded

end Senders

/-- Each signal of the senders 1 and 2 is at an address of its own. -/
def Event.relocate : Event ℕ ℕ → Event ℕ Sig
  | .send t chain force =>
    .send t (chain.map fun x => { x with payload := 64 * x.payload + t }) force
  | event => event

/-- A memory in which nothing has been sent. -/
def unsent : Memory :=
  ⟨⟨⟨fun _ => none, fun _ => true, fun _ => none, fun _ => 0⟩, .empty, .empty⟩, fun _ _ => .empty⟩

/-- The memory follows the run `raced`, at whose end there are buffers with a signal in them. -/
theorem racedRun : ∃ s p, MemRun modSlots .init unsent (raced.map Event.relocate) s p ∧
    s.sigQs.length = 53 ∧ s.sigInqBuffers = some 0 ∧
    ((s.arrays 0).slots (modSlots 2)).queue.length = 1 := by
  have hsome : (State.init.run modSlots (raced.map Event.relocate)).any
      (fun s => s.sigQs.length == 53 && s.sigInqBuffers == some 0 &&
        ((s.arrays 0).slots (modSlots 2)).queue.length == 1) = true := by decide +kernel
  obtain ⟨s, hrun, hend⟩ := (Option.any_eq_true _ _).1 hsome
  simp only [Bool.and_eq_true, beq_iff_eq] at hend
  have hvalid : ∀ event ∈ raced.map Event.relocate, event.Valid := by decide +kernel
  obtain ⟨p, hp⟩ := (apart_init hvalid (by decide +kernel)).exists_memRun inv_init hvalid hrun unsent
  exact ⟨s, p, hp, hend.1.1, hend.1.2, hend.2⟩

theorem raced_queues : ∃ s p, s.sigQs.length = 53 ∧ s.sigInqBuffers = some 0 ∧
    ((s.arrays 0).slots (modSlots 2)).queue.length = 1 ∧ Threaded s p ∧
    (p.proc.inq.first = none ↔ s.sigInq = []) ∧
    (p.proc.inq.nmsigs.next = none ↔ s.sigInq.all (·.isMsg) = true) ∧
    (∀ a, s.sigInqBuffers = some a → ∀ i, ((s.arrays a).slots i).alive = true →
      ((p.queues a i).first = none ↔ ((s.arrays a).slots i).queue = []) ∧
      ((p.queues a i).nmsigs.next = none ↔
        ((s.arrays a).slots i).queue.all (·.isMsg) = true)) ∧
    ∀ t, (s.sigQs ++ s.sigInq).filter (·.sender = t) ++ s.buffered modSlots t ++
      s.underway modSlots t = sentBy t (raced.map Event.relocate) := by
  obtain ⟨s, p, hrun, hqs, hbuffers, hqueue⟩ := racedRun
  exact ⟨s, p, hqs, hbuffers, hqueue, queues_in_memory modSlots (raced.map Event.relocate)
    (by decide +kernel) rfl rfl hrun⟩

theorem raced_in_memory : ∃ s p, s.sigQs.length = 53 ∧
    MemRun modSlots .init unsent (raced.map Event.relocate) s p ∧ Threaded s p := by
  have hsome : (State.init.run modSlots (raced.map Event.relocate)).any
      (fun s => s.sigQs.length == 53) = true := by decide +kernel
  obtain ⟨s, hrun, hlength⟩ := (Option.any_eq_true _ _).1 hsome
  obtain ⟨⟨p, hp⟩, hall⟩ := every_run_in_memory modSlots (raced.map Event.relocate)
    (by decide +kernel) (by decide +kernel) hrun (show unsent.proc.qs = .empty from rfl) rfl
  exact ⟨s, p, of_decide_eq_true hlength, hp, hall p hp⟩

end PonBeam.SigBuffers
