import PonBeam.SigBuffers.Interference

/-!
# How often a sender starts again

A sender that finds a kind cleared after it has marked its buffer starts again. The comment in
`erts_proc_sig_queue_try_enqueue_to_buffer` says that this happens at most twice. A flush that
takes the mark has to wait for the buffer, so after the mark each of the two words is cleared at
most once, and one more restart is due to what was cleared before. That is two for messages, or for
other signals, but three where a chain has both.
-/

namespace PonBeam.SigBuffers

variable {Pid Payload : Type}

/-! ## How often a sender starts again -/

/-- The sender is past the loop. -/
def Pc.past : Pc → Bool
  | .readState | .enqueue _ _ | .unlock => true
  | _ => false

/-- How often the sender may start again. -/
def State.restartsLeft [DecidableEq Pid] (s : State Pid Payload) (a : Addr) (i : Slot) (t : Pid) :
    ℕ :=
  let buffers := s.arrays a
  match (buffers.slots i).lock with
  | none => 0
  | some e =>
    if e.sender ≠ t ∨ e.pc.past then 0
    -- nothing marks the buffer yet
    else if (buffers.slots i).queue = [] ∧ i ∉ buffers.nonemptySlots ∧ i ∉ s.msgq.pending then
      kinds e.chain + 1
    else (e.stale buffers).toNat + if i ∈ s.msgq.pending then 0 else s.msgq.clears e.chain

/-- The sender `t` starts again. -/
def restart [DecidableEq Pid] (a : Addr) (i : Slot) (t : Pid) (s s' : State Pid Payload) : ℕ :=
  match ((s.arrays a).slots i).lock, ((s'.arrays a).slots i).lock with
  | some e, some e' =>
    if e.sender = t ∧ (e.pc = .checkMsgs ∨ e.pc = .checkNonmsgs) ∧ e'.pc = .setMsgs then 1 else 0
  | _, _ => 0

/-- How often it does in a run. -/
def restarts [DecidableEq Pid] (slotOf : Pid → Slot) (a : Addr) (t : Pid) :
    State Pid Payload → List (Event Pid Payload) → ℕ
  | _, [] => 0
  | s, event :: events =>
    match s.step slotOf event with
    | none => 0
    | some s' => restart a (slotOf t) t s s' + restarts slotOf a t s' events

variable [DecidableEq Pid] {slotOf : Pid → Slot} {s s' : State Pid Payload} {t : Pid} {a : Addr}
  {i : Slot} {e : Enqueuer Pid Payload}

theorem restartsLeft_none (hlock : ((s.arrays a).slots i).lock = none) :
    s.restartsLeft a i t = 0 := by
  rw [State.restartsLeft]
  simp only [hlock]

theorem restartsLeft_past (hlock : ((s.arrays a).slots i).lock = some e)
    (he : e.sender ≠ t ∨ e.pc.past = true) : s.restartsLeft a i t = 0 := by
  rw [State.restartsLeft]
  simp only [hlock]
  exact if_pos he

theorem restartsLeft_unmarked (hlock : ((s.arrays a).slots i).lock = some e)
    (he : ¬ (e.sender ≠ t ∨ e.pc.past = true)) (hqueue : ((s.arrays a).slots i).queue = [])
    (hbit : i ∉ (s.arrays a).nonemptySlots) (hpending : i ∉ s.msgq.pending) :
    s.restartsLeft a i t = kinds e.chain + 1 := by
  rw [State.restartsLeft]
  simp only [hlock]
  rw [if_neg he, if_pos ⟨hqueue, hbit, hpending⟩]

theorem restartsLeft_marked (hlock : ((s.arrays a).slots i).lock = some e)
    (he : ¬ (e.sender ≠ t ∨ e.pc.past = true))
    (hmarked : ¬ (((s.arrays a).slots i).queue = [] ∧ i ∉ (s.arrays a).nonemptySlots ∧
      i ∉ s.msgq.pending)) :
    s.restartsLeft a i t = (e.stale (s.arrays a)).toNat +
      if i ∈ s.msgq.pending then 0 else s.msgq.clears e.chain := by
  rw [State.restartsLeft]
  simp only [hlock]
  rw [if_neg he, if_neg hmarked]

/-- It is bounded by the words. -/
theorem restartsLeft_le (s : State Pid Payload) (a : Addr) (i : Slot) (t : Pid)
    (hlock : ((s.arrays a).slots i).lock = some e) : s.restartsLeft a i t ≤ kinds e.chain + 1 := by
  by_cases he : e.sender ≠ t ∨ e.pc.past = true
  · rw [restartsLeft_past hlock he]
    exact Nat.zero_le _
  · by_cases hmarked : ((s.arrays a).slots i).queue = [] ∧ i ∉ (s.arrays a).nonemptySlots ∧
        i ∉ s.msgq.pending
    · rw [restartsLeft_unmarked hlock he hmarked.1 hmarked.2.1 hmarked.2.2]
    · rw [restartsLeft_marked hlock he hmarked, Nat.add_comm]
      refine Nat.add_le_add ?_ (Bool.toNat_le _)
      split
      · exact Nat.zero_le _
      · exact s.msgq.clears_le e.chain

/-- A step that the sender sees nothing else of leaves it no more restarts. -/
theorem Quiet.restartsLeft (h : Quiet a i s s') (t : Pid) :
    s'.restartsLeft a i t ≤ s.restartsLeft a i t := by
  cases hlock : ((s.arrays a).slots i).lock with
  | none =>
    rw [restartsLeft_none (by rw [h.slot, hlock])]
    exact Nat.zero_le _
  | some e =>
    have hlock' : ((s'.arrays a).slots i).lock = some e := by rw [h.slot, hlock]
    by_cases he : e.sender ≠ t ∨ e.pc.past = true
    · rw [restartsLeft_past hlock' he]
      exact Nat.zero_le _
    · by_cases hmarked : ((s.arrays a).slots i).queue = [] ∧ i ∉ (s.arrays a).nonemptySlots ∧
          i ∉ s.msgq.pending
      · rw [restartsLeft_unmarked hlock he hmarked.1 hmarked.2.1 hmarked.2.2]
        exact restartsLeft_le s' a i t hlock'
      · have hmarked' : ¬ (((s'.arrays a).slots i).queue = [] ∧ i ∉ (s'.arrays a).nonemptySlots ∧
            i ∉ s'.msgq.pending) := by rwa [h.slot, h.bit, h.pending]
        rw [restartsLeft_marked hlock he hmarked, restartsLeft_marked hlock' he hmarked']
        refine Nat.add_le_add (e.stale_mono h.words) ?_
        simp only [h.pending]
        split
        · exact le_rfl
        · exact h.clears e.chain

/-! ## Steps -/

/-- A flush clears a word: one less is left to be cleared. -/
theorem restartsLeft_clear {x : BufferArray Pid Payload} {m : Msgq Pid Payload}
    (hslots : x.slots = (s.arrays a).slots) (hbits : x.nonemptySlots = (s.arrays a).nonemptySlots)
    (hpending : s.msgq.pending = []) (hpending' : m.pending = [])
    (hstale : ∀ e : Enqueuer Pid Payload, (e.stale x).toNat + m.clears e.chain ≤
      (e.stale (s.arrays a)).toNat + s.msgq.clears e.chain) (i : Slot) (t : Pid) :
    State.restartsLeft { s.setArray a x with msgq := m } a i t ≤ s.restartsLeft a i t := by
  generalize hs' : ({ s.setArray a x with msgq := m } : State Pid Payload) = s'
  have hself : s'.arrays a = x := by
    rw [← hs']
    exact State.setArray_self s a x
  have hm : s'.msgq = m := by rw [← hs']
  have hslot : (s'.arrays a).slots i = (s.arrays a).slots i := by rw [hself, hslots]
  cases hlock : ((s.arrays a).slots i).lock with
  | none =>
    rw [restartsLeft_none (by rw [hslot, hlock])]
    exact Nat.zero_le _
  | some e =>
    have hlock' : ((s'.arrays a).slots i).lock = some e := by rw [hslot, hlock]
    by_cases he : e.sender ≠ t ∨ e.pc.past = true
    · rw [restartsLeft_past hlock' he]
      exact Nat.zero_le _
    · have hbit : (i ∈ (s'.arrays a).nonemptySlots ∨ i ∈ s'.msgq.pending) ↔
          (i ∈ (s.arrays a).nonemptySlots ∨ i ∈ s.msgq.pending) := by
        rw [hself, hbits, hm, hpending, hpending']
      have hiff := marked_iff hslot hbit
      by_cases hmarked : ((s.arrays a).slots i).queue = [] ∧ i ∉ (s.arrays a).nonemptySlots ∧
          i ∉ s.msgq.pending
      · rw [restartsLeft_unmarked hlock he hmarked.1 hmarked.2.1 hmarked.2.2]
        exact restartsLeft_le s' a i t hlock'
      · rw [restartsLeft_marked hlock he hmarked, restartsLeft_marked hlock' he (mt hiff.1 hmarked),
          hself, hm, hpending, hpending', if_neg List.not_mem_nil, if_neg List.not_mem_nil]
        exact hstale e

/-- A flush takes the bits: it will come to the buffer. -/
theorem Inv.restartsLeft_exchange (h : Inv slotOf s) {task : Task Pid Payload}
    (hm : s.msgq = .flush task a .exchange) {pending : List Slot}
    (hpending : ∀ j, j ∈ pending ↔ j ∈ (s.arrays a).nonemptySlots) (i : Slot) (t : Pid) :
    State.restartsLeft { s.setArray a { s.arrays a with nonemptySlots := ∅ } with
      msgq := .flush task a (.slots pending) } a i t ≤ s.restartsLeft a i t := by
  have hold : i ∉ s.msgq.pending := by
    rw [hm]
    exact List.not_mem_nil
  generalize hs' : ({ s.setArray a { s.arrays a with nonemptySlots := ∅ } with
    msgq := .flush task a (.slots pending) } : State Pid Payload) = s'
  have hself : s'.arrays a = { s.arrays a with nonemptySlots := ∅ } := by
    rw [← hs']
    exact State.setArray_self s a _
  have hslot : (s'.arrays a).slots i = (s.arrays a).slots i := by rw [hself]
  have hbit : i ∉ (s'.arrays a).nonemptySlots := by
    rw [hself]
    exact Finset.notMem_empty i
  have hpending' : i ∈ s'.msgq.pending ↔ i ∈ (s.arrays a).nonemptySlots := by
    rw [← hs']
    exact hpending i
  cases hlock : ((s.arrays a).slots i).lock with
  | none =>
    rw [restartsLeft_none (by rw [hslot, hlock])]
    exact Nat.zero_le _
  | some e =>
    have hlock' : ((s'.arrays a).slots i).lock = some e := by rw [hslot, hlock]
    by_cases he : e.sender ≠ t ∨ e.pc.past = true
    · rw [restartsLeft_past hlock' he]
      exact Nat.zero_le _
    · by_cases hmarked : ((s.arrays a).slots i).queue = [] ∧ i ∉ (s.arrays a).nonemptySlots ∧
          i ∉ s.msgq.pending
      · rw [restartsLeft_unmarked hlock he hmarked.1 hmarked.2.1 hmarked.2.2]
        exact restartsLeft_le s' a i t hlock'
      · -- a buffer with signals has its bit, for no flush has taken it
        have hset : i ∈ (s.arrays a).nonemptySlots := by
          by_contra hunset
          have hqueue : ((s.arrays a).slots i).queue ≠ [] := fun hnil =>
            hmarked ⟨hnil, hunset, hold⟩
          have hs := (h.flush hm).1
          exact ((h.buffers a hs i).marked (Or.inl hqueue)).elim hunset hold
        have hin := hpending'.2 hset
        rw [restartsLeft_marked hlock he hmarked,
          restartsLeft_marked hlock' he fun hc => hc.2.2 hin, if_pos hin]
        refine Nat.add_le_add (e.stale_mono fun k hk => ?_) (Nat.zero_le _)
        rw [hself]
        cases k <;> exact hk

/-- **A step of the holder** leaves a sender no more restarts. -/
theorem Inv.restartsLeft_msgqStep (h : Inv slotOf s) (hrun : s.msgqStep = some s')
    (hlock : ((s.arrays a).slots i).lock = some e) (t : Pid) :
    (s'.arrays a).slots i = (s.arrays a).slots i ∧
      s'.restartsLeft a i t ≤ s.restartsLeft a i t := by
  by_cases htakes : ∀ task a', s.msgq ≠ .flush task a' .clearMsgs ∧
      s.msgq ≠ .flush task a' .clearNonmsgs ∧ s.msgq ≠ .flush task a' .exchange
  · have hquiet := h.quiet_msgqStep hlock htakes hrun
    exact ⟨hquiet.slot, hquiet.restartsLeft t⟩
  · obtain ⟨task, a', pc, hm, hpc⟩ : ∃ task a' pc, s.msgq = .flush task a' pc ∧
        (pc = .clearMsgs ∨ pc = .clearNonmsgs ∨ pc = .exchange) := by
      by_contra hnone
      refine htakes fun task a' => ⟨fun hm => ?_, fun hm => ?_, fun hm => ?_⟩
      · exact hnone ⟨task, a', _, hm, Or.inl rfl⟩
      · exact hnone ⟨task, a', _, hm, Or.inr (Or.inl rfl)⟩
      · exact hnone ⟨task, a', _, hm, Or.inr (Or.inr rfl)⟩
    have hs := h.installed a i (h.locked a i e hlock).1
    obtain rfl := Option.some.inj (hs.symm.trans (h.flush hm).1)
    have hslot : ∀ x : BufferArray Pid Payload, x.slots = (s.arrays a).slots →
        ((s.setArray a x).arrays a).slots i = (s.arrays a).slots i := fun x hx => by
      rw [State.setArray_self, hx]
    rw [State.msgqStep] at hrun
    simp only [hm] at hrun
    rcases hpc with rfl | rfl | rfl
    · rw [State.flushStep] at hrun
      cases hrun
      refine ⟨hslot _ rfl, ?_⟩
      refine restartsLeft_clear ?_ ?_ (by rw [hm]; rfl) ?_ (fun e => ?_) i t
      · rfl
      · rfl
      · rfl
      · rw [hm]
        calc (e.stale { s.arrays a with msgsInSlots := false }).toNat + (nonmsg e.chain).toNat
            ≤ (e.stale (s.arrays a)).toNat + (decide (e.chain.countP (·.isMsg) ≠ 0)).toNat +
                (nonmsg e.chain).toNat := Nat.add_le_add_right (e.stale_clearMsgs _) _
          _ = _ := Nat.add_assoc _ _ _
    · rw [State.flushStep] at hrun
      cases hrun
      refine ⟨hslot _ rfl, ?_⟩
      refine restartsLeft_clear ?_ ?_ (by rw [hm]; rfl) ?_ (fun e => ?_) i t
      · rfl
      · rfl
      · rfl
      · rw [hm]
        exact e.stale_clearNonmsgs _
    · rw [State.flushStep] at hrun
      cases hrun
      refine ⟨hslot _ rfl, h.restartsLeft_exchange hm (fun j => ?_) i t⟩
      simp only [List.mem_filter, List.mem_finRange, true_and, decide_eq_true_eq]

/-- A sender goes on in its buffer, with the words `x`, and does not start again. -/
theorem restart_goto {x : BufferArray Pid Payload} {pc : Pc}
    (hlock : ((s.arrays a).slots i).lock = some e) (t : Pid) (s₁ : State Pid Payload)
    (hs₁ : s₁ = s.setArray a (x.setSlot i
      { (s.arrays a).slots i with lock := some { e with pc := pc } })) :
    restart a i t s s₁ =
      if e.sender = t ∧ (e.pc = .checkMsgs ∨ e.pc = .checkNonmsgs) ∧ pc = .setMsgs then 1
      else 0 := by
  rw [restart, hlock, hs₁, State.setArray_self, BufferArray.setSlot_self]

/-- A sender goes on in its buffer, and starts again `r` times: it does so once a mark has been
made, and then a word had become stale. -/
theorem restartsLeft_goto {x : BufferArray Pid Payload} {pc : Pc} {r : ℕ}
    (hlock : ((s.arrays a).slots i).lock = some e) (he : ¬ (e.sender ≠ t ∨ e.pc.past = true))
    (hbit : i ∈ (s.arrays a).nonemptySlots → i ∈ x.nonemptySlots)
    (hmark : 0 < r → i ∈ (s.arrays a).nonemptySlots ∨ i ∈ s.msgq.pending)
    (hstale : r + (Enqueuer.stale { e with pc := pc } x).toNat ≤ (e.stale (s.arrays a)).toNat) :
    r + (s.setArray a (x.setSlot i { (s.arrays a).slots i with
      lock := some { e with pc := pc } })).restartsLeft a i t ≤ s.restartsLeft a i t := by
  generalize hs' : s.setArray a (x.setSlot i { (s.arrays a).slots i with
    lock := some { e with pc := pc } }) = s'
  have hself : s'.arrays a = x.setSlot i { (s.arrays a).slots i with
      lock := some { e with pc := pc } } := by
    rw [← hs']
    exact State.setArray_self _ _ _
  have hlock' : ((s'.arrays a).slots i).lock = some { e with pc := pc } := by
    rw [hself, BufferArray.setSlot_self]
  have hm : s'.msgq = s.msgq := by rw [← hs']; rfl
  by_cases hmarked : ((s.arrays a).slots i).queue = [] ∧ i ∉ (s.arrays a).nonemptySlots ∧
      i ∉ s.msgq.pending
  · obtain rfl : r = 0 := by
      by_contra hr
      exact (hmark (Nat.pos_of_ne_zero hr)).elim hmarked.2.1 hmarked.2.2
    have hle := restartsLeft_le s' a i t hlock'
    rw [Nat.zero_add, restartsLeft_unmarked hlock he hmarked.1 hmarked.2.1 hmarked.2.2]
    exact hle
  · rw [restartsLeft_marked hlock he hmarked]
    by_cases hpast : pc.past = true
    · rw [restartsLeft_past hlock' (Or.inr hpast)]
      exact (Nat.le_of_add_right_le hstale).trans (Nat.le_add_right _ _)
    · have hmarked' : ¬ (((s'.arrays a).slots i).queue = [] ∧
          i ∉ (s'.arrays a).nonemptySlots ∧ i ∉ s'.msgq.pending) := by
        rw [hself, BufferArray.setSlot_self, hm]
        exact fun hc => hmarked ⟨hc.1, mt hbit hc.2.1, hc.2.2⟩
      rw [restartsLeft_marked hlock' (not_or.2 ⟨(not_or.1 he).1, hpast⟩) hmarked', hself, hm,
        ← Nat.add_assoc]
      exact Nat.add_le_add_right hstale _

/-- **A step of a sender in its buffer.** -/
theorem Inv.restart_bufferStep (h : Inv slotOf s) (hlock : ((s.arrays a).slots i).lock = some e)
    (he : ¬ (e.sender ≠ t ∨ e.pc.past = true)) (hrun : s.bufferStep a i = some s') :
    restart a i t s s' + s'.restartsLeft a i t ≤ s.restartsLeft a i t := by
  rw [State.bufferStep] at hrun
  simp only [hlock] at hrun
  have hmarked : e.pc.marked = true → i ∈ (s.arrays a).nonemptySlots ∨ i ∈ s.msgq.pending :=
    fun hm => (h.buffers a (h.installed a i (h.locked a i e hlock).1) i).marked
      (Or.inr ⟨e, hlock, hm⟩)
  have ht : e.sender = t := not_not.1 (not_or.1 he).1
  have hgoto : ∀ {x : BufferArray Pid Payload} {pc : Pc},
      (i ∈ (s.arrays a).nonemptySlots → i ∈ x.nonemptySlots) →
      (e.pc ≠ .checkMsgs ∧ e.pc ≠ .checkNonmsgs ∨ pc ≠ .setMsgs) →
      (Enqueuer.stale { e with pc := pc } x).toNat ≤ (e.stale (s.arrays a)).toNat →
      some (s.setArray a (x.setSlot i { (s.arrays a).slots i with
        lock := some { e with pc := pc } })) = some s' →
      restart a i t s s' + s'.restartsLeft a i t ≤ s.restartsLeft a i t := by
    intro x pc hbit hpc hstale hrun
    cases hrun
    rw [restart_goto hlock t _ rfl, if_neg]
    · exact restartsLeft_goto hlock he hbit (fun hc => absurd hc (Nat.lt_irrefl 0))
        ((Nat.zero_add _).le.trans hstale)
    · rintro ⟨-, hcheck, hset⟩
      rcases hpc with ⟨h₁, h₂⟩ | hpc
      · exact hcheck.elim h₁ h₂
      · exact hpc hset
  have hagain : ∀ {x : BufferArray Pid Payload}, e.pc.marked = true → e.stale x = true →
      x = s.arrays a →
      some (s.setArray a (x.setSlot i { (s.arrays a).slots i with
        lock := some { e with pc := .setMsgs } })) = some s' →
      restart a i t s s' + s'.restartsLeft a i t ≤ s.restartsLeft a i t := by
    intro x hm hstale hx hrun
    cases hrun
    rw [restart_goto hlock t _ rfl]
    refine restartsLeft_goto hlock he (by rw [hx]; exact id) (fun _ => hmarked hm) ?_
    have hfresh : (Enqueuer.stale { e with pc := .setMsgs } x).toNat = 0 := rfl
    rw [hfresh, ← hx, hstale]
    split <;> decide
  cases hpc : e.pc with
  | setMsgs =>
    simp only [hpc] at hrun
    refine hgoto ?_ (Or.inl ?_) ?_ hrun
    · split
      · exact id
      · exact id
    · rw [hpc]
      decide
    · split
      · simp [Enqueuer.stale]
      · rename_i hlen
        simp [Enqueuer.stale, hlen]
  | setNonmsgs =>
    simp only [hpc] at hrun
    refine hgoto ?_ (Or.inl ?_) ?_ hrun
    · split
      · exact id
      · exact id
    · rw [hpc]
      decide
    · split
      · simp [Enqueuer.stale, hpc]
      · rename_i hnonmsg
        simp [Enqueuer.stale, hpc, hnonmsg]
  | mark =>
    simp only [hpc] at hrun
    have hpcs : e.pc ≠ .checkMsgs ∧ e.pc ≠ .checkNonmsgs := by
      rw [hpc]
      decide
    split at hrun
    · refine hgoto (fun _ => Finset.mem_insert_self i _) (Or.inl hpcs) ?_ hrun
      simp [Enqueuer.stale, hpc]
    · split at hrun
      · refine hgoto id (Or.inl hpcs) ?_ hrun
        simp [Enqueuer.stale, hpc]
      · refine hgoto id (Or.inl hpcs) ?_ hrun
        simp [Enqueuer.stale]
  | checkMsgs =>
    simp only [hpc] at hrun
    split at hrun
    · rename_i hstale
      refine hagain (by rw [hpc]; rfl) ?_ rfl hrun
      simp [Enqueuer.stale, hpc, hstale]
    · refine hgoto id (Or.inr (by decide)) ?_ hrun
      refine Bool.toNat_le_toNat (Bool.le_iff_imp.2 fun hnonmsgs => ?_)
      rw [Enqueuer.stale, hpc]
      exact Bool.or_eq_true_iff.2 (Or.inr hnonmsgs)
  | checkNonmsgs =>
    simp only [hpc] at hrun
    split at hrun
    · rename_i hstale
      refine hagain (by rw [hpc]; rfl) ?_ rfl hrun
      simp [Enqueuer.stale, hpc, hstale]
    · refine hgoto id (Or.inr (by decide)) ?_ hrun
      simp [Enqueuer.stale]
  | readState | enqueue msg nmsg | unlock =>
    exact absurd (Or.inr (by rw [hpc]; rfl)) he

/-- What a step in a buffer makes of its lock. -/
theorem bufferStep_lock (hlock : ((s.arrays a).slots i).lock = some e)
    (hrun : s.bufferStep a i = some s') :
    ((s'.arrays a).slots i).lock = none ∨ ∃ pc, ((s'.arrays a).slots i).lock =
      some { e with pc := pc } ∧ (e.pc.past = true → pc.past = true) := by
  rw [State.bufferStep] at hrun
  simp only [hlock] at hrun
  have hgoto : ∀ {x : BufferArray Pid Payload} {pc : Pc}, (e.pc.past = true → pc.past = true) →
      some (s.setArray a (x.setSlot i { (s.arrays a).slots i with
        lock := some { e with pc := pc } })) = some s' →
      ∃ pc, ((s'.arrays a).slots i).lock = some { e with pc := pc } ∧
        (e.pc.past = true → pc.past = true) := by
    intro x pc hpast hrun
    cases hrun
    exact ⟨pc, by rw [State.setArray_self, BufferArray.setSlot_self], hpast⟩
  cases hpc : e.pc with
  | setMsgs | setNonmsgs =>
    simp only [hpc] at hrun hgoto
    exact Or.inr (hgoto (fun hc => by cases hc) hrun)
  | mark =>
    simp only [hpc] at hrun hgoto
    split at hrun
    · exact Or.inr (hgoto (fun hc => by cases hc) hrun)
    · split at hrun
      · exact Or.inr (hgoto (fun hc => by cases hc) hrun)
      · exact Or.inr (hgoto (fun hc => by cases hc) hrun)
  | checkMsgs | checkNonmsgs =>
    simp only [hpc] at hrun hgoto
    split at hrun
    · exact Or.inr (hgoto (fun hc => by cases hc) hrun)
    · exact Or.inr (hgoto (fun hc => by cases hc) hrun)
  | readState =>
    simp only [hpc] at hrun hgoto
    exact Or.inr (hgoto (fun _ => rfl) hrun)
  | enqueue msg nmsg =>
    simp only [hpc] at hrun
    cases hrun
    refine Or.inr ⟨.unlock, ?_, fun _ => rfl⟩
    rw [State.setFlags_arrays, State.setBuffer_self]
  | unlock =>
    simp only [hpc] at hrun
    cases hrun
    refine Or.inl ?_
    show (((s.setBuffer a i _).arrays a).slots i).lock = none
    rw [State.setBuffer_self]

/-- A sender does not start again if its buffer is as before. -/
theorem restart_of_slot (hslot : (s'.arrays a).slots i = (s.arrays a).slots i) :
    restart a i t s s' = 0 := by
  rw [restart, hslot]
  split
  · refine if_neg ?_
    rename_i e e' he he'
    obtain rfl := Option.some.inj (he.symm.trans he')
    rintro ⟨-, hcheck, hset⟩
    rw [hset] at hcheck
    revert hcheck
    decide
  · rfl

theorem Quiet.restart (h : Quiet a i s s') (t : Pid) :
    SigBuffers.restart a i t s s' + s'.restartsLeft a i t ≤ s.restartsLeft a i t := by
  rw [restart_of_slot h.slot, Nat.zero_add]
  exact h.restartsLeft t

/-- **A step**, but for a lock that the sender takes. -/
theorem Inv.restart_step (h : Inv slotOf s) {event : Event Pid Payload}
    (hlocks : event ≠ .lockBuffer t) (hrun : s.step slotOf event = some s') :
    restart a i t s s' + s'.restartsLeft a i t ≤ s.restartsLeft a i t := by
  have hplain : s.msgq = .free → s.msgq.pending = [] ∧
      ∀ chain, s.msgq.clears chain = kinds chain := fun hm => by
    rw [hm]
    exact ⟨rfl, fun _ => rfl⟩
  cases event with
  | send u chain force =>
    have hsame : ∀ x, some (s.setSender u x) = some s' →
        restart a i t s s' + s'.restartsLeft a i t ≤ s.restartsLeft a i t := by
      intro x hrun
      cases hrun
      exact Quiet.restart ⟨rfl, Iff.rfl, Iff.rfl, fun _ => id, fun _ => le_rfl⟩ t
    rw [State.step] at hrun
    split at hrun
    · split at hrun
      · exact hsame _ hrun
      · split at hrun
        · exact hsame _ hrun
        · exact hsame _ hrun
    · cases hrun
  | lockBuffer u =>
    have hu : u ≠ t := fun hu => hlocks (by rw [hu])
    rw [State.step] at hrun
    split at hrun
    · rename_i a' chain hsender
      dsimp only at hrun
      split at hrun
      · cases hrun
      · rename_i hfree
        split at hrun
        · cases hrun
          by_cases hne : a = a' ∧ i = slotOf u
          · -- it is another sender that has locked the buffer
            obtain ⟨rfl, rfl⟩ := hne
            have hnone := Option.not_isSome_iff_eq_none.1 hfree
            rw [restart, hnone]
            dsimp only
            rw [restartsLeft_past (e := ⟨u, chain, .setMsgs⟩) ?_ (Or.inl hu)]
            · exact Nat.zero_le _
            · show (((s.setBuffer a (slotOf u) _).arrays a).slots (slotOf u)).lock = _
              rw [State.setBuffer_self]
          · refine BufferStep.quiet (u := u) (.setSender (.setBuffer ?_ ?_ fun _ _ => ?_) _) hne
              |>.restart t
            · rw [hsender]
              exact fun hc => by cases hc
            · rfl
            · rfl
        · cases hrun
          exact Quiet.restart ⟨rfl, Iff.rfl, Iff.rfl, fun _ => id, fun _ => le_rfl⟩ t
    · cases hrun
  | buffer a' j =>
    rw [State.step] at hrun
    cases hlock : ((s.arrays a').slots j).lock with
    | none =>
      rw [State.bufferStep] at hrun
      simp only [hlock] at hrun
      cases hrun
    | some e =>
      by_cases hne : a = a' ∧ i = j
      · obtain ⟨rfl, rfl⟩ := hne
        by_cases he : e.sender ≠ t ∨ e.pc.past = true
        · -- it is not, or no more, the sender in the loop
          have hzero : restart a i t s s' = 0 := by
            rw [restart, hlock]
            split
            · rename_i e₁ e' he₁ he'
              obtain rfl := Option.some.inj he₁
              refine if_neg ?_
              rintro ⟨ht, hcheck, -⟩
              refine he.elim (fun hne => hne ht) fun hpast => ?_
              rcases hcheck with hpc | hpc
              · rw [hpc] at hpast
                cases hpast
              · rw [hpc] at hpast
                cases hpast
            · rfl
          rw [hzero, Nat.zero_add]
          rcases bufferStep_lock hlock hrun with hnone | ⟨pc, hlock', hpast⟩
          · rw [restartsLeft_none hnone]
            exact Nat.zero_le _
          · rw [restartsLeft_past hlock' (he.imp id hpast)]
            exact Nat.zero_le _
        · exact h.restart_bufferStep hlock he hrun
      · exact ((h.bufferStep_step hlock hrun).quiet hne).restart t
  | lockMsgq u busy =>
    rw [State.step] at hrun
    split at hrun
    · rename_i hm
      cases hrun
      refine Quiet.restart (.plain ?_ ?_ ?_ (hplain hm).1 ?_ (hplain hm).2) t <;> rfl
    · cases hrun
  | fetch busy =>
    rw [State.step] at hrun
    split at hrun
    · rename_i hm
      dsimp only at hrun
      split at hrun
      · cases hrun
        exact Quiet.restart ⟨rfl, Iff.rfl, Iff.rfl, fun _ => id, fun _ => le_rfl⟩ t
      · cases hrun
        refine Quiet.restart (.flushBuffers ?_ (hplain hm).1 (hplain hm).2 _) t
        rfl
    · cases hrun
  | change =>
    rw [State.step] at hrun
    split at hrun
    · rename_i hm _
      cases hrun
      exact (Quiet.deinstallBuffers rfl rfl rfl (hplain hm).1 (hplain hm).2 _).restart t
    · cases hrun
  | msgq =>
    rw [State.step] at hrun
    cases hlock : ((s.arrays a).slots i).lock with
    | none =>
      have hnone := msgqStep_lock hrun hlock
      rw [restart, hlock, restartsLeft_none hnone]
      exact Nat.zero_le _
    | some e =>
      obtain ⟨hslot, hle⟩ := h.restartsLeft_msgqStep hrun hlock t
      rw [restart_of_slot hslot, Nat.zero_add]
      exact hle
  | setOffHeap on =>
    rw [State.step] at hrun
    cases hrun
    exact Quiet.restart ⟨rfl, Iff.rfl, Iff.rfl, fun _ => id, fun _ => le_rfl⟩ t

/-- The sender `t` locks a buffer. -/
def Event.locks (t : Pid) : Event Pid Payload → Bool
  | .lockBuffer t' => decide (t' = t)
  | _ => false

/-- **A run.** -/
theorem Inv.restarts_run (h : Inv slotOf s) {events : List (Event Pid Payload)}
    (hvalid : ∀ event ∈ events, event.Valid) (hlocks : ∀ event ∈ events, event.locks t = false) :
    restarts slotOf a t s events ≤ s.restartsLeft a (slotOf t) t := by
  induction events generalizing s with
  | nil => exact Nat.zero_le _
  | cons event events ih =>
    obtain ⟨hevent, hrest⟩ := List.forall_mem_cons.1 hvalid
    obtain ⟨hlock, hlocks⟩ := List.forall_mem_cons.1 hlocks
    rw [restarts]
    cases hstep : s.step slotOf event with
    | none => exact Nat.zero_le _
    | some s₁ =>
      have h₁ := (step_follows h hevent hstep).1
      have hne : event ≠ .lockBuffer t := by
        rintro rfl
        exact absurd hlock (by simp [Event.locks])
      calc restart a (slotOf t) t s s₁ + restarts slotOf a t s₁ events
          ≤ restart a (slotOf t) t s s₁ + s₁.restartsLeft a (slotOf t) t :=
            Nat.add_le_add_left (ih h₁ hrest hlocks) _
        _ ≤ s.restartsLeft a (slotOf t) t := h.restart_step hne hstep

/-- **A sender starts again three times at most**, and twice if it has messages only or no
messages, until it locks a buffer again, whatever the others do. -/
theorem restarted_at_most (slotOf : Pid → Slot) (before after : List (Event Pid Payload))
    (hbefore : ∀ event ∈ before, event.Valid) (hafter : ∀ event ∈ after, event.Valid)
    (hlocks : ∀ event ∈ after, event.locks t = false)
    (hrun : State.init.run slotOf before = some s)
    (hlock : ((s.arrays a).slots (slotOf t)).lock = some e) :
    restarts slotOf a t s after ≤ 3 ∧
      ((∀ x ∈ e.chain, x.isMsg = true) ∨ (∀ x ∈ e.chain, x.isMsg = false) →
        restarts slotOf a t s after ≤ 2) := by
  have h := (run_follows inv_init hbefore hrun).1
  have hkinds : restarts slotOf a t s after ≤ kinds e.chain + 1 :=
    (h.restarts_run hafter hlocks).trans (restartsLeft_le s a (slotOf t) t hlock)
  refine ⟨hkinds.trans (Nat.succ_le_succ ?_), fun hpure => hkinds.trans ?_⟩
  · exact Nat.add_le_add (Bool.toNat_le _) (Bool.toNat_le _)
  · exact Nat.succ_le_succ (kinds_le_one hpure)

/-! ## Three times -/

/-- Buffers are installed, and the sender 2 locks its own. -/
def locked (chain : List (Signal ℕ ℕ)) : List (Event ℕ ℕ) :=
  .setOffHeap true :: (List.range 51).flatMap waits ++ List.replicate 5 .msgq ++
    [.send 2 chain false, .lockBuffer 2]

/-- A fetch clears both words before the sender has marked its buffer, and the next clears them
one after the other before it takes the mark. -/
def thrice : List (Event ℕ ℕ) :=
  [goesOn, goesOn, .fetch false] ++ List.replicate 8 .msgq ++ [goesOn, goesOn, .fetch false] ++
    List.replicate 3 goesOn ++ [.msgq] ++ List.replicate 5 goesOn ++ [.msgq, goesOn] ++
    List.replicate 8 goesOn

/-- The bounds are reached. -/
theorem restarted_thrice :
    (∃ s, State.init.run modSlots (locked [nonMessage 2 0, message 2 1]) = some s ∧
      restarts modSlots 0 2 s thrice = 3 ∧ restarts modSlots 0 2 s thrice ≤ 3) ∧
    ∃ s, State.init.run modSlots (locked [message 2 0, message 2 1]) = some s ∧
      restarts modSlots 0 2 s thrice = 2 ∧ restarts modSlots 0 2 s thrice ≤ 2 := by
  have hrun : ∀ chain n, ((State.init.run modSlots (locked chain)).map fun s =>
      (((s.arrays 0).slots (modSlots 2)).lock, restarts modSlots 0 2 s thrice)) =
        some (some ⟨2, chain, .setMsgs⟩, n) →
      ∃ s, State.init.run modSlots (locked chain) = some s ∧
        ((s.arrays 0).slots (modSlots 2)).lock = some ⟨2, chain, .setMsgs⟩ ∧
        restarts modSlots 0 2 s thrice = n := by
    intro chain n h
    obtain ⟨s, hs, heq⟩ := Option.map_eq_some_iff.1 h
    obtain ⟨hlock, hn⟩ := Prod.mk.inj heq
    exact ⟨s, hs, hlock, hn⟩
  obtain ⟨s, hs, hlock, hthree⟩ := hrun [nonMessage 2 0, message 2 1] 3 (by decide +kernel)
  obtain ⟨s', hs', hlock', htwo⟩ := hrun [message 2 0, message 2 1] 2 (by decide +kernel)
  refine ⟨⟨s, hs, hthree, ?_⟩, s', hs', htwo, ?_⟩
  · exact (restarted_at_most modSlots _ thrice (by decide +kernel) (by decide +kernel)
      (by decide +kernel) hs hlock).1
  · exact (restarted_at_most modSlots _ thrice (by decide +kernel) (by decide +kernel)
      (by decide +kernel) hs' hlock').2 (Or.inl (by decide))

end PonBeam.SigBuffers
