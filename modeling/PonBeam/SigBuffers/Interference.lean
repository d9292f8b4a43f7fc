import PonBeam.SigBuffers.Runs

/-!
# What a sender sees of the others

While a sender has its buffer locked, the others leave the buffer and its bit as they are, but for
a flush, which clears the two words and then takes the bits. In between they only set words. A
flush that has taken the bit of the buffer waits for it, so it clears each word once at most.
-/

namespace PonBeam.SigBuffers

variable {Pid Payload : Type}

/-! ## What may still be cleared -/

/-- The number of words that the kinds of a chain are in. -/
def kinds (chain : List (Signal Pid Payload)) : ℕ :=
  (decide (chain.countP (·.isMsg) ≠ 0)).toNat + (nonmsg chain).toNat

/-- How many of them may still be cleared before the bits are taken. -/
def Msgq.clears (chain : List (Signal Pid Payload)) : Msgq Pid Payload → ℕ
  | .flush _ _ .clearNonmsgs => (nonmsg chain).toNat
  | .flush _ _ .exchange => 0
  | _ => kinds chain

/-- Messages only, or other signals only, are in one word. -/
theorem kinds_le_one {chain : List (Signal Pid Payload)}
    (h : (∀ x ∈ chain, x.isMsg = true) ∨ ∀ x ∈ chain, x.isMsg = false) : kinds chain ≤ 1 := by
  rcases h with hmsgs | hnonmsgs
  · have hfirst : nonmsg chain = false := by
      cases chain with
      | nil => rfl
      | cons first rest => rw [nonmsg, hmsgs first List.mem_cons_self]; rfl
    rw [kinds, hfirst]
    exact Bool.toNat_le _
  · have hlen : chain.countP (·.isMsg) = 0 :=
      List.countP_eq_zero.2 fun x hx => by rw [hnonmsgs x hx]; exact Bool.false_ne_true
    rw [kinds, hlen]
    exact (Nat.zero_add _).le.trans (Bool.toNat_le _)

theorem Msgq.clears_le (m : Msgq Pid Payload) (chain : List (Signal Pid Payload)) :
    m.clears chain ≤ kinds chain := by
  rw [Msgq.clears.eq_def]
  split
  · exact Nat.le_add_left _ _
  · exact Nat.zero_le _
  · exact le_rfl

/-- A word that the sender has set and is going to check is cleared. -/
def Enqueuer.stale (e : Enqueuer Pid Payload) (buffers : BufferArray Pid Payload) : Bool :=
  let msgs := decide (e.chain.countP (·.isMsg) ≠ 0) && !buffers.msgsInSlots
  let nonmsgs := nonmsg e.chain && !buffers.nonmsgsInSlots
  match e.pc with
  | .setNonmsgs => msgs
  | .mark | .checkMsgs => msgs || nonmsgs
  | .checkNonmsgs => nonmsgs
  | _ => false

/-- Words that are set do not become stale. -/
theorem Enqueuer.stale_mono (e : Enqueuer Pid Payload) {x y : BufferArray Pid Payload}
    (hwords : ∀ k, x.inSlots k = true → y.inSlots k = true) :
    (e.stale y).toNat ≤ (e.stale x).toNat := by
  have hclear : ∀ k, (!y.inSlots k) = true → (!x.inSlots k) = true := by
    intro k hy
    rw [Bool.not_eq_true'] at hy ⊢
    exact Bool.eq_false_of_not_eq_true fun hx => Bool.false_ne_true (hy.symm.trans (hwords k hx))
  have hmsgs : (!y.msgsInSlots) = true → (!x.msgsInSlots) = true := hclear true
  have hnonmsgs : (!y.nonmsgsInSlots) = true → (!x.nonmsgsInSlots) = true := hclear false
  refine Bool.toNat_le_toNat (Bool.le_iff_imp.2 ?_)
  rw [Enqueuer.stale, Enqueuer.stale]
  cases e.pc with
  | setNonmsgs | mark | checkMsgs | checkNonmsgs =>
    simp only [Bool.or_eq_true, Bool.and_eq_true]
    tauto
  | _ => exact id

/-- A word that is cleared may become stale only if the chain has signals of its kind. -/
theorem Enqueuer.stale_clearMsgs (e : Enqueuer Pid Payload) (x : BufferArray Pid Payload) :
    (e.stale { x with msgsInSlots := false }).toNat ≤
      (e.stale x).toNat + (decide (e.chain.countP (·.isMsg) ≠ 0)).toNat := by
  cases hlen : decide (e.chain.countP (·.isMsg) ≠ 0) with
  | true => exact (Bool.toNat_le _).trans (Nat.le_add_left _ _)
  | false =>
    rw [Enqueuer.stale, Enqueuer.stale]
    simp only [hlen, Bool.false_and]
    exact Nat.le_add_right _ _

theorem Enqueuer.stale_clearNonmsgs (e : Enqueuer Pid Payload) (x : BufferArray Pid Payload) :
    (e.stale { x with nonmsgsInSlots := false }).toNat ≤
      (e.stale x).toNat + (nonmsg e.chain).toNat := by
  cases hnonmsg : nonmsg e.chain with
  | true => exact (Bool.toNat_le _).trans (Nat.le_add_left _ _)
  | false =>
    rw [Enqueuer.stale, Enqueuer.stale]
    simp only [hnonmsg, Bool.false_and]
    exact Nat.le_add_right _ _

/-! ## Steps of others -/

section Quiet

variable {s s' : State Pid Payload} {a : Addr} {i : Slot}

/-- What a sender in the buffer `i` at `a` may see of a step of another. -/
structure Quiet (a : Addr) (i : Slot) (s s' : State Pid Payload) : Prop where
  /-- its buffer is as before -/
  slot : (s'.arrays a).slots i = (s.arrays a).slots i
  /-- so is its bit -/
  bit : i ∈ (s'.arrays a).nonemptySlots ↔ i ∈ (s.arrays a).nonemptySlots
  /-- and whether a flush is to come to it -/
  pending : i ∈ s'.msgq.pending ↔ i ∈ s.msgq.pending
  /-- words are set only -/
  words : ∀ k, (s.arrays a).inSlots k = true → (s'.arrays a).inSlots k = true
  /-- no more may still be cleared -/
  clears : ∀ chain, s'.msgq.clears chain ≤ s.msgq.clears chain

/-- The holder was nowhere in a flush, and is at its start at most. -/
theorem Quiet.plain (hslot : (s'.arrays a).slots i = (s.arrays a).slots i)
    (hbits : (s'.arrays a).nonemptySlots = (s.arrays a).nonemptySlots)
    (hwords : (s'.arrays a).inSlots = (s.arrays a).inSlots) (hpending : s.msgq.pending = [])
    (hpending' : s'.msgq.pending = []) (hclears : ∀ chain, s.msgq.clears chain = kinds chain) :
    Quiet a i s s' := by
  refine ⟨hslot, ?_, ?_, fun k hk => ?_, fun chain => ?_⟩
  · rw [hbits]
  · rw [hpending, hpending']
  · rw [hwords]
    exact hk
  · rw [hclears]
    exact s'.msgq.clears_le chain

theorem flushed_pending (s : State Pid Payload) (buffers : Option Addr)
    (task : Task Pid Payload) : (s.flushed buffers task).pending = [] := by
  cases task with
  | direct d force again =>
    rcases flushed_direct s buffers d force again with h | ⟨a, -, h⟩ <;> rw [h] <;> rfl
  | _ => rfl

theorem flushBuffers_pending (s : State Pid Payload) (task : Task Pid Payload) :
    (s.flushBuffers task).msgq.pending = [] := by
  rw [State.flushBuffers]
  split
  · rfl
  · exact flushed_pending s none task

@[simp] theorem flushBuffers_arrays (s : State Pid Payload) (task : Task Pid Payload) :
    (s.flushBuffers task).arrays = s.arrays := by
  rw [State.flushBuffers]
  split <;> rfl

/-- The start of a flush, from a place where `MSGQ` is not used to flush. -/
theorem Quiet.flushBuffers {s₁ : State Pid Payload} (harray : s₁.arrays a = s.arrays a)
    (hpending : s.msgq.pending = []) (hclears : ∀ chain, s.msgq.clears chain = kinds chain)
    (task : Task Pid Payload) : Quiet a i s (s₁.flushBuffers task) := by
  refine .plain ?_ ?_ ?_ hpending (flushBuffers_pending s₁ task) hclears
  all_goals rw [flushBuffers_arrays, harray]

/-- Deinstalling starts. -/
theorem Quiet.deinstallBuffers {s₁ : State Pid Payload} {a' : Addr}
    (hslot : (s₁.arrays a).slots i = (s.arrays a).slots i)
    (hbits : (s₁.arrays a).nonemptySlots = (s.arrays a).nonemptySlots)
    (hwords : (s₁.arrays a).inSlots = (s.arrays a).inSlots)
    (hpending : s.msgq.pending = []) (hclears : ∀ chain, s.msgq.clears chain = kinds chain)
    (task : Task Pid Payload) : Quiet a i s (s₁.deinstallBuffers task a') := by
  rw [State.deinstallBuffers]
  split
  · have harray : ((s₁.setArray a' { s₁.arrays a' with alive := false }).arrays a).slots i =
          (s₁.arrays a).slots i ∧
        ((s₁.setArray a' { s₁.arrays a' with alive := false }).arrays a).nonemptySlots =
          (s₁.arrays a).nonemptySlots ∧
        ((s₁.setArray a' { s₁.arrays a' with alive := false }).arrays a).inSlots =
          (s₁.arrays a).inSlots := by
      by_cases ha : a = a'
      · rw [← ha, State.setArray_self]
        exact ⟨rfl, rfl, funext fun k => by cases k <;> rfl⟩
      · rw [State.setArray_of_ne ha]
        exact ⟨rfl, rfl, rfl⟩
    exact .plain (harray.1.trans hslot) (harray.2.1.trans hbits) (harray.2.2.trans hwords)
      hpending rfl hclears
  · exact .plain hslot hbits hwords hpending (flushed_pending s₁ (some a') task) hclears

/-- Another buffer is overwritten. -/
theorem Quiet.setSlot {x : BufferArray Pid Payload} {j : Slot} {b : Buffer Pid Payload}
    {q : List (Signal Pid Payload)} {m : Msgq Pid Payload} (hj : i ≠ j)
    (hslots : x.slots = (s.arrays a).slots) (hbits : x.nonemptySlots = (s.arrays a).nonemptySlots)
    (hwords : x.inSlots = (s.arrays a).inSlots)
    (hpending : i ∈ m.pending ↔ i ∈ s.msgq.pending)
    (hclears : ∀ chain, s.msgq.clears chain = kinds chain) :
    Quiet a i s { s.setArray a (x.setSlot j b) with sigInq := q, msgq := m } := by
  have hself : (s.setArray a (x.setSlot j b)).arrays a = x.setSlot j b := State.setArray_self _ _ _
  refine ⟨?_, ?_, hpending, fun k hk => ?_, fun chain => ?_⟩
  · show ((s.setArray a (x.setSlot j b)).arrays a).slots i = _
    rw [hself, BufferArray.setSlot_of_ne hj, hslots]
  · show i ∈ ((s.setArray a (x.setSlot j b)).arrays a).nonemptySlots ↔ _
    rw [hself, ← hbits]
    rfl
  · show ((s.setArray a (x.setSlot j b)).arrays a).inSlots k = true
    rw [hself]
    rw [← hwords] at hk
    cases k <;> exact hk
  · rw [hclears]
    exact m.clears_le chain

/-- Whether its buffer has been marked, a sender may see from its queue and the bits. -/
theorem marked_iff (hslot : (s'.arrays a).slots i = (s.arrays a).slots i)
    (hbit : (i ∈ (s'.arrays a).nonemptySlots ∨ i ∈ s'.msgq.pending) ↔
      (i ∈ (s.arrays a).nonemptySlots ∨ i ∈ s.msgq.pending)) :
    (((s'.arrays a).slots i).queue = [] ∧ i ∉ (s'.arrays a).nonemptySlots ∧
      i ∉ s'.msgq.pending) ↔ (((s.arrays a).slots i).queue = [] ∧
        i ∉ (s.arrays a).nonemptySlots ∧ i ∉ s.msgq.pending) := by
  rw [hslot, ← not_or, ← not_or, hbit]

/-! ## Locks -/

/-- The locks of buffers in memory that is overwritten. -/
theorem lock_setArray {x : BufferArray Pid Payload} {a' : Addr}
    (hx : ∀ j, ((s.arrays a').slots j).lock = none → (x.slots j).lock = none)
    (hlock : ((s.arrays a).slots i).lock = none) :
    (((s.setArray a' x).arrays a).slots i).lock = none := by
  by_cases ha : a = a'
  · obtain rfl := ha
    rw [State.setArray_self]
    exact hx i hlock
  · rw [State.setArray_of_ne ha]
    exact hlock

theorem lock_setSlot {x : BufferArray Pid Payload} {b : Buffer Pid Payload} {a' : Addr} {j : Slot}
    (hx : x.slots = (s.arrays a').slots)
    (hb : ((s.arrays a').slots j).lock = none → b.lock = none)
    (hlock : ((s.arrays a).slots i).lock = none) :
    (((s.setArray a' (x.setSlot j b)).arrays a).slots i).lock = none := by
  refine lock_setArray (fun j' hj' => ?_) hlock
  by_cases hj : j' = j
  · rw [hj, BufferArray.setSlot_self]
    exact hb (hj ▸ hj')
  · rw [BufferArray.setSlot_of_ne hj, hx]
    exact hj'

theorem lock_flushBuffer {a' : Addr} {j : Slot} (hlock : ((s.arrays a).slots i).lock = none) :
    (((s.flushBuffer a' j).arrays a).slots i).lock = none := by
  rw [State.flushBuffer]
  dsimp only
  split
  · exact lock_setArray (fun _ => id) hlock
  · split
    · exact lock_setSlot rfl id hlock
    · exact lock_setSlot rfl id hlock

theorem lock_deinstallBuffers {task : Task Pid Payload} {a' : Addr}
    (hlock : ((s.arrays a).slots i).lock = none) :
    (((s.deinstallBuffers task a').arrays a).slots i).lock = none := by
  rw [State.deinstallBuffers]
  split
  · exact lock_setArray (fun _ => id) hlock
  · exact hlock

theorem lock_flushStep {task : Task Pid Payload} {a' : Addr} {pc : FlushPc}
    (hrun : s.flushStep task a' pc = some s') (hlock : ((s.arrays a).slots i).lock = none) :
    ((s'.arrays a).slots i).lock = none := by
  cases pc with
  | clearMsgs | clearNonmsgs | exchange =>
    rw [State.flushStep] at hrun
    cases hrun
    exact lock_setArray (fun _ => id) hlock
  | slots pending =>
    cases pending with
    | nil =>
      rw [State.flushStep] at hrun
      cases hrun
      exact hlock
    | cons j pending =>
      rw [State.flushStep] at hrun
      split at hrun
      · cases hrun
      · cases hrun
        exact lock_flushBuffer hlock
  | rounds =>
    have hcounted : ∀ r n, (((s.setArray a' { s.arrays a' with
        nrOfRoundsLeft := r, nrOfEnqueues := n }).arrays a).slots i).lock = none :=
      fun _ _ => lock_setArray (fun _ => id) hlock
    rw [State.flushStep] at hrun
    dsimp only at hrun
    split at hrun
    · split at hrun
      · cases hrun
        exact lock_deinstallBuffers (hcounted _ _)
      · cases hrun
        refine lock_setArray (fun j hj => ?_) (hcounted _ _)
        rw [State.setArray_self] at hj
        exact hj
    · cases hrun
      exact hcounted _ _
  | deinstall left =>
    cases left with
    | nil =>
      rw [State.flushStep] at hrun
      cases hrun
      exact lock_setArray (fun _ => id) hlock
    | cons j left =>
      rw [State.flushStep] at hrun
      split at hrun
      · cases hrun
      · cases hrun
        exact lock_setSlot rfl id hlock

end Quiet

/-! ## Steps -/

variable [DecidableEq Pid] {slotOf : Pid → Slot} {s s' : State Pid Payload} {a : Addr} {i : Slot}
  {e : Enqueuer Pid Payload}

/-- **A step of the holder**, but for those with which a flush takes the words and bits. -/
theorem Inv.quiet_msgqStep (h : Inv slotOf s) (hlock : ((s.arrays a).slots i).lock = some e)
    (htakes : ∀ task a', s.msgq ≠ .flush task a' .clearMsgs ∧
      s.msgq ≠ .flush task a' .clearNonmsgs ∧ s.msgq ≠ .flush task a' .exchange)
    (hrun : s.msgqStep = some s') : Quiet a i s s' := by
  have halive := (h.locked a i e hlock).1
  have hs := h.installed a i halive
  rw [State.msgqStep] at hrun
  cases hm : s.msgq with
  | free =>
    simp only [hm] at hrun
    cases hrun
  | readState t chain force =>
    have hpending : s.msgq.pending = [] := by rw [hm]; rfl
    have hclears : ∀ chain, s.msgq.clears chain = kinds chain := fun chain => by rw [hm]; rfl
    simp only [hm] at hrun
    split at hrun
    · cases hrun
      exact .flushBuffers rfl hpending hclears _
    · cases hrun
      exact .plain rfl rfl rfl hpending rfl hclears
  | install d offHeap =>
    have hpending : s.msgq.pending = [] := by rw [hm]; rfl
    have hclears : ∀ chain, s.msgq.clears chain = kinds chain := fun chain => by rw [hm]; rfl
    have hkept : s.maybeInstallBuffers offHeap = s := by
      refine if_pos (Or.inr (Or.inl ?_))
      rw [hs]
      exact Option.some_ne_none a
    simp only [hm, hkept] at hrun
    split at hrun
    · cases hrun
      exact .flushBuffers rfl hpending hclears _
    · cases hrun
      exact .plain rfl rfl rfl hpending rfl hclears
  | flush task a' pc =>
    obtain ⟨hs', -⟩ := h.flush hm
    obtain rfl := Option.some.inj (hs.symm.trans hs')
    simp only [hm] at hrun
    have hpending : s.msgq.pending = (Msgq.flush task a pc).pending := by rw [hm]
    have hleft := h.alive a hs
    rw [hm] at hleft
    cases pc with
    | clearMsgs => exact absurd hm (htakes task a).1
    | clearNonmsgs => exact absurd hm (htakes task a).2.1
    | exchange => exact absurd hm (htakes task a).2.2
    | slots pending =>
      have hclears : ∀ chain, s.msgq.clears chain = kinds chain := fun chain => by rw [hm]; rfl
      cases pending with
      | nil =>
        rw [State.flushStep] at hrun
        cases hrun
        exact .plain rfl rfl rfl hpending rfl hclears
      | cons j pending =>
        rw [State.flushStep] at hrun
        split at hrun
        · cases hrun
        · rename_i hfree
          cases hrun
          have hj : i ≠ j := by
            rintro rfl
            exact hfree (by rw [hlock]; rfl)
          rw [flushBuffer_eq (hleft.2 j) (h.buffers a hs j).counted.1]
          refine .setSlot hj rfl rfl (funext fun k => by cases k <;> rfl) ?_ hclears
          rw [hpending]
          exact (List.mem_cons.trans (or_iff_right hj)).symm
    | rounds =>
      have hclears : ∀ chain, s.msgq.clears chain = kinds chain := fun chain => by rw [hm]; rfl
      have hwords : ∀ r n, (s.arrays a).inSlots = BufferArray.inSlots
          { s.arrays a with nrOfRoundsLeft := r, nrOfEnqueues := n } :=
        fun r n => funext fun k => by cases k <;> rfl
      rw [State.flushStep] at hrun
      dsimp only at hrun
      split at hrun
      · split at hrun
        · cases hrun
          refine .deinstallBuffers ?_ ?_ ?_ hpending hclears task
          · rw [State.setArray_self]
          · rw [State.setArray_self]
          · rw [State.setArray_self]
            exact (hwords _ _).symm
        · cases hrun
          refine .plain ?_ ?_ ?_ hpending (flushed_pending _ _ task) hclears
          · show ((State.setArray _ a _).arrays a).slots i = _
            rw [State.setArray_self]
          · show ((State.setArray _ a _).arrays a).nonemptySlots = _
            rw [State.setArray_self]
          · show ((State.setArray _ a _).arrays a).inSlots = _
            rw [State.setArray_self]
            exact (hwords _ _).symm
      · cases hrun
        refine .plain ?_ ?_ ?_ hpending (flushed_pending _ _ task) hclears
        · show ((State.setArray _ a _).arrays a).slots i = _
          rw [State.setArray_self]
        · show ((State.setArray _ a _).arrays a).nonemptySlots = _
          rw [State.setArray_self]
        · show ((State.setArray _ a _).arrays a).inSlots = _
          rw [State.setArray_self]
          exact (hwords _ _).symm
    | deinstall left =>
      have hclears : ∀ chain, s.msgq.clears chain = kinds chain := fun chain => by rw [hm]; rfl
      cases left with
      | nil => exact absurd ((hleft.2 i).1 halive) List.not_mem_nil
      | cons j left =>
        rw [State.flushStep] at hrun
        split at hrun
        · cases hrun
        · rename_i hfree
          cases hrun
          have hj : i ≠ j := by
            rintro rfl
            exact hfree (by rw [hlock]; rfl)
          refine .setSlot (x := s.arrays a) hj rfl rfl rfl ?_ hclears
          rw [hpending]
          rfl
  | link d =>
    simp only [hm] at hrun
    cases hrun
    refine .plain ?_ ?_ ?_ (by rw [hm]; rfl) ?_ fun chain => by rw [hm]; rfl
    · show ((State.setFlags _ _ _ _ _).arrays a).slots i = _
      rw [State.setFlags_arrays]
    · show ((State.setFlags _ _ _ _ _).arrays a).nonemptySlots = _
      rw [State.setFlags_arrays]
    · show ((State.setFlags _ _ _ _ _).arrays a).inSlots = _
      rw [State.setFlags_arrays]
    · show (State.setFlags _ _ _ _ _).msgq.pending = _
      rw [State.setFlags_msgq]
      rfl
  | move buffers | clearState buffers | recheckBits a' =>
    simp only [hm] at hrun
    split at hrun
    · cases hrun
      exact .plain rfl rfl rfl (by rw [hm]; rfl) rfl fun chain => by rw [hm]; rfl
    · cases hrun
      exact .plain rfl rfl rfl (by rw [hm]; rfl) rfl fun chain => by rw [hm]; rfl
  | recheckNonmsgs a' | recheckMsgs a' nmsg | setState msg nmsg =>
    simp only [hm] at hrun
    cases hrun
    exact .plain rfl rfl rfl (by rw [hm]; rfl) rfl fun chain => by rw [hm]; rfl

/-- The holder locks no buffer, but within a step. -/
theorem msgqStep_lock (hrun : s.msgqStep = some s')
    (hlock : ((s.arrays a).slots i).lock = none) : ((s'.arrays a).slots i).lock = none := by
  have hflush : ∀ (s : State Pid Payload) (task : Task Pid Payload),
      ((s.arrays a).slots i).lock = none →
      (((s.flushBuffers task).arrays a).slots i).lock = none := fun s task hlock => by
    rw [flushBuffers_arrays]
    exact hlock
  rw [State.msgqStep] at hrun
  cases hm : s.msgq with
  | free =>
    simp only [hm] at hrun
    cases hrun
  | readState t chain force =>
    simp only [hm] at hrun
    split at hrun
    · cases hrun
      exact hflush s _ hlock
    · cases hrun
      exact hlock
  | install d offHeap =>
    have hinstall : (((s.maybeInstallBuffers offHeap).arrays a).slots i).lock = none := by
      rw [State.maybeInstallBuffers]
      split
      · exact hlock
      · exact lock_setArray (fun _ _ => rfl) hlock
    simp only [hm] at hrun
    split at hrun
    · cases hrun
      exact hflush _ _ hinstall
    · cases hrun
      exact hinstall
  | flush task a' pc =>
    simp only [hm] at hrun
    exact lock_flushStep hrun hlock
  | link d =>
    simp only [hm] at hrun
    cases hrun
    show (((State.setFlags _ _ _ _ _).arrays a).slots i).lock = none
    rw [State.setFlags_arrays]
    exact hlock
  | move buffers | clearState buffers | recheckBits a' =>
    simp only [hm] at hrun
    split at hrun
    · cases hrun
      exact hlock
    · cases hrun
      exact hlock
  | recheckNonmsgs a' | recheckMsgs a' nmsg | setState msg nmsg =>
    simp only [hm] at hrun
    cases hrun
    exact hlock

/-- What a step in a buffer leaves as it is. -/
theorem Inv.bufferStep_step (h : Inv slotOf s) (hlock : ((s.arrays a).slots i).lock = some e)
    (hrun : s.bufferStep a i = some s') : BufferStep s s' a i e.sender := by
  obtain ⟨-, hin, -, hvalid⟩ := h.locked a i e hlock
  rw [State.bufferStep] at hrun
  simp only [hlock] at hrun
  have hgoto : ∀ {x : BufferArray Pid Payload} {e' : Enqueuer Pid Payload},
      (x.slots = (s.arrays a).slots ∧ x.alive = (s.arrays a).alive ∧
        ∀ j, j ≠ i → (j ∈ (s.arrays a).nonemptySlots ↔ j ∈ x.nonemptySlots)) →
      (∀ k, (s.arrays a).inSlots k = true → x.inSlots k = true) →
      some (s.setArray a (x.setSlot i { (s.arrays a).slots i with lock := some e' })) = some s' →
      BufferStep s s' a i e.sender := by
    rintro x e' ⟨hslots, halive, hbits⟩ hwords hrun
    cases hrun
    exact .goto hin hslots halive hbits hwords
  cases hpc : e.pc with
  | setMsgs | setNonmsgs =>
    simp only [hpc] at hrun
    refine hgoto ?_ (fun k hk => ?_) hrun
    · split
      · exact ⟨rfl, rfl, fun _ _ => Iff.rfl⟩
      · exact ⟨rfl, rfl, fun _ _ => Iff.rfl⟩
    · split
      · cases k
        · first | exact hk | rfl
        · first | exact hk | rfl
      · exact hk
  | mark =>
    simp only [hpc] at hrun
    split at hrun
    · cases hrun
      refine .goto hin rfl rfl (fun j hj => ?_) fun k hk => ?_
      · exact (Finset.mem_insert.trans (or_iff_right hj)).symm
      · cases k <;> exact hk
    · split at hrun
      · exact hgoto ⟨rfl, rfl, fun _ _ => Iff.rfl⟩ (fun _ => id) hrun
      · exact hgoto ⟨rfl, rfl, fun _ _ => Iff.rfl⟩ (fun _ => id) hrun
  | checkMsgs | checkNonmsgs =>
    simp only [hpc] at hrun
    split at hrun
    · exact hgoto ⟨rfl, rfl, fun _ _ => Iff.rfl⟩ (fun _ => id) hrun
    · exact hgoto ⟨rfl, rfl, fun _ _ => Iff.rfl⟩ (fun _ => id) hrun
  | readState =>
    simp only [hpc] at hrun
    exact hgoto ⟨rfl, rfl, fun _ _ => Iff.rfl⟩ (fun _ => id) hrun
  | enqueue msg nmsg =>
    simp only [hpc] at hrun
    cases hrun
    exact .enqueue hin hvalid
  | unlock =>
    simp only [hpc] at hrun
    cases hrun
    refine .setSender (.setBuffer ?_ ?_ fun t _ => ?_) _
    · rw [hin]
      exact fun hc => by cases hc
    · rfl
    · rfl

/-- A sender in another buffer. -/
theorem BufferStep.quiet {a' : Addr} {j : Slot} {u : Pid} (h : BufferStep s s' a' j u)
    (hne : ¬ (a = a' ∧ i = j)) : Quiet a i s s' := by
  have hpending : i ∈ s'.msgq.pending ↔ i ∈ s.msgq.pending := by rw [h.msgq]
  have hclears : ∀ chain, s'.msgq.clears chain ≤ s.msgq.clears chain := fun chain => by
    rw [h.msgq]
  by_cases ha : a = a'
  · obtain rfl := ha
    have hi : i ≠ j := fun hi => hne ⟨rfl, hi⟩
    exact ⟨h.slots i hi, (h.bits i hi).symm, hpending, h.words, hclears⟩
  · have harray := h.arrays a ha
    exact ⟨by rw [harray], by rw [harray], hpending, by rw [harray]; exact fun _ => id, hclears⟩

end PonBeam.SigBuffers
