import PonBeam.SigBuffers.Runs
import PonBeam.SigQueue.Frame

/-!
# The buffers in memory

In `Model` the in-queue and the queues of the buffers are lists. Here they are what they are in
memory, threaded through the signals, and the payload of a signal is its address. What a step does
with pointers is its effect, and the lists are what one finds by following them.
-/

namespace PonBeam.SigBuffers

open SigQueue (Sig SigMem InQueue enqueueSignals sigInqConcat procSigFetch QueueRep SameOn)

variable {Pid : Type}

/-- The queues of a receiver and of its buffers. -/
structure Memory where
  /-- the signals, `sig_qs` and `sig_inq` -/
  proc : SigQueue.Proc
  /-- `queue` of each buffer -/
  queues : Addr → Slot → InQueue

namespace Memory

/-- Overwrite the queue of a buffer. -/
def setQueue (p : Memory) (a : Addr) (i : Slot) (q : InQueue) : Memory :=
  { p with queues := fun a' j => if a' = a ∧ j = i then q else p.queues a' j }

/-- Before a call the caller writes to its signals. -/
def prepared (p : Memory) (m : SigMem) : Memory := { p with proc := { p.proc with mem := m } }

/-- The queues of a new array. -/
def install (p : Memory) (a : Addr) : Memory :=
  { p with queues := fun a' i => if a' = a then .empty else p.queues a' i }

/-- `enqueue_signals` on `sig_inq` -/
def enqueue (p : Memory) (first : Sig) (last : SigQueue.Slot) (lastNext : Option SigQueue.Slot)
    (numMsgs : ℤ) : Memory :=
  { p with proc := enqueueSignals p.proc first last lastNext numMsgs }

/-- `enqueue_signals` on the queue of a buffer -/
def enqueueToBuffer (p : Memory) (a : Addr) (i : Slot) (first : Sig) (last : SigQueue.Slot)
    (lastNext : Option SigQueue.Slot) (numMsgs : ℤ) : Memory :=
  let q := enqueueSignals { p.proc with inq := p.queues a i } first last lastNext numMsgs
  (p.prepared q.mem).setQueue a i q.inq

/-- `proc_sig_queue_flush_buffer` -/
def flushBuffer (p : Memory) (a : Addr) (i : Slot) (alive : Bool) : Memory :=
  match (p.queues a i).first with
  | none => p
  | some _ =>
    if alive then { p with proc := sigInqConcat p.proc (p.queues a i) }.setQueue a i .empty else p

/-- A buffer in `erts_proc_sig_queue_flush_and_deinstall_buffers`. -/
def deinstallBuffer (p : Memory) (a : Addr) (i : Slot) : Memory :=
  match (p.queues a i).first with
  | none => p
  | some _ => { p with proc := sigInqConcat p.proc (p.queues a i) }

/-- The part of `erts_proc_sig_fetch__` that takes the in-queue. -/
def fetch (p : Memory) (traced : Bool) : Memory := { p with proc := procSigFetch p.proc traced }

end Memory

/-- What a step does with pointers. -/
inductive Effect (Pid : Type) : Type where
  /-- nothing -/
  | none
  /-- buffers are installed at `a` -/
  | install (a : Addr)
  /-- signals are enqueued on the in-queue -/
  | enqueue (chain : List (Signal Pid Sig))
  /-- signals are enqueued on the queue of a buffer -/
  | enqueueToBuffer (a : Addr) (i : Slot) (chain : List (Signal Pid Sig))
  /-- a buffer is flushed -/
  | flushBuffer (a : Addr) (i : Slot) (alive : Bool)
  /-- a buffer is deinstalled -/
  | deinstallBuffer (a : Addr) (i : Slot)
  /-- the in-queue is taken -/
  | fetch

namespace State

variable (s : State Pid Sig)

/-- The effect of a step of the holder of `MSGQ`. -/
def msgqEffect : Effect Pid :=
  match s.msgq with
  | .install _ offHeap =>
    if (s.maybeInstallBuffers offHeap).sigInqBuffers = s.sigInqBuffers then .none
    else .install s.nextArray
  | .flush _ a (.slots (i :: _)) => .flushBuffer a i ((s.arrays a).slots i).alive
  | .flush _ a (.deinstall (i :: _)) => .deinstallBuffer a i
  | .link d => .enqueue d.chain
  | .move _ => .fetch
  | _ => .none

/-- The effect of a step of a sender in a buffer. -/
def bufferEffect (a : Addr) (i : Slot) : Effect Pid :=
  match ((s.arrays a).slots i).lock with
  | some e =>
    match e.pc with
    | .enqueue _ _ => .enqueueToBuffer a i e.chain
    | _ => .none
  | none => .none

/-- The effect of a step. -/
def effect : Event Pid Sig → Effect Pid
  | .buffer a i => s.bufferEffect a i
  | .msgq => s.msgqEffect
  | _ => .none

/-- What is in a buffer of the array that is installed. -/
def inBuffer (i : Slot) : List (Signal Pid Sig) :=
  match s.sigInqBuffers with
  | none => []
  | some a => if ((s.arrays a).slots i).alive then ((s.arrays a).slots i).queue else []

end State

/-- The addresses of signals. -/
def addresses (l : List (Signal Pid Sig)) : List Sig := l.map (·.payload)

/-- A signal is somewhere in a queue. -/
def State.Queued (s : State Pid Sig) (x : Signal Pid Sig) : Prop :=
  x ∈ s.sigQs ++ s.sigInq ∨ ∃ i, x ∈ s.inBuffer i

/-- The caller has prepared a chain of signals that are in no queue, and has not written to those
that are. -/
structure Prepared (s : State Pid Sig) (p : Memory) (m : SigMem) (chain : List (Signal Pid Sig)) :
    Prop where
  /-- they are in no queue -/
  fresh : ∀ x, s.Queued x → x.payload ∉ addresses chain
  /-- none is there twice -/
  nodup : (addresses chain).Nodup
  /-- the others are as they were -/
  kept : ∀ x, s.Queued x → SameOn [x.payload] p.proc.mem m
  /-- `ERTS_SIG_IS_MSG` -/
  kinds : ∀ x ∈ chain, m.isMsg x.payload = x.isMsg

/-- What an effect makes of the memory. -/
inductive MemStep (s : State Pid Sig) (p : Memory) : Effect Pid → Memory → Prop where
  /-- nothing is written -/
  | none : MemStep s p .none p
  /-- an array is allocated -/
  | install {a : Addr} : MemStep s p (.install a) (p.install a)
  /-- a chain goes to the in-queue -/
  | enqueue {m : SigMem} {first : Sig} {last : SigQueue.Slot} {lastNext : Option SigQueue.Slot}
      {numMsgs : ℤ} {chain : List (Signal Pid Sig)} : Prepared s p m chain →
      SigQueue.ValidChain m first last lastNext numMsgs (addresses chain) →
      MemStep s p (.enqueue chain) ((p.prepared m).enqueue first last lastNext numMsgs)
  /-- a chain goes to a buffer -/
  | enqueueToBuffer {a : Addr} {i : Slot} {m : SigMem} {first : Sig} {last : SigQueue.Slot}
      {lastNext : Option SigQueue.Slot} {numMsgs : ℤ} {chain : List (Signal Pid Sig)} :
      Prepared s p m chain →
      SigQueue.ValidChain m first last lastNext numMsgs (addresses chain) →
      MemStep s p (.enqueueToBuffer a i chain)
        ((p.prepared m).enqueueToBuffer a i first last lastNext numMsgs)
  /-- a buffer is flushed -/
  | flushBuffer {a : Addr} {i : Slot} {alive : Bool} :
      MemStep s p (.flushBuffer a i alive) (p.flushBuffer a i alive)
  /-- a buffer is deinstalled -/
  | deinstallBuffer {a : Addr} {i : Slot} :
      MemStep s p (.deinstallBuffer a i) (p.deinstallBuffer a i)
  /-- the in-queue is taken -/
  | fetch (traced : Bool) : MemStep s p .fetch (p.fetch traced)

/-- The queue of a buffer holds `l`. -/
def Memory.Holds (p : Memory) (a : Addr) (i : Slot) (l : List Sig) : Prop :=
  QueueRep p.proc.mem .inqFirst (p.queues a i).first (p.queues a i).last (p.queues a i).nmsigs
    (p.queues a i).mlenoffs l

/-- The memory holds what the lists say. -/
structure MemRep (s : State Pid Sig) (p : Memory) (I M : List Sig) : Prop where
  /-- the queues of the receiver -/
  queues : SigQueue.Rep p.proc I M (addresses s.sigInq)
  /-- what has been fetched is in the inner and the middle queue -/
  fetched : I ++ M = addresses s.sigQs
  /-- the queues of the buffers -/
  buffers : ∀ a, s.sigInqBuffers = some a → ∀ i, ((s.arrays a).slots i).alive = true →
    p.Holds a i (addresses ((s.arrays a).slots i).queue)
  /-- no signal is in a buffer and elsewhere -/
  apart : ∀ i, (addresses (s.sigQs ++ s.sigInq ++ s.inBuffer i)).Nodup
  /-- none is in two buffers -/
  disjoint : ∀ i j, i ≠ j → ∀ x ∈ addresses (s.inBuffer i), x ∉ addresses (s.inBuffer j)
  /-- the kinds of the signals -/
  kinds : ∀ x, s.Queued x → p.proc.mem.isMsg x.payload = x.isMsg

/-! ## Lists of signals -/

section Lists

variable {s s' : State Pid Sig} {p p' : Memory} {m : SigMem} {I M : List Sig} {a : Addr}
  {i j : Slot} {x : Signal Pid Sig} {chain : List (Signal Pid Sig)}

@[simp] theorem addresses_append (l l' : List (Signal Pid Sig)) :
    addresses (l ++ l') = addresses l ++ addresses l' := List.map_append

theorem mem_addresses {l : List (Signal Pid Sig)} (h : x ∈ l) : x.payload ∈ addresses l :=
  List.mem_map_of_mem h

theorem inBuffer_eq (hs : s.sigInqBuffers = some a) : s.inBuffer i =
    if ((s.arrays a).slots i).alive then ((s.arrays a).slots i).queue else [] := by
  rw [State.inBuffer, hs]

theorem inBuffer_alive (hs : s.sigInqBuffers = some a)
    (halive : ((s.arrays a).slots i).alive = true) :
    s.inBuffer i = ((s.arrays a).slots i).queue := by
  rw [inBuffer_eq hs, if_pos halive]

theorem inBuffer_none (hs : s.sigInqBuffers = none) : s.inBuffer i = [] := by
  rw [State.inBuffer, hs]

/-- The same buffers are alive, with the same signals. -/
structure SameBuffers (s s' : State Pid Sig) : Prop where
  /-- the array that is installed -/
  sigInqBuffers : s'.sigInqBuffers = s.sigInqBuffers
  /-- its buffers -/
  slots : ∀ a, s.sigInqBuffers = some a → ∀ i,
    ((s'.arrays a).slots i).alive = ((s.arrays a).slots i).alive ∧
      ((s'.arrays a).slots i).queue = ((s.arrays a).slots i).queue

/-- The queues of the receiver are also the same. -/
structure SameLists (s s' : State Pid Sig) : Prop extends SameBuffers s s' where
  /-- `sig_qs` -/
  sigQs : s'.sigQs = s.sigQs
  /-- `sig_inq` -/
  sigInq : s'.sigInq = s.sigInq

theorem SameBuffers.inBuffer (h : SameBuffers s s') (i : Slot) : s'.inBuffer i = s.inBuffer i := by
  rw [State.inBuffer, State.inBuffer, h.sigInqBuffers]
  cases hs : s.sigInqBuffers with
  | none => rfl
  | some a =>
    obtain ⟨halive, hqueue⟩ := h.slots a hs i
    simp only [halive, hqueue]

theorem SameLists.queued (h : SameLists s s') : s'.Queued x ↔ s.Queued x := by
  simp only [State.Queued, h.sigQs, h.sigInq, h.inBuffer]

/-- A step that moves no signal. -/
theorem MemRep.congr (h : MemRep s p I M) (hl : SameLists s s') : MemRep s' p I M := by
  refine ⟨?_, ?_, fun a ha i hi => ?_, fun i => ?_, fun i j hij => ?_,
    fun x hx => h.kinds x (hl.queued.1 hx)⟩
  · rw [hl.sigInq]
    exact h.queues
  · rw [hl.sigQs]
    exact h.fetched
  · rw [hl.sigInqBuffers] at ha
    obtain ⟨halive, hqueue⟩ := hl.slots a ha i
    rw [halive] at hi
    rw [hqueue]
    exact h.buffers a ha i hi
  · rw [hl.sigQs, hl.sigInq, hl.inBuffer]
    exact h.apart i
  · rw [hl.inBuffer, hl.inBuffer]
    exact h.disjoint i j hij

/-! ## Steps in memory -/

/-- What the receiver has. -/
theorem MemRep.received (h : MemRep s p I M) :
    addresses (s.sigQs ++ s.sigInq) = I ++ M ++ addresses s.sigInq := by
  rw [addresses_append, h.fetched]

theorem MemRep.sameOn_queues (h : MemRep s p I M)
    (hs : ∀ x, s.Queued x → SameOn [x.payload] p.proc.mem m) :
    SameOn (I ++ M ++ addresses s.sigInq) p.proc.mem m := by
  intro y hy
  rw [← h.received] at hy
  obtain ⟨x, hx, rfl⟩ := List.mem_map.1 hy
  exact hs x (Or.inl hx) x.payload List.mem_cons_self

/-- Only signals are written that are in no queue. -/
theorem MemRep.prepared (h : MemRep s p I M)
    (hs : ∀ x, s.Queued x → SameOn [x.payload] p.proc.mem m) : MemRep s (p.prepared m) I M := by
  refine ⟨h.queues.congr (h.sameOn_queues hs), h.fetched, fun a ha i hi => ?_, h.apart,
    h.disjoint, fun x hx => ?_⟩
  · refine (h.buffers a ha i hi).congr fun y hy => ?_
    obtain ⟨x, hx, rfl⟩ := List.mem_map.1 hy
    refine hs x (Or.inr ⟨i, ?_⟩) x.payload List.mem_cons_self
    rwa [inBuffer_alive ha hi]
  · rw [← h.kinds x hx]
    exact (hs x hx x.payload List.mem_cons_self).2.1

theorem MemRep.nodup_received (h : MemRep s p I M) : (addresses (s.sigQs ++ s.sigInq)).Nodup := by
  rw [h.received]
  exact h.queues.nodup

/-- Signals that are in a queue, and the chain. -/
theorem Prepared.nodup_append (h : Prepared s p m chain) {l : List (Signal Pid Sig)}
    (hl : (addresses l).Nodup) (hq : ∀ x ∈ l, s.Queued x) :
    (addresses l ++ addresses chain).Nodup := by
  refine List.nodup_append.2 ⟨hl, h.nodup, ?_⟩
  rintro y hy z hz rfl
  obtain ⟨x, hx, rfl⟩ := List.mem_map.1 hy
  exact h.fresh x (hq x hx) hz

/-- **Signals are enqueued on the in-queue.** -/
theorem MemRep.enqueue (h : MemRep s p I M) (hprep : Prepared s p m chain) {first : Sig}
    {last : SigQueue.Slot} {lastNext : Option SigQueue.Slot} {n : ℤ}
    (hc : SigQueue.ValidChain m first last lastNext n (addresses chain))
    (hb : SameBuffers s s') (hqs : s'.sigQs = s.sigQs) (hinq : s'.sigInq = s.sigInq ++ chain) :
    MemRep s' ((p.prepared m).enqueue first last lastNext n) I M := by
  have hp := h.prepared hprep.kept
  have hndR : (I ++ M ++ (addresses s.sigInq ++ addresses chain)).Nodup := by
    rw [← List.append_assoc, ← h.received]
    exact hprep.nodup_append h.nodup_received fun x hx => Or.inl hx
  have hnd : ∀ i, (addresses (s.sigQs ++ s.sigInq) ++ addresses chain ++
      addresses (s.inBuffer i)).Nodup := by
    intro i
    have := hprep.nodup_append (h.apart i) fun x hx =>
      (List.mem_append.1 hx).imp id fun hx => ⟨i, hx⟩
    rw [addresses_append, List.append_assoc] at this
    rw [List.append_assoc]
    exact (List.Perm.append_left _ List.perm_append_comm).nodup this
  have hqueues : SigQueue.Rep ((p.prepared m).enqueue first last lastNext n).proc I M
      (addresses s'.sigInq) := by
    rw [hinq, addresses_append]
    exact hp.queues.enqueue hc hndR
  refine ⟨hqueues, ?_, fun a ha i hi => ?_, fun i => ?_, fun i j hij => ?_, fun x hx => ?_⟩
  · rw [hqs]
    exact h.fetched
  · rw [hb.sigInqBuffers] at ha
    obtain ⟨halive, hqueue⟩ := hb.slots a ha i
    rw [halive] at hi
    rw [hqueue]
    refine (hp.buffers a ha i hi).congr (SigQueue.sameOn_enqueue hp.queues.inq hc ?_ ?_)
    · exact (List.nodup_append.1 hndR).2.1
    · intro y hy hq
      have hmem := hnd i
      rw [inBuffer_alive ha hi, h.received, List.append_assoc (I ++ M)] at hmem
      exact (List.nodup_append.1 hmem).2.2 y (List.mem_append_right _ hq) y hy rfl
  · rw [hqs, hinq, hb.inBuffer, addresses_append, ← List.append_assoc, addresses_append]
    exact hnd i
  · rw [hb.inBuffer, hb.inBuffer]
    exact h.disjoint i j hij
  · show (enqueueSignals (p.prepared m).proc first last lastNext n).mem.isMsg _ = _
    rw [SigQueue.enqueueSignals_isMsg]
    rcases hx with hx | ⟨i, hx⟩
    · rw [hqs, hinq, ← List.append_assoc] at hx
      rcases List.mem_append.1 hx with hx | hx
      · exact hp.kinds x (Or.inl hx)
      · exact hprep.kinds x hx
    · rw [hb.inBuffer] at hx
      exact hp.kinds x (Or.inr ⟨i, hx⟩)

/-- The queue of another buffer. -/
theorem Memory.setQueue_of_ne {q : InQueue} (hj : j ≠ i) :
    (p.setQueue a i q).queues a j = p.queues a j := if_neg fun hc => hj hc.2

theorem Memory.setQueue_self {q : InQueue} : (p.setQueue a i q).queues a i = q :=
  if_pos ⟨rfl, rfl⟩

theorem Memory.flushBuffer_proc (p : Memory) (a : Addr) (i : Slot) :
    (p.flushBuffer a i true).proc = match (p.queues a i).first with
      | none => p.proc
      | some _ => sigInqConcat p.proc (p.queues a i) := by
  rw [Memory.flushBuffer]
  cases (p.queues a i).first <;> rfl

theorem Memory.flushBuffer_of_ne (p : Memory) (hj : j ≠ i) :
    (p.flushBuffer a i true).queues a j = p.queues a j := by
  rw [Memory.flushBuffer]
  split
  · rfl
  · exact Memory.setQueue_of_ne hj

theorem Memory.deinstallBuffer_proc (p : Memory) (a : Addr) (i : Slot) :
    (p.deinstallBuffer a i).proc = match (p.queues a i).first with
      | none => p.proc
      | some _ => sigInqConcat p.proc (p.queues a i) := by
  rw [Memory.deinstallBuffer]
  cases (p.queues a i).first <;> rfl

theorem Memory.deinstallBuffer_queues (p : Memory) (a : Addr) (i : Slot) :
    (p.deinstallBuffer a i).queues = p.queues := by
  rw [Memory.deinstallBuffer]
  split <;> rfl

/-- The test for an empty queue. -/
theorem Memory.Holds.first_eq_none {l : List Sig} (h : p.Holds a i l) :
    (p.queues a i).first = none ↔ l = [] := by
  rw [h.links.head_eq, List.head?_eq_none_iff]

/-- A buffer that has been flushed is empty. -/
theorem Memory.Holds.flushBuffer {l : List Sig} (h : p.Holds a i l) :
    (p.flushBuffer a i true).Holds a i [] := by
  cases hf : (p.queues a i).first with
  | none =>
    obtain rfl := h.first_eq_none.1 hf
    rw [Memory.flushBuffer, hf]
    exact h
  | some first =>
    rw [Memory.flushBuffer, hf, Memory.Holds, if_pos rfl, Memory.setQueue_self]
    exact SigQueue.queueRep_nil _ _

/-- **Signals are enqueued on the queue of a buffer.** -/
theorem MemRep.enqueueToBuffer (h : MemRep s p I M) (hprep : Prepared s p m chain) {first : Sig}
    {last : SigQueue.Slot} {lastNext : Option SigQueue.Slot} {n : ℤ}
    (hc : SigQueue.ValidChain m first last lastNext n (addresses chain))
    (hs : s.sigInqBuffers = some a) (halive : ((s.arrays a).slots i).alive = true)
    (hptr : s'.sigInqBuffers = s.sigInqBuffers) (hqs : s'.sigQs = s.sigQs)
    (hinq : s'.sigInq = s.sigInq)
    (hslots : ∀ j, j ≠ i → (s'.arrays a).slots j = (s.arrays a).slots j)
    (hself : ((s'.arrays a).slots i).alive = ((s.arrays a).slots i).alive ∧
      ((s'.arrays a).slots i).queue = ((s.arrays a).slots i).queue ++ chain) :
    MemRep s' ((p.prepared m).enqueueToBuffer a i first last lastNext n) I M := by
  have hp := h.prepared hprep.kept
  have hbuffer : s.inBuffer i = ((s.arrays a).slots i).queue := inBuffer_alive hs halive
  have hbuffer' : s'.inBuffer i = s.inBuffer i ++ chain := by
    rw [hbuffer, inBuffer_alive (hptr.trans hs) (hself.1.trans halive), hself.2]
  have hother : ∀ j, j ≠ i → s'.inBuffer j = s.inBuffer j := fun j hj => by
    rw [inBuffer_eq hs, inBuffer_eq (hptr.trans hs), hslots j hj]
  have hqueued : ∀ x, s.Queued x → x.payload ∉ addresses (s.inBuffer i) →
      x.payload ∉ addresses (s.inBuffer i) ++ addresses chain := fun x hx hn hq =>
    (List.mem_append.1 hq).elim hn (hprep.fresh x hx)
  have hnd : (addresses (s.sigQs ++ s.sigInq) ++
      (addresses (s.inBuffer i) ++ addresses chain)).Nodup := by
    rw [← List.append_assoc, ← addresses_append]
    exact hprep.nodup_append (h.apart i) fun x hx =>
      (List.mem_append.1 hx).imp id fun hx => ⟨i, hx⟩
  -- the operation, on the queue of the buffer
  set q : SigQueue.Proc := { (p.prepared m).proc with inq := p.queues a i } with hq
  have hholds := hp.buffers a hs i halive
  rw [← hbuffer] at hholds
  have hrep : SigQueue.Rep q I M (addresses (s.inBuffer i)) := by
    refine hp.queues.with_inq ?_ rfl (.refl _ _) hholds
    have := h.apart i
    rw [addresses_append, h.received, List.append_assoc (I ++ M)] at this
    exact this.sublist ((List.sublist_append_right _ _).append_left _)
  have hnd' : (I ++ M ++ (addresses (s.inBuffer i) ++ addresses chain)).Nodup := by
    rw [h.received, List.append_assoc (I ++ M)] at hnd
    exact hnd.sublist ((List.sublist_append_right _ _).append_left _)
  have hsame : ∀ l : List Sig, (∀ y ∈ l, y ∉ addresses (s.inBuffer i) ++ addresses chain) →
      SameOn l m (enqueueSignals q first last lastNext n).mem := fun l hl =>
    SigQueue.sameOn_enqueue hholds hc (List.nodup_append.1 hnd').2.1 hl
  have hmoved := hrep.enqueue hc hnd'
  refine ⟨?_, by rw [hqs]; exact h.fetched, fun a' ha' j hj => ?_, fun j => ?_, fun j k hjk => ?_,
    fun x hx => ?_⟩
  · rw [hinq]
    refine hp.queues.congr (hsame _ fun y hy hq => ?_)
    rw [← h.received] at hy
    exact (List.nodup_append.1 hnd).2.2 y hy y hq rfl
  · obtain rfl := Option.some.inj (hs.symm.trans (hptr.symm.trans ha'))
    by_cases hji : j = i
    · subst hji
      rw [Memory.Holds, Memory.enqueueToBuffer, Memory.setQueue_self, hself.2, addresses_append,
        ← hbuffer]
      exact hmoved.inq
    · rw [hslots j hji] at hj ⊢
      rw [Memory.Holds, Memory.enqueueToBuffer, Memory.setQueue_of_ne hji]
      refine (hp.buffers a hs j hj).congr (hsame _ fun y hy hq => ?_)
      rw [← inBuffer_alive hs hj] at hy
      obtain ⟨x, hx, rfl⟩ := List.mem_map.1 hy
      exact hqueued x (Or.inr ⟨j, hx⟩) (h.disjoint j i hji _ hy) hq
  · rw [hqs, hinq]
    by_cases hji : j = i
    · rw [hji, hbuffer', addresses_append, addresses_append (s.inBuffer i)]
      exact hnd
    · rw [hother j hji]
      exact h.apart j
  · have hdisj : ∀ j, j ≠ i → ∀ y ∈ addresses (s.inBuffer j),
        y ∉ addresses (s.inBuffer i) ++ addresses chain := by
      intro j hji y hy
      obtain ⟨x, hx, rfl⟩ := List.mem_map.1 hy
      exact hqueued x (Or.inr ⟨j, hx⟩) (h.disjoint j i hji _ hy)
    by_cases hji : j = i
    · rw [hji, hbuffer', hother k fun hk => hjk (hji.trans hk.symm), addresses_append]
      exact fun y hy hk => hdisj k (fun hk => hjk (hji.trans hk.symm)) y hk hy
    · rw [hother j hji]
      by_cases hki : k = i
      · rw [hki, hbuffer', addresses_append]
        exact hdisj j hji
      · rw [hother k hki]
        exact h.disjoint j k hjk
  · show (enqueueSignals q first last lastNext n).mem.isMsg _ = _
    rw [SigQueue.enqueueSignals_isMsg]
    rcases hx with hx | ⟨j, hx⟩
    · rw [hqs, hinq] at hx
      exact hp.kinds x (Or.inl hx)
    · by_cases hji : j = i
      · rw [hji, hbuffer'] at hx
        rcases List.mem_append.1 hx with hx | hx
        · exact hp.kinds x (Or.inr ⟨i, hx⟩)
        · exact hprep.kinds x hx
      · rw [hother j hji] at hx
        exact hp.kinds x (Or.inr ⟨j, hx⟩)

/-- **A buffer is taken**: its signals go to the in-queue, and it is empty or dead. -/
theorem MemRep.takeBuffer (h : MemRep s p I M) {p' : Memory} (hs : s.sigInqBuffers = some a)
    (halive : ((s.arrays a).slots i).alive = true)
    (hproc : p'.proc = match (p.queues a i).first with
      | none => p.proc
      | some _ => sigInqConcat p.proc (p.queues a i))
    (hqueues : ∀ j, j ≠ i → p'.queues a j = p.queues a j)
    (hptr : s'.sigInqBuffers = s.sigInqBuffers) (hqs : s'.sigQs = s.sigQs)
    (hinq : s'.sigInq = s.sigInq ++ ((s.arrays a).slots i).queue)
    (hslots : ∀ j, j ≠ i → (s'.arrays a).slots j = (s.arrays a).slots j)
    (hself : ((s'.arrays a).slots i).alive = true →
      ((s'.arrays a).slots i).queue = [] ∧ p'.Holds a i []) : MemRep s' p' I M := by
  have hbuffer : s.inBuffer i = ((s.arrays a).slots i).queue := inBuffer_alive hs halive
  have hbuffer' : s'.inBuffer i = [] := by
    rw [inBuffer_eq (hptr.trans hs)]
    split
    · rename_i hi
      exact (hself hi).1
    · rfl
  have hother : ∀ j, j ≠ i → s'.inBuffer j = s.inBuffer j := fun j hj => by
    rw [inBuffer_eq hs, inBuffer_eq (hptr.trans hs), hslots j hj]
  have hholds := h.buffers a hs i halive
  rw [← hbuffer] at hinq hholds
  have hnd : (I ++ M ++ (addresses s.sigInq ++ addresses (s.inBuffer i))).Nodup := by
    have := h.apart i
    rw [addresses_append, h.received, List.append_assoc (I ++ M)] at this
    exact this
  -- the operation writes to the in-queue and to this buffer
  obtain ⟨hrep, hsame, hmsg⟩ : SigQueue.Rep p'.proc I M (addresses s'.sigInq) ∧
      (∀ l : List Sig, (∀ y ∈ l, y ∉ addresses s.sigInq ++ addresses (s.inBuffer i)) →
        SameOn l p.proc.mem p'.proc.mem) ∧ p'.proc.mem.isMsg = p.proc.mem.isMsg := by
    rw [hinq, addresses_append, hproc]
    cases hf : (p.queues a i).first with
    | none =>
      rw [hholds.first_eq_none.1 hf, List.append_nil]
      exact ⟨h.queues, fun l _ => .refl l _, rfl⟩
    | some first =>
      have hne : addresses (s.inBuffer i) ≠ [] := fun hnil => by
        rw [hholds.first_eq_none.2 hnil] at hf
        cases hf
      exact ⟨h.queues.concat hholds hne hnd,
        fun l hl => SigQueue.sameOn_concat h.queues.inq hholds hl,
        SigQueue.sigInqConcat_isMsg _ _⟩
  have hdisj : ∀ j, j ≠ i → ∀ y ∈ addresses (s.inBuffer j),
      y ∉ addresses s.sigInq ++ addresses (s.inBuffer i) := by
    intro j hji y hy hq
    rcases List.mem_append.1 hq with hq | hq
    · have := h.apart j
      rw [addresses_append, addresses_append] at this
      exact (List.nodup_append.1 this).2.2 y (List.mem_append_right _ hq) y hy rfl
    · exact h.disjoint j i hji y hy hq
  refine ⟨hrep, by rw [hqs]; exact h.fetched, fun a' ha' j hj => ?_, fun j => ?_,
    fun j k hjk => ?_, fun x hx => ?_⟩
  · obtain rfl := Option.some.inj (hs.symm.trans (hptr.symm.trans ha'))
    by_cases hji : j = i
    · subst hji
      obtain ⟨hnil, hempty⟩ := hself hj
      rw [hnil]
      exact hempty
    · rw [hslots j hji] at hj ⊢
      rw [Memory.Holds, hqueues j hji]
      refine (h.buffers a hs j hj).congr (hsame _ fun y hy => ?_)
      rw [← inBuffer_alive hs hj] at hy
      exact hdisj j hji y hy
  · rw [hqs, hinq, ← List.append_assoc]
    by_cases hji : j = i
    · rw [hji, hbuffer', List.append_nil]
      exact h.apart i
    · rw [hother j hji, addresses_append]
      refine List.nodup_append.2 ⟨h.apart i, ?_, ?_⟩
      · have := h.apart j
        rw [addresses_append] at this
        exact (List.nodup_append.1 this).2.1
      · rintro y hy z hz rfl
        rw [addresses_append] at hy
        rcases List.mem_append.1 hy with hy | hy
        · have := h.apart j
          rw [addresses_append] at this
          exact (List.nodup_append.1 this).2.2 y hy y hz rfl
        · exact h.disjoint i j (Ne.symm hji) y hy hz
  · by_cases hji : j = i
    · rw [hji, hbuffer']
      exact fun y hy => absurd hy List.not_mem_nil
    · by_cases hki : k = i
      · rw [hki, hbuffer']
        exact fun y _ => List.not_mem_nil
      · rw [hother j hji, hother k hki]
        exact h.disjoint j k hjk
  · rw [hmsg]
    refine h.kinds x ?_
    rcases hx with hx | ⟨j, hx⟩
    · rw [hqs, hinq, ← List.append_assoc] at hx
      exact (List.mem_append.1 hx).imp id fun hx => ⟨i, hx⟩
    · by_cases hji : j = i
      · rw [hji, hbuffer'] at hx
        cases hx
      · rw [hother j hji] at hx
        exact Or.inr ⟨j, hx⟩

/-- **The in-queue is taken.** -/
theorem MemRep.fetch (h : MemRep s p I M) (traced : Bool) (hb : SameBuffers s s')
    (hqs : s'.sigQs = s.sigQs ++ s.sigInq) (hinq : s'.sigInq = []) :
    ∃ I' M', MemRep s' (p.fetch traced) I' M' := by
  obtain ⟨I', M', Q', hrep, hlist⟩ := h.queues.fetch traced
  obtain rfl : Q' = [] := by
    have hlinks := hrep.inq.links
    rw [SigQueue.procSigFetch_first] at hlinks
    cases Q' with
    | nil => rfl
    | cons y Q' => cases hlinks.1
  rw [List.append_nil] at hlist
  refine ⟨I', M', ?_, ?_, fun a ha i hi => ?_, fun i => ?_, fun i j hij => ?_, fun x hx => ?_⟩
  · rw [hinq]
    exact hrep
  · rw [hlist, hqs, h.received]
  · rw [hb.sigInqBuffers] at ha
    obtain ⟨halive, hqueue⟩ := hb.slots a ha i
    rw [halive] at hi
    rw [hqueue]
    refine (h.buffers a ha i hi).congr (h.queues.sameOn_fetch traced fun y hy hq => ?_)
    have hnd := h.apart i
    rw [addresses_append, h.received, inBuffer_alive ha hi] at hnd
    exact (List.nodup_append.1 hnd).2.2 y hq y hy rfl
  · rw [hqs, hinq, hb.inBuffer, List.append_nil]
    exact h.apart i
  · rw [hb.inBuffer, hb.inBuffer]
    exact h.disjoint i j hij
  · show (procSigFetch p.proc traced).mem.isMsg _ = _
    rw [SigQueue.procSigFetch_isMsg]
    refine h.kinds x ?_
    rw [State.Queued, hqs, hinq, List.append_nil] at hx
    exact hx.imp id fun ⟨i, hx⟩ => ⟨i, by rwa [hb.inBuffer] at hx⟩

/-- **Buffers are installed.** -/
theorem MemRep.install (h : MemRep s p I M) (hnone : s.sigInqBuffers = none)
    (hptr : s'.sigInqBuffers = some a) (hqs : s'.sigQs = s.sigQs) (hinq : s'.sigInq = s.sigInq)
    (hslots : ∀ i, (s'.arrays a).slots i = .fresh) : MemRep s' (p.install a) I M := by
  have hnil : ∀ i, s'.inBuffer i = [] := fun i => by
    rw [inBuffer_eq hptr, hslots]
    rfl
  refine ⟨?_, by rw [hqs]; exact h.fetched, fun a' ha' i _ => ?_, fun i => ?_,
    fun i j _ => ?_, fun x hx => h.kinds x ?_⟩
  · rw [hinq]
    exact h.queues
  · obtain rfl := Option.some.inj (hptr.symm.trans ha')
    have hq : (p.install a).queues a i = .empty := if_pos rfl
    rw [hslots, Memory.Holds, hq]
    exact SigQueue.queueRep_nil _ _
  · rw [hnil, hqs, hinq, ← inBuffer_none (i := i) hnone]
    exact h.apart i
  · rw [hnil]
    exact fun y hy => absurd hy List.not_mem_nil
  · rw [State.Queued, hqs, hinq] at hx
    exact hx.imp id fun ⟨i, hx⟩ => by
      rw [hnil] at hx
      cases hx

/-- **The array has been deinstalled.** -/
theorem MemRep.deinstalled (h : MemRep s p I M) (hdead : ∀ i, s.inBuffer i = [])
    (hptr : s'.sigInqBuffers = none) (hqs : s'.sigQs = s.sigQs) (hinq : s'.sigInq = s.sigInq) :
    MemRep s' p I M := by
  have hnil : ∀ i, s'.inBuffer i = [] := fun i => inBuffer_none hptr
  refine ⟨?_, by rw [hqs]; exact h.fetched, fun a ha => ?_, fun i => ?_, fun i j _ => ?_,
    fun x hx => h.kinds x ?_⟩
  · rw [hinq]
    exact h.queues
  · rw [hptr] at ha
    cases ha
  · rw [hnil, hqs, hinq, ← hdead i]
    exact h.apart i
  · rw [hnil]
    exact fun y hy => absurd hy List.not_mem_nil
  · rw [State.Queued, hqs, hinq] at hx
    exact hx.imp id fun ⟨i, hx⟩ => by
      rw [hnil] at hx
      cases hx

end Lists

end PonBeam.SigBuffers
