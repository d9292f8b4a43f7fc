import PonBeam.SigQueue.Order
import Mathlib.Data.List.Induction

/-!
# Runs of the signal queues

Any sequence of `enqueue_signals` with a chain of one of the three valid shapes,
`LINK_MESSAGE`, and `erts_proc_sig_fetch__`, from an empty process. A caller prepares
the signals it hands over: before each call the fields of signals that are in no queue
may have been written in any way.

`QueueLaws` states what the fields of a queue mean in terms of what one finds by
following them; `sigQueues_in_order` says that they mean it in every reachable state,
and that the three queues hold what was enqueued, in order.
-/

namespace PonBeam.SigQueue

open Proc

/-! ## What the fields mean -/

/-- The number of messages at the end of `l`. -/
def trailing (isMsg : Sig → Bool) (l : List Sig) : ℕ := (l.reverse.takeWhile isMsg).length

/-- Following `specific.next` from a pointer at a pointer visits `l`. -/
def Visits (p : Proc) : Option Slot → List Sig → Prop
  | o, [] => o = none
  | o, x :: l => o.bind p.load = some x ∧ Visits p (p.mem.specificNext x) l

/-- The laws of a queue that holds `l`. -/
structure QueueLaws (p : Proc) (base : Slot) (head : Option Sig) (last : Slot) (nmsigs : NMSigs)
    (mlenoffs : ℤ) (l : List Sig) : Prop where
  /-- the queue -/
  links : Seg p.mem.next head l none
  /-- `last` is the address of the final `next` field -/
  last : last = endSlot base l
  /-- the chain visits the non-message signals in order -/
  visits : Visits p nmsigs.next (l.filter fun x => !p.mem.isMsg x)
  /-- `nmsigs.last` is at the final one -/
  nmLast : nmsigs.last.bind p.load = (l.filter fun x => !p.mem.isMsg x).getLast?
  /-- each counts the messages back to the one before it, or to the start -/
  counts : ∀ a x b, l = a ++ x :: b → p.mem.isMsg x = false →
    p.mem.mlenoffs x = trailing p.mem.isMsg a
  /-- the queue counts the messages after the last one -/
  total : mlenoffs = trailing p.mem.isMsg l

theorem trailing_concat (isMsg : Sig → Bool) (l : List Sig) (x : Sig) :
    trailing isMsg (l ++ [x]) = if isMsg x then trailing isMsg l + 1 else 0 := by
  unfold trailing
  rw [List.reverse_append, List.reverse_singleton, List.singleton_append, List.takeWhile_cons]
  split <;> simp

theorem Offs.eq_trailing {isMsg : Sig → Bool} {mlenoffs : Sig → ℤ} {l : List Sig} {t : ℤ}
    (h : Offs isMsg mlenoffs 0 l t) : t = trailing isMsg l := by
  induction l using List.reverseRecOn generalizing t with
  | nil => exact h
  | append_singleton l x ih =>
    obtain ⟨j, hj, hx⟩ := offs_append.mp h
    rw [trailing_concat]
    simp only [Offs] at hx
    split at hx
    · rw [hx, ih hj, if_pos (by assumption)]
      rfl
    · rw [hx.2, if_neg (by assumption)]
      rfl

theorem specSeg_visits {p : Proc} {ys : List (Slot × Sig)}
    (hload : ∀ y ∈ ys, p.load y.1 = some y.2) (h : SpecSeg p.mem.specificNext ys none) :
    Visits p (ys.head?.map Prod.fst) (ys.map Prod.snd) := by
  induction ys with
  | nil => rfl
  | cons y ys ih =>
    refine ⟨hload y (List.mem_cons_self ..), ?_⟩
    rw [h.1, Option.or_none]
    exact ih (fun z hz => hload z (List.mem_cons_of_mem _ hz)) h.2

/-- The representation gives the laws. -/
theorem QueueRep.laws {p : Proc} {base last : Slot} {head : Option Sig} {nmsigs : NMSigs}
    {mlenoffs : ℤ} {l : List Sig} (h : QueueRep p.mem base head last nmsigs mlenoffs l)
    (hhead : p.load base = head) : QueueLaws p base head last nmsigs mlenoffs l := by
  have hload : ∀ y ∈ nmSlots p.mem.isMsg base l, p.load y.1 = some y.2 :=
    load_nmSlots (hhead ▸ h.links : Seg _ (p.load base) l none)
  refine ⟨h.links, h.last, ?_, ?_, fun a x b hl hx => ?_, h.offs.eq_trailing⟩
  · rw [h.nmNext, ← nmSlots_snd base]
    exact specSeg_visits hload h.chain
  · rw [h.nmLast, ← nmSlots_snd base, List.getLast?_map]
    rcases hz : (nmSlots p.mem.isMsg base l).getLast? with _ | z
    · rfl
    · exact hload z (List.mem_of_getLast? hz)
  · have hoffs := h.offs
    rw [hl] at hoffs
    obtain ⟨j, hj, hrest⟩ := offs_append.mp hoffs
    rw [Offs, if_neg (by rw [hx]; simp)] at hrest
    rw [hrest.1, hj.eq_trailing]

/-! ## Runs -/

/-- A call. -/
inductive SigOp : Type where
  /-- `enqueue_signals` of a chain -/
  | enqueue (chain : List Sig)
  /-- `LINK_MESSAGE` -/
  | link (msg : Sig)
  /-- `erts_proc_sig_fetch__` -/
  | fetch (traced : Bool)

/-- A process with the signals enqueued so far. -/
structure SigRun where
  /-- the process -/
  proc : Proc
  /-- what was enqueued, in order -/
  log : List Sig

/-- A memory in which the caller has prepared signals that are in no queue. -/
def SigRun.prepared (s : SigRun) (m : SigMem) : Proc := { s.proc with mem := m }

/-- One call. -/
inductive SigStep : SigRun → SigOp → SigRun → Prop where
  /-- a chain of fresh signals, prepared by the caller -/
  | enqueue {s : SigRun} {m : SigMem} {first : Sig} {last : Slot} {lastNext : Option Slot}
      {numMsgs : ℤ} {chain : List Sig} : (∀ x ∈ chain, x ∉ s.log) → chain.Nodup →
      SameOn s.log s.proc.mem m → ValidChain m first last lastNext numMsgs chain →
      SigStep s (.enqueue chain)
        ⟨enqueueSignals (s.prepared m) first last lastNext numMsgs, s.log ++ chain⟩
  /-- a fresh message -/
  | link {s : SigRun} {m : SigMem} {msg : Sig} : msg ∉ s.log → SameOn s.log s.proc.mem m →
      m.isMsg msg = true → m.next msg = none →
      SigStep s (.link msg) ⟨linkMessage (s.prepared m) msg, s.log ++ [msg]⟩
  /-- a fetch -/
  | fetch {s : SigRun} {traced : Bool} :
      SigStep s (.fetch traced) ⟨procSigFetch s.proc traced, s.log⟩

/-- The queues, from an empty process on. -/
def sigSystem : System SigRun SigOp where
  init s := s.proc.qs = .empty ∧ s.proc.inq = .empty ∧ s.log = []
  step := SigStep

/-- The three queues hold what was enqueued. -/
def SigInv (s : SigRun) : Prop := ∃ I M Q, Rep s.proc I M Q ∧ s.log = I ++ M ++ Q

theorem rep_empty {p : Proc} (hqs : p.qs = .empty) (hinq : p.inq = .empty) : Rep p [] [] [] := by
  obtain ⟨m, qs, inq⟩ := p
  obtain rfl : qs = .empty := hqs
  obtain rfl : inq = .empty := hinq
  exact ⟨List.nodup_nil, rfl, rfl, by simp, rfl, queueRep_nil m .cont, queueRep_nil m .inqFirst⟩

theorem Rep.prepared {s : SigRun} {m : SigMem} {I M Q : List Sig} (h : Rep s.proc I M Q)
    (hs : SameOn (I ++ M ++ Q) s.proc.mem m) : Rep (s.prepared m) I M Q :=
  h.with_inq h.nodup rfl (fun x hx => hs x (List.mem_append_left _ hx))
    (h.inq.congr fun x hx => hs x (List.mem_append_right _ hx))

/-- **One call** keeps the queues in order. -/
theorem SigInv.step {s s' : SigRun} {op : SigOp} (h : SigInv s) (hstep : SigStep s op s') :
    SigInv s' := by
  obtain ⟨I, M, Q, hrep, hlog⟩ := h
  -- fresh signals keep the concatenation free of duplicates
  have hnodup : ∀ c : List Sig, (∀ x ∈ c, x ∉ s.log) → c.Nodup → (I ++ M ++ (Q ++ c)).Nodup := by
    intro c hfresh hc
    rw [← List.append_assoc]
    refine List.nodup_append.mpr ⟨hrep.nodup, hc, fun x hx y hy he => ?_⟩
    exact hfresh y hy (by rw [hlog, ← he]; exact hx)
  cases hstep with
  | @enqueue m first last lastNext numMsgs chain hfresh hnd hs hc =>
    rw [hlog] at hs
    refine ⟨I, M, Q ++ chain, (hrep.prepared hs).enqueue hc (hnodup chain hfresh hnd), ?_⟩
    simp [hlog]
  | @link m msg hfresh hs hmsg hnext =>
    rw [hlog] at hs
    have hc : ValidChain m msg (.next msg) none 1 [msg] := by
      refine ⟨⟨rfl, hnext⟩, fun x hx => ?_, Shape.msgs (c := [msg]) fun x hx => ?_⟩
      · obtain rfl : msg = x := Option.some.inj hx
        rfl
      · rw [List.mem_singleton.mp hx]
        exact hmsg
    have hnd := hnodup [msg] (fun x hx => by rw [List.mem_singleton.mp hx]; exact hfresh)
      (List.nodup_singleton msg)
    refine ⟨I, M, Q ++ [msg], ?_, by simp [hlog]⟩
    change Rep (linkMessage (s.prepared m) msg) I M (Q ++ [msg])
    rw [linkMessage_eq (p := s.prepared m) hmsg]
    exact (hrep.prepared hs).enqueue hc hnd
  | @fetch traced =>
    obtain ⟨I', M', Q', hrep', heq⟩ := hrep.fetch traced
    exact ⟨I', M', Q', hrep', hlog.trans heq.symm⟩

/-- **Order and bookkeeping.** In every reachable state the inner, the middle and the
in-queue hold, one after the other, the signals enqueued so far in order; the inner queue
holds messages only and `mq_len` counts them; and the fields of the other two keep their
laws. -/
theorem sigQueues_in_order {s : SigRun} (h : sigSystem.Reach s) :
    ∃ I M Q, I ++ M ++ Q = s.log ∧
      Seg s.proc.mem.next s.proc.qs.first I none ∧ s.proc.qs.last = endSlot .first I ∧
      (∀ x ∈ I, s.proc.mem.isMsg x = true) ∧ s.proc.qs.mqLen = I.length ∧
      QueueLaws s.proc .cont s.proc.qs.cont s.proc.qs.contLast s.proc.qs.nmsigs
        s.proc.qs.mlenoffs M ∧
      QueueLaws s.proc .inqFirst s.proc.inq.first s.proc.inq.last s.proc.inq.nmsigs
        s.proc.inq.mlenoffs Q := by
  have hinv : SigInv s := by
    refine h.invariant (fun s hs => ?_) fun s op s' hi hst => hi.step hst
    obtain ⟨hqs, hinq, hlog⟩ := hs
    exact ⟨[], [], [], rep_empty hqs hinq, hlog⟩
  obtain ⟨I, M, Q, hrep, hlog⟩ := hinv
  exact ⟨I, M, Q, hlog.symm, hrep.innerLinks, hrep.innerLast, hrep.innerMsgs, hrep.mqLen,
    hrep.middle.laws rfl, hrep.inq.laws rfl⟩

/-- A non-message signal and a message behind it. -/
def pairMem : SigMem := ⟨fun x => if x = 1 then some 2 else none, fun x => x == 2, fun _ => none,
  fun _ => 0⟩

/-- Both enqueued at once, then fetched. -/
def pairRun : SigRun :=
  ⟨procSigFetch (enqueueSignals ⟨pairMem, .empty, .empty⟩ 1 (.next 2) none 1) false, [1, 2]⟩

theorem pairMem_validChain : ValidChain pairMem 1 (.next 2) none 1 [1, 2] := by
  have hrest : ∀ x ∈ [2], pairMem.isMsg x = true := by
    intro x hx
    rw [List.mem_singleton.mp hx]
    rfl
  refine ⟨⟨rfl, rfl, rfl⟩, fun x hx => ?_, Shape.one rfl rfl rfl hrest⟩
  obtain rfl : 2 = x := Option.some.inj hx
  rfl

theorem pairRun_in_order : sigSystem.Reach pairRun ∧
    ∃ I M Q, I ++ M ++ Q = [1, 2] ∧ pairRun.proc.qs.mqLen = I.length ∧
      QueueLaws pairRun.proc .cont pairRun.proc.qs.cont pairRun.proc.qs.contLast
        pairRun.proc.qs.nmsigs pairRun.proc.qs.mlenoffs M := by
  have hstart : sigSystem.Reach ⟨⟨pairMem, .empty, .empty⟩, []⟩ := .start ⟨rfl, rfl, rfl⟩
  have henq := hstart.next (.enqueue (fun _ _ => List.not_mem_nil) (by decide)
    (fun _ hx => absurd hx List.not_mem_nil) pairMem_validChain)
  have hreach : sigSystem.Reach pairRun := henq.next (a := .fetch false) .fetch
  obtain ⟨I, M, Q, hlog, -, -, -, hlen, hmid, -⟩ := sigQueues_in_order hreach
  exact ⟨hreach, I, M, Q, hlog, hlen, hmid⟩

end PonBeam.SigQueue
