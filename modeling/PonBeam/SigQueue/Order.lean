import PonBeam.SigQueue.Queue

/-!
# Enqueueing and fetching keep the queues in order

`Rep` puts the three queues together: `I` in the inner queue, `M` in the middle queue,
`Q` in the in-queue, all through one memory. Appending to the in-queue and splicing it
behind the inner or the middle queue are the same write through the address of a final
`next` field (`seg_store`); the rest is the bookkeeping of `QueueRep.append_msgs` and
`QueueRep.append_nmsigs`.
-/

namespace PonBeam.SigQueue

open Proc

/-! ## Writing through the end of a queue -/

/-- The head of a queue. -/
def Slot.IsHead : Slot → Prop
  | .next _ => False
  | _ => True

section Store

variable {p : Proc} {base : Slot} {l c : List Sig} {v : Option Sig} {f : Sig}

@[simp] theorem store_isMsg (p : Proc) (slot : Slot) (v : Option Sig) :
    (p.store slot v).mem.isMsg = p.mem.isMsg := by
  cases slot <;> rfl

@[simp] theorem store_specificNext (p : Proc) (slot : Slot) (v : Option Sig) :
    (p.store slot v).mem.specificNext = p.mem.specificNext := by
  cases slot <;> rfl

@[simp] theorem store_mlenoffs (p : Proc) (slot : Slot) (v : Option Sig) :
    (p.store slot v).mem.mlenoffs = p.mem.mlenoffs := by
  cases slot <;> rfl

theorem endSlot_cases (base : Slot) (l : List Sig) :
    l = [] ∧ endSlot base l = base ∨ ∃ x, l.getLast? = some x ∧ endSlot base l = .next x := by
  unfold endSlot
  rcases hl : l.getLast? with _ | x
  · exact Or.inl ⟨List.getLast?_eq_none_iff.mp hl, rfl⟩
  · exact Or.inr ⟨x, rfl, rfl⟩

/-- Only the last signal of the queue is written. -/
theorem store_next_of_ne (base : Slot) (hb : base.IsHead) {x : Sig} (hx : l.getLast? ≠ some x) :
    (p.store (endSlot base l) v).mem.next x = p.mem.next x := by
  rcases endSlot_cases base l with ⟨-, he⟩ | ⟨z, hz, he⟩
  · rw [he]
    cases base with
    | next s => exact hb.elim
    | _ => rfl
  · rw [he]
    have hne : x ≠ z := fun h => hx (h ▸ hz)
    exact Function.update_of_ne hne ..

/-- The list that starts at `f`, appended. -/
theorem seg_store (hb : base.IsHead) (h : Seg p.mem.next (p.load base) l none)
    (hnd : (l ++ c).Nodup) (hc : Seg p.mem.next (some f) c none) :
    Seg (p.store (endSlot base l) (some f)).mem.next
      ((p.store (endSlot base l) (some f)).load base) (l ++ c) none := by
  have hndl := (List.nodup_append.mp hnd).1
  have hdisj := (List.nodup_append.mp hnd).2.2
  refine h.extend hndl (b := some f) ?_ (fun y hy => ?_) ?_ fun z _ hzl =>
    store_next_of_ne base hb hzl
  · refine (Seg.congr fun z hz => store_next_of_ne base hb fun hl => ?_).mpr hc
    exact hdisj z (List.mem_of_getLast? hl) z hz rfl
  · rcases endSlot_cases base l with ⟨rfl, -⟩ | ⟨z, hz, he⟩
    · cases hy
    · rw [he]
      obtain rfl := Option.some.inj (hz.symm.trans hy)
      exact Function.update_self ..
  · rcases endSlot_cases base l with ⟨rfl, he⟩ | ⟨z, hz, he⟩
    · rw [he, if_pos rfl]
      cases base with
      | next s => exact hb.elim
      | _ => rfl
    · have hne : l ≠ [] := by
        rintro rfl
        cases hz
      rw [he, if_neg hne]
      cases base with
      | next s => exact hb.elim
      | _ => rfl

/-- A list apart from the queue is not touched. -/
theorem sameOn_store (hb : base.IsHead) (hdisj : ∀ x ∈ c, x ∉ l) :
    SameOn c p.mem (p.store (endSlot base l) v).mem := by
  intro x hx
  refine ⟨store_next_of_ne base hb fun hl => hdisj x hx (List.mem_of_getLast? hl), ?_, ?_, ?_⟩ <;>
    simp

theorem store_inq_qs : (p.store (endSlot .inqFirst l) v).qs = p.qs := by
  rcases endSlot_cases .inqFirst l with ⟨-, he⟩ | ⟨z, -, he⟩ <;> rw [he] <;> rfl

theorem store_inq_inq : (p.store (endSlot .inqFirst l) v).inq =
    { p.inq with first := (p.store (endSlot .inqFirst l) v).load .inqFirst } := by
  rcases endSlot_cases .inqFirst l with ⟨-, he⟩ | ⟨z, -, he⟩ <;> rw [he] <;> rfl

theorem store_first_inq : (p.store (endSlot .first l) v).inq = p.inq := by
  rcases endSlot_cases .first l with ⟨-, he⟩ | ⟨z, -, he⟩ <;> rw [he] <;> rfl

theorem store_first_qs : (p.store (endSlot .first l) v).qs =
    { p.qs with first := (p.store (endSlot .first l) v).load .first } := by
  rcases endSlot_cases .first l with ⟨-, he⟩ | ⟨z, -, he⟩ <;> rw [he] <;> rfl

theorem store_cont_inq : (p.store (endSlot .cont l) v).inq = p.inq := by
  rcases endSlot_cases .cont l with ⟨-, he⟩ | ⟨z, -, he⟩ <;> rw [he] <;> rfl

theorem store_cont_qs : (p.store (endSlot .cont l) v).qs =
    { p.qs with cont := (p.store (endSlot .cont l) v).load .cont } := by
  rcases endSlot_cases .cont l with ⟨-, he⟩ | ⟨z, -, he⟩ <;> rw [he] <;> rfl

end Store

/-! ## The three queues -/

/-- `I` in the inner queue, `M` in the middle queue, `Q` in the in-queue. -/
structure Rep (p : Proc) (I M Q : List Sig) : Prop where
  /-- no signal is queued twice -/
  nodup : (I ++ M ++ Q).Nodup
  /-- the inner queue -/
  innerLinks : Seg p.mem.next p.qs.first I none
  /-- its final `next` field -/
  innerLast : p.qs.last = endSlot .first I
  /-- messages only -/
  innerMsgs : ∀ x ∈ I, p.mem.isMsg x = true
  /-- its length -/
  mqLen : p.qs.mqLen = I.length
  /-- the middle queue -/
  middle : QueueRep p.mem .cont p.qs.cont p.qs.contLast p.qs.nmsigs p.qs.mlenoffs M
  /-- the in-queue -/
  inq : QueueRep p.mem .inqFirst p.inq.first p.inq.last p.inq.nmsigs p.inq.mlenoffs Q

/-- The part of `Rep` about the inner queue, in another memory. -/
theorem Rep.inner_congr {p : Proc} {m' : SigMem} {I M Q : List Sig} (h : Rep p I M Q)
    (hs : SameOn I p.mem m') :
    Seg m'.next p.qs.first I none ∧ ∀ x ∈ I, m'.isMsg x = true :=
  ⟨(Seg.congr fun x hx => (hs x hx).1).mpr h.innerLinks,
    fun x hx => (hs x hx).2.1.trans (h.innerMsgs x hx)⟩

/-! ## Chains of signals to enqueue -/

/-- The `specific.next` fields through a list of non-message signals; the counts of all but
the first are 0. -/
def NmChain (m : SigMem) : List Sig → Prop
  | [] => True
  | [x] => m.specificNext x = none
  | x :: y :: l => m.specificNext x = some (.next x) ∧ m.mlenoffs y = 0 ∧ NmChain m (y :: l)

/-- The three shapes `enqueue_signals` accepts. -/
inductive Shape (m : SigMem) (first : Sig) (c : List Sig) : Option Slot → ℤ → Prop where
  /-- messages only -/
  | msgs : (∀ x ∈ c, m.isMsg x = true) → Shape m first c none c.length
  /-- one non-message signal followed by messages -/
  | one {rest : List Sig} : c = first :: rest → m.isMsg first = false →
      m.specificNext first = none → (∀ x ∈ rest, m.isMsg x = true) →
      Shape m first c none rest.length
  /-- several non-message signals, linked through their `specific.next` -/
  | several {a : List Sig} {x y : Sig} : c = a ++ [x, y] → (∀ z ∈ c, m.isMsg z = false) →
      NmChain m c → Shape m first c (some (.next x)) 0

/-- A chain of signals with the arguments it is enqueued with. -/
structure ValidChain (m : SigMem) (first : Sig) (last : Slot) (lastNext : Option Slot)
    (numMsgs : ℤ) (c : List Sig) : Prop where
  /-- it starts at `first` and ends in NULL -/
  links : Seg m.next (some first) c none
  /-- `last` is its final `next` field -/
  last : ∀ x, c.getLast? = some x → last = .next x
  /-- its shape -/
  shape : Shape m first c lastNext numMsgs

section Chain

variable {m : SigMem} {first : Sig} {last b : Slot} {lastNext : Option Slot} {numMsgs : ℤ}
  {c : List Sig}

theorem ValidChain.eq_cons (h : ValidChain m first last lastNext numMsgs c) :
    ∃ rest, c = first :: rest := by
  have hl := h.links
  cases c with
  | nil => cases hl
  | cons x rest =>
    obtain ⟨hx, -⟩ := hl
    exact ⟨rest, by rw [Option.some.inj hx]⟩

theorem ValidChain.last_eq (h : ValidChain m first last lastNext numMsgs c) :
    last = endSlot b c := by
  obtain ⟨rest, rfl⟩ := h.eq_cons
  rcases endSlot_cases b (first :: rest) with ⟨he, -⟩ | ⟨x, hx, he⟩
  · cases he
  · rw [he, h.last x hx]

theorem nmSlots_of_nmsigs (h : ∀ x ∈ c, m.isMsg x = false) {x : Sig} {l : List Sig}
    (hc : c = x :: l) : nmSlots m.isMsg b c = (b, x) :: nmSlots m.isMsg (.next x) l := by
  subst hc
  rw [nmSlots, if_neg (by rw [h x (List.mem_cons_self ..)]; simp)]

/-- The chain the caller set up is the chain through the non-message signals. -/
theorem NmChain.specSeg (hc : NmChain m c) (h : ∀ x ∈ c, m.isMsg x = false) :
    SpecSeg m.specificNext (nmSlots m.isMsg b c) none := by
  induction c generalizing b with
  | nil => trivial
  | cons x l ih =>
    rw [nmSlots_of_nmsigs h rfl]
    have hl : ∀ y ∈ l, m.isMsg y = false := fun y hy => h y (List.mem_cons_of_mem _ hy)
    cases l with
    | nil => exact ⟨hc, trivial⟩
    | cons y l =>
      refine ⟨?_, ih hc.2.2 hl⟩
      rw [nmSlots_of_nmsigs hl rfl]
      exact hc.1

theorem NmChain.offs_tail {x : Sig} {l : List Sig} (hc : NmChain m (x :: l))
    (h : ∀ y ∈ l, m.isMsg y = false) : Offs m.isMsg m.mlenoffs 0 l 0 := by
  induction l generalizing x with
  | nil => rfl
  | cons y l ih =>
    rw [Offs, if_neg (by rw [h y (List.mem_cons_self ..)]; simp)]
    exact ⟨hc.2.1, ih hc.2.2 fun z hz => h z (List.mem_cons_of_mem _ hz)⟩

/-- What a chain that starts with a non-message signal brings along. -/
theorem ValidChain.nmsig (h : ValidChain m first last lastNext numMsgs c) (hnd : c.Nodup)
    (hf : m.isMsg first = false) (b : Slot) (k : ℤ) :
    (nmSlots m.isMsg b c).head? = some (b, first) ∧
    (∃ z, (nmSlots m.isMsg b c).getLast? = some z ∧ z.1 = lastNext.getD b) ∧
    SpecSeg m.specificNext (nmSlots m.isMsg b c) none ∧
    Offs m.isMsg (Function.update m.mlenoffs first k) k c numMsgs := by
  obtain ⟨rest, hrest⟩ := h.eq_cons
  have hnot : ¬ m.isMsg first = true := by rw [hf]; simp
  have hfirst : first ∉ rest := (List.nodup_cons.mp (hrest ▸ hnd)).1
  have hkeep : ∀ {t : ℤ}, Offs m.isMsg m.mlenoffs 0 rest t →
      Offs m.isMsg (Function.update m.mlenoffs first k) k c t := by
    intro t ht
    rw [hrest, Offs, if_neg hnot]
    refine ⟨Function.update_self .., ht.congr fun x hx => ⟨rfl, ?_⟩⟩
    have hne : x ≠ first := fun he => hfirst (he ▸ hx)
    exact Function.update_of_ne hne ..
  cases h.shape with
  | msgs hm => exact absurd (hm first (by rw [hrest]; exact List.mem_cons_self ..)) hnot
  | @one rest' hc _ hspec hm =>
    obtain rfl : rest = rest' := (List.cons.inj (hrest.symm.trans hc)).2
    have hslots : nmSlots m.isMsg b c = [(b, first)] := by
      rw [hrest, nmSlots, if_neg hnot, nmSlots_of_msgs hm]
    rw [hslots]
    exact ⟨rfl, ⟨(b, first), rfl, rfl⟩, ⟨hspec, trivial⟩,
      hkeep ((offs_of_msgs hm).mpr (zero_add _).symm)⟩
  | @several a x y hc hn hchain =>
    refine ⟨by rw [nmSlots_of_nmsigs hn hrest]; rfl, ⟨(.next x, y), ?_, rfl⟩, hchain.specSeg hn,
      hkeep (NmChain.offs_tail (hrest ▸ hchain) fun z hz => hn z (by
        rw [hrest]
        exact List.mem_cons_of_mem _ hz))⟩
    have hx : m.isMsg x = false := hn x (by rw [hc]; simp)
    have hy : m.isMsg y = false := hn y (by rw [hc]; simp)
    rw [hc, nmSlots_append, List.getLast?_append]
    simp [nmSlots, hx, hy]

/-- A chain that starts with a message has messages only. -/
theorem ValidChain.msgs (h : ValidChain m first last lastNext numMsgs c)
    (hf : m.isMsg first = true) :
    lastNext = none ∧ numMsgs = c.length ∧ ∀ x ∈ c, m.isMsg x = true := by
  obtain ⟨rest, hrest⟩ := h.eq_cons
  cases h.shape with
  | msgs hm => exact ⟨rfl, rfl, hm⟩
  | one _ hn =>
    rw [hf] at hn
    cases hn
  | several _ hn =>
    have := hn first (by rw [hrest]; exact List.mem_cons_self ..)
    rw [hf] at this
    cases this

end Chain

/-! ## Enqueueing -/

section Enqueue

variable {p : Proc} {first : Sig} {last : Slot} {lastNext : Option Slot} {n : ℤ}
  {I M Q c : List Sig}

theorem enqueueSignals_msg (hf : p.mem.isMsg first = true) :
    enqueueSignals p first last none n = (p.store p.inq.last (some first)).updInq fun q =>
      { q with last := last, mlenoffs := q.mlenoffs + n } := by
  simp only [enqueueSignals, hf, Bool.not_true, Bool.false_eq_true, if_false, ite_self]
  rfl

theorem linkMessage_eq {msg : Sig} (hf : p.mem.isMsg msg = true) :
    linkMessage p msg = enqueueSignals p msg (.next msg) none 1 := by
  rw [enqueueSignals_msg hf]
  rfl

theorem enqueueSignals_nmsig (hf : p.mem.isMsg first = false)
    (hnm : p.inq.nmsigs.next = none → p.inq.nmsigs.last = none) :
    enqueueSignals p first last lastNext n =
      ((((p.store p.inq.last (some first)).linkAfter p.inq.nmsigs.last p.inq.last).setMlenoffs first
        p.inq.mlenoffs).updInq fun q =>
          { q with
            last := last
            mlenoffs := n
            nmsigs := ⟨q.nmsigs.next.or (some p.inq.last),
              some (lastNext.getD p.inq.last)⟩ }) := by
  have hq : (p.store p.inq.last (some first)).inq.nmsigs = p.inq.nmsigs ∧
      (p.store p.inq.last (some first)).inq.mlenoffs = p.inq.mlenoffs := by
    cases p.inq.last <;> exact ⟨rfl, rfl⟩
  generalize hthis : p.inq.last = this at hq ⊢
  rw [← hq.1] at hnm ⊢
  rw [← hq.2]
  simp only [enqueueSignals, hf, hthis, Bool.not_false, if_true]
  generalize p.store this (some first) = q at hnm
  obtain ⟨m, qs, ⟨ifirst, ilast, imlen, inext, inmlast⟩⟩ := q
  cases inext with
  | none =>
    obtain rfl : inmlast = none := hnm rfl
    cases lastNext <;> simp [updInq, setMlenoffs, linkAfter]
  | some slot =>
    -- moving `last` does not change what the slots hold
    have hload : inmlast.bind (load ⟨m, qs, ⟨ifirst, last, imlen, ⟨some slot, inmlast⟩⟩⟩) =
        inmlast.bind (load ⟨m, qs, ⟨ifirst, ilast, imlen, ⟨some slot, inmlast⟩⟩⟩) := by
      rcases inmlast with _ | sl
      · rfl
      · cases sl <;> rfl
    simp only [updInq, linkAfter, reduceCtorEq, if_false, hload]
    cases inmlast.bind (load ⟨m, qs, ⟨ifirst, ilast, imlen, ⟨some slot, inmlast⟩⟩⟩) <;>
      cases lastNext <;> simp [setSpecificNext, setMlenoffs]

/-- A queue changed behind the other two. -/
theorem Rep.with_inq (h : Rep p I M Q) {p' : Proc} {Q' : List Sig}
    (hnd : (I ++ M ++ Q').Nodup) (hqs : p'.qs = p.qs) (hs : SameOn (I ++ M) p.mem p'.mem)
    (hinq : QueueRep p'.mem .inqFirst p'.inq.first p'.inq.last p'.inq.nmsigs p'.inq.mlenoffs Q') :
    Rep p' I M Q' := by
  obtain ⟨h₁, h₂⟩ := h.inner_congr fun x hx => hs x (List.mem_append_left _ hx)
  refine ⟨hnd, ?_, ?_, h₂, ?_, ?_, hinq⟩
  · rw [hqs]
    exact h₁
  · rw [hqs]
    exact h.innerLast
  · rw [hqs]
    exact h.mqLen
  · rw [hqs]
    exact h.middle.congr fun x hx => hs x (List.mem_append_right _ hx)

theorem Rep.enqueue_msgs (h : Rep p I M Q) (hc : ValidChain p.mem first last lastNext n c)
    (hnd : (I ++ M ++ (Q ++ c)).Nodup) (hf : p.mem.isMsg first = true) :
    Rep (enqueueSignals p first last lastNext n) I M (Q ++ c) := by
  obtain ⟨rfl, rfl, hmsg⟩ := hc.msgs hf
  have hndQ : (Q ++ c).Nodup := (List.nodup_append.mp hnd).2.1
  rw [enqueueSignals_msg hf, h.inq.last]
  refine h.with_inq hnd store_inq_qs (sameOn_store trivial fun x hx hq => ?_) ?_
  · exact (List.nodup_append.mp hnd).2.2 x hx x (List.mem_append_left _ hq) rfl
  · have hlinks : Seg (p.store (endSlot .inqFirst Q) (some first)).mem.next
        ((p.store (endSlot .inqFirst Q) (some first)).load .inqFirst) (Q ++ c) none :=
      seg_store trivial h.inq.links hndQ hc.links
    have happ := h.inq.append_msgs hlinks (fun x hx => by rw [store_isMsg]; exact hmsg x hx)
      fun x _ => by simp
    have hlast : last = endSlot .inqFirst (Q ++ c) := by
      rw [endSlot_append]
      exact hc.last_eq
    rw [← hlast] at happ
    have hinq := store_inq_inq (p := p) (l := Q) (v := some first)
    simp only [updInq]
    rw [hinq]
    exact happ

/-- The chain through a queue is linked to what comes behind it, and nothing else changes. -/
theorem linkAfter_spec (base : Slot) {l : List Sig} {e : Option Sig}
    (hl : Seg p.mem.next (p.load base) l e) (hnd : l.Nodup)
    (hchain : SpecSeg p.mem.specificNext (nmSlots p.mem.isMsg base l) none) {o : Option Slot}
    (ho : o = (nmSlots p.mem.isMsg base l).getLast?.map Prod.fst) (slot : Slot) :
    ∃ spec, p.linkAfter o slot = { p with mem := { p.mem with specificNext := spec } } ∧
      SpecSeg spec (nmSlots p.mem.isMsg base l) (some slot) ∧
      ∀ x, x ∉ l → spec x = p.mem.specificNext x := by
  rcases hz : (nmSlots p.mem.isMsg base l).getLast? with _ | z
  · rw [hz] at ho
    subst ho
    refine ⟨p.mem.specificNext, rfl, ?_, fun _ _ => rfl⟩
    rw [List.getLast?_eq_none_iff.mp hz]
    trivial
  · rw [hz] at ho
    subst ho
    have hmem := List.mem_of_getLast? hz
    have hload : p.load z.1 = some z.2 := load_nmSlots hl z hmem
    refine ⟨Function.update p.mem.specificNext z.2 (some slot), ?_,
      hchain.link (nodup_nmSlots hnd) hz, fun x hx => ?_⟩
    · simp only [linkAfter, Option.map_some, Option.bind_some, hload]
      rfl
    · have hne : x ≠ z.2 := fun he => hx (he ▸ mem_of_mem_nmSlots hmem)
      exact Function.update_of_ne hne ..

theorem nmsigs_last_of_next {m : SigMem} {base : Slot} {head : Option Sig} {nmsigs : NMSigs}
    {t : ℤ} {l : List Sig} (h : QueueRep m base head last nmsigs t l)
    (hn : nmsigs.next = none) : nmsigs.last = none ∧ nmSlots m.isMsg base l = [] := by
  have hnil : nmSlots m.isMsg base l = [] := by
    rw [h.nmNext] at hn
    exact List.head?_eq_none_iff.mp (Option.map_eq_none_iff.mp hn)
  exact ⟨by rw [h.nmLast, hnil]; rfl, hnil⟩

theorem Rep.enqueue_nmsigs (h : Rep p I M Q) (hc : ValidChain p.mem first last lastNext n c)
    (hnd : (I ++ M ++ (Q ++ c)).Nodup) (hf : p.mem.isMsg first = false) :
    Rep (enqueueSignals p first last lastNext n) I M (Q ++ c) := by
  have hndQ : (Q ++ c).Nodup := (List.nodup_append.mp hnd).2.1
  obtain ⟨hndQ', hndc, hdisj⟩ := List.nodup_append.mp hndQ
  have hout : ∀ x ∈ I ++ M, x ∉ Q ++ c := fun x hx hq =>
    (List.nodup_append.mp hnd).2.2 x hx x hq rfl
  have hfc : first ∈ c := by
    obtain ⟨rest, rfl⟩ := hc.eq_cons
    exact List.mem_cons_self ..
  rw [enqueueSignals_nmsig hf fun hn => (nmsigs_last_of_next h.inq hn).1, h.inq.last]
  set q := p.store (endSlot .inqFirst Q) (some first) with hq
  have hqmsg : q.mem.isMsg = p.mem.isMsg := store_isMsg ..
  have hqspec : q.mem.specificNext = p.mem.specificNext := store_specificNext ..
  have hqmlen : q.mem.mlenoffs = p.mem.mlenoffs := store_mlenoffs ..
  have hlinks : Seg q.mem.next (q.load .inqFirst) (Q ++ c) none :=
    seg_store trivial h.inq.links hndQ hc.links
  obtain ⟨e, hlinkQ, -⟩ := Seg.append_iff.mp hlinks
  obtain ⟨spec, hlink, hspecQ, hspec⟩ := linkAfter_spec (p := q) .inqFirst hlinkQ hndQ'
    (by rw [hqmsg, hqspec]; exact h.inq.chain) (o := p.inq.nmsigs.last)
    (by rw [hqmsg]; exact h.inq.nmLast) (endSlot .inqFirst Q)
  rw [hlink]
  obtain ⟨hy, ⟨z, hz, hz'⟩, hchain, hoffs⟩ :=
    hc.nmsig hndc hf (endSlot .inqFirst Q) p.inq.mlenoffs
  refine h.with_inq hnd store_inq_qs (fun x hx => ?_) ?_
  · have hxQ : x ∉ Q := fun hm => hout x hx (List.mem_append_left _ hm)
    have hxf : x ≠ first := fun he => hout x hx (List.mem_append_right _ (he ▸ hfc))
    refine ⟨store_next_of_ne .inqFirst trivial fun hl => hxQ (List.mem_of_getLast? hl),
      ?_, ?_, ?_⟩
    · exact congrFun hqmsg x
    · exact (hspec x hxQ).trans (congrFun hqspec x)
    · exact (Function.update_of_ne hxf ..).trans (congrFun hqmlen x)
  · have hlast : last = endSlot .inqFirst (Q ++ c) := by
      rw [endSlot_append]
      exact hc.last_eq
    set m' : SigMem := ⟨q.mem.next, q.mem.isMsg, spec,
      Function.update q.mem.mlenoffs first p.inq.mlenoffs⟩ with hm'
    have happ : QueueRep m' .inqFirst (q.load .inqFirst) (endSlot .inqFirst (Q ++ c))
        ⟨p.inq.nmsigs.next.or (some (endSlot .inqFirst Q)), some z.1⟩ n (Q ++ c) := by
      have hlinks' : Seg m'.next (q.load .inqFirst) (Q ++ c) none := hlinks
      refine h.inq.append_nmsigs (y := (endSlot .inqFirst Q, first)) hlinks' ?_ ?_ ?_ ?_
        (fun x hx => ⟨congrFun hqmsg x, ?_⟩) ?_
      · rw [hm', hqmsg]
        exact hy
      · rw [hm', hqmsg]
        exact hz
      · rw [hm', hqmsg]
        refine hchain.congr fun y hy' => ?_
        change spec y.2 = _
        rw [hspec y.2 fun hm => hdisj y.2 hm y.2 (mem_of_mem_nmSlots hy') rfl, hqspec]
      · rw [hm', hqmsg, hqmlen]
        exact hoffs
      · have hne : x ≠ first := fun he => hdisj x hx first hfc he
        exact (Function.update_of_ne hne ..).trans (congrFun hqmlen x)
      · rw [hqmsg] at hspecQ
        exact hspecQ
    rw [← hlast, hz'] at happ
    have hinq := store_inq_inq (p := p) (l := Q) (v := some first)
    rw [← hq] at hinq
    have hnm : q.inq.nmsigs = p.inq.nmsigs := by rw [hinq]
    simp only [updInq, setMlenoffs, hnm]
    exact happ

/-- **Enqueue.** The chain goes to the end of the in-queue. -/
theorem Rep.enqueue (h : Rep p I M Q) (hc : ValidChain p.mem first last lastNext n c)
    (hnd : (I ++ M ++ (Q ++ c)).Nodup) :
    Rep (enqueueSignals p first last lastNext n) I M (Q ++ c) := by
  cases hf : p.mem.isMsg first with
  | true => exact h.enqueue_msgs hc hnd hf
  | false => exact h.enqueue_nmsigs hc hnd hf

end Enqueue

/-! ## Fetching -/

section Fetch

variable {p : Proc} {first x : Sig} {next : Slot} {traced : Bool} {I M Q : List Sig}

/-- The in-queue once it is spliced away. -/
def drained (q : InQueue) : InQueue := { q with first := none, last := .inqFirst, mlenoffs := 0 }

theorem fetch_inner (hf : p.inq.first = some first) (hn : p.inq.nmsigs.next = none)
    (hc : p.qs.cont = none) :
    procSigFetch p false =
      let q := p.store p.qs.last (some first)
      ⟨q.mem, { q.qs with last := q.inq.last, mqLen := q.qs.mqLen + q.inq.mlenoffs },
        drained q.inq⟩ := by
  simp only [procSigFetch, hf, hn, hc, and_self, if_true]
  rfl

theorem fetch_middle_msgs (hf : p.inq.first = some first) (hn : p.inq.nmsigs.next = none)
    (hc : ¬ (p.qs.cont = none ∧ traced = false)) :
    procSigFetch p traced =
      let q := p.store p.qs.contLast (some first)
      ⟨q.mem, { q.qs with contLast := q.inq.last, mlenoffs := q.qs.mlenoffs + q.inq.mlenoffs },
        drained q.inq⟩ := by
  simp only [procSigFetch, hf, hn, if_neg hc]
  rfl

theorem fetch_middle_nmsigs (hf : p.inq.first = some first) (hn : p.inq.nmsigs.next = some next)
    (hx : p.load next = some x) (hnm : p.qs.nmsigs.last = none → p.qs.nmsigs.next = none)
    (hnm' : p.qs.nmsigs.next = none → p.qs.nmsigs.last = none) :
    procSigFetch p traced =
      let q := ((p.setMlenoffs x (p.mem.mlenoffs x + p.qs.mlenoffs)).linkAfter p.qs.nmsigs.last
        (moved p.qs.contLast next)).store p.qs.contLast (some first)
      ⟨q.mem,
        { q.qs with
          contLast := p.inq.last
          mlenoffs := p.inq.mlenoffs
          nmsigs := ⟨p.qs.nmsigs.next.or (some (moved p.qs.contLast next)),
            p.inq.nmsigs.last.map (moved p.qs.contLast)⟩ },
        .empty⟩ := by
  obtain ⟨m, ⟨qf, ql, mq, cont, cl, ⟨nn, nl⟩, ml⟩, ⟨ifst, il, im, ⟨inn, inl⟩⟩⟩ := p
  obtain rfl : ifst = some first := hf
  obtain rfl : inn = some next := hn
  simp only [procSigFetch, hx, updQs, setMlenoffs]
  cases nl with
  | none =>
    obtain rfl : nn = none := hnm rfl
    cases cl <;> rfl
  | some sl =>
    rcases nn with _ | s
    · cases hnm' rfl
    · -- the counts have no part in what the slots hold
      simp only [reduceCtorEq, if_false, linkAfter, Option.bind_some]
      have hload : ∀ (k : ℤ) (mlen : Sig → ℤ),
          load ⟨{ m with mlenoffs := mlen }, ⟨qf, ql, mq, cont, cl, ⟨some s, some sl⟩, k⟩,
            ⟨some first, il, im, ⟨some next, inl⟩⟩⟩ sl =
          load ⟨m, ⟨qf, ql, mq, cont, cl, ⟨some s, some sl⟩, ml⟩,
            ⟨some first, il, im, ⟨some next, inl⟩⟩⟩ sl := by
        intro k mlen
        cases sl <;> rfl
      simp only [hload]
      generalize load _ sl = o
      cases o <;> cases cl <;> rfl

/-- The end of the in-queue is the end of the queue it is spliced to. -/
theorem endSlot_splice {base b : Slot} {l : List Sig} (hQ : Q ≠ []) :
    endSlot b Q = endSlot base (l ++ Q) := by
  rw [endSlot_append]
  exact endSlot_of_ne_nil hQ

theorem queueRep_drained {m m' : SigMem} {q : InQueue} {l : List Sig}
    (h : QueueRep m .inqFirst q.first q.last q.nmsigs q.mlenoffs l) (hn : q.nmsigs.next = none) :
    QueueRep m' .inqFirst (drained q).first (drained q).last (drained q).nmsigs
      (drained q).mlenoffs [] := by
  have hnm : q.nmsigs = ⟨none, none⟩ := by
    have hl := (nmsigs_last_of_next h hn).1
    calc q.nmsigs = ⟨q.nmsigs.next, q.nmsigs.last⟩ := rfl
      _ = ⟨none, none⟩ := by rw [hn, hl]
  simp only [drained, hnm]
  exact queueRep_nil m' .inqFirst

/-- Messages only, an empty middle queue, no tracing: straight to the inner queue. -/
theorem Rep.fetch_inner (h : Rep p I M Q) (hf : p.inq.first = some first)
    (hn : p.inq.nmsigs.next = none) (hc : p.qs.cont = none) :
    Rep (procSigFetch p false) (I ++ Q) [] [] ∧ M = [] := by
  have hM : M = [] := by
    have hlinks := h.middle.links
    rw [hc] at hlinks
    cases M with
    | nil => rfl
    | cons y M => cases hlinks.1
  subst hM
  have hQ : Q ≠ [] := by
    rintro rfl
    have hlinks : p.inq.first = none := h.inq.links
    rw [hf] at hlinks
    cases hlinks
  have hnd : (I ++ Q).Nodup := by simpa using h.nodup
  have hmsgs := msgs_of_nmSlots (nmsigs_last_of_next h.inq hn).2
  have hlen : p.inq.mlenoffs = Q.length := by
    have := (offs_of_msgs hmsgs).mp h.inq.offs
    rwa [zero_add] at this
  rw [SigQueue.fetch_inner hf hn hc, h.innerLast]
  set q := p.store (endSlot .first I) (some first) with hq
  have hqinq : q.inq = p.inq := store_first_inq
  have hqqs : q.qs = { p.qs with first := q.load .first } := store_first_qs
  have hlinks : Seg q.mem.next (q.load .first) (I ++ Q) none :=
    seg_store trivial h.innerLinks hnd (hf ▸ h.inq.links)
  refine ⟨⟨by simpa using hnd, hlinks, ?_, fun x hx => ?_, ?_, ?_, ?_⟩, rfl⟩
  · change q.inq.last = _
    rw [hqinq, h.inq.last]
    exact endSlot_splice hQ
  · rw [hq, store_isMsg]
    rcases List.mem_append.mp hx with hx | hx
    · exact h.innerMsgs x hx
    · exact hmsgs x hx
  · change q.qs.mqLen + q.inq.mlenoffs = _
    rw [hqinq, hqqs, hlen, List.length_append]
    push_cast
    rw [← h.mqLen]
  · have hmid := h.middle.congr (fun x hx => by simp at hx : SameOn [] p.mem q.mem)
    simp only [hqqs]
    exact hmid
  · simp only [hqinq]
    exact queueRep_drained h.inq hn

/-- The facts about the memory after a splice behind the middle queue that do not depend on
what is spliced. -/
theorem Rep.with_middle (h : Rep p I M Q) {p' : Proc} {M' : List Sig}
    (hnd : (I ++ M').Nodup) (hqs : p'.qs.first = p.qs.first ∧ p'.qs.last = p.qs.last ∧
      p'.qs.mqLen = p.qs.mqLen) (hs : SameOn I p.mem p'.mem)
    (hmid : QueueRep p'.mem .cont p'.qs.cont p'.qs.contLast p'.qs.nmsigs p'.qs.mlenoffs M')
    (hinq : QueueRep p'.mem .inqFirst p'.inq.first p'.inq.last p'.inq.nmsigs p'.inq.mlenoffs []) :
    Rep p' I M' [] := by
  obtain ⟨h₁, h₂⟩ := h.inner_congr hs
  obtain ⟨e₁, e₂, e₃⟩ := hqs
  refine ⟨by simpa using hnd, ?_, ?_, h₂, ?_, hmid, hinq⟩
  · rw [e₁]
    exact h₁
  · rw [e₂]
    exact h.innerLast
  · rw [e₃]
    exact h.mqLen

theorem Rep.fetch_middle_msgs (h : Rep p I M Q) (hf : p.inq.first = some first)
    (hn : p.inq.nmsigs.next = none) (hc : ¬ (p.qs.cont = none ∧ traced = false)) :
    Rep (procSigFetch p traced) I (M ++ Q) [] := by
  have hQ : Q ≠ [] := by
    rintro rfl
    have hlinks : p.inq.first = none := h.inq.links
    rw [hf] at hlinks
    cases hlinks
  have hnd : (I ++ (M ++ Q)).Nodup := by simpa using h.nodup
  obtain ⟨-, hndMQ, hout⟩ := List.nodup_append.mp hnd
  have hmsgs := msgs_of_nmSlots (nmsigs_last_of_next h.inq hn).2
  have hlen : p.inq.mlenoffs = Q.length := by
    have := (offs_of_msgs hmsgs).mp h.inq.offs
    rwa [zero_add] at this
  rw [SigQueue.fetch_middle_msgs hf hn hc, h.middle.last]
  set q := p.store (endSlot .cont M) (some first) with hq
  have hqinq : q.inq = p.inq := store_cont_inq
  have hqqs : q.qs = { p.qs with cont := q.load .cont } := store_cont_qs
  have hlinks : Seg q.mem.next (q.load .cont) (M ++ Q) none :=
    seg_store trivial h.middle.links hndMQ (hf ▸ h.inq.links)
  refine h.with_middle hnd ?_ (sameOn_store trivial fun x hx hm => ?_) ?_ ?_
  · change q.qs.first = _ ∧ q.qs.last = _ ∧ q.qs.mqLen = _
    rw [hqqs]
    exact ⟨rfl, rfl, rfl⟩
  · exact hout x hx x (List.mem_append_left _ hm) rfl
  · have happ := h.middle.append_msgs hlinks
      (fun x hx => by rw [hq, store_isMsg]; exact hmsgs x hx) fun x _ => by simp [hq]
    rw [← endSlot_splice (b := .inqFirst) hQ, ← h.inq.last, ← hlen] at happ
    simp only [hqqs, hqinq]
    exact happ
  · simp only [hqinq]
    exact queueRep_drained h.inq hn

theorem Rep.fetch_middle_nmsigs (h : Rep p I M Q) (hf : p.inq.first = some first)
    (hn : p.inq.nmsigs.next = some next) : Rep (procSigFetch p traced) I (M ++ Q) [] := by
  have hQ : Q ≠ [] := by
    rintro rfl
    have hlinks : p.inq.first = none := h.inq.links
    rw [hf] at hlinks
    cases hlinks
  have hnd : (I ++ (M ++ Q)).Nodup := by simpa using h.nodup
  obtain ⟨-, hndMQ, hout⟩ := List.nodup_append.mp hnd
  obtain ⟨hndM, hndQ, hdisj⟩ := List.nodup_append.mp hndMQ
  -- the first and the last non-message signal of the in-queue
  obtain ⟨y, hy, rfl⟩ : ∃ y, (nmSlots p.mem.isMsg .inqFirst Q).head? = some y ∧ y.1 = next := by
    have := h.inq.nmNext
    rw [hn] at this
    exact Option.map_eq_some_iff.mp this.symm
  obtain ⟨z, hz⟩ : ∃ z, (nmSlots p.mem.isMsg .inqFirst Q).getLast? = some z := by
    rcases hl : (nmSlots p.mem.isMsg .inqFirst Q).getLast? with _ | z
    · rw [List.getLast?_eq_none_iff.mp hl] at hy
      cases hy
    · exact ⟨z, rfl⟩
  have hymem : y ∈ nmSlots p.mem.isMsg .inqFirst Q := List.mem_of_head? hy
  have hyQ : y.2 ∈ Q := mem_of_mem_nmSlots hymem
  have hyload : p.load y.1 = some y.2 := load_nmSlots h.inq.links y hymem
  have hlast : p.inq.nmsigs.last = some z.1 := by rw [h.inq.nmLast, hz]; rfl
  have hnext' : p.qs.nmsigs.last = none → p.qs.nmsigs.next = none := by
    intro hl
    rw [h.middle.nmLast] at hl
    rw [h.middle.nmNext, List.getLast?_eq_none_iff.mp (Option.map_eq_none_iff.mp hl)]
    rfl
  rw [SigQueue.fetch_middle_nmsigs hf hn hyload hnext'
    fun hl => (nmsigs_last_of_next h.middle hl).1, h.middle.last, hlast]
  set b := endSlot .cont M with hb
  set p₀ := p.setMlenoffs y.2 (p.mem.mlenoffs y.2 + p.qs.mlenoffs) with hp₀
  obtain ⟨spec, hlink, hspecM, hspec⟩ := linkAfter_spec (p := p₀) .cont (e := none)
    h.middle.links hndM h.middle.chain h.middle.nmLast (moved b y.1)
  rw [hlink]
  set p₁ : Proc := { p₀ with mem := { p₀.mem with specificNext := spec } } with hp₁
  set q := p₁.store b (some first) with hq
  have hqinq : q.inq = p₁.inq := store_cont_inq
  have hqqs : q.qs = { p.qs with cont := q.load .cont } := store_cont_qs
  have hqmsg : q.mem.isMsg = p.mem.isMsg := store_isMsg ..
  have hqspec : q.mem.specificNext = spec := store_specificNext ..
  have hqmlen : q.mem.mlenoffs = Function.update p.mem.mlenoffs y.2
      (p.mem.mlenoffs y.2 + p.qs.mlenoffs) := store_mlenoffs ..
  have hlinks : Seg q.mem.next (q.load .cont) (M ++ Q) none :=
    seg_store (p := p₁) trivial h.middle.links hndMQ (hf ▸ h.inq.links)
  have hmoved : nmSlots p.mem.isMsg b Q =
      (nmSlots p.mem.isMsg .inqFirst Q).map fun y => (moved b y.1, y.2) := nmSlots_moved
  refine h.with_middle hnd ?_ (fun x hx => ?_) ?_ (queueRep_nil _ _)
  · change q.qs.first = _ ∧ q.qs.last = _ ∧ q.qs.mqLen = _
    rw [hqqs]
    exact ⟨rfl, rfl, rfl⟩
  · have hxM : x ∉ M := fun hm => hout x hx x (List.mem_append_left _ hm) rfl
    have hxy : x ≠ y.2 := fun he => hout x hx y.2 (List.mem_append_right _ hyQ) he
    refine ⟨store_next_of_ne .cont trivial fun hl => hxM (List.mem_of_getLast? hl),
      congrFun hqmsg x, ?_, ?_⟩
    · rw [hqspec, hspec x hxM]
      rfl
    · rw [hqmlen]
      exact Function.update_of_ne hxy ..
  · have happ : QueueRep q.mem .cont (q.load .cont) (endSlot .cont (M ++ Q))
        ⟨p.qs.nmsigs.next.or (some (moved b y.1)), some (moved b z.1)⟩ p.inq.mlenoffs
        (M ++ Q) := by
      refine h.middle.append_nmsigs (y := (moved b y.1, y.2)) (z := (moved b z.1, z.2)) hlinks
        ?_ ?_ ?_ ?_ (fun x hx => ⟨congrFun hqmsg x, ?_⟩) ?_
      · rw [hqmsg, ← hb, hmoved, List.head?_map, hy]
        rfl
      · rw [hqmsg, ← hb, hmoved, List.getLast?_map, hz]
        rfl
      · rw [hqmsg, hqspec, specSeg_base _ .inqFirst]
        refine h.inq.chain.congr fun w hw => hspec w.2 fun hm => ?_
        exact hdisj w.2 hm w.2 (mem_of_mem_nmSlots hw) rfl
      · have hshift := h.inq.offs.shift hndQ p.qs.mlenoffs hy
        rw [zero_add] at hshift
        rw [hqmsg, hqmlen]
        exact hshift
      · have hne : x ≠ y.2 := fun he => hdisj x hx y.2 hyQ he
        rw [hqmlen]
        exact Function.update_of_ne hne ..
      · rw [hqspec]
        exact hspecM
    rw [← endSlot_splice (b := .inqFirst) hQ, ← h.inq.last] at happ
    simp only [hqqs]
    exact happ

/-- **Fetch.** The in-queue is moved behind the inner or the middle queue, in order. -/
theorem Rep.fetch (h : Rep p I M Q) (traced : Bool) :
    ∃ I' M' Q', Rep (procSigFetch p traced) I' M' Q' ∧ I' ++ M' ++ Q' = I ++ M ++ Q := by
  cases hf : p.inq.first with
  | none =>
    have heq : procSigFetch p traced = p := by simp only [procSigFetch, hf]
    exact ⟨I, M, Q, by rw [heq]; exact h, rfl⟩
  | some first =>
    cases hn : p.inq.nmsigs.next with
    | some next => exact ⟨I, M ++ Q, [], h.fetch_middle_nmsigs hf hn, by simp⟩
    | none =>
      by_cases hc : p.qs.cont = none ∧ traced = false
      · obtain ⟨hcont, rfl⟩ := hc
        obtain ⟨hrep, rfl⟩ := h.fetch_inner hf hn hcont
        exact ⟨I ++ Q, [], [], hrep, by simp⟩
      · exact ⟨I, M ++ Q, [], h.fetch_middle_msgs hf hn hc, by simp⟩

end Fetch

end PonBeam.SigQueue
