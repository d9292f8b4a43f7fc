import PonBeam.SigQueue.Concat

/-!
# What the operations leave as it is

Each operation writes only to signals that are in the queues it is about, or in the chain that it
enqueues. Buffers make use of this: while one buffer is written the signals of the others, and
those of the in-queue, are not.
-/

namespace PonBeam.SigQueue

open Proc

section Writes

variable {p : Proc} {base : Slot} {o : Option Slot} {m m₁ m₂ : SigMem} {l Q : List Sig}

theorem SameOn.refl (l : List Sig) (m : SigMem) : SameOn l m m := fun _ _ => ⟨rfl, rfl, rfl, rfl⟩

theorem SameOn.trans (h : SameOn l m m₁) (h' : SameOn l m₁ m₂) : SameOn l m m₂ := by
  intro x hx
  obtain ⟨h₁, h₂, h₃, h₄⟩ := h x hx
  obtain ⟨h₁', h₂', h₃', h₄'⟩ := h' x hx
  exact ⟨h₁'.trans h₁, h₂'.trans h₂, h₃'.trans h₃, h₄'.trans h₄⟩

theorem sameOn_setMlenoffs {x : Sig} (hx : x ∉ l) (k : ℤ) :
    SameOn l p.mem (p.setMlenoffs x k).mem := by
  intro y hy
  have hne : y ≠ x := fun he => hx (by rwa [← he])
  exact ⟨rfl, rfl, rfl, Function.update_of_ne hne ..⟩

theorem sameOn_linkAfter (h : ∀ x, o.bind p.load = some x → x ∉ l) (slot : Slot) :
    SameOn l p.mem (p.linkAfter o slot).mem := by
  rw [linkAfter]
  split
  · rename_i x hx
    intro y hy
    have hne : y ≠ x := fun he => h x hx (by rwa [← he])
    exact ⟨rfl, rfl, Function.update_of_ne hne .., rfl⟩
  · exact .refl l p.mem

/-- `nmsigs.last` is in the queue. -/
theorem nmLast_mem {e : Option Sig} (hQ : Seg p.mem.next (p.load base) Q e)
    (ho : o = (nmSlots p.mem.isMsg base Q).getLast?.map Prod.fst) {x : Sig}
    (hx : o.bind p.load = some x) : x ∈ Q := by
  rcases hz : (nmSlots p.mem.isMsg base Q).getLast? with _ | z
  · rw [ho, hz] at hx
    cases hx
  · have hmem := List.mem_of_getLast? hz
    rw [ho, hz] at hx
    obtain rfl := Option.some.inj ((load_nmSlots hQ z hmem).symm.trans hx)
    exact mem_of_mem_nmSlots hmem

end Writes

section Operations

variable {p : Proc} {q₂ : InQueue} {first : Sig} {last : Slot} {lastNext : Option Slot} {n : ℤ}
  {I M Q B c l : List Sig}

/-- **Enqueueing** writes to the queue and to the chain. -/
theorem sameOn_enqueue
    (hQ : QueueRep p.mem .inqFirst p.inq.first p.inq.last p.inq.nmsigs p.inq.mlenoffs Q)
    (hc : ValidChain p.mem first last lastNext n c) (hnd : (Q ++ c).Nodup)
    (hl : ∀ x ∈ l, x ∉ Q ++ c) : SameOn l p.mem (enqueueSignals p first last lastNext n).mem := by
  have hlQ : ∀ x ∈ l, x ∉ Q := fun x hx hq => hl x hx (List.mem_append_left _ hq)
  have hstore : SameOn l p.mem (p.store (endSlot .inqFirst Q) (some first)).mem :=
    sameOn_store trivial hlQ
  cases hf : p.mem.isMsg first with
  | true =>
    obtain ⟨rfl, -, -⟩ := hc.msgs hf
    rw [enqueueSignals_msg hf, hQ.last]
    exact hstore
  | false =>
    have hfirst : first ∉ l := fun hx => hl first hx (by
      obtain ⟨rest, rfl⟩ := hc.eq_cons
      exact List.mem_append_right _ List.mem_cons_self)
    rw [enqueueSignals_nmsig hf fun hn => (nmsigs_last_of_next hQ hn).1, hQ.last]
    set q := p.store (endSlot .inqFirst Q) (some first) with hq
    have hlinks : Seg q.mem.next (q.load .inqFirst) (Q ++ c) none :=
      seg_store trivial hQ.links hnd hc.links
    obtain ⟨e, hlinkQ, -⟩ := Seg.append_iff.mp hlinks
    have hlink : SameOn l q.mem (q.linkAfter p.inq.nmsigs.last (endSlot .inqFirst Q)).mem := by
      refine sameOn_linkAfter (fun x hx hxl => hlQ x hxl (nmLast_mem hlinkQ ?_ hx)) _
      rw [hq, store_isMsg]
      exact hQ.nmLast
    exact (hstore.trans hlink).trans (sameOn_setMlenoffs hfirst _)

/-- **Concatenation** writes to the two queues. -/
theorem sameOn_concat
    (hQ : QueueRep p.mem .inqFirst p.inq.first p.inq.last p.inq.nmsigs p.inq.mlenoffs Q)
    (hB : QueueRep p.mem .inqFirst q₂.first q₂.last q₂.nmsigs q₂.mlenoffs B)
    (hl : ∀ x ∈ l, x ∉ Q ++ B) : SameOn l p.mem (sigInqConcat p q₂).mem := by
  have hlQ : ∀ x ∈ l, x ∉ Q := fun x hx hq => hl x hx (List.mem_append_left _ hq)
  cases hn : q₂.nmsigs.next with
  | none =>
    rw [SigQueue.concat_msgs hn, hQ.last]
    exact sameOn_store trivial hlQ
  | some next =>
    obtain ⟨y, hy, hload, hfirst⟩ := hB.front hn
    rw [SigQueue.concat_nmsigs hn hload (fun hl => (nmsigs_last_of_next hQ hl).1) hfirst, hQ.last]
    have hylB : y ∉ l := fun hx => hl y hx (List.mem_append_right _ hy)
    have hlinks : Seg p.mem.next (p.load .inqFirst) Q none := hQ.links
    have hlink := sameOn_linkAfter (p := p) (l := l)
      (fun x hx hxl => hlQ x hxl (nmLast_mem hlinks hQ.nmLast hx))
      (moved (endSlot .inqFirst Q) next)
    exact (hlink.trans (sameOn_setMlenoffs hylB _)).trans (sameOn_store trivial hlQ)

/-- **A fetch** writes to the three queues. -/
theorem Rep.sameOn_fetch (h : Rep p I M Q) (traced : Bool) (hl : ∀ x ∈ l, x ∉ I ++ M ++ Q) :
    SameOn l p.mem (procSigFetch p traced).mem := by
  have hlI : ∀ x ∈ l, x ∉ I := fun x hx hi =>
    hl x hx (List.mem_append_left _ (List.mem_append_left _ hi))
  have hlM : ∀ x ∈ l, x ∉ M := fun x hx hm =>
    hl x hx (List.mem_append_left _ (List.mem_append_right _ hm))
  cases hf : p.inq.first with
  | none =>
    simp only [procSigFetch, hf]
    exact .refl l p.mem
  | some first =>
    cases hn : p.inq.nmsigs.next with
    | none =>
      by_cases hc : p.qs.cont = none ∧ traced = false
      · obtain ⟨hcont, rfl⟩ := hc
        rw [SigQueue.fetch_inner hf hn hcont, h.innerLast]
        exact sameOn_store trivial hlI
      · rw [SigQueue.fetch_middle_msgs hf hn hc, h.middle.last]
        exact sameOn_store trivial hlM
    | some next =>
      obtain ⟨y, hy, hload, -⟩ := h.inq.front hn
      have hnext : p.qs.nmsigs.last = none → p.qs.nmsigs.next = none := by
        intro hl
        rw [h.middle.nmLast] at hl
        rw [h.middle.nmNext, List.getLast?_eq_none_iff.mp (Option.map_eq_none_iff.mp hl)]
        rfl
      rw [SigQueue.fetch_middle_nmsigs hf hn hload hnext
        fun hl => (nmsigs_last_of_next h.middle hl).1, h.middle.last]
      have hyl : y ∉ l := fun hx => hl y hx (List.mem_append_right _ hy)
      set q := p.setMlenoffs y (p.mem.mlenoffs y + p.qs.mlenoffs) with hq
      have hlinks : Seg q.mem.next (q.load .cont) M none := h.middle.links
      have hlink : SameOn l q.mem (q.linkAfter p.qs.nmsigs.last
          (moved (endSlot .cont M) next)).mem :=
        sameOn_linkAfter (fun x hx hxl => hlM x hxl (nmLast_mem hlinks h.middle.nmLast hx)) _
      exact ((sameOn_setMlenoffs hyl _).trans hlink).trans (sameOn_store trivial hlM)

/-- A fetch leaves nothing in the in-queue. -/
theorem procSigFetch_first (p : Proc) (traced : Bool) :
    (procSigFetch p traced).inq.first = none := by
  rw [procSigFetch]
  split
  · assumption
  · rfl

/-- The queues in another memory. -/
theorem Rep.congr (h : Rep p I M Q) {m : SigMem} (hs : SameOn (I ++ M ++ Q) p.mem m) :
    Rep { p with mem := m } I M Q :=
  h.with_inq h.nodup rfl (fun x hx => hs x (List.mem_append_left _ hx))
    (h.inq.congr fun x hx => hs x (List.mem_append_right _ hx))

end Operations

/-! ## The kinds of signals -/

section IsMsg

variable (p : Proc)

@[simp] theorem linkAfter_isMsg (o : Option Slot) (slot : Slot) :
    (p.linkAfter o slot).mem.isMsg = p.mem.isMsg := by
  rw [linkAfter]
  split <;> rfl

@[simp] theorem setMlenoffs_isMsg (x : Sig) (k : ℤ) :
    (p.setMlenoffs x k).mem.isMsg = p.mem.isMsg := rfl

@[simp] theorem updInq_mem (f : InQueue → InQueue) : (p.updInq f).mem = p.mem := rfl

@[simp] theorem updQs_mem (f : PrivQueues → PrivQueues) : (p.updQs f).mem = p.mem := rfl

theorem enqueueSignals_isMsg (first : Sig) (last : Slot) (lastNext : Option Slot) (n : ℤ) :
    (enqueueSignals p first last lastNext n).mem.isMsg = p.mem.isMsg := by
  simp only [enqueueSignals]
  repeat' split
  all_goals simp

theorem sigInqConcat_isMsg (q₂ : InQueue) : (sigInqConcat p q₂).mem.isMsg = p.mem.isMsg := by
  simp only [sigInqConcat]
  repeat' split
  all_goals simp

theorem procSigFetch_isMsg (traced : Bool) :
    (procSigFetch p traced).mem.isMsg = p.mem.isMsg := by
  rw [procSigFetch]
  dsimp only
  repeat' split
  all_goals simp

end IsMsg

/-! ## Tests of a queue -/

/-- The test for an empty queue. -/
theorem QueueLaws.head_eq_none {p : Proc} {base last : Slot} {head : Option Sig} {nmsigs : NMSigs}
    {mlenoffs : ℤ} {l : List Sig} (h : QueueLaws p base head last nmsigs mlenoffs l) :
    head = none ↔ l = [] := by
  rw [h.links.head_eq, List.head?_eq_none_iff]

/-- The test for a non-message signal. -/
theorem QueueLaws.nmsigs_eq_none {p : Proc} {base last : Slot} {head : Option Sig}
    {nmsigs : NMSigs} {mlenoffs : ℤ} {l : List Sig}
    (h : QueueLaws p base head last nmsigs mlenoffs l) :
    nmsigs.next = none ↔ ∀ x ∈ l, p.mem.isMsg x = true := by
  have hvisits := h.visits
  have hall : (l.filter fun x => !p.mem.isMsg x) = [] ↔ ∀ x ∈ l, p.mem.isMsg x = true := by
    simp [List.filter_eq_nil_iff]
  rw [← hall]
  cases hl : l.filter fun x => !p.mem.isMsg x with
  | nil =>
    rw [hl] at hvisits
    exact iff_of_true hvisits rfl
  | cons x l' =>
    rw [hl] at hvisits
    refine iff_of_false (fun hnext => ?_) (List.cons_ne_nil x l')
    have hload := hvisits.1
    rw [hnext] at hload
    cases hload

end PonBeam.SigQueue
