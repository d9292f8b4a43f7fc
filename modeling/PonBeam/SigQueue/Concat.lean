import PonBeam.SigQueue.Runs

/-!
# Concatenation of in-queues (`sig_inq_concat`)

A process may have buffers, each with an `ErtsSignalInQueue` of its own, and a flush appends the
queue of a buffer to the in-queue. The addresses in a queue are seen from that queue: there
`inqFirst` is the address of its own `first`.
-/

namespace PonBeam.SigQueue

open Proc

/-- `sig_inq_concat` of `sig_inq` and the queue of a buffer, which is not empty. -/
def sigInqConcat (p : Proc) (q₂ : InQueue) : Proc :=
  let firstQueueLast := p.inq.last
  let p :=
    match q₂.nmsigs.next with
    | none => p.updInq fun q => { q with mlenoffs := q.mlenoffs + q₂.mlenoffs }
    | some next =>
      -- the `next` of the first queue if the address is that of the head of the second
      let firstNmsig := moved firstQueueLast next
      let nmsig := load { p with inq := q₂ } next
      let p :=
        if p.inq.nmsigs.next = none then
          let p := p.updInq fun q => { q with nmsigs := { q.nmsigs with next := some firstNmsig } }
          p.updInq fun q => { q with nmsigs := { q.nmsigs with
            last := if q₂.nmsigs.next = q₂.nmsigs.last then q.nmsigs.next
              else q₂.nmsigs.last } }
        else
          let p := p.linkAfter p.inq.nmsigs.last firstNmsig
          p.updInq fun q => { q with nmsigs := { q.nmsigs with
            last := if q₂.nmsigs.last = some Slot.inqFirst then some firstNmsig
              else q₂.nmsigs.last } }
      let p :=
        match nmsig with
        | some sig => p.setMlenoffs sig (p.mem.mlenoffs sig + p.inq.mlenoffs)
        | none => p
      p.updInq fun q => { q with mlenoffs := q₂.mlenoffs }
  let p := p.store p.inq.last q₂.first
  p.updInq fun q => { q with last := q₂.last }

section Concat

variable {p : Proc} {q₂ : InQueue} {next : Slot} {x : Sig} {I M Q B : List Sig}

theorem concat_msgs (hn : q₂.nmsigs.next = none) :
    sigInqConcat p q₂ =
      let q := p.store p.inq.last q₂.first
      ⟨q.mem, q.qs, { q.inq with last := q₂.last, mlenoffs := p.inq.mlenoffs + q₂.mlenoffs }⟩ := by
  obtain ⟨m, qs, ⟨ifst, il, im, inm⟩⟩ := p
  simp only [sigInqConcat, hn, updInq]
  cases il <;> rfl

theorem concat_nmsigs (hn : q₂.nmsigs.next = some next)
    (hx : load { p with inq := q₂ } next = some x)
    (hlast : p.inq.nmsigs.next = none → p.inq.nmsigs.last = none)
    (hfirst : q₂.nmsigs.last = some .inqFirst → next = .inqFirst) :
    sigInqConcat p q₂ =
      let q := ((p.linkAfter p.inq.nmsigs.last (moved p.inq.last next)).setMlenoffs x
        (p.mem.mlenoffs x + p.inq.mlenoffs)).store p.inq.last q₂.first
      ⟨q.mem, q.qs, { q.inq with
        last := q₂.last
        mlenoffs := q₂.mlenoffs
        nmsigs := ⟨p.inq.nmsigs.next.or (some (moved p.inq.last next)),
          q₂.nmsigs.last.map (moved p.inq.last)⟩ }⟩ := by
  obtain ⟨m, qs, ⟨ifst, il, im, ⟨nn, nl⟩⟩⟩ := p
  obtain ⟨bfst, bl, bm, ⟨bn, bnl⟩⟩ := q₂
  obtain rfl : bn = some next := hn
  simp only [sigInqConcat, hx, updInq, setMlenoffs]
  cases nn with
  | none =>
    obtain rfl : nl = none := hlast rfl
    have hl : (if some next = bnl then some (moved il next) else bnl) = bnl.map (moved il) := by
      rcases bnl with _ | slot
      · rfl
      · by_cases hs : next = slot
        · rw [hs, if_pos rfl]
          rfl
        · have hhead : slot ≠ .inqFirst := fun he => hs ((hfirst (by rw [he])).trans he.symm)
          rw [if_neg fun he => hs (Option.some.inj he)]
          exact congrArg some (if_neg hhead).symm
    simp only [if_true, hl]
    cases il <;> rfl
  | some slot =>
    have hl : (if bnl = some Slot.inqFirst then some (moved il next) else bnl) =
        bnl.map (moved il) := by
      rcases bnl with _ | slot'
      · rfl
      · by_cases hs : slot' = .inqFirst
        · rw [hs, hfirst (by rw [hs]), if_pos rfl]
          rfl
        · rw [if_neg fun he => hs (Option.some.inj he)]
          exact congrArg some (if_neg hs).symm
    simp only [reduceCtorEq, if_false, hl, linkAfter]
    generalize nl.bind _ = o
    cases o <;> cases il <;> rfl

/-- Behind a signal, the pointers are `next` fields. -/
theorem nmSlots_next {isMsg : Sig → Bool} {l : List Sig} {y : Slot × Sig}
    (hy : y ∈ nmSlots isMsg (.next x) l) : y.1 ≠ .inqFirst := by
  induction l generalizing x with
  | nil => cases hy
  | cons z l ih =>
    rw [nmSlots] at hy
    split at hy
    · exact ih hy
    · rcases List.mem_cons.mp hy with rfl | hy
      · exact fun he => by cases he
      · exact ih hy

/-- Only the first signal is at the head. -/
theorem nmSlots_head {isMsg : Sig → Bool} {l : List Sig} {y : Slot × Sig}
    (hy : y ∈ nmSlots isMsg .inqFirst l) (hhead : y.1 = .inqFirst) :
    (nmSlots isMsg .inqFirst l).head? = some y := by
  cases l with
  | nil => cases hy
  | cons z l =>
    rw [nmSlots] at hy ⊢
    split at hy
    · exact absurd hhead (nmSlots_next hy)
    · rename_i hz
      rw [if_neg hz]
      rcases List.mem_cons.mp hy with rfl | hy
      · rfl
      · exact absurd hhead (nmSlots_next hy)

/-- The queue is not empty. -/
theorem concat_first (hB : QueueRep p.mem .inqFirst q₂.first q₂.last q₂.nmsigs q₂.mlenoffs B)
    (hne : B ≠ []) : ∃ first, q₂.first = some first := by
  cases B with
  | nil => exact absurd rfl hne
  | cons x B => exact ⟨x, hB.links.1⟩

/-- The first non-message signal of a buffer, and that the last is at the head only if it is the
first. -/
theorem QueueRep.front
    (hB : QueueRep p.mem .inqFirst q₂.first q₂.last q₂.nmsigs q₂.mlenoffs B)
    (hn : q₂.nmsigs.next = some next) : ∃ x ∈ B, load { p with inq := q₂ } next = some x ∧
      (q₂.nmsigs.last = some .inqFirst → next = .inqFirst) := by
  obtain ⟨y, hy, rfl⟩ : ∃ y, (nmSlots p.mem.isMsg .inqFirst B).head? = some y ∧ y.1 = next := by
    have := hB.nmNext
    rw [hn] at this
    exact Option.map_eq_some_iff.mp this.symm
  have hymem : y ∈ nmSlots p.mem.isMsg .inqFirst B := List.mem_of_head? hy
  have hlinks : Seg p.mem.next (load { p with inq := q₂ } .inqFirst) B none := hB.links
  have hload : load { p with inq := q₂ } y.1 = some y.2 :=
    load_nmSlots (p := { p with inq := q₂ }) hlinks y hymem
  refine ⟨y.2, mem_of_mem_nmSlots hymem, hload, fun he => ?_⟩
  rw [hB.nmLast] at he
  obtain ⟨z, hz, hhead⟩ := Option.map_eq_some_iff.mp he
  have hzy := nmSlots_head (List.mem_of_getLast? hz) hhead
  rw [← hhead, Option.some.inj (hzy.symm.trans hy)]

theorem Rep.concat_msgs (h : Rep p I M Q)
    (hB : QueueRep p.mem .inqFirst q₂.first q₂.last q₂.nmsigs q₂.mlenoffs B) (hne : B ≠ [])
    (hnd : (I ++ M ++ (Q ++ B)).Nodup) (hn : q₂.nmsigs.next = none) :
    Rep (sigInqConcat p q₂) I M (Q ++ B) := by
  obtain ⟨first, hf⟩ := concat_first hB hne
  have hndQ : (Q ++ B).Nodup := (List.nodup_append.mp hnd).2.1
  have hmsgs := msgs_of_nmSlots (nmsigs_last_of_next hB hn).2
  have hlen : q₂.mlenoffs = B.length := by
    have := (offs_of_msgs hmsgs).mp hB.offs
    rwa [zero_add] at this
  rw [SigQueue.concat_msgs hn, h.inq.last, hf]
  set q := p.store (endSlot .inqFirst Q) (some first) with hq
  have hqinq : q.inq = { p.inq with first := q.load .inqFirst } := store_inq_inq
  have hlinks : Seg q.mem.next (q.load .inqFirst) (Q ++ B) none :=
    seg_store trivial h.inq.links hndQ (hf ▸ hB.links)
  refine h.with_inq hnd store_inq_qs (sameOn_store trivial fun x hx hm => ?_) ?_
  · exact (List.nodup_append.mp hnd).2.2 x hx x (List.mem_append_left _ hm) rfl
  · have happ := h.inq.append_msgs hlinks
      (fun x hx => by rw [hq, store_isMsg]; exact hmsgs x hx) fun x _ => by simp [hq]
    rw [← endSlot_splice (b := .inqFirst) hne, ← hB.last, ← hlen] at happ
    simp only [hqinq]
    exact happ

theorem Rep.concat_nmsigs (h : Rep p I M Q)
    (hB : QueueRep p.mem .inqFirst q₂.first q₂.last q₂.nmsigs q₂.mlenoffs B) (hne : B ≠ [])
    (hnd : (I ++ M ++ (Q ++ B)).Nodup) (hn : q₂.nmsigs.next = some next) :
    Rep (sigInqConcat p q₂) I M (Q ++ B) := by
  obtain ⟨first, hf⟩ := concat_first hB hne
  have hndQB : (Q ++ B).Nodup := (List.nodup_append.mp hnd).2.1
  obtain ⟨hndQ, hndB, hdisj⟩ := List.nodup_append.mp hndQB
  have hout : ∀ x ∈ I ++ M, x ∉ Q ++ B := fun x hx hq =>
    (List.nodup_append.mp hnd).2.2 x hx x hq rfl
  -- the first and the last non-message signal of the buffer
  obtain ⟨y, hy, rfl⟩ : ∃ y, (nmSlots p.mem.isMsg .inqFirst B).head? = some y ∧ y.1 = next := by
    have := hB.nmNext
    rw [hn] at this
    exact Option.map_eq_some_iff.mp this.symm
  obtain ⟨z, hz⟩ : ∃ z, (nmSlots p.mem.isMsg .inqFirst B).getLast? = some z := by
    rcases hl : (nmSlots p.mem.isMsg .inqFirst B).getLast? with _ | z
    · rw [List.getLast?_eq_none_iff.mp hl] at hy
      cases hy
    · exact ⟨z, rfl⟩
  have hymem : y ∈ nmSlots p.mem.isMsg .inqFirst B := List.mem_of_head? hy
  have hyB : y.2 ∈ B := mem_of_mem_nmSlots hymem
  have hlinksB : Seg p.mem.next (load { p with inq := q₂ } .inqFirst) B none := hB.links
  have hyload : load { p with inq := q₂ } y.1 = some y.2 :=
    load_nmSlots (p := { p with inq := q₂ }) hlinksB y hymem
  have hlast : q₂.nmsigs.last = some z.1 := by rw [hB.nmLast, hz]; rfl
  obtain ⟨-, -, -, hfirst⟩ := hB.front hn
  rw [SigQueue.concat_nmsigs hn hyload (fun hl => (nmsigs_last_of_next h.inq hl).1) hfirst,
    h.inq.last, hlast, hf]
  set b := endSlot .inqFirst Q with hb
  obtain ⟨spec, hlink, hspecQ, hspec⟩ := linkAfter_spec (p := p) .inqFirst (e := none)
    h.inq.links hndQ h.inq.chain h.inq.nmLast (moved b y.1)
  rw [hlink]
  set p₁ : Proc := Proc.setMlenoffs { p with mem := { p.mem with specificNext := spec } } y.2
    (p.mem.mlenoffs y.2 + p.inq.mlenoffs) with hp₁
  set q := p₁.store b (some first) with hq
  have hqinq : q.inq = { p.inq with first := q.load .inqFirst } := store_inq_inq (p := p₁)
  have hqqs : q.qs = p.qs := store_inq_qs (p := p₁)
  have hqmsg : q.mem.isMsg = p.mem.isMsg := store_isMsg ..
  have hqspec : q.mem.specificNext = spec := store_specificNext ..
  have hqmlen : q.mem.mlenoffs = Function.update p.mem.mlenoffs y.2
      (p.mem.mlenoffs y.2 + p.inq.mlenoffs) := store_mlenoffs ..
  have hlinks : Seg q.mem.next (q.load .inqFirst) (Q ++ B) none :=
    seg_store (p := p₁) trivial h.inq.links hndQB (hf ▸ hB.links)
  have hmoved : nmSlots p.mem.isMsg b B =
      (nmSlots p.mem.isMsg .inqFirst B).map fun y => (moved b y.1, y.2) := nmSlots_moved
  refine h.with_inq hnd hqqs (fun x hx => ?_) ?_
  · have hxQ : x ∉ Q := fun hm => hout x hx (List.mem_append_left _ hm)
    have hxy : x ≠ y.2 := fun he => hout x hx (List.mem_append_right _ (he ▸ hyB))
    refine ⟨store_next_of_ne .inqFirst trivial fun hl => hxQ (List.mem_of_getLast? hl),
      congrFun hqmsg x, ?_, ?_⟩
    · exact (congrFun hqspec x).trans (hspec x hxQ)
    · exact (congrFun hqmlen x).trans (Function.update_of_ne hxy ..)
  · have happ : QueueRep q.mem .inqFirst (q.load .inqFirst) (endSlot .inqFirst (Q ++ B))
        ⟨p.inq.nmsigs.next.or (some (moved b y.1)), some (moved b z.1)⟩ q₂.mlenoffs
        (Q ++ B) := by
      refine h.inq.append_nmsigs (y := (moved b y.1, y.2)) (z := (moved b z.1, z.2)) hlinks
        ?_ ?_ ?_ ?_ (fun x hx => ⟨congrFun hqmsg x, ?_⟩) ?_
      · rw [hqmsg, ← hb, hmoved, List.head?_map, hy]
        rfl
      · rw [hqmsg, ← hb, hmoved, List.getLast?_map, hz]
        rfl
      · rw [hqmsg, hqspec, specSeg_base _ .inqFirst]
        refine hB.chain.congr fun w hw => hspec w.2 fun hm => ?_
        exact hdisj w.2 hm w.2 (mem_of_mem_nmSlots hw) rfl
      · have hshift := hB.offs.shift hndB p.inq.mlenoffs hy
        rw [zero_add] at hshift
        rw [hqmsg, hqmlen]
        exact hshift
      · have hne : x ≠ y.2 := fun he => hdisj x hx y.2 hyB he
        rw [hqmlen]
        exact Function.update_of_ne hne ..
      · rw [hqspec]
        exact hspecQ
    rw [← endSlot_splice (b := .inqFirst) hne, ← hB.last] at happ
    simp only [hqinq]
    exact happ

/-- **Concatenation.** The signals of the buffer go to the end of the in-queue, and the second
queue keeps none of them. -/
theorem Rep.concat (h : Rep p I M Q)
    (hB : QueueRep p.mem .inqFirst q₂.first q₂.last q₂.nmsigs q₂.mlenoffs B) (hne : B ≠ [])
    (hnd : (I ++ M ++ (Q ++ B)).Nodup) : Rep (sigInqConcat p q₂) I M (Q ++ B) := by
  cases hn : q₂.nmsigs.next with
  | none => exact h.concat_msgs hB hne hnd hn
  | some next => exact h.concat_nmsigs hB hne hnd hn

end Concat

end PonBeam.SigQueue
