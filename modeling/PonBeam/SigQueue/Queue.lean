import PonBeam.SigQueue.Model
import Mathlib.Tactic.Ring

/-!
# What the fields of a queue say

For a queue holding the list `l` from the slot `base` on: `endSlot` is the address of
its final `next` field, `nmSlots` lists its non-message signals with the addresses of
the pointers at them, `SpecSeg` is the chain through their `specific.next` fields, and
`Offs` the counting of messages between them. Each of these splits over an append,
which is all that enqueueing and splicing do.
-/

namespace PonBeam.SigQueue

/-- The address of the final `next` field. -/
def endSlot (base : Slot) (l : List Sig) : Slot :=
  match l.getLast? with
  | none => base
  | some x => .next x

theorem endSlot_append {base : Slot} {l c : List Sig} :
    endSlot base (l ++ c) = endSlot (endSlot base l) c := by
  unfold endSlot
  rcases hc : c.getLast? with _ | x
  · rw [List.getLast?_eq_none_iff.mp hc, List.append_nil]
  · rw [List.getLast?_append, hc]
    rfl

theorem endSlot_of_ne_nil {b b' : Slot} {l : List Sig} (h : l ≠ []) :
    endSlot b l = endSlot b' l := by
  unfold endSlot
  rcases hl : l.getLast? with _ | x
  · exact absurd (List.getLast?_eq_none_iff.mp hl) h
  · rfl

/-! ## The non-message signals -/

/-- The non-message signals of a list, each with the slot that points at it. -/
def nmSlots (isMsg : Sig → Bool) : Slot → List Sig → List (Slot × Sig)
  | _, [] => []
  | base, x :: l =>
    if isMsg x then nmSlots isMsg (.next x) l else (base, x) :: nmSlots isMsg (.next x) l

section NmSlots

variable {isMsg isMsg' : Sig → Bool} {base : Slot} {l c : List Sig}

theorem endSlot_cons (base : Slot) (x : Sig) (l : List Sig) :
    endSlot base (x :: l) = endSlot (.next x) l := by
  have h : endSlot base ([x] ++ l) = endSlot (endSlot base [x]) l := endSlot_append
  rwa [List.singleton_append] at h

theorem nmSlots_append :
    nmSlots isMsg base (l ++ c) = nmSlots isMsg base l ++ nmSlots isMsg (endSlot base l) c := by
  induction l generalizing base with
  | nil => rfl
  | cons x l ih =>
    rw [List.cons_append, nmSlots, nmSlots, endSlot_cons, ih]
    split <;> rfl

theorem nmSlots_congr (h : ∀ x ∈ l, isMsg' x = isMsg x) :
    nmSlots isMsg' base l = nmSlots isMsg base l := by
  induction l generalizing base with
  | nil => rfl
  | cons x l ih =>
    rw [nmSlots, nmSlots, h x (List.mem_cons_self ..),
      ih fun y hy => h y (List.mem_cons_of_mem _ hy)]

theorem nmSlots_of_msgs (h : ∀ x ∈ l, isMsg x = true) : nmSlots isMsg base l = [] := by
  induction l generalizing base with
  | nil => rfl
  | cons x l ih =>
    rw [nmSlots, if_pos (h x (List.mem_cons_self ..)),
      ih fun y hy => h y (List.mem_cons_of_mem _ hy)]

theorem msgs_of_nmSlots (h : nmSlots isMsg base l = []) : ∀ x ∈ l, isMsg x = true := by
  induction l generalizing base with
  | nil => simp
  | cons x l ih =>
    rw [nmSlots] at h
    split at h
    · rename_i hx
      intro y hy
      rcases List.mem_cons.mp hy with rfl | hy
      · exact hx
      · exact ih h y hy
    · cases h

/-- They are the non-message signals, in order. -/
theorem nmSlots_snd (base : Slot) :
    (nmSlots isMsg base l).map Prod.snd = l.filter fun x => !isMsg x := by
  induction l generalizing base with
  | nil => rfl
  | cons x l ih =>
    rw [nmSlots]
    cases hx : isMsg x with
    | true => rw [if_pos rfl, ih, List.filter_cons_of_neg (by simp [hx])]
    | false =>
      rw [if_neg (by simp), List.map_cons, ih, List.filter_cons_of_pos (by simp [hx])]

theorem mem_of_mem_nmSlots {y : Slot × Sig} (h : y ∈ nmSlots isMsg base l) : y.2 ∈ l := by
  have hm : y.2 ∈ (nmSlots isMsg base l).map Prod.snd := List.mem_map_of_mem h
  rw [nmSlots_snd] at hm
  exact List.mem_of_mem_filter hm

theorem nodup_nmSlots (h : l.Nodup) : ((nmSlots isMsg base l).map Prod.snd).Nodup := by
  rw [nmSlots_snd]
  exact h.filter _

/-- The slots other than the head of the queue are `next` fields of its signals. -/
theorem nmSlots_moved {b : Slot} :
    nmSlots isMsg b l =
      (nmSlots isMsg .inqFirst l).map fun y => (moved b y.1, y.2) := by
  have hnext : ∀ (x : Sig) (l : List Sig), ∀ y ∈ nmSlots isMsg (.next x) l, moved b y.1 = y.1 := by
    intro x l
    induction l generalizing x with
    | nil => simp [nmSlots]
    | cons z l ih =>
      intro y hy
      rw [nmSlots] at hy
      split at hy
      · exact ih z y hy
      · rcases List.mem_cons.mp hy with rfl | hy
        · rfl
        · exact ih z y hy
  have hid : ∀ x l, (nmSlots isMsg (.next x) l).map (fun y => (moved b y.1, y.2)) =
      nmSlots isMsg (.next x) l := by
    intro x l
    refine (List.map_congr_left (g := id) fun y hy => ?_).trans (List.map_id _)
    exact Prod.ext (hnext x l y hy) rfl
  cases l with
  | nil => rfl
  | cons x l =>
    rw [nmSlots, nmSlots]
    split
    · exact (hid x l).symm
    · rw [List.map_cons, hid]
      rfl

/-- Each slot points at its signal. -/
theorem load_nmSlots {p : Proc} {e : Option Sig} (h : Seg p.mem.next (p.load base) l e) :
    ∀ y ∈ nmSlots isMsg base l, p.load y.1 = some y.2 := by
  induction l generalizing base with
  | nil => simp [nmSlots]
  | cons x l ih =>
    obtain ⟨hx, hl⟩ := h
    intro y hy
    rw [nmSlots] at hy
    split at hy
    · refine ih ?_ y hy
      exact hl
    · rcases List.mem_cons.mp hy with rfl | hy
      · exact hx
      · refine ih ?_ y hy
        exact hl

end NmSlots

/-! ## The chain through them -/

/-- The chain `specific.next` through `ys`, ending in `e`. -/
def SpecSeg (spec : Sig → Option Slot) : List (Slot × Sig) → Option Slot → Prop
  | [], _ => True
  | y :: ys, e => spec y.2 = ((ys.head?.map Prod.fst).or e) ∧ SpecSeg spec ys e

section SpecSeg

variable {spec spec' : Sig → Option Slot} {ys zs : List (Slot × Sig)} {e : Option Slot}

theorem specSeg_append :
    SpecSeg spec (ys ++ zs) e ↔
      SpecSeg spec ys ((zs.head?.map Prod.fst).or e) ∧ SpecSeg spec zs e := by
  induction ys with
  | nil => simp [SpecSeg]
  | cons y ys ih =>
    rw [List.cons_append, SpecSeg, SpecSeg, ih, and_assoc]
    have hhead : (((ys ++ zs).head?.map Prod.fst).or e) =
        ((ys.head?.map Prod.fst).or ((zs.head?.map Prod.fst).or e)) := by
      cases ys <;> simp
    rw [hhead]

theorem SpecSeg.congr (h : SpecSeg spec ys e) (hs : ∀ y ∈ ys, spec' y.2 = spec y.2) :
    SpecSeg spec' ys e := by
  induction ys with
  | nil => trivial
  | cons y ys ih =>
    refine ⟨(hs y (List.mem_cons_self ..)).trans h.1, ih h.2 fun z hz => ?_⟩
    exact hs z (List.mem_cons_of_mem _ hz)

/-- The chain is extended by writing the field of its last signal. -/
theorem SpecSeg.link (h : SpecSeg spec ys none) (hnd : (ys.map Prod.snd).Nodup) {slot : Slot}
    {z : Slot × Sig} (hz : ys.getLast? = some z) :
    SpecSeg (Function.update spec z.2 (some slot)) ys (some slot) := by
  induction ys with
  | nil => cases hz
  | cons y ys ih =>
    rw [List.map_cons, List.nodup_cons] at hnd
    cases ys with
    | nil =>
      obtain rfl : y = z := Option.some.inj hz
      exact ⟨Function.update_self .., trivial⟩
    | cons w ws =>
      have hz' : (w :: ws).getLast? = some z := by
        rw [List.getLast?_cons_cons] at hz
        exact hz
      have hne : y.2 ≠ z.2 := fun he =>
        hnd.1 (he ▸ List.mem_map_of_mem (List.mem_of_getLast? hz'))
      refine ⟨?_, ih h.2 hnd.2 hz'⟩
      rw [Function.update_of_ne hne, h.1]
      rfl

/-- The slot of the first signal is not part of the chain. -/
theorem specSeg_base {isMsg : Sig → Bool} (b b' : Slot) (l : List Sig) :
    SpecSeg spec (nmSlots isMsg b l) e ↔ SpecSeg spec (nmSlots isMsg b' l) e := by
  cases l with
  | nil => exact Iff.rfl
  | cons x l =>
    rw [nmSlots, nmSlots]
    split <;> exact Iff.rfl

end SpecSeg

/-! ## The counts between them -/

/-- With `k` messages before `l`, each non-message signal of `l` counts the messages since
the one before it, and `t` messages come after the last. -/
def Offs (isMsg : Sig → Bool) (mlenoffs : Sig → ℤ) : ℤ → List Sig → ℤ → Prop
  | k, [], t => t = k
  | k, x :: l, t =>
    if isMsg x then Offs isMsg mlenoffs (k + 1) l t
    else mlenoffs x = k ∧ Offs isMsg mlenoffs 0 l t

section Offs

variable {isMsg isMsg' : Sig → Bool} {mlenoffs mlenoffs' : Sig → ℤ} {k t : ℤ} {l c : List Sig}

theorem offs_append :
    Offs isMsg mlenoffs k (l ++ c) t ↔
      ∃ j, Offs isMsg mlenoffs k l j ∧ Offs isMsg mlenoffs j c t := by
  induction l generalizing k with
  | nil => simp [Offs]
  | cons x l ih =>
    simp only [List.cons_append, Offs]
    split
    · exact ih
    · simp only [ih, and_assoc, exists_and_left]

theorem Offs.congr (h : Offs isMsg mlenoffs k l t)
    (hm : ∀ x ∈ l, isMsg' x = isMsg x ∧ mlenoffs' x = mlenoffs x) :
    Offs isMsg' mlenoffs' k l t := by
  induction l generalizing k with
  | nil => exact h
  | cons x l ih =>
    obtain ⟨h₁, h₂⟩ := hm x (List.mem_cons_self ..)
    have hm' := fun y hy => hm y (List.mem_cons_of_mem x hy)
    simp only [Offs] at h ⊢
    rw [h₁]
    split at h
    · rw [if_pos (by assumption)]
      exact ih h hm'
    · rw [if_neg (by assumption), h₂]
      exact ⟨h.1, ih h.2 hm'⟩

theorem offs_of_msgs (h : ∀ x ∈ l, isMsg x = true) :
    Offs isMsg mlenoffs k l t ↔ t = k + l.length := by
  induction l generalizing k with
  | nil => simp [Offs]
  | cons x l ih =>
    rw [Offs, if_pos (h x (List.mem_cons_self ..)), ih fun y hy => h y (List.mem_cons_of_mem _ hy)]
    have : k + 1 + (l.length : ℤ) = k + ((l.length + 1 : ℕ) : ℤ) := by push_cast; ring
    rw [List.length_cons, this]

/-- With `j` more messages in front, the first non-message signal counts `j` more. -/
theorem Offs.shift (h : Offs isMsg mlenoffs k l t) (hnd : l.Nodup) (j : ℤ) {b : Slot}
    {y : Slot × Sig} (hy : (nmSlots isMsg b l).head? = some y) :
    Offs isMsg (Function.update mlenoffs y.2 (mlenoffs y.2 + j)) (k + j) l t := by
  induction l generalizing k b with
  | nil => cases hy
  | cons x l ih =>
    obtain ⟨hxl, hnd⟩ := List.nodup_cons.mp hnd
    simp only [Offs] at h ⊢
    rw [nmSlots] at hy
    split at hy
    · rename_i hx
      rw [if_pos hx] at h ⊢
      have hk : k + j + 1 = k + 1 + j := by ring
      rw [hk]
      exact ih h hnd hy
    · rename_i hx
      obtain rfl := Option.some.inj hy
      rw [if_neg hx] at h ⊢
      refine ⟨by rw [Function.update_self, h.1], h.2.congr fun z hz => ⟨rfl, ?_⟩⟩
      have hne : z ≠ x := fun he => hxl (he ▸ hz)
      exact Function.update_of_ne hne ..

end Offs

/-! ## A queue -/

/-- The fields of a queue that holds `l`. -/
structure QueueRep (m : SigMem) (base : Slot) (head : Option Sig) (last : Slot) (nmsigs : NMSigs)
    (mlenoffs : ℤ) (l : List Sig) : Prop where
  /-- the signals, in order -/
  links : Seg m.next head l none
  /-- the final `next` field -/
  last : last = endSlot base l
  /-- the pointer at the first non-message signal -/
  nmNext : nmsigs.next = (nmSlots m.isMsg base l).head?.map Prod.fst
  /-- the pointer at the last one -/
  nmLast : nmsigs.last = (nmSlots m.isMsg base l).getLast?.map Prod.fst
  /-- the chain between them -/
  chain : SpecSeg m.specificNext (nmSlots m.isMsg base l) none
  /-- the counts -/
  offs : Offs m.isMsg m.mlenoffs 0 l mlenoffs

/-- Two memories agree on the signals of `l`. -/
def SameOn (l : List Sig) (m m' : SigMem) : Prop :=
  ∀ x ∈ l, m'.next x = m.next x ∧ m'.isMsg x = m.isMsg x ∧
    m'.specificNext x = m.specificNext x ∧ m'.mlenoffs x = m.mlenoffs x

theorem QueueRep.congr {m m' : SigMem} {base last : Slot} {head : Option Sig} {nmsigs : NMSigs}
    {mlenoffs : ℤ} {l : List Sig} (h : QueueRep m base head last nmsigs mlenoffs l)
    (hs : SameOn l m m') : QueueRep m' base head last nmsigs mlenoffs l := by
  have hnm : nmSlots m'.isMsg base l = nmSlots m.isMsg base l :=
    nmSlots_congr fun x hx => (hs x hx).2.1
  refine ⟨(Seg.congr fun x hx => (hs x hx).1).mpr h.links, h.last, ?_, ?_, ?_,
    h.offs.congr fun x hx => ⟨(hs x hx).2.1, (hs x hx).2.2.2⟩⟩
  · rw [hnm]
    exact h.nmNext
  · rw [hnm]
    exact h.nmLast
  · rw [hnm]
    exact h.chain.congr fun y hy => (hs y.2 (mem_of_mem_nmSlots hy)).2.2.1

/-- An empty queue. -/
theorem queueRep_nil (m : SigMem) (base : Slot) : QueueRep m base none base ⟨none, none⟩ 0 [] :=
  ⟨rfl, rfl, rfl, rfl, trivial, rfl⟩

/-- **Append, messages only.** -/
theorem QueueRep.append_msgs {m m' : SigMem} {base last : Slot} {head head' : Option Sig}
    {nmsigs : NMSigs} {mlenoffs : ℤ} {l c : List Sig}
    (h : QueueRep m base head last nmsigs mlenoffs l)
    (hlinks : Seg m'.next head' (l ++ c) none) (hmsg : ∀ x ∈ c, m'.isMsg x = true)
    (hsame : ∀ x ∈ l, m'.isMsg x = m.isMsg x ∧ m'.specificNext x = m.specificNext x ∧
      m'.mlenoffs x = m.mlenoffs x) :
    QueueRep m' base head' (endSlot base (l ++ c)) nmsigs (mlenoffs + c.length) (l ++ c) := by
  have hnm : nmSlots m'.isMsg base (l ++ c) = nmSlots m.isMsg base l := by
    rw [nmSlots_append, nmSlots_of_msgs hmsg, List.append_nil]
    exact nmSlots_congr fun x hx => (hsame x hx).1
  refine ⟨hlinks, rfl, ?_, ?_, ?_, offs_append.mpr ⟨mlenoffs, ?_, (offs_of_msgs hmsg).mpr rfl⟩⟩
  · rw [hnm]
    exact h.nmNext
  · rw [hnm]
    exact h.nmLast
  · rw [hnm]
    exact h.chain.congr fun y hy => (hsame y.2 (mem_of_mem_nmSlots hy)).2.1
  · exact h.offs.congr fun x hx => ⟨(hsame x hx).1, (hsame x hx).2.2⟩

/-- **Append, with non-message signals.** What is appended brings its own chain and its
own counts, which start from the trailing messages of the queue. -/
theorem QueueRep.append_nmsigs {m m' : SigMem} {base last : Slot} {head head' : Option Sig}
    {nmsigs : NMSigs} {mlenoffs t : ℤ} {l c : List Sig}
    (h : QueueRep m base head last nmsigs mlenoffs l)
    (hlinks : Seg m'.next head' (l ++ c) none) {y z : Slot × Sig}
    (hy : (nmSlots m'.isMsg (endSlot base l) c).head? = some y)
    (hz : (nmSlots m'.isMsg (endSlot base l) c).getLast? = some z)
    (hchain : SpecSeg m'.specificNext (nmSlots m'.isMsg (endSlot base l) c) none)
    (hoffs : Offs m'.isMsg m'.mlenoffs mlenoffs c t)
    (hsame : ∀ x ∈ l, m'.isMsg x = m.isMsg x ∧ m'.mlenoffs x = m.mlenoffs x)
    (hspec : SpecSeg m'.specificNext (nmSlots m.isMsg base l) (some y.1)) :
    QueueRep m' base head' (endSlot base (l ++ c)) ⟨nmsigs.next.or (some y.1), some z.1⟩ t
      (l ++ c) := by
  have hnm : nmSlots m'.isMsg base (l ++ c) =
      nmSlots m.isMsg base l ++ nmSlots m'.isMsg (endSlot base l) c := by
    rw [nmSlots_append, nmSlots_congr fun x hx => (hsame x hx).1]
  refine ⟨hlinks, rfl, ?_, ?_, ?_, offs_append.mpr ⟨mlenoffs, h.offs.congr hsame, hoffs⟩⟩
  · rw [hnm, List.head?_append, Option.map_or, hy, ← h.nmNext]
    rfl
  · rw [hnm, List.getLast?_append, hz]
    rfl
  · rw [hnm, specSeg_append, hy]
    exact ⟨hspec, hchain⟩

end PonBeam.SigQueue
