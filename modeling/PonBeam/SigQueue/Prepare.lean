import PonBeam.SigQueue.Order

/-!
# Preparing a chain

What a caller writes to the signals of a chain before it enqueues them: the `next` fields, and the
`specific.next` fields of the non-message signals if there are several.
-/

namespace PonBeam.SigQueue

variable {m : SigMem} {isMsg : Sig → Bool} {l c rest : List Sig} {first x z : Sig}

/-- The signal behind another one. -/
def behind : List Sig → Sig → Option Sig
  | x :: y :: l, z => if z = x then some y else behind (y :: l) z
  | _, _ => none

theorem behind_head (x : Sig) (l : List Sig) : behind (x :: l) x = l.head? := by
  cases l with
  | nil => rfl
  | cons y l => exact if_pos rfl

theorem behind_of_ne (h : z ≠ x) : behind (x :: l) z = behind l z := by
  cases l with
  | nil => rfl
  | cons y l => exact if_neg h

/-- Going from each signal to the one behind it visits the chain. -/
theorem seg_behind (hnd : c.Nodup) : Seg (behind c) c.head? c none := by
  induction c with
  | nil => rfl
  | cons x c ih =>
    rw [List.nodup_cons] at hnd
    refine ⟨rfl, ?_⟩
    rw [behind_head]
    refine (Seg.congr fun y hy => behind_of_ne ?_).2 (ih hnd.2)
    rintro rfl
    exact hnd.1 hy

/-- The chain `c` is prepared, where `isMsg` tells its messages. -/
def SigMem.prepare (m : SigMem) (isMsg : Sig → Bool) (c : List Sig) : SigMem where
  next x := if x ∈ c then behind c x else m.next x
  isMsg x := if x ∈ c then isMsg x else m.isMsg x
  specificNext x :=
    if x ∈ c then (behind c x).bind fun y => if isMsg y then none else some (.next x)
    else m.specificNext x
  mlenoffs x := if x ∈ c then 0 else m.mlenoffs x

/-- Other signals stay as they are. -/
theorem sameOn_prepare (h : ∀ x ∈ l, x ∉ c) : SameOn l m (m.prepare isMsg c) := fun x hx =>
  ⟨if_neg (h x hx), if_neg (h x hx), if_neg (h x hx), if_neg (h x hx)⟩

theorem prepare_isMsg (h : x ∈ c) : (m.prepare isMsg c).isMsg x = isMsg x := if_pos h

theorem prepare_specificNext (h : x ∈ c) : (m.prepare isMsg c).specificNext x =
    (behind c x).bind fun y => if isMsg y then none else some (.next x) := if_pos h

theorem mem_of_behind {y : Sig} (h : behind c x = some y) : y ∈ c.tail := by
  induction c with
  | nil => cases h
  | cons z c ih =>
    by_cases hx : x = z
    · rw [hx, behind_head] at h
      exact List.mem_of_head? h
    · rw [behind_of_ne hx] at h
      exact List.mem_of_mem_tail (ih h)

/-- The chain through several non-message signals. -/
theorem nmChain_behind (hnd : c.Nodup)
    (hspec : ∀ x ∈ c, m.specificNext x = (behind c x).map fun _ => .next x)
    (hoffs : ∀ x ∈ c, m.mlenoffs x = 0) : NmChain m c := by
  induction c with
  | nil => trivial
  | cons x c ih =>
    rw [List.nodup_cons] at hnd
    obtain ⟨hx, hspec'⟩ := List.forall_mem_cons.1 hspec
    obtain ⟨-, hoffs'⟩ := List.forall_mem_cons.1 hoffs
    rw [behind_head] at hx
    cases c with
    | nil => exact hx
    | cons y c =>
      refine ⟨hx, hoffs' y List.mem_cons_self, ih hnd.2 (fun z hz => ?_) hoffs'⟩
      rw [hspec' z hz, behind_of_ne]
      rintro rfl
      exact hnd.1 hz

/-- **A chain can be prepared**, if it has one of the three shapes. -/
theorem exists_validChain (m : SigMem) (isMsg : Sig → Bool) (hnd : (first :: rest).Nodup)
    (hshape : (∀ x ∈ first :: rest, isMsg x = true) ∨ (∀ x ∈ first :: rest, isMsg x = false) ∨
      isMsg first = false ∧ ∀ x ∈ rest, isMsg x = true) :
    ∃ last lastNext numMsgs, ValidChain (m.prepare isMsg (first :: rest)) first last lastNext
      numMsgs (first :: rest) := by
  set c := first :: rest with hc
  obtain ⟨z, hz⟩ : ∃ z, c.getLast? = some z :=
    ⟨_, List.getLast?_eq_some_getLast (List.cons_ne_nil first rest)⟩
  have hlinks : Seg (m.prepare isMsg c).next (some first) c none :=
    (Seg.congr fun x hx => if_pos hx).2 (seg_behind hnd)
  have hlast : ∀ x, c.getLast? = some x → Slot.next z = .next x := fun x hx => by
    rw [Option.some.inj (hz.symm.trans hx)]
  have hfirst : first ∈ c := List.mem_cons_self
  have hone : isMsg first = false → (∀ x ∈ rest, isMsg x = true) →
      ValidChain (m.prepare isMsg c) first (.next z) none rest.length c := by
    intro hf hrest
    refine ⟨hlinks, hlast, Shape.one hc ((prepare_isMsg hfirst).trans hf) ?_ fun x hx => ?_⟩
    · rw [prepare_specificNext hfirst, hc, behind_head]
      cases hr : rest with
      | nil => rfl
      | cons y rest' => exact if_pos (hrest y (by rw [hr]; exact List.mem_cons_self))
    · rw [prepare_isMsg (List.mem_cons_of_mem _ hx)]
      exact hrest x hx
  rcases hshape with hmsgs | hnmsgs | ⟨hf, hrest⟩
  · exact ⟨.next z, none, c.length, hlinks, hlast,
      Shape.msgs fun x hx => (prepare_isMsg hx).trans (hmsgs x hx)⟩
  · rcases List.eq_nil_or_concat rest with hr | ⟨l, y, hr⟩
    · -- a single non-message signal is enqueued as one with no messages behind it
      refine ⟨.next z, none, rest.length, hone (hnmsgs first hfirst) fun x hx => ?_⟩
      rw [hr] at hx
      cases hx
    · -- the last but one signal has the address of the last pointer
      obtain ⟨a, x, ha⟩ : ∃ a x, first :: l = a ++ [x] :=
        ⟨_, _, (List.dropLast_append_getLast (List.cons_ne_nil first l)).symm⟩
      have hac : c = a ++ [x, y] := by
        rw [hc, hr, List.concat_eq_append, ← List.cons_append, ha, List.append_assoc]
        rfl
      refine ⟨.next z, some (.next x), 0, hlinks, hlast, Shape.several hac
        (fun z hz => (prepare_isMsg hz).trans (hnmsgs z hz))
        (nmChain_behind hnd (fun x hx => ?_) fun x hx => if_pos hx)⟩
      rw [prepare_specificNext hx]
      cases hb : behind c x with
      | none => rfl
      | some y =>
        have hy : isMsg y = false := hnmsgs y (List.mem_of_mem_tail (mem_of_behind hb))
        rw [Option.bind_some, Option.map_some, hy]
        rfl
  · exact ⟨.next z, none, rest.length, hone hf hrest⟩

end PonBeam.SigQueue
