import PonBeam.EtsTree.Traversal

/-!
# The start of a bounded traversal

A bounded traversal begins at the nearest node beyond what a pattern of keys admits. The walk
from the root goes to the missing child where this node would be entered, and has noted how
high the stack was at the last node that it left on the other side.
-/

namespace PonBeam.EtsTree

open DbTableTree

variable {Key Obj : Type} {T : Terms Key Obj} {P : Patterns Key} {tb : DbTableTree Obj} {d : Side}
  {t s u : BinaryTree (Cell Obj)} {fs : List (Frame (Cell Obj))} {c : Cell Obj}
  {array : List Addr} {xs ys : List (Cell Obj)} {pb : Key}

/-- The comparison with a pattern is monotone in the key. -/
structure Patterns.Monotone (T : Terms Key Obj) (P : Patterns Key) : Prop where
  neg : ∀ p a b, T.cmp a b ≤ 0 → P.cmpPartlyBound p a < 0 → P.cmpPartlyBound p b < 0
  pos : ∀ p a b, T.cmp a b ≤ 0 → 0 < P.cmpPartlyBound p b → 0 < P.cmpPartlyBound p a

/-- In the direction `d` the object is past what the pattern admits. -/
def past (T : Terms Key Obj) (P : Patterns Key) (d : Side) (pb : Key) (o : Obj) : Bool :=
  d.sgn * P.cmpPartlyBound pb (T.getkey o) < 0

/-- The objects that are past it, in the direction `d`. -/
def pastObjs (T : Terms Key Obj) (P : Patterns Key) (d : Side) (pb : Key)
    (t : BinaryTree (Cell Obj)) : List Obj :=
  (dirObjs d t).filter (past T P d pb)

/-- The nodes that are past it, the nearest first. -/
def pastCells (T : Terms Key Obj) (P : Patterns Key) (d : Side) (pb : Key)
    (t : BinaryTree (Cell Obj)) : List (Cell Obj) :=
  (listing d t).filter fun c => past T P d pb c.item.2

theorem objsOf_pastCells (t : BinaryTree (Cell Obj)) :
    objsOf (pastCells T P d pb t) = pastObjs T P d pb t := by
  rw [pastObjs, dirObjs, objsOf, objsOf, List.filter_map]
  rfl

/-- The nodes that are past it are the last ones. -/
def Sorted (T : Terms Key Obj) (P : Patterns Key) (d : Side) (pb : Key) (l : List Obj) : Prop :=
  l.Pairwise fun a b => past T P d pb a = true → past T P d pb b = true

theorem sorted_dirObjs (hmono : P.Monotone T) (hasc : Ascending T (objects t)) (d : Side)
    (pb : Key) : Sorted T P d pb (dirObjs d t) := by
  cases d with
  | right =>
    rw [dirObjs_right]
    refine hasc.imp fun {a b} hlt hpast => ?_
    rw [past, decide_eq_true_iff] at hpast ⊢
    rw [Side.sgn, one_mul] at hpast ⊢
    exact hmono.neg pb _ _ hlt.le hpast
  | left =>
    rw [dirObjs_left, Sorted, List.pairwise_reverse]
    refine hasc.imp fun {a b} hlt hpast => ?_
    rw [past, decide_eq_true_iff] at hpast ⊢
    rw [Side.sgn] at hpast ⊢
    have hpos := hmono.pos pb _ _ hlt.le (by omega)
    omega

namespace Points

/-- What is on either side of a node. -/
theorem sides (hp : Points d t array xs c ys) (hs : Sorted T P d pb (dirObjs d t)) :
    (past T P d pb c.item.2 = true → ∀ b ∈ ys, past T P d pb b.item.2 = true) ∧
      (past T P d pb c.item.2 = false → ∀ b ∈ xs, past T P d pb b.item.2 = false) := by
  rw [dirObjs, objsOf, Sorted, List.pairwise_map, hp.listing_eq] at hs
  obtain ⟨-, hafter, hcross⟩ := List.pairwise_append.1 hs
  refine ⟨fun hc b hb => (List.pairwise_cons.1 hafter).1 b hb hc, fun hc b hb => ?_⟩
  by_contra hpast
  have hb' := hcross b (List.mem_reverse.2 hb) c List.mem_cons_self
    (Bool.eq_true_of_not_eq_false hpast)
  rw [hc] at hb'
  cases hb'

theorem pastCells_eq (hp : Points d t array xs c ys)
    (hxs : ∀ b ∈ xs, past T P d pb b.item.2 = false)
    (hys : ∀ b ∈ ys, past T P d pb b.item.2 = true) :
    pastCells T P d pb t = if past T P d pb c.item.2 then c :: ys else ys := by
  have hnone : xs.reverse.filter (fun b => past T P d pb b.item.2) = [] :=
    List.filter_eq_nil_iff.2 fun b hb => by
      rw [hxs b (List.mem_reverse.1 hb)]
      exact Bool.false_ne_true
  have hall : ys.filter (fun b => past T P d pb b.item.2) = ys := List.filter_eq_self.2 hys
  rw [pastCells, hp.listing_eq, List.filter_append, hnone, List.nil_append, List.filter_cons, hall]

end Points

/-- The stack up to the node that has been noted leads to the nearest node ahead. -/
structure Candidate (d : Side) (t : BinaryTree (Cell Obj)) (fs : List (Frame (Cell Obj)))
    (candidate : ℕ) : Prop where
  le : candidate ≤ fs.length
  leads : (candidate = 0 ∧ ahead d fs = []) ∨ ∃ b zs xs, ahead d fs = b :: zs ∧
    Points d t ((trail fs).drop (fs.length - candidate)) xs b zs

/-- The walk goes on below. -/
theorem Candidate.cons_self {candidate : ℕ} (h : Candidate d t fs candidate) :
    Candidate d t (⟨d, c, u⟩ :: fs) candidate := by
  refine ⟨h.le.trans (Nat.le_succ _), ?_⟩
  have hlen : (⟨d, c, u⟩ :: fs : List (Frame (Cell Obj))).length - candidate =
      fs.length - candidate + 1 := by
    have := h.le
    rw [List.length_cons]
    omega
  rw [ahead_cons_self, hlen, trail_cons, List.drop_succ_cons]
  exact h.leads

/-- The walk goes on at the other side, and the node is noted. -/
theorem Candidate.cons_other (hp : Points d t (c.item.1 :: trail fs) xs c ys)
    (hys : ys = listing d s ++ ahead d fs) :
    Candidate d t (⟨d.other, c, s⟩ :: fs) (fs.length + 1) := by
  refine ⟨le_rfl, Or.inr ⟨c, ys, xs, ?_, ?_⟩⟩
  · rw [ahead_cons_other, hys]
  · rw [List.length_cons, Nat.sub_self, List.drop_zero, trail_cons]
    exact hp

/-- **Down to the nearest node past the pattern.** -/
theorem findFromPbLoop_spec {room candidate : ℕ} (h : Linked tb fs (d.join c s u))
    (ht : plug fs (d.join c s u) = t) (hsorted : Sorted T P d pb (dirObjs d t))
    (hafter : ∀ b ∈ ahead d fs, past T P d pb b.item.2 = true)
    (hbefore : ∀ b ∈ ahead d.other fs, past T P d pb b.item.2 = false)
    (hcand : Candidate d t fs candidate) (hroom : (d.join c s u).height ≤ room) :
    ∃ array, tb.findFromPbLoop T P d pb room c.item.1 (trail fs) candidate =
        some (addr? (pastCells T P d pb t), array) ∧ Cursor t ⟨array, 0⟩ := by
  induction room generalizing fs c s u candidate with
  | zero =>
    rw [Side.height_join] at hroom
    exact absurd hroom (Nat.not_succ_le_zero _)
  | succ room ih =>
    rw [Side.height_join] at hroom
    have hp := Points.of_plug (d := d) fs c s u
    rw [ht] at hp
    obtain ⟨hpast, hnot⟩ := hp.sides hsorted
    have hkey : (0 ≤ d.sgn * P.cmpPartlyBound pb (T.getkey (nodeOf d c (ptr s) (ptr u)).dbterm)) ↔
        past T P d pb c.item.2 = false := by
      rw [nodeOf_dbterm, past, decide_eq_false_iff_not, not_lt]
    rw [DbTableTree.findFromPbLoop, h.heap_eq]
    simp only [Option.bind_eq_bind, Option.bind_some, hkey, nodeOf_child, nodeOf_child_other]
    cases hc : past T P d pb c.item.2 with
    | false =>
      rw [if_pos rfl]
      by_cases hs : s = .nil
      · subst hs
        rw [listing_nil, List.nil_append] at hp hpast
        have hcells := hp.pastCells_eq (hnot hc) hafter
        rw [hc, if_neg Bool.false_ne_true] at hcells
        have hlen : (trail fs).length + 1 - candidate = fs.length - candidate + 1 := by
          have := hcand.le
          rw [length_trail]
          omega
        have hnil : ptr (.nil : BinaryTree (Cell Obj)) = none := rfl
        rw [hnil, hlen, List.drop_succ_cons, hcells]
        rcases hcand.leads with ⟨rfl, hahead⟩ | ⟨b, zs, ws, hahead, hpoints⟩
        · refine ⟨[], ?_, .empty⟩
          rw [hahead, Nat.sub_zero, ← length_trail fs, List.drop_length]
          rfl
        · obtain ⟨below, htop⟩ := hpoints.top
          refine ⟨_, ?_, .of_points hpoints (Or.inl rfl)⟩
          rw [hahead, htop]
          rfl
      · obtain ⟨c', s', u', rfl⟩ := Side.eq_join d hs
        have hbelow : Linked tb (⟨d, c, u⟩ :: fs) (d.join c' s' u') := Linked.attach_iff.2 h
        rw [ptr_join]
        refine ih hbelow ht (fun b hb => hafter b ?_) (fun b hb => ?_) hcand.cons_self (by omega)
        · rwa [ahead_cons_self] at hb
        · have hframe : ahead d.other (⟨d, c, u⟩ :: fs) =
              c :: (listing d.other u ++ ahead d.other fs) := by
            rw [← ahead_cons_other, Side.other_other]
          rw [hframe] at hb
          rcases List.mem_cons.1 hb with rfl | hb
          · exact hc
          · exact hnot hc b hb
    | true =>
      rw [if_neg fun h => Bool.noConfusion h]
      by_cases hu : u = .nil
      · subst hu
        rw [listing_nil, List.nil_append] at hp
        have hcells := hp.pastCells_eq hbefore (hpast hc)
        rw [hc, if_pos rfl] at hcells
        rw [hcells]
        exact ⟨_, rfl, .of_points hp (Or.inl rfl)⟩
      · obtain ⟨c', s', u', rfl⟩ := Side.eq_join d hu
        have hplug : plug (⟨d.other, c, s⟩ :: fs) (d.join c' s' u') =
            plug fs (d.join c s (d.join c' s' u')) := by
          rw [plug_cons, Frame.attach, Side.join_other]
        have hbelow : Linked tb (⟨d.other, c, s⟩ :: fs) (d.join c' s' u') :=
          Linked.plug_iff.2 (hplug ▸ Linked.plug_iff.1 h)
        have hnoted := Candidate.cons_other hp rfl
        rw [← length_trail fs] at hnoted
        rw [ptr_join]
        refine ih hbelow (hplug.trans ht) (fun b hb => ?_) (fun b hb => hbefore b ?_) hnoted (by omega)
        · rw [ahead_cons_other] at hb
          rcases List.mem_cons.1 hb with rfl | hb
          · exact hc
          · exact hpast hc b hb
        · rwa [ahead_cons_self] at hb

/-- **The nearest node past the pattern**, with a cursor at it. -/
theorem findFromPbKey_spec (hmono : P.Monotone T) (h : Inv T tb t) (hroom : t.height ≤ stackNeed)
    (d : Side) (pb : Key) :
    ∃ stack, tb.findFromPbKey T P d pb =
        some (addr? (pastCells T P d pb t), tb.setStaticStack stack) ∧ Cursor t stack := by
  have hroot : tb.root = ptr t := h.linked.path
  rw [findFromPbKey, hroot]
  by_cases ht : t = .nil
  · subst ht
    refine ⟨⟨[], 0⟩, ?_, .empty⟩
    rw [pastCells, listing_nil]
    rfl
  · obtain ⟨c, s, u, rfl⟩ := Side.eq_join d ht
    obtain ⟨array, hrun, hc⟩ := findFromPbLoop_spec h.linked rfl
      (sorted_dirObjs hmono h.ascending d pb)
      (fun b hb => by rw [ahead_nil] at hb; exact absurd hb List.not_mem_nil)
      (fun b hb => by rw [ahead_nil] at hb; exact absurd hb List.not_mem_nil)
      (⟨le_rfl, Or.inl ⟨rfl, ahead_nil⟩⟩ : Candidate d _ [] 0) hroom
    rw [trail_nil] at hrun
    rw [ptr_join]
    simp only [hrun, Option.bind_eq_bind, Option.bind_some]
    exact ⟨⟨array, 0⟩, rfl, hc⟩

end PonBeam.EtsTree
