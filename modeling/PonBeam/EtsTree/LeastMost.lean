import PonBeam.EtsTree.KeyRange

/-!
# The least and the most of the keys of the heads

`partly_bound_can_match_lesser(a, b)` is to say whether `a` admits keys before all those of
`b`. Two things mislead it. Numbers of different tags end the comparison, also if they are
equal, as `1` and `1.0` are. And where two tuples are of different sizes, so that the answer
is no, the comparison goes on with what follows the tuples. `sound` says that it comes to
neither.
-/

namespace PonBeam.EtsTree

variable {Prim Obj Res : Type} (K : TermTable Prim Obj)

namespace TermTable

mutual

/-- Nothing misleads the comparison of `a` with `b`. -/
def sound (d : Side) : Term Prim → Term Prim → Bool
  | .tuple xs, .tuple ys => K.isSame (.tuple xs) (.tuple ys) ||
    if xs.length < ys.length then d = .left
    else if xs.length > ys.length then d = .right
    else soundElems d xs ys
  | .cons x xs, .cons y ys => K.isSame (.cons x xs) (.cons y ys) || (sound d x y &&
    (decide (K.doPartlyBoundCanMatch d x y ≠ (false, false)) || K.isSame xs ys || sound d xs ys))
  | a, b => a.isWild K.toPrims || b.isWild K.toPrims ||
    decide (a.tagValDef K.toPrims = b.tagValDef K.toPrims ∨ a.cmp K.toPrims b ≠ 0)

/-- Nothing misleads the comparison of the elements of two tuples. -/
def soundElems (d : Side) : List (Term Prim) → List (Term Prim) → Bool
  | x :: xs, y :: ys => sound d x y &&
      (decide (K.doPartlyBoundCanMatch d x y ≠ (false, false)) || soundElems d xs ys)
  | _, _ => true

end

/-- Tuples of different sizes. -/
def otherSize : Term Prim → Term Prim → Bool
  | .tuple xs, .tuple ys => xs.length ≠ ys.length
  | _, _ => false

/-- Nothing misleads the comparison of two keys, where nothing follows the whole keys. -/
def soundKeys (d : Side) (a b : Term Prim) : Bool := K.sound d a b || otherSize a b

end TermTable

open Term TermTable

variable {K} {d : Side} {a b : Term Prim} {r r' : Bool × Bool}

/-- An answer of `do_partly_bound_can_match_lesser` or `_greater` is right for a key, with
which the two patterns have the results `ra` and `rb`. -/
structure RightAt (d : Side) (ra rb : ℤ × Bool) (r : Bool × Bool) : Prop where
  yes : r.1 = true → Before d ra rb
  no : r.1 = false → r.2 = true → Before d rb ra
  equal : r = (false, false) → SameResult ra rb

/-- The answer is right for all keys. -/
def Right (P : Prims Prim) (d : Side) (a b : Term Prim) (r : Bool × Bool) : Prop :=
  ∀ k, RightAt d (doCmpRange P a k) (doCmpRange P b k) r

theorem orElse_of_open {r : Bool × Bool} (h : r = (false, false)) (r' : Bool × Bool) :
    TermTable.orElse r r' = r' := by
  rw [h, TermTable.orElse, if_neg]
  simp

theorem orElse_of_closed {r : Bool × Bool} (h : r ≠ (false, false)) (r' : Bool × Bool) :
    TermTable.orElse r r' = r := by
  rw [TermTable.orElse, if_pos]
  by_contra hr
  rw [not_or, Bool.not_eq_true, Bool.not_eq_true] at hr
  exact h (Prod.ext hr.1 hr.2)

/-- One part after the other. -/
theorem RightAt.orElse {ra rb sa sb : ℤ × Bool} {s : Bool × Bool} (h : RightAt d ra rb r)
    (h' : r = (false, false) → RightAt d sa sb s) :
    RightAt d (Term.orElse ra sa) (Term.orElse rb sb) (TermTable.orElse r s) := by
  by_cases hr : r = (false, false)
  · have hsame := h.equal hr
    obtain ⟨hyes, hno, hequal⟩ := h' hr
    rw [orElse_of_open hr]
    exact ⟨fun hs => .orElse_of_same hsame (hyes hs),
      fun hs hs' => .orElse_of_same hsame.symm (hno hs hs'), fun hs => hsame.orElse (hequal hs)⟩
  · rw [orElse_of_closed hr]
    exact ⟨fun hyes => (h.yes hyes).orElse sa sb, fun hno hdone => (h.no hno hdone).orElse sb sa,
      fun heq => absurd heq hr⟩

/-- The two patterns are of one type, the key is of another. -/
theorem rightAt_mixed {k : Term Prim} (ha : a.isWild K.toPrims = false)
    (hb : b.isWild K.toPrims = false) (hab : a.rank K.toPrims = b.rank K.toPrims)
    (hak : a.rank K.toPrims ≠ k.rank K.toPrims) (r : Bool × Bool) :
    RightAt d (doCmpRange K.toPrims a k) (doCmpRange K.toPrims b k) r := by
  have ha' := cmp_ranks (P := K.toPrims) a k
  have hb' := cmp_ranks (P := K.toPrims) b k
  rw [doCmpRange_mixed ha hak, doCmpRange_mixed hb (hab ▸ hak)]
  refine ⟨fun _ h => Or.inl ?_, fun _ _ h => Or.inl ?_, fun _ => ⟨rfl, ?_, ?_⟩⟩
  · rcases d.sgn_cases with hd | hd <;> rw [hd] at h ⊢ <;> dsimp only at h ⊢ <;> omega
  · rcases d.sgn_cases with hd | hd <;> rw [hd] at h ⊢ <;> dsimp only at h ⊢ <;> omega
  · dsimp only
    omega
  · dsimp only
    omega

/-- Two patterns of different types, neither of which is a variable. -/
theorem beginsBefore_of_rank (ha : a.isWild K.toPrims = false) (hb : b.isWild K.toPrims = false)
    (hrank : a.rank K.toPrims ≠ b.rank K.toPrims) (h : 0 < d.sgn * a.cmp K.toPrims b) :
    BeginsBefore K.toPrims d a b := by
  intro k hk
  have hab := cmp_ranks (P := K.toPrims) a b
  have hbk := cmp_ranks (P := K.toPrims) b k
  have hak := cmp_ranks (P := K.toPrims) a k
  refine Or.inl ?_
  by_cases hrank' : b.rank K.toPrims = k.rank K.toPrims
  · rw [doCmpRange_mixed ha (hrank' ▸ hrank)]
    rcases d.sgn_cases with hd | hd <;> rw [hd] at h ⊢ <;> dsimp only <;> omega
  · rw [doCmpRange_mixed hb hrank'] at hk
    have hrank'' : a.rank K.toPrims ≠ k.rank K.toPrims := by
      rcases d.sgn_cases with hd | hd <;> rw [hd] at h hk <;> dsimp only at hk <;> omega
    rw [doCmpRange_mixed ha hrank'']
    rcases d.sgn_cases with hd | hd <;> rw [hd] at h hk ⊢ <;> dsimp only at hk ⊢ <;> omega

/-- What the comparison of two patterns of different types returns. -/
theorem right_of_rank (ha : a.isWild K.toPrims = false) (hb : b.isWild K.toPrims = false)
    (hrank : a.rank K.toPrims ≠ b.rank K.toPrims) :
    Right K.toPrims d a b (0 < d.sgn * a.cmp K.toPrims b, true) := by
  intro k
  have hab := cmp_ranks (P := K.toPrims) a b
  have hswap := swaps_cmp (P := K.toPrims) a b
  refine ⟨fun h => ?_, fun h _ => ?_, fun h => by simp at h⟩
  · exact beginsBefore_of_rank ha hb hrank (of_decide_eq_true h) k
  · refine beginsBefore_of_rank hb ha (Ne.symm hrank) ?_ k
    have h' := of_decide_eq_false h
    obtain ⟨hneg, hpos⟩ := hswap
    rcases d.sgn_cases with hd | hd <;> rw [hd] at h' ⊢ <;> omega

/-- Two patterns without a variable. -/
theorem right_of_exact (ha : Exact K.toPrims a) (hb : Exact K.toPrims b) {done : Bool}
    (hdone : done = true ↔ a.cmp K.toPrims b ≠ 0) :
    Right K.toPrims d a b (0 < d.sgn * a.cmp K.toPrims b, done) := by
  intro k
  obtain ⟨hneg, hpos⟩ := swaps_cmp (P := K.toPrims) a b
  rw [ha k, hb k]
  refine ⟨fun h => ?_, fun h hd => ?_, fun h => ?_⟩
  · exact .of_consistent (consistent_cmp a b k) (of_decide_eq_true h)
  · refine .of_consistent (consistent_cmp b a k) ?_
    have h' := of_decide_eq_false h
    have hne := hdone.1 hd
    rcases d.sgn_cases with hd | hd <;> rw [hd] at h' ⊢ <;> omega
  · have hzero : a.cmp K.toPrims b = 0 := by
      by_contra hne
      exact absurd (congrArg Prod.snd h) (by rw [hdone.2 hne]; exact Bool.noConfusion)
    obtain ⟨hnonpos, hnonneg, hneg', hpos'⟩ := consistent_cmp (P := K.toPrims) a b k
    refine ⟨rfl, ?_, ?_⟩ <;> dsimp only <;> omega

/-- The tests before. -/
theorem right_testVariables {rest : Bool × Bool}
    (h : a.isWild K.toPrims = false → b.isWild K.toPrims = false → K.isSame a b = false →
      Right K.toPrims d a b rest) : Right K.toPrims d a b (K.testVariables a b rest) := by
  intro k
  rw [testVariables]
  by_cases ha : a.isWild K.toPrims = true
  · rw [if_pos ha]
    refine ⟨fun _ _ => Or.inr (doCmpRange_wild ha k), fun hno _ _ => Or.inr ?_, fun h => ?_⟩
    · rw [Bool.not_eq_false'] at hno
      exact doCmpRange_wild hno k
    · exact Bool.noConfusion (congrArg Prod.snd h)
  rw [if_neg ha]
  by_cases hb : b.isWild K.toPrims = true
  · rw [if_pos hb]
    exact ⟨fun h => Bool.noConfusion h, fun _ _ _ => Or.inr (doCmpRange_wild hb k),
      fun h => Bool.noConfusion (congrArg Prod.snd h)⟩
  rw [if_neg hb]
  by_cases hsame : K.isSame a b = true
  · rw [if_pos hsame, K.eq_of_isSame a b hsame]
    exact ⟨fun h => Bool.noConfusion h, fun _ h => Bool.noConfusion h,
      fun _ => ⟨rfl, Iff.rfl, Iff.rfl⟩⟩
  · rw [if_neg hsame]
    rw [Bool.not_eq_true] at ha hb hsame
    exact h ha hb hsame k

theorem exact_of_prim {p : Prim} (h : (prim p).isWild K.toPrims = false) :
    Exact K.toPrims (prim p) := by
  intro k
  rw [isWild] at h
  rw [doCmpRange, h]
  rfl

/-- Both are tuples, or both are list cells. -/
def bothCompound : Term Prim → Term Prim → Bool
  | tuple _, tuple _ => true
  | cons _ _, cons _ _ => true
  | _, _ => false

/-- The default case. -/
theorem right_default (hsound : K.sound d a b = true) (h : bothCompound a b = false) :
    Right K.toPrims d a b (K.doPartlyBoundCanMatch d a b) := by
  have htuple : ∀ xs ys, a = .tuple xs → b = .tuple ys → False := by
    rintro xs ys rfl rfl
    cases h
  have hcons : ∀ x xs y ys, a = .cons x xs → b = .cons y ys → False := by
    rintro x xs y ys rfl rfl
    cases h
  rw [sound.eq_3 _ _ _ _ htuple hcons] at hsound
  rw [doPartlyBoundCanMatch.eq_3 _ _ _ _ htuple hcons]
  refine right_testVariables fun ha hb _ => ?_
  rw [ha, hb, Bool.false_or, Bool.false_or, decide_eq_true_iff] at hsound
  by_cases hrank : a.rank K.toPrims = b.rank K.toPrims
  · have hexact : Exact K.toPrims a ∧ Exact K.toPrims b := by
      rcases same_rank hrank with ⟨p, q, rfl, rfl⟩ | ⟨rfl, rfl⟩ | ⟨x, xs, y, ys, rfl, rfl⟩ |
        ⟨xs, ys, rfl, rfl⟩
      · exact ⟨exact_of_prim ha, exact_of_prim hb⟩
      · exact ⟨exact_of_fullyBound rfl, exact_of_fullyBound rfl⟩
      · exact (hcons _ _ _ _ rfl rfl).elim
      · exact (htuple _ _ rfl rfl).elim
    refine right_of_exact hexact.1 hexact.2 ?_
    rw [decide_eq_true_iff]
    exact ⟨fun h => h.elim (fun htag => hsound.resolve_left htag) id, Or.inr⟩
  · have htag : a.tagValDef K.toPrims ≠ b.tagValDef K.toPrims := fun htag =>
      hrank (congrArg TagVal.rank htag)
    dsimp only
    rw [decide_eq_true (Or.inl htag)]
    exact right_of_rank ha hb hrank

/-- The patterns have the same result, which is not zero. -/
theorem rightAt_self {c : ℤ} (hc : c ≠ 0) (r : Bool × Bool) :
    RightAt d (c, false) (c, false) r := by
  have hbefore : Before d (c, false) (c, false) := by
    intro hle
    refine Or.inl ?_
    rcases d.sgn_cases with hd | hd <;> rw [hd] at hle ⊢ <;> dsimp only at hle ⊢ <;> omega
  exact ⟨fun _ => hbefore, fun _ _ => hbefore, fun _ => ⟨rfl, Iff.rfl, Iff.rfl⟩⟩

theorem rightAt_refl (ra : ℤ × Bool) : RightAt d ra ra (false, false) :=
  ⟨fun h => Bool.noConfusion h, fun _ h => Bool.noConfusion h, fun _ => ⟨rfl, Iff.rfl, Iff.rfl⟩⟩

theorem right_elems {xs ys zs : List (Term Prim)}
    (h : ∀ x ∈ xs, ∀ y, K.sound d x y = true →
      Right K.toPrims d x y (K.doPartlyBoundCanMatch d x y))
    (hsound : K.soundElems d xs ys = true) (hys : xs.length = ys.length)
    (hzs : xs.length = zs.length) :
    RightAt d (doCmpRangeElems K.toPrims xs zs) (doCmpRangeElems K.toPrims ys zs)
      (K.doPartlyBoundCanMatchElems d xs ys) := by
  induction xs generalizing ys zs with
  | nil =>
    obtain rfl := List.length_eq_zero_iff.1 hys.symm
    exact rightAt_refl _
  | cons x xs ih =>
    obtain ⟨hx, hxs⟩ := List.forall_mem_cons.1 h
    cases ys with
    | nil => cases hys
    | cons y ys =>
      cases zs with
      | nil => cases hzs
      | cons z zs =>
        rw [soundElems, Bool.and_eq_true, Bool.or_eq_true] at hsound
        rw [doCmpRangeElems, doCmpRangeElems, doPartlyBoundCanMatchElems]
        refine (hx y hsound.1 z).orElse fun hopen => ih hxs ?_ (Nat.succ.inj hys) (Nat.succ.inj hzs)
        exact hsound.2.resolve_left fun hne => of_decide_eq_true hne hopen

/-- Tuples of one size. -/
theorem right_tuple {xs ys : List (Term Prim)}
    (h : ∀ x ∈ xs, ∀ y, K.sound d x y = true →
      Right K.toPrims d x y (K.doPartlyBoundCanMatch d x y))
    (hsound : K.soundElems d xs ys = true) (hys : xs.length = ys.length) :
    Right K.toPrims d (tuple xs) (tuple ys) (K.doPartlyBoundCanMatchElems d xs ys) := by
  intro k
  by_cases hrank : (tuple xs).rank K.toPrims = k.rank K.toPrims
  · obtain ⟨zs, rfl⟩ : ∃ zs, k = tuple zs := by simpa using same_rank hrank
    rw [doCmpRange_tuple, doCmpRange_tuple, ← hys]
    by_cases hzs : xs.length = zs.length
    · rw [hzs, cmpArity_self, orElse_of_zero rfl, orElse_of_zero rfl]
      exact right_elems h hsound hys hzs
    · have hne : cmpArity xs.length zs.length ≠ 0 := fun h => hzs (cmpArity_eq_zero.1 h)
      have hne' : (cmpArity xs.length zs.length, false) ≠ ((0, false) : ℤ × Bool) :=
        fun heq => hne (congrArg Prod.fst heq)
      rw [orElse_of_ne hne', orElse_of_ne hne']
      exact rightAt_self hne _
  · exact @rightAt_mixed _ _ K d (tuple xs) (tuple ys) k rfl rfl rfl hrank _

/-- A tuple that is smaller than another, and for the other direction one that is larger. -/
theorem beginsBefore_tuple {xs ys : List (Term Prim)}
    (h : 0 < d.sgn * cmpArity xs.length ys.length) :
    BeginsBefore K.toPrims d (tuple xs) (tuple ys) := by
  intro k
  by_cases hrank : (tuple xs).rank K.toPrims = k.rank K.toPrims
  · obtain ⟨zs, rfl⟩ : ∃ zs, k = tuple zs := by simpa using same_rank hrank
    rw [doCmpRange_tuple, doCmpRange_tuple]
    exact (Before.of_consistent (consistent_cmpArity _ _ _) h).orElse _ _
  · exact (@rightAt_mixed _ _ K d (tuple xs) (tuple ys) k rfl rfl rfl hrank (true, true)).yes rfl

/-- **An answer is right** where nothing misleads the comparison. -/
theorem right (a b : Term Prim) (h : K.sound d a b = true) :
    Right K.toPrims d a b (K.doPartlyBoundCanMatch d a b) := by
  induction a using Term.ind generalizing b with
  | prim p => exact right_default h rfl
  | nil => exact right_default h rfl
  | cons x xs hx hxs =>
    cases b with
    | cons y ys =>
      rw [doPartlyBoundCanMatch]
      refine right_testVariables fun _ _ hsame k => ?_
      rw [sound, hsame, Bool.false_or, Bool.and_eq_true, Bool.or_eq_true, Bool.or_eq_true] at h
      by_cases hrank : (cons x xs).rank K.toPrims = k.rank K.toPrims
      · obtain ⟨z, zs, rfl⟩ : ∃ z zs, k = cons z zs := by simpa using same_rank hrank
        rw [doCmpRange, doCmpRange]
        refine (hx y h.1 z).orElse fun hopen => ?_
        split_ifs with htails
        · rw [K.eq_of_isSame xs ys htails]
          exact rightAt_refl _
        · have hsound := h.2.resolve_left fun hne => hne.elim
            (fun hne => of_decide_eq_true hne hopen) htails
          exact hxs ys hsound zs
      · exact @rightAt_mixed _ _ K d (cons x xs) (cons y ys) k rfl rfl rfl hrank _
    | _ => exact right_default h rfl
  | tuple xs hxs =>
    cases b with
    | tuple ys =>
      rw [doPartlyBoundCanMatch]
      refine right_testVariables fun _ _ hsame => ?_
      rw [sound, hsame, Bool.false_or] at h
      have hranks := cmpArity_ranks xs.length ys.length
      split_ifs at h ⊢ with hlt hgt
      · obtain rfl := of_decide_eq_true h
        refine fun k => ⟨fun _ => beginsBefore_tuple ?_ k, fun h => Bool.noConfusion h,
          fun h => Bool.noConfusion (congrArg Prod.fst h)⟩
        rw [Side.sgn]
        omega
      · obtain rfl := of_decide_eq_true h
        refine fun k => ⟨fun _ => beginsBefore_tuple ?_ k, fun h => Bool.noConfusion h,
          fun h => Bool.noConfusion (congrArg Prod.fst h)⟩
        rw [Side.sgn]
        omega
      · exact right_tuple hxs h (by omega)
    | _ => exact right_default h rfl

/-- The answer for tuples of different sizes. -/
theorem partlyBoundCanMatch_tuple {xs ys : List (Term Prim)} (hne : xs.length ≠ ys.length) :
    K.partlyBoundCanMatch d (tuple xs) (tuple ys) = true ↔
      0 < d.sgn * cmpArity xs.length ys.length := by
  have hsame : ¬ K.isSame (tuple xs) (tuple ys) = true := fun h => by
    have heq := K.eq_of_isSame _ _ h
    cases heq
    exact hne rfl
  have hxs : ¬ (tuple xs).isWild K.toPrims = true := Bool.false_ne_true
  have hys : ¬ (tuple ys).isWild K.toPrims = true := Bool.false_ne_true
  have hranks := cmpArity_ranks xs.length ys.length
  rw [partlyBoundCanMatch, doPartlyBoundCanMatch, testVariables, if_neg hxs, if_neg hys,
    if_neg hsame]
  split_ifs with hlt hgt
  · have hneg := hranks.1 hlt
    cases d with
    | left => exact ⟨fun _ => by rw [Side.sgn]; omega, fun _ => rfl⟩
    | right => exact ⟨fun h => Bool.noConfusion h, fun h => by rw [Side.sgn] at h; omega⟩
  · have hpos := hranks.2 hgt
    cases d with
    | left => exact ⟨fun h => Bool.noConfusion h, fun h => by rw [Side.sgn] at h; omega⟩
    | right => exact ⟨fun _ => by rw [Side.sgn]; omega, fun _ => rfl⟩
  · omega

/-- **The answer for two keys**: one that can match lesser begins no later, and else the other
does. -/
theorem beginsBy_of_soundKeys (h : K.soundKeys d a b = true) :
    (K.partlyBoundCanMatch d a b = true → BeginsBy K.toPrims d a b) ∧
      (K.partlyBoundCanMatch d a b = false → BeginsBy K.toPrims d b a) := by
  rw [soundKeys, Bool.or_eq_true] at h
  rcases h with h | h
  · have hright := right a b h
    refine ⟨fun hyes => BeginsBefore.beginsBy fun k => (hright k).yes hyes, fun hno => ?_⟩
    cases hdone : (K.doPartlyBoundCanMatch d a b).2 with
    | true => exact BeginsBefore.beginsBy fun k => (hright k).no hno hdone
    | false =>
      have hsame : SameRange K.toPrims a b := fun k => (hright k).equal (Prod.ext hno hdone)
      exact (hsame.beginsBy d).2
  · cases a with
    | tuple xs =>
      cases b with
      | tuple ys =>
        have hne : xs.length ≠ ys.length := of_decide_eq_true h
        obtain ⟨hneg, hpos⟩ := swaps_cmpArity xs.length ys.length
        have hzero : cmpArity xs.length ys.length ≠ 0 := fun h => hne (cmpArity_eq_zero.1 h)
        refine ⟨fun hyes => (beginsBefore_tuple ((partlyBoundCanMatch_tuple hne).1 hyes)).beginsBy,
          fun hno => (beginsBefore_tuple ?_).beginsBy⟩
        have hnot : ¬ 0 < d.sgn * cmpArity xs.length ys.length := fun h =>
          Bool.noConfusion (hno.symm.trans ((partlyBoundCanMatch_tuple hne).2 h))
        rcases d.sgn_cases with hd | hd <;> rw [hd] at hnot ⊢ <;> omega
      | _ => cases h
    | _ => cases h

end PonBeam.EtsTree
