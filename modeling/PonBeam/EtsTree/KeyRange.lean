import PonBeam.EtsTree.AnalyzePattern
import PonBeam.EtsTree.PatternStart

/-!
# What a pattern of keys admits

`doCmpRange` says for a key in the table whether it lies before what a pattern admits,
within it or after it. It is monotone in the key: this rests on the patterns without a
variable, for which it is `CMP`. `do_cmp_partly_bound` has the same result, unless it comes to
a variable that is the tail of a list in the pattern and in the key.
-/

namespace PonBeam.EtsTree

variable {Prim Obj : Type} {P : Prims Prim}

namespace Term

mutual

/-- The comparison of a key with what the pattern admits. -/
def doCmpRange (P : Prims Prim) : Term Prim → Term Prim → ℤ × Bool
  | prim p, b => if P.isWild p then (0, true) else (cmp P (prim p) b, false)
  | cons x xs, cons y ys => orElse (doCmpRange P x y) (doCmpRange P xs ys)
  | tuple xs, tuple ys =>
    if xs.length < ys.length then (-1, false)
    else if xs.length > ys.length then (1, false)
    else doCmpRangeElems P xs ys
  | a, b => (cmp P a b, false)

/-- Of the elements of two tuples. -/
def doCmpRangeElems (P : Prims Prim) : List (Term Prim) → List (Term Prim) → ℤ × Bool
  | x :: xs, y :: ys => orElse (doCmpRange P x y) (doCmpRangeElems P xs ys)
  | _, _ => (0, false)

end

/-- A variable admits everything. -/
theorem doCmpRange_wild {p : Term Prim} (h : p.isWild P = true) (k : Term Prim) :
    doCmpRange P p k = (0, true) := by
  cases p with
  | prim p =>
    rw [isWild] at h
    rw [doCmpRange, h]
    rfl
  | _ => cases h

/-- The result without `*done`. -/
def cmpRange (P : Prims Prim) (p k : Term Prim) : ℤ := (doCmpRange P p k).1

theorem orElse_of_zero {r : ℤ × Bool} (h : r = (0, false)) (r' : ℤ × Bool) :
    orElse r r' = r' := by
  rw [h, orElse, if_neg]
  simp

theorem orElse_of_ne {r : ℤ × Bool} (h : r ≠ (0, false)) (r' : ℤ × Bool) : orElse r r' = r := by
  rw [orElse, if_pos]
  by_contra hr
  rw [not_or, not_not, Bool.not_eq_true] at hr
  exact h (Prod.ext hr.1 hr.2)

theorem orElse_eq_zero {r r' : ℤ × Bool} (h : orElse r r' = (0, false)) :
    r = (0, false) ∧ r' = (0, false) := by
  by_cases hr : r = (0, false)
  · rw [orElse_of_zero hr] at h
    exact ⟨hr, h⟩
  · rw [orElse_of_ne hr] at h
    exact absurd h hr

theorem orElse_exact (r r' : ℤ) : orElse (r, false) (r', false) = (thenCmp r r', false) := by
  by_cases h : r = 0
  · rw [h, thenCmp_zero, orElse_of_zero rfl]
  · rw [thenCmp_of_ne h, orElse_of_ne fun heq => h (congrArg Prod.fst heq)]

theorem doCmpRange_tuple (xs ys : List (Term Prim)) :
    doCmpRange P (tuple xs) (tuple ys) =
      orElse (cmpArity xs.length ys.length, false) (doCmpRangeElems P xs ys) := by
  rw [doCmpRange, cmpArity]
  split
  · rfl
  · split
    · rfl
    · rw [orElse_of_zero rfl]

/-- A pattern of another type than the key. -/
theorem doCmpRange_mixed {p k : Term Prim} (hwild : p.isWild P = false)
    (h : p.rank P ≠ k.rank P) : doCmpRange P p k = (cmp P p k, false) := by
  cases p with
  | prim p =>
    rw [isWild] at hwild
    rw [doCmpRange, hwild]
    rfl
  | nil => cases k <;> rfl
  | cons x xs =>
    cases k with
    | cons y ys => exact absurd rfl h
    | _ => rfl
  | tuple xs =>
    cases k with
    | tuple ys => exact absurd rfl h
    | _ => rfl

/-! ## Patterns without a variable -/

/-- The pattern is compared as by `CMP`. -/
def Exact (P : Prims Prim) (p : Term Prim) : Prop :=
  ∀ k, doCmpRange P p k = (cmp P p k, false)

theorem fullyBound_of_mem {xs : List (Term Prim)} (h : dbIsFullyBoundElems P xs = true) :
    ∀ x ∈ xs, dbIsFullyBound P x = true := by
  induction xs with
  | nil => exact fun x hx => absurd hx List.not_mem_nil
  | cons x xs ih =>
    rw [dbIsFullyBoundElems, Bool.and_eq_true] at h
    exact List.forall_mem_cons.2 ⟨h.1, ih h.2⟩

theorem Exact.cons {x xs : Term Prim} (hx : Exact P x) (hxs : Exact P xs) :
    Exact P (cons x xs) := by
  intro k
  cases k with
  | cons y ys => rw [doCmpRange, hx, hxs, orElse_exact, cmp]
  | _ => rfl

theorem exact_elems {xs ys : List (Term Prim)} (h : ∀ x ∈ xs, Exact P x)
    (hlen : xs.length = ys.length) :
    doCmpRangeElems P xs ys = (cmpElems P xs ys, false) := by
  induction xs generalizing ys with
  | nil =>
    obtain rfl := List.length_eq_zero_iff.1 hlen.symm
    rfl
  | cons x xs ih =>
    obtain ⟨hx, hxs⟩ := List.forall_mem_cons.1 h
    cases ys with
    | nil => cases hlen
    | cons y ys =>
      rw [doCmpRangeElems, hx, ih hxs (Nat.succ.inj hlen), orElse_exact, cmpElems]

theorem Exact.tuple {xs : List (Term Prim)} (h : ∀ x ∈ xs, Exact P x) : Exact P (tuple xs) := by
  intro k
  cases k with
  | tuple ys =>
    rw [doCmpRange_tuple, cmp]
    by_cases hlen : xs.length = ys.length
    · rw [exact_elems h hlen, orElse_exact]
    · have hne : cmpArity xs.length ys.length ≠ 0 := fun h => hlen (cmpArity_eq_zero.1 h)
      rw [thenCmp_of_ne hne, orElse_of_ne fun heq => hne (congrArg Prod.fst heq)]
  | _ => rfl

/-- Without a difference the types are the same. -/
theorem rank_eq_of_zero {p k : Term Prim} (h : doCmpRange P p k = (0, false)) :
    p.rank P = k.rank P := by
  by_contra hrank
  have hwild : p.isWild P = false := by
    by_contra hwild
    rw [doCmpRange_wild (Bool.not_eq_false _ ▸ hwild)] at h
    cases h
  rw [doCmpRange_mixed hwild hrank] at h
  have hzero : p.cmp P k = 0 := congrArg Prod.fst h
  have hranks := cmp_ranks (P := P) p k
  omega

theorem zero_elems {xs ys : List (Term Prim)} (hlen : xs.length = ys.length)
    (h : doCmpRangeElems P xs ys = (0, false)) :
    ∀ x ∈ xs, ∃ y, doCmpRange P x y = (0, false) := by
  induction xs generalizing ys with
  | nil => exact fun x hx => absurd hx List.not_mem_nil
  | cons x xs ih =>
    cases ys with
    | nil => cases hlen
    | cons y ys =>
      rw [doCmpRangeElems] at h
      obtain ⟨hx, hxs⟩ := orElse_eq_zero h
      exact List.forall_mem_cons.2 ⟨⟨y, hx⟩, ih (Nat.succ.inj hlen) hxs⟩

/-- **A comparison that ends without a difference and without a variable** has seen the whole
pattern. -/
theorem exact_of_zero {p k : Term Prim} (h : doCmpRange P p k = (0, false)) :
    Exact P p := by
  have hshape := same_rank (rank_eq_of_zero h)
  induction p using Term.ind generalizing k with
  | prim p =>
    rw [doCmpRange] at h
    split at h
    · cases h
    · next hwild =>
      intro k'
      rw [doCmpRange, if_neg hwild]
  | nil =>
    intro k'
    cases k' <;> rfl
  | cons x xs hx hxs =>
    obtain ⟨y, ys, rfl⟩ : ∃ y ys, k = cons y ys := by simpa using hshape
    rw [doCmpRange] at h
    obtain ⟨h₁, h₂⟩ := orElse_eq_zero h
    exact .cons (hx h₁ (same_rank (rank_eq_of_zero h₁))) (hxs h₂ (same_rank (rank_eq_of_zero h₂)))
  | tuple xs hxs =>
    obtain ⟨ys, rfl⟩ : ∃ ys, k = tuple ys := by simpa using hshape
    rw [doCmpRange_tuple] at h
    obtain ⟨hlen, hzero⟩ := orElse_eq_zero h
    have hlen := cmpArity_eq_zero.1 (congrArg Prod.fst hlen)
    refine .tuple fun x hx => ?_
    obtain ⟨y, hy⟩ := zero_elems hlen hzero x hx
    exact hxs x hx hy (same_rank (rank_eq_of_zero hy))

/-- A key that is fully bound has no variable. -/
theorem exact_of_fullyBound {p : Term Prim} (h : dbIsFullyBound P p = true) : Exact P p := by
  induction p using Term.ind with
  | prim p =>
    rw [dbIsFullyBound, Bool.and_eq_true, Bool.not_eq_true'] at h
    intro k
    rw [doCmpRange, h.1]
    rfl
  | nil =>
    intro k
    cases k <;> rfl
  | cons x xs hx hxs =>
    rw [dbIsFullyBound, Bool.and_eq_true] at h
    exact .cons (hx h.1) (hxs h.2)
  | tuple xs hxs =>
    rw [dbIsFullyBound] at h
    exact .tuple fun x hx => hxs x hx (fullyBound_of_mem h x hx)

/-! ## Monotonicity -/

/-- The results for a key and for a key that is not smaller. -/
structure Mono (r r' : ℤ × Bool) : Prop where
  neg : r.1 < 0 → r'.1 < 0
  pos : 0 < r'.1 → 0 < r.1

theorem Mono.of_consistent {ab bc ac : ℤ} (h : Consistent ab bc ac) (hc : bc ≤ 0) :
    Mono (ab, false) (ac, false) := by
  refine ⟨fun hneg => h.neg hneg.le hc (Or.inl hneg), fun hpos => ?_⟩
  by_contra hab
  exact absurd (h.nonpos (not_lt.1 hab) hc) (not_le.2 hpos)

/-- One thing after the other. Where one of the first comparisons sees no difference, both
are those of a total preorder. -/
theorem Mono.orElse {r r' s s' : ℤ × Bool} {c : ℤ} (hmono : Mono r r') (hc : c ≤ 0)
    (h : r = (0, false) ∨ r' = (0, false) →
      ∃ ab ac, r = (ab, false) ∧ r' = (ac, false) ∧ Consistent ab c ac)
    (hrest : c = 0 → Mono s s') : Mono (orElse r s) (orElse r' s') := by
  by_cases hzero : r = (0, false) ∨ r' = (0, false)
  · obtain ⟨ab, ac, rfl, rfl, hcons⟩ := h hzero
    obtain ⟨hnonpos, hnonneg, hneg, hpos⟩ := hcons
    by_cases hab : ab = 0 <;> by_cases hac : ac = 0
    · rw [hab, hac, orElse_of_zero rfl, orElse_of_zero rfl]
      exact hrest (by omega)
    · -- the keys differ where the first comparison has found no difference
      rw [hab, orElse_of_zero rfl, orElse_of_ne fun heq => hac (congrArg Prod.fst heq)]
      have hacneg : ac < 0 := by omega
      exact ⟨fun _ => hacneg, fun h => absurd h hacneg.not_gt⟩
    · rw [hac, orElse_of_zero rfl, orElse_of_ne fun heq => hab (congrArg Prod.fst heq)]
      have habpos : 0 < ab := by omega
      exact ⟨fun h => absurd h habpos.not_gt, fun _ => habpos⟩
    · rw [orElse_of_ne fun heq => hab (congrArg Prod.fst heq),
        orElse_of_ne fun heq => hac (congrArg Prod.fst heq)]
      exact hmono
  · rw [not_or] at hzero
    rw [orElse_of_ne hzero.1, orElse_of_ne hzero.2]
    exact hmono

/-- A pattern that is compared to its end is compared as by `CMP`. -/
theorem consistent_of_zero {x y y' : Term Prim}
    (h : doCmpRange P x y = (0, false) ∨ doCmpRange P x y' = (0, false)) :
    ∃ ab ac, doCmpRange P x y = (ab, false) ∧ doCmpRange P x y' = (ac, false) ∧
      Consistent ab (cmp P y y') ac := by
  have hexact : Exact P x := h.elim exact_of_zero exact_of_zero
  exact ⟨_, _, hexact y, hexact y', consistent_cmp x y y'⟩

theorem mono_elems {xs ys ys' : List (Term Prim)}
    (h : ∀ x ∈ xs, ∀ y y', cmp P y y' ≤ 0 →
      Mono (doCmpRange P x y) (doCmpRange P x y'))
    (hc : cmpElems P ys ys' ≤ 0) (hlen : ys.length = ys'.length) :
    Mono (doCmpRangeElems P xs ys) (doCmpRangeElems P xs ys') := by
  induction xs generalizing ys ys' with
  | nil => exact ⟨id, id⟩
  | cons x xs ih =>
    obtain ⟨hx, hxs⟩ := List.forall_mem_cons.1 h
    cases ys with
    | nil =>
      obtain rfl := List.length_eq_zero_iff.1 hlen.symm
      exact ⟨id, id⟩
    | cons y ys =>
      cases ys' with
      | nil => cases hlen
      | cons y' ys' =>
        rw [cmpElems] at hc
        have hle := thenCmp_nonpos hc
        rw [doCmpRangeElems, doCmpRangeElems]
        refine (hx y y' hle).orElse hle consistent_of_zero fun hzero => ?_
        rw [hzero, thenCmp_zero] at hc
        exact ih hxs hc (Nat.succ.inj hlen)

/-- A key of another type than the pattern. -/
theorem mono_mixed {p k k' : Term Prim} (h : cmp P k k' ≤ 0) (hwild : p.isWild P = false)
    (hrank : ¬(p.rank P = k.rank P ∧ p.rank P = k'.rank P)) :
    Mono (doCmpRange P p k) (doCmpRange P p k') := by
  have hp := cmp_ranks (P := P) p k
  have hp' := cmp_ranks (P := P) p k'
  have hk := cmp_ranks (P := P) k k'
  by_cases hpk : p.rank P = k.rank P
  · rw [doCmpRange_mixed hwild fun hpk' => hrank ⟨hpk, hpk'⟩]
    constructor <;> intro _ <;> dsimp only at * <;> omega
  · rw [doCmpRange_mixed hwild hpk]
    by_cases hpk' : p.rank P = k'.rank P
    · constructor <;> intro _ <;> dsimp only at * <;> omega
    · rw [doCmpRange_mixed hwild hpk']
      exact .of_consistent (consistent_cmp p k k') h

/-- **A pattern is monotone**: for a key that is not smaller, the result is not greater. -/
theorem doCmpRange_mono (p : Term Prim) {k k' : Term Prim} (h : cmp P k k' ≤ 0) :
    Mono (doCmpRange P p k) (doCmpRange P p k') := by
  induction p using Term.ind generalizing k k' with
  | prim p =>
    rw [doCmpRange, doCmpRange]
    by_cases hwild : P.isWild p = true
    · rw [if_pos hwild, if_pos hwild]
      exact ⟨id, id⟩
    · rw [if_neg hwild, if_neg hwild]
      exact .of_consistent (consistent_cmp _ k k') h
  | nil =>
    have hexact : Exact P nil := exact_of_fullyBound rfl
    rw [hexact k, hexact k']
    exact .of_consistent (consistent_cmp _ k k') h
  | cons x xs hx hxs =>
    by_cases hrank : (cons x xs).rank P = k.rank P ∧ (cons x xs).rank P = k'.rank P
    · obtain ⟨y, ys, rfl⟩ : ∃ y ys, k = cons y ys := by simpa using same_rank hrank.1
      obtain ⟨y', ys', rfl⟩ : ∃ y' ys', k' = cons y' ys' := by simpa using same_rank hrank.2
      rw [cmp] at h
      have hle := thenCmp_nonpos h
      rw [doCmpRange, doCmpRange]
      refine (hx hle).orElse hle consistent_of_zero fun hzero => hxs ?_
      rwa [hzero, thenCmp_zero] at h
    · exact mono_mixed h rfl hrank
  | tuple xs hxs =>
    by_cases hrank : (tuple xs).rank P = k.rank P ∧ (tuple xs).rank P = k'.rank P
    · obtain ⟨ys, rfl⟩ : ∃ ys, k = tuple ys := by simpa using same_rank hrank.1
      obtain ⟨ys', rfl⟩ : ∃ ys', k' = tuple ys' := by simpa using same_rank hrank.2
      rw [cmp] at h
      have hle := thenCmp_nonpos h
      have hcons := consistent_cmpArity xs.length ys.length ys'.length
      rw [doCmpRange_tuple, doCmpRange_tuple]
      refine (Mono.of_consistent hcons hle).orElse hle (fun _ => ⟨_, _, rfl, rfl, hcons⟩)
        fun hzero => mono_elems (fun x hx y y' => hxs x hx) ?_ (cmpArity_eq_zero.1 hzero)
      rwa [hzero, thenCmp_zero] at h
    · exact mono_mixed h rfl hrank

/-! ## Where the range of a pattern begins -/

/-- In the direction `d` a pattern with the result `r` begins before one with the result `r'`:
a key that is not before the second is after the begin of the first. -/
def Before (d : Side) (r r' : ℤ × Bool) : Prop :=
  0 ≤ d.sgn * r'.1 → 0 < d.sgn * r.1 ∨ r = (0, true)

/-- In the direction `d` the pattern `a` begins before `b`. -/
def BeginsBefore (P : Prims Prim) (d : Side) (a b : Term Prim) : Prop :=
  ∀ k, Before d (doCmpRange P a k) (doCmpRange P b k)

/-- The results are the same but for the size of a number. -/
def SameResult (r r' : ℤ × Bool) : Prop :=
  r.2 = r'.2 ∧ (r.1 < 0 ↔ r'.1 < 0) ∧ (0 < r.1 ↔ 0 < r'.1)

/-- The patterns are the same for all keys. -/
def SameRange (P : Prims Prim) (a b : Term Prim) : Prop :=
  ∀ k, SameResult (doCmpRange P a k) (doCmpRange P b k)

/-- In the direction `d` the pattern `a` begins no later than `b`. -/
def BeginsBy (P : Prims Prim) (d : Side) (a b : Term Prim) : Prop :=
  ∀ k, 0 ≤ d.sgn * cmpRange P b k → 0 ≤ d.sgn * cmpRange P a k

theorem BeginsBy.refl (P : Prims Prim) (d : Side) (a : Term Prim) : BeginsBy P d a a :=
  fun _ => id

theorem BeginsBy.trans {d : Side} {a b c : Term Prim} (hab : BeginsBy P d a b)
    (hbc : BeginsBy P d b c) : BeginsBy P d a c := fun k hk => hab k (hbc k hk)

theorem BeginsBefore.beginsBy {d : Side} {a b : Term Prim} (h : BeginsBefore P d a b) :
    BeginsBy P d a b := by
  intro k hk
  rcases h k hk with hpos | hzero
  · exact hpos.le
  · rw [cmpRange, hzero, mul_zero]

theorem SameRange.beginsBy {a b : Term Prim} (h : SameRange P a b) (d : Side) :
    BeginsBy P d a b ∧ BeginsBy P d b a := by
  constructor <;> intro k hk <;> obtain ⟨-, hneg, hpos⟩ := h k <;>
    rw [cmpRange] at hk ⊢ <;> rcases d.sgn_cases with hd | hd <;> rw [hd] at hk ⊢ <;> omega

theorem SameResult.zero_iff {r r' : ℤ × Bool} (h : SameResult r r') :
    r = (0, false) ↔ r' = (0, false) := by
  obtain ⟨hdone, hneg, hpos⟩ := h
  rw [Prod.ext_iff, Prod.ext_iff, hdone]
  dsimp only
  constructor <;> rintro ⟨h, h'⟩ <;> exact ⟨by omega, h'⟩

theorem SameResult.symm {r r' : ℤ × Bool} (h : SameResult r r') : SameResult r' r :=
  ⟨h.1.symm, h.2.1.symm, h.2.2.symm⟩

theorem SameResult.orElse {r r' s s' : ℤ × Bool} (h : SameResult r r') (h' : SameResult s s') :
    SameResult (orElse r s) (orElse r' s') := by
  by_cases hr : r = (0, false)
  · rw [orElse_of_zero hr, orElse_of_zero (h.zero_iff.1 hr)]
    exact h'
  · rw [orElse_of_ne hr, orElse_of_ne fun hr' => hr (h.zero_iff.2 hr')]
    exact h

theorem Before.orElse {d : Side} {r r' : ℤ × Bool} (h : Before d r r') (s s' : ℤ × Bool) :
    Before d (orElse r s) (orElse r' s') := by
  intro hle
  have hle' : 0 ≤ d.sgn * r'.1 := by
    by_cases hr' : r' = (0, false)
    · rw [hr', mul_zero]
    · rwa [orElse_of_ne hr'] at hle
  have hr : r ≠ (0, false) := by
    rintro rfl
    simpa using h hle'
  rw [orElse_of_ne hr]
  exact h hle'

/-- After the same results the next part counts. -/
theorem Before.orElse_of_same {d : Side} {r r' s s' : ℤ × Bool} (h : SameResult r r')
    (h' : Before d s s') : Before d (Term.orElse r s) (Term.orElse r' s') := by
  by_cases hr : r = (0, false)
  · rw [orElse_of_zero hr, orElse_of_zero (h.zero_iff.1 hr)]
    exact h'
  · rw [orElse_of_ne hr, orElse_of_ne fun hr' => hr (h.zero_iff.2 hr')]
    intro hle
    obtain ⟨hdone, hneg, hpos⟩ := h
    by_cases hzero : r.1 = 0
    · refine Or.inr (Prod.ext hzero ?_)
      cases hr2 : r.2 with
      | true => rfl
      | false => exact absurd (Prod.ext hzero hr2) hr
    · refine Or.inl ?_
      rcases d.sgn_cases with hd | hd <;> rw [hd] at hle ⊢ <;> omega

/-- Of two lists or tuples the first parts count, and then the next. -/
theorem Before.of_consistent {d : Side} {ab bc ac : ℤ} (h : Consistent ab bc ac)
    (hab : 0 < d.sgn * ab) : Before d (ac, false) (bc, false) := by
  intro hbc
  obtain ⟨hnonpos, hnonneg, hneg, hpos⟩ := h
  refine Or.inl ?_
  rcases d.sgn_cases with hd | hd <;> rw [hd] at hab hbc ⊢ <;> dsimp only at * <;> omega

/-! ## The comparison of the code -/

mutual

/-- `do_cmp_partly_bound` comes to two tails that are the same word, and this is a variable. -/
def meetsVariable (P : Prims Prim) : Term Prim → Term Prim → Bool
  | cons x xs, cons y ys => meetsVariable P x y || (decide (doCmpPartlyBound P x y = (0, false)) &&
      if xs.sameWord P ys then xs.isWild P else meetsVariable P xs ys)
  | tuple xs, tuple ys => decide (xs.length = ys.length) && meetsVariableElems P xs ys
  | _, _ => false

/-- It comes to them in the elements of two tuples. -/
def meetsVariableElems (P : Prims Prim) : List (Term Prim) → List (Term Prim) → Bool
  | x :: xs, y :: ys => meetsVariable P x y ||
      (decide (doCmpPartlyBound P x y = (0, false)) && meetsVariableElems P xs ys)
  | _, _ => false

end

/-- One part after the other: the second counts if the first is the same up to its end. -/
theorem orElse_congr {r r' s s' : ℤ × Bool} (h : r = r') (h' : r = (0, false) → s = s') :
    orElse r s = orElse r' s' := by
  subst h
  by_cases hr : r = (0, false)
  · rw [h' hr]
  · rw [orElse_of_ne hr, orElse_of_ne hr]

/-- Two tails that are the same word, but no variable. -/
theorem doCmpRange_sameWord {p k : Term Prim} (hsame : p.sameWord P k = true)
    (hwild : p.isWild P = false) : doCmpRange P p k = (0, false) := by
  obtain rfl := eq_of_sameWord hsame
  cases p with
  | prim p =>
    rw [isWild] at hwild
    rw [doCmpRange, hwild, (swaps_cmp (prim p) (prim p)).eq_zero]
    rfl
  | nil => rfl
  | _ => cases hsame

theorem doCmpPartlyBoundElems_eq {xs ys : List (Term Prim)}
    (h : ∀ x ∈ xs, ∀ y, meetsVariable P x y = false →
      doCmpPartlyBound P x y = doCmpRange P x y)
    (hmeets : meetsVariableElems P xs ys = false) :
    doCmpPartlyBoundElems P xs ys = doCmpRangeElems P xs ys := by
  induction xs generalizing ys with
  | nil => rfl
  | cons x xs ih =>
    cases ys with
    | nil => rfl
    | cons y ys =>
      obtain ⟨hx, hxs⟩ := List.forall_mem_cons.1 h
      rw [meetsVariableElems, Bool.or_eq_false_iff, Bool.and_eq_false_imp] at hmeets
      rw [doCmpPartlyBoundElems, doCmpRangeElems]
      exact orElse_congr (hx y hmeets.1) fun hopen => ih hxs (hmeets.2 (decide_eq_true hopen))

/-- **The comparison of the code** is that with the range, unless it meets such a variable. -/
theorem doCmpPartlyBound_eq {p k : Term Prim} (h : meetsVariable P p k = false) :
    doCmpPartlyBound P p k = doCmpRange P p k := by
  induction p using Term.ind generalizing k with
  | prim p => rw [doCmpPartlyBound, doCmpRange]
  | nil => cases k <;> rfl
  | cons x xs hx hxs =>
    cases k with
    | cons y ys =>
      rw [meetsVariable, Bool.or_eq_false_iff, Bool.and_eq_false_imp] at h
      rw [doCmpPartlyBound, doCmpRange]
      refine orElse_congr (hx h.1) fun hopen => ?_
      have htails := h.2 (decide_eq_true hopen)
      split_ifs at htails ⊢ with hsame
      · exact (doCmpRange_sameWord hsame htails).symm
      · exact hxs htails
    | _ => rfl
  | tuple xs hxs =>
    cases k with
    | tuple ys =>
      rw [meetsVariable, Bool.and_eq_false_imp] at h
      rw [doCmpPartlyBound, doCmpRange]
      split_ifs with hlt hgt
      · rfl
      · rfl
      · exact doCmpPartlyBoundElems_eq (fun x hx y => hxs x hx) (h (decide_eq_true (by omega)))
    | _ => rfl

end Term

/-- The patterns with the ranges that their variables admit. -/
def TermTable.ranges (K : TermTable Prim Obj) : Patterns (Term Prim) where
  cmpPartlyBound := Term.cmpRange K.toPrims
  isNil := Term.isNil

/-- The table knows its keys by their order. -/
theorem ranges_monotone (K : TermTable Prim Obj) : K.ranges.Monotone K.terms where
  neg p _ _ hle := (Term.doCmpRange_mono p hle).neg
  pos p _ _ hle := (Term.doCmpRange_mono p hle).pos

end PonBeam.EtsTree
