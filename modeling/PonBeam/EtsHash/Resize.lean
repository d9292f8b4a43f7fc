import PonBeam.EtsHash.Layout
import Mathlib.Algebra.BigOperators.Group.Finset.Basic
import Mathlib.Data.Multiset.AddSub
import Mathlib.Logic.Relation

/-!
# Growing and shrinking

A turn of `grow` splits one bucket, a turn of `shrink` joins the last bucket to the one it came
from. The terms keep the order they have, and only pseudo-deleted ones are dropped.
-/

namespace PonBeam.EtsHash

section

variable {Obj : Type} {szm a b : ℕ} {tb tb' : DbTableHash Obj} {l : List (HashDbTerm Obj)}

/-- A term that is not pseudo-deleted. -/
def live (p : HashDbTerm Obj) : Bool := !p.pseudoDeleted

/-! ## The loops over a bucket -/

/-- The two buckets that `grow` makes of one. -/
theorem splitBucket_eq (hab : a ≠ b)
    (hl : ∀ p ∈ l, p.hvalue &&& szm = a ∨ p.hvalue &&& szm = b) :
    splitBucket szm l a =
      (l.filter fun p => live p && p.hvalue &&& szm == a,
        l.filter fun p => live p && p.hvalue &&& szm == b) := by
  induction l generalizing a b with
  | nil => rfl
  | cons p ps ih =>
    have hps : ∀ q ∈ ps, q.hvalue &&& szm = a ∨ q.hvalue &&& szm = b := fun q hq =>
      hl q (List.mem_cons_of_mem p hq)
    rw [splitBucket]
    cases hdead : p.pseudoDeleted with
    | true => simp [ih hab hps, live, hdead]
    | false =>
      rcases hl p List.mem_cons_self with hp | hp
      · simp [ih hab hps, live, hdead, hp, hab]
      · -- the two chains change places
        simp [ih hab.symm fun q hq => (hps q hq).symm, live, hdead, hp, hab.symm]

theorem joinBuckets_eq (tail src : List (HashDbTerm Obj)) :
    joinBuckets tail src = src.filter live ++ tail := by
  induction src with
  | nil => rfl
  | cons p ps ih =>
    rw [joinBuckets, List.filter_cons, ih]
    cases hdead : p.pseudoDeleted <;> simp [live, hdead]

/-! ## What a turn does -/

/-- What resizing has nothing to do with. -/
structure SameTable (tb tb' : DbTableHash Obj) : Prop where
  status : tb'.status = tb.status
  nitems : tb'.nitems = tb.nitems
  isDecentralized : tb'.isDecentralized = tb.isDecentralized
  lockNitems : tb'.lockNitems = tb.lockNitems
  fixCount : tb'.fixCount = tb.fixCount
  nlocks : tb'.nlocks = tb.nlocks
  fixdel : tb'.fixdel = tb.fixdel

theorem SameTable.trans {tb'' : DbTableHash Obj} (hs : SameTable tb tb') (hs' : SameTable tb' tb'') :
    SameTable tb tb'' :=
  ⟨hs'.status.trans hs.status, hs'.nitems.trans hs.nitems,
    hs'.isDecentralized.trans hs.isDecentralized, hs'.lockNitems.trans hs.lockNitems,
    hs'.fixCount.trans hs.fixCount, hs'.nlocks.trans hs.nlocks, hs'.fixdel.trans hs.fixdel⟩

/-- One bucket is split by the next bit of the hash values. -/
structure Splits (tb tb' : DbTableHash Obj) : Prop where
  same : SameTable tb tb'
  nactive : tb'.nactive = tb.nactive + 1
  moved : tb'.bucket tb.nactive =
    (tb.bucket tb.splitIx).filter fun p => live p && p.hvalue.testBit tb.nextBit
  stayed : tb'.bucket tb.splitIx =
    (tb.bucket tb.splitIx).filter fun p => live p && !p.hvalue.testBit tb.nextBit
  other : ∀ i < tb.nactive, i ≠ tb.splitIx → tb'.bucket i = tb.bucket i

/-- The last bucket is joined to the one it was split from. -/
structure Joins (tb tb' : DbTableHash Obj) : Prop where
  same : SameTable tb tb'
  nactive : tb.nactive = tb'.nactive + 1
  joined : tb'.bucket tb'.splitIx =
    (tb.bucket tb'.nactive).filter live ++ tb.bucket tb'.splitIx
  other : ∀ i < tb'.nactive, i ≠ tb'.splitIx → tb'.bucket i = tb.bucket i

/-- The terms are where `hash_to_ix` looks for them. -/
def Placed (tb : DbTableHash Obj) : Prop :=
  ∀ i < tb.nactive, ∀ p ∈ tb.bucket i, tb.hashToIx p.hvalue = i

/-- Room for one more bucket. -/
theorem Shape.room (h : Shape tb) : ∃ nslots segtab nsegs limit,
    (if tb.nactive = tb.nslots then tb.allocSeg false else tb) = { tb with
      nslots := nslots
      segtab := segtab
      nsegs := nsegs
      shrinkLimit := limit } ∧
    SegsOk (if tb.nactive = tb.nslots then tb.allocSeg false else tb) ∧
    LimitOk (if tb.nactive = tb.nslots then tb.allocSeg false else tb) ∧
    tb.nactive < nslots ∧ nslots ≤ tb.nactive + extSegsz := by
  split_ifs with hfull
  · obtain ⟨k, hslots, hsegs⟩ := h.segs
    obtain ⟨segtab, nsegs, limit, heq, hholds, hlimit⟩ := allocSeg_spec hslots hsegs
    refine ⟨_, segtab, nsegs, limit, heq, heq ▸ ⟨k + 1, rfl, hholds⟩, hlimit, ?_, ?_⟩
    · rw [hfull, hslots, Nat.mul_succ, ← Nat.add_assoc]
      exact Nat.lt_add_of_pos_right (by decide)
    · rw [hfull, hslots, Nat.mul_succ, ← Nat.add_assoc]
  · exact ⟨_, _, _, _, rfl, h.segs, h.limit, Nat.lt_of_le_of_ne h.allocated hfull,
      Nat.le_of_lt h.used⟩

/-- The bucket to split and the mask to split it with. -/
theorem MaskOk.grow (h : MaskOk tb) :
    (if tb.nactive ≤ tb.szm then tb.nactive &&& (tb.szm >>> 1) else 0) = tb.splitIx ∧
    (if tb.nactive ≤ tb.szm then tb.szm else (tb.szm <<< 1) ||| 1) + 1 = 2 * 2 ^ tb.nextBit ∧
    (if tb.splitIx = 0 then (if tb.nactive ≤ tb.szm then tb.szm else (tb.szm <<< 1) ||| 1)
      else tb.szm) = if tb.nactive ≤ tb.szm then tb.szm else (tb.szm <<< 1) ||| 1 := by
  obtain ⟨j, hszm, hlt, hle⟩ := h
  have hpos := Nat.two_pow_pos j
  unfold DbTableHash.splitIx
  by_cases hn : tb.nactive ≤ tb.szm
  · have hbit : tb.nextBit = j := nextBit_eq (Nat.le_of_lt hlt) (by omega)
    simp only [if_pos hn, hbit, and_low_szm hszm]
    refine ⟨?_, hszm, ite_self _⟩
    rw [Nat.mod_eq_sub_mod (Nat.le_of_lt hlt), Nat.mod_eq_of_lt (by omega)]
  · -- all bits are in use: the next bucket takes one more
    have hbit : tb.nextBit = j + 1 := by
      apply nextBit_eq <;> rw [Nat.pow_succ'] <;> omega
    simp only [if_neg hn, hbit, next_szm, Nat.pow_succ']
    refine ⟨by omega, by omega, if_pos (by omega)⟩

/-- A turn of `grow` with few items. -/
theorem growTurn_idle {nitems : ℤ} (hn : nitems ≤ growLimit tb.nactive) :
    tb.growTurn nitems = (tb, false) := by
  rw [DbTableHash.growTurn, if_pos hn]

/-- A turn of `grow` with items above the limit splits one bucket. -/
theorem growTurn_spec (h : Shape tb) (hp : Placed tb) (hfix : tb.fixCount = 0) {nitems : ℤ}
    (hmany : growLimit tb.nactive < nitems) :
    Splits tb (tb.growTurn nitems).1 ∧ (tb.growTurn nitems).2 = true ∧
      Shape (tb.growTurn nitems).1 := by
  have hn : ¬ nitems ≤ growLimit tb.nactive := Int.not_le.mpr hmany
  obtain ⟨nslots, segtab, nsegs, limit, heq, hsegs, hlimit, hlt, hle⟩ := h.room
  obtain ⟨hfrom, hszm, hnew⟩ := h.mask.grow
  rw [heq] at hsegs hlimit
  simp only [DbTableHash.growTurn, if_neg hn, heq, hfrom, hnew, DbTableHash.isFixed, hfix]
  generalize (if tb.nactive ≤ tb.szm then tb.szm else (tb.szm <<< 1) ||| 1) = szm at hszm ⊢
  have hmod : ∀ p ∈ tb.bucket tb.splitIx, tb.hashToIx p.hvalue = tb.splitIx :=
    hp _ h.mask.splitIx_lt
  have hne : tb.splitIx ≠ tb.nactive := Nat.ne_of_lt h.mask.splitIx_lt
  have hside : ∀ p ∈ tb.bucket tb.splitIx,
      p.hvalue &&& szm = tb.splitIx ∨ p.hvalue &&& szm = tb.nactive := fun p hpb => by
    rw [and_szm hszm]
    exact h.mask.mod_of_splitIx (hmod p hpb)
  have hsplit := splitBucket_eq hne hside
  simp only [ne_eq, not_true_eq_false, decide_false, Bool.false_eq_true, if_false]
  refine ⟨⟨⟨rfl, rfl, rfl, rfl, hfix.symm, rfl, rfl⟩, rfl, ?_, ?_, fun i hi hne' => ?_⟩, trivial,
    ⟨tb.nextBit, hszm, ?_, ?_⟩, hsegs, hlt, ?_, ?_, hlimit⟩
  · simp only [Function.update_self, hsplit]
    refine List.filter_congr fun p hpb => ?_
    rw [h.mask.testBit_of_splitIx (hmod p hpb), and_szm hszm]
    rfl
  · simp only [Function.update_of_ne hne, Function.update_self, hsplit]
    refine List.filter_congr fun p hpb => ?_
    rw [h.mask.testBit_of_splitIx (hmod p hpb), and_szm hszm]
    rcases h.mask.mod_of_splitIx (hmod p hpb) with heq | heq
    · simp [heq, hne]
    · simp [heq, hne.symm]
  · simp only [Function.update_of_ne (Nat.ne_of_lt hi), Function.update_of_ne hne']
  · exact Nat.lt_succ_of_le (nextBit_le h.mask.pos)
  · exact lt_nextBit tb
  · exact Nat.lt_of_le_of_lt hle (by simp only; omega)
  · exact Nat.le_succ_of_le h.locks

/-- The mask without the last bucket, which is joined to the bucket `splitIx`. -/
theorem MaskOk.shrink (h : MaskOk tb) (hn : 2 < tb.nactive) (tb' : DbTableHash Obj)
    (hszm : tb'.szm = if (tb.nactive - 1) &&& (tb.szm >>> 1) = 0 then tb.szm >>> 1 else tb.szm)
    (hnactive : tb'.nactive = tb.nactive - 1) :
    MaskOk tb' ∧ (tb.nactive - 1) &&& (tb.szm >>> 1) = tb'.splitIx := by
  obtain ⟨j, htop, hlt, hle⟩ := h
  have hpos := Nat.two_pow_pos j
  have hlow : tb.szm >>> 1 + 1 = 2 ^ j := by
    rw [Nat.shiftRight_eq_div_pow]
    omega
  have hsub : (tb.nactive - 1) % 2 ^ j = tb.nactive - 1 - 2 ^ j := by
    rw [Nat.mod_eq_sub_mod (by omega), Nat.mod_eq_of_lt (by omega)]
  have hbit : tb'.nextBit = j := nextBit_eq (by omega) (by omega)
  rw [and_low_szm htop, hsub] at hszm ⊢
  refine ⟨?_, by rw [DbTableHash.splitIx, hbit, hnactive]⟩
  split_ifs at hszm with hdst
  · -- half the mask is enough
    obtain ⟨i, rfl⟩ : ∃ i, j = i + 1 := by
      refine Nat.exists_eq_succ_of_ne_zero fun hj => ?_
      rw [hj] at hlt hle
      omega
    rw [Nat.pow_succ'] at hlow hdst hlt hle
    exact ⟨i, by omega, by omega, by omega⟩
  · exact ⟨j, by omega, by omega, by omega⟩

/-- The last segment goes when `s` buckets do not need it. -/
theorem SegsOk.spare (hsegs : SegsOk tb) (hlimit : LimitOk tb)
    (hbig : firstSegsz + extSegsz ≤ tb.nslots) {s : ℕ} (hs : s < tb.nslots)
    (hs' : tb.nslots ≤ s + extSegsz) : ∃ nslots segtab nsegs limit,
    (if tb.nslots - s ≥ extSegsz then tb.removeSeg else tb) = { tb with
      nslots := nslots
      segtab := segtab
      nsegs := nsegs
      shrinkLimit := limit } ∧
    SegsOk (if tb.nslots - s ≥ extSegsz then tb.removeSeg else tb) ∧
    LimitOk (if tb.nslots - s ≥ extSegsz then tb.removeSeg else tb) ∧
    s ≤ nslots ∧ nslots < s + extSegsz := by
  have hext : 0 < extSegsz := by decide
  split_ifs with hspare
  · obtain ⟨k, hslots, hholds⟩ := hsegs
    obtain ⟨i, rfl⟩ : ∃ i, k = i + 1 := by
      refine Nat.exists_eq_succ_of_ne_zero fun hk => ?_
      rw [hk] at hslots
      omega
    obtain ⟨segtab, nsegs, limit, heq, hholds', hlimit'⟩ := removeSeg_spec hslots hholds
    rw [Nat.mul_succ, ← Nat.add_assoc] at hslots
    exact ⟨_, segtab, nsegs, limit, heq, heq ▸ ⟨i, rfl, hholds'⟩, hlimit', by omega, by omega⟩
  · exact ⟨_, _, _, _, rfl, hsegs, hlimit, Nat.le_of_lt hs, by omega⟩

/-- A turn of `shrink` with items enough. -/
theorem shrinkTurn_idle {nitems : ℤ} (hn : ¬ nitems < tb.shrinkLimit) :
    tb.shrinkTurn nitems = (tb, false) := by
  rw [DbTableHash.shrinkTurn, if_pos hn]

/-- A turn of `shrink` with items below the limit joins two buckets. -/
theorem shrinkTurn_spec (h : Shape tb) (hfix : tb.fixCount = 0) {nitems : ℤ} (hpos : 0 ≤ nitems)
    (hn : nitems < tb.shrinkLimit) :
    Joins tb (tb.shrinkTurn nitems).1 ∧ (tb.shrinkTurn nitems).2 = true ∧
      Shape (tb.shrinkTurn nitems).1 := by
  have hlim : tb.shrinkLimit ≠ 0 := by omega
  obtain ⟨hlocks, hbig⟩ := h.limit hlim
  have hext : firstSegsz + 2 * extSegsz = 4352 ∧ extSegsz = 2048 ∧ firstSegsz = 256 := by decide
  have hused := h.used
  have hallocated := h.allocated
  generalize hszm : (if (tb.nactive - 1) &&& (tb.szm >>> 1) = 0 then tb.szm >>> 1
    else tb.szm) = szm
  have hsegsok : SegsOk { tb with nactive := tb.nactive - 1, szm := szm } := h.segs
  obtain ⟨nslots, segtab, nsegs, limit, heq, hsegs, hlimit, hle, hlt⟩ :=
    hsegsok.spare h.limit (by simp only; omega) (show tb.nactive - 1 < _ by simp only; omega)
      (by simp only; omega)
  have hnot : tb.isFixed = false := by
    rw [DbTableHash.isFixed, hfix]
    rfl
  simp only at heq
  rw [heq] at hsegs hlimit
  simp only [DbTableHash.shrinkTurn, hn, not_true_eq_false, if_false, hnot, Bool.false_eq_true,
    hszm, heq]
  obtain ⟨hmask, hdst⟩ := h.mask.shrink (by omega)
    { tb with nactive := tb.nactive - 1, szm := szm } hszm.symm rfl
  have hdst' : (tb.nactive - 1) &&& (tb.szm >>> 1) = tb.nactive - 1 - 2 ^ (tb.nactive - 1).log2 :=
    hdst
  refine ⟨⟨⟨rfl, rfl, rfl, rfl, rfl, rfl, rfl⟩, ?_, ?_, fun i hi hne => ?_⟩, trivial, hmask, hsegs, hle, hlt, ?_,
    hlimit⟩
  · simp only
    omega
  · simp only [DbTableHash.splitIx, DbTableHash.nextBit, hdst']
    split_ifs with hsrc
    · rw [Function.update_self, joinBuckets_eq]
    · rw [not_not.1 hsrc]
      rfl
  · simp only [DbTableHash.splitIx, DbTableHash.nextBit] at hne
    simp only [hdst']
    split_ifs
    · rw [Function.update_of_ne hne]
    · rfl
  · simp only
    omega

/-! ## What a turn keeps -/

/-- A table whose terms can be found. -/
structure Laid (tb : DbTableHash Obj) : Prop where
  shape : Shape tb
  placed : Placed tb

theorem Splits.placed (hs : Splits tb tb') (h : Laid tb) (h' : Shape tb') : Placed tb' := by
  have hmask := h.shape.mask
  intro i hi p hpb
  rw [hmask.hashToIx_succ h'.mask hs.nactive]
  rw [hs.nactive] at hi
  rcases Nat.lt_succ_iff_lt_or_eq.1 hi with hlt | rfl
  · by_cases hsplit : i = tb.splitIx
    · subst hsplit
      rw [hs.stayed] at hpb
      obtain ⟨hpb, hstay⟩ := List.mem_filter.1 hpb
      have hix := h.placed _ hlt p hpb
      rw [hmask.testBit_of_splitIx hix] at hstay
      rw [if_neg (by simpa using (Bool.and_eq_true_iff.1 hstay).2), hix]
    · rw [hs.other i hlt hsplit] at hpb
      have hix := h.placed i hlt p hpb
      rw [if_neg, hix]
      intro hmod
      exact hsplit (hix.symm.trans (hmask.hashToIx_of_next hmod))
  · rw [hs.moved] at hpb
    obtain ⟨hpb, hmove⟩ := List.mem_filter.1 hpb
    have hix := h.placed _ hmask.splitIx_lt p hpb
    rw [hmask.testBit_of_splitIx hix] at hmove
    exact if_pos (by simpa using (Bool.and_eq_true_iff.1 hmove).2)

/-- The bucket in the larger table, if there are two of them. -/
theorem Joins.hashToIx_eq (hj : Joins tb tb') (h : Shape tb) (h' : Shape tb') (hval : ℕ) :
    tb.hashToIx hval = tb'.nactive ∧ tb'.hashToIx hval = tb'.splitIx ∨
      tb.hashToIx hval = tb'.hashToIx hval := by
  rw [h'.mask.hashToIx_succ h.mask hj.nactive]
  split_ifs with hmod
  · exact Or.inl ⟨rfl, h'.mask.hashToIx_of_next hmod⟩
  · exact Or.inr rfl

theorem Joins.placed (hj : Joins tb tb') (h : Laid tb) (h' : Shape tb') : Placed tb' := by
  intro i hi p hpb
  have hplaced : ∀ k < tb.nactive, p ∈ tb.bucket k →
      k = tb'.nactive ∧ tb'.hashToIx p.hvalue = tb'.splitIx ∨ tb'.hashToIx p.hvalue = k := by
    intro k hk hpk
    rw [← h.placed k hk p hpk]
    exact (hj.hashToIx_eq h.shape h' p.hvalue).imp_right Eq.symm
  have hlt := h'.mask.hashToIx_lt p.hvalue
  have hn := hj.nactive
  by_cases hsplit : i = tb'.splitIx
  · subst hsplit
    rw [hj.joined] at hpb
    rcases List.mem_append.1 hpb with hpb | hpb
    · rcases hplaced _ (by omega) (List.mem_filter.1 hpb).1 with ⟨-, hix⟩ | hix
      · exact hix
      · omega
    · rcases hplaced _ (by omega) hpb with ⟨-, hix⟩ | hix
      · exact hix
      · exact hix
  · rw [hj.other i hi hsplit] at hpb
    rcases hplaced i (by omega) hpb with ⟨hix, -⟩ | hix
    · omega
    · exact hix

/-- The live terms with a hash value. -/
def DbTableHash.chain (tb : DbTableHash Obj) (hval : ℕ) : List (HashDbTerm Obj) :=
  (tb.bucket (tb.hashToIx hval)).filter fun p => live p && p.hvalue == hval

theorem Splits.chain_eq (hs : Splits tb tb') (h : Laid tb) (h' : Shape tb') (hval : ℕ) :
    tb'.chain hval = tb.chain hval := by
  have hmask := h.shape.mask
  unfold DbTableHash.chain
  rw [hmask.hashToIx_succ h'.mask hs.nactive]
  split_ifs with hmod
  · have hix := hmask.hashToIx_of_next hmod
    have hbit : hval.testBit tb.nextBit = true := by
      rw [hmask.testBit_of_splitIx hix]
      exact decide_eq_true hmod
    rw [hs.moved, hix, List.filter_filter]
    refine List.filter_congr fun p _ => ?_
    by_cases hp : p.hvalue = hval
    · rw [hp, hbit]
      simp
    · simp [hp]
  · by_cases hsplit : tb.hashToIx hval = tb.splitIx
    · have hbit : hval.testBit tb.nextBit = false := by
        rw [hmask.testBit_of_splitIx hsplit]
        exact decide_eq_false hmod
      rw [hsplit, hs.stayed, List.filter_filter]
      refine List.filter_congr fun p _ => ?_
      by_cases hp : p.hvalue = hval
      · rw [hp, hbit]
        simp
      · simp [hp]
    · rw [hs.other _ (hmask.hashToIx_lt hval) hsplit]

/-- A bucket without terms of a hash value. -/
theorem filter_hvalue_eq_nil {hval : ℕ} (hl : ∀ p ∈ l, p.hvalue ≠ hval) :
    l.filter (fun p => live p && p.hvalue == hval) = [] := by
  refine List.filter_eq_nil_iff.2 fun p hp => ?_
  simp [hl p hp]

theorem Joins.chain_eq (hj : Joins tb tb') (h : Laid tb) (h' : Shape tb') (hval : ℕ) :
    tb'.chain hval = tb.chain hval := by
  have hlt := h'.mask.hashToIx_lt hval
  have hsplit := h'.mask.splitIx_lt
  have hn := hj.nactive
  have hother : ∀ k < tb.nactive, k ≠ tb.hashToIx hval → ∀ p ∈ tb.bucket k, p.hvalue ≠ hval := by
    rintro k hk hne p hpk rfl
    exact hne (h.placed k hk p hpk).symm
  have hjoined : ∀ src : List (HashDbTerm Obj), (src.filter live).filter
      (fun p => live p && p.hvalue == hval) = src.filter fun p => live p && p.hvalue == hval := by
    intro src
    rw [List.filter_filter]
    refine List.filter_congr fun p _ => ?_
    cases live p <;> simp
  unfold DbTableHash.chain
  rcases hj.hashToIx_eq h.shape h' hval with ⟨hix, hix'⟩ | hix
  · rw [hix', hj.joined, List.filter_append, hjoined, hix,
      filter_hvalue_eq_nil (hother tb'.splitIx (by omega) (by omega)), List.append_nil]
  · by_cases hdst : tb'.hashToIx hval = tb'.splitIx
    · rw [hix, hdst, hj.joined, List.filter_append, hjoined,
        filter_hvalue_eq_nil (hother tb'.nactive (by omega) (by omega)), List.nil_append]
    · rw [hix, hj.other _ hlt hdst]

/-- All live terms. -/
def DbTableHash.liveTerms (tb : DbTableHash Obj) : Multiset (HashDbTerm Obj) :=
  ∑ i ∈ Finset.range tb.nactive, ((tb.bucket i).filter live : List (HashDbTerm Obj))

/-- One of `n` summands is divided in two. -/
theorem sum_range_split {M : Type} [AddCommMonoid M] {f f' : ℕ → M} {n s : ℕ} (hs : s < n)
    (hother : ∀ i < n, i ≠ s → f' i = f i) (hsplit : f' s + f' n = f s) :
    ∑ i ∈ Finset.range (n + 1), f' i = ∑ i ∈ Finset.range n, f i := by
  have hmem : s ∈ Finset.range n := Finset.mem_range.2 hs
  have hrest : ∑ i ∈ (Finset.range n).erase s, f' i = ∑ i ∈ (Finset.range n).erase s, f i := by
    refine Finset.sum_congr rfl fun i hi => ?_
    obtain ⟨hne, hi⟩ := Finset.mem_erase.1 hi
    exact hother i (Finset.mem_range.1 hi) hne
  rw [Finset.sum_range_succ, ← Finset.add_sum_erase _ _ hmem, hrest, ← Finset.add_sum_erase _ _ hmem,
    ← hsplit, add_right_comm]

theorem Splits.liveTerms_eq (hs : Splits tb tb') (h : Laid tb) : tb'.liveTerms = tb.liveTerms := by
  unfold DbTableHash.liveTerms
  rw [hs.nactive]
  refine sum_range_split h.shape.mask.splitIx_lt (fun i hi hne => by rw [hs.other i hi hne]) ?_
  rw [hs.stayed, hs.moved, Multiset.coe_add, Multiset.coe_eq_coe, List.filter_filter,
    List.filter_filter]
  refine List.Perm.trans (List.Perm.of_eq ?_)
    (List.filter_append_perm (fun p => !p.hvalue.testBit tb.nextBit) _)
  rw [List.filter_filter, List.filter_filter]
  congr 1 <;> refine List.filter_congr fun p _ => ?_ <;> cases live p <;> simp

theorem Joins.liveTerms_eq (hj : Joins tb tb') (h' : Shape tb') : tb'.liveTerms = tb.liveTerms := by
  unfold DbTableHash.liveTerms
  rw [hj.nactive]
  refine (sum_range_split h'.mask.splitIx_lt (fun i hi hne => by rw [hj.other i hi hne]) ?_).symm
  have hlive : ∀ src : List (HashDbTerm Obj), (src.filter live).filter live = src.filter live := by
    intro src
    rw [List.filter_filter]
    exact List.filter_congr fun p _ => Bool.and_self _
  rw [hj.joined, Multiset.coe_add, Multiset.coe_eq_coe, List.filter_append, hlive]
  exact List.perm_append_comm

/-! ## Whole calls -/

/-- So many turns, one after the other. -/
inductive Turns {α : Type} (R : α → α → Prop) : ℕ → α → α → Prop where
  /-- no turn -/
  | none (x : α) : Turns R 0 x x
  /-- a turn, and the others after it -/
  | turn {n : ℕ} {x y z : α} (first : R x y) (rest : Turns R n y z) : Turns R (n + 1) x z

theorem Turns.mono {α : Type} {R R' : α → α → Prop} (hR : ∀ x y, R x y → R' x y) {n : ℕ} {x y : α}
    (h : Turns R n x y) : Turns R' n x y := by
  induction h with
  | none x => exact .none x
  | turn first _ ih => exact .turn (hR _ _ first) ih

theorem Turns.reflTransGen {α : Type} {R R' : α → α → Prop} (hR : ∀ x y, R x y → R' x y) {n : ℕ}
    {x y : α} (h : Turns R n x y) : Relation.ReflTransGen R' x y := by
  induction h with
  | none x => exact .refl
  | turn first _ ih => exact .head (hR _ _ first) ih

/-- A turn of `grow` that splits a bucket. -/
def GrowStep (tb tb' : DbTableHash Obj) : Prop := Laid tb ∧ Splits tb tb' ∧ Laid tb'

/-- A turn of `shrink` that joins two buckets. -/
def ShrinkStep (tb tb' : DbTableHash Obj) : Prop := Laid tb ∧ Joins tb tb' ∧ Laid tb'

/-- `grow` splits a bucket in each turn, for as long as there are items above the limit. -/
theorem growLoop_turns (limit : ℕ) (nitems : ℤ) (h : Laid tb) (hfix : tb.fixCount = 0) :
    ∃ n ≤ limit,
      Turns (fun a b => growLimit a.nactive < nitems ∧ GrowStep a b) n tb
        (DbTableHash.growLoop nitems limit tb) ∧
      (n < limit → nitems ≤ growLimit (DbTableHash.growLoop nitems limit tb).nactive) ∧
      Laid (DbTableHash.growLoop nitems limit tb) := by
  induction limit generalizing tb with
  | zero => exact ⟨0, le_rfl, .none tb, fun hlt => absurd hlt (Nat.lt_irrefl 0), h⟩
  | succ limit ih =>
    rw [DbTableHash.growLoop]
    by_cases hmany : growLimit tb.nactive < nitems
    · obtain ⟨hs, hend, h'⟩ := growTurn_spec h.shape h.placed hfix hmany
      have hlaid : Laid (tb.growTurn nitems).1 := ⟨h', hs.placed h h'⟩
      have hfirst : growLimit tb.nactive < nitems ∧ GrowStep tb (tb.growTurn nitems).1 :=
        ⟨hmany, h, hs, hlaid⟩
      simp only [hend, true_and]
      split_ifs with hmore
      · obtain ⟨n, hle, hturns, hstop, hlaid'⟩ := ih hlaid (hs.same.fixCount.trans hfix)
        exact ⟨n + 1, Nat.succ_le_succ hle, .turn hfirst hturns,
          fun hlt => hstop (Nat.lt_of_succ_lt_succ hlt), hlaid'⟩
      · exact ⟨1, Nat.succ_le_succ (Nat.zero_le _), .turn hfirst (.none _),
          fun _ => Int.not_lt.mp hmore, hlaid⟩
    · rw [growTurn_idle (Int.not_lt.mp hmany)]
      exact ⟨0, Nat.zero_le _, .none tb, fun _ => Int.not_lt.mp hmany, h⟩

/-- `shrink` joins two buckets in each turn, for as long as there are items below the limit. -/
theorem shrinkLoop_turns (limit : ℕ) {nitems : ℤ} (hpos : 0 ≤ nitems) (h : Laid tb)
    (hfix : tb.fixCount = 0) :
    ∃ n ≤ limit,
      Turns (fun a b => nitems < a.shrinkLimit ∧ ShrinkStep a b) n tb
        (DbTableHash.shrinkLoop nitems limit tb) ∧
      (n < limit → ¬ nitems < (DbTableHash.shrinkLoop nitems limit tb).shrinkLimit) ∧
      Laid (DbTableHash.shrinkLoop nitems limit tb) := by
  induction limit generalizing tb with
  | zero => exact ⟨0, le_rfl, .none tb, fun hlt => absurd hlt (Nat.lt_irrefl 0), h⟩
  | succ limit ih =>
    rw [DbTableHash.shrinkLoop]
    by_cases hfew : nitems < tb.shrinkLimit
    · obtain ⟨hj, hend, h'⟩ := shrinkTurn_spec h.shape hfix hpos hfew
      have hlaid : Laid (tb.shrinkTurn nitems).1 := ⟨h', hj.placed h h'⟩
      have hfirst : nitems < tb.shrinkLimit ∧ ShrinkStep tb (tb.shrinkTurn nitems).1 :=
        ⟨hfew, h, hj, hlaid⟩
      simp only [hend, true_and]
      split_ifs with hmore
      · obtain ⟨n, hle, hturns, hstop, hlaid'⟩ := ih hlaid (hj.same.fixCount.trans hfix)
        exact ⟨n + 1, Nat.succ_le_succ hle, .turn hfirst hturns,
          fun hlt => hstop (Nat.lt_of_succ_lt_succ hlt), hlaid'⟩
      · exact ⟨1, Nat.succ_le_succ (Nat.zero_le _), .turn hfirst (.none _), fun _ => hmore, hlaid⟩
    · rw [shrinkTurn_idle hfew]
      exact ⟨0, Nat.zero_le _, .none tb, fun _ => hfew, h⟩

theorem growLoop_steps (limit : ℕ) (nitems : ℤ) (h : Laid tb) (hfix : tb.fixCount = 0) :
    Relation.ReflTransGen GrowStep tb (DbTableHash.growLoop nitems limit tb) ∧
      Laid (DbTableHash.growLoop nitems limit tb) := by
  obtain ⟨n, -, hturns, -, hlaid⟩ := growLoop_turns limit nitems h hfix
  exact ⟨hturns.reflTransGen fun _ _ hturn => hturn.2, hlaid⟩

theorem shrinkLoop_steps (limit : ℕ) {nitems : ℤ} (hpos : 0 ≤ nitems) (h : Laid tb)
    (hfix : tb.fixCount = 0) :
    Relation.ReflTransGen ShrinkStep tb (DbTableHash.shrinkLoop nitems limit tb) ∧
      Laid (DbTableHash.shrinkLoop nitems limit tb) := by
  obtain ⟨n, -, hturns, -, hlaid⟩ := shrinkLoop_turns limit hpos h hfix
  exact ⟨hturns.reflTransGen fun _ _ hturn => hturn.2, hlaid⟩

theorem SameTable.of_steps {R : DbTableHash Obj → DbTableHash Obj → Prop}
    (hR : ∀ a b, R a b → SameTable a b) (h : Relation.ReflTransGen R tb tb') :
    SameTable tb tb' := by
  induction h with
  | refl => exact ⟨rfl, rfl, rfl, rfl, rfl, rfl, rfl⟩
  | tail _ hstep ih => exact ih.trans (hR _ _ hstep)

theorem grow_same (h : Laid tb) (hfix : tb.fixCount = 0) (nitems : ℤ) :
    SameTable tb (tb.grow nitems) :=
  SameTable.of_steps (fun _ _ hstep => hstep.2.1.same) (growLoop_steps 5 nitems h hfix).1

theorem shrink_same (h : Laid tb) (hfix : tb.fixCount = 0) {nitems : ℤ} (hpos : 0 ≤ nitems) :
    SameTable tb (tb.shrink nitems) :=
  SameTable.of_steps (fun _ _ hstep => hstep.2.1.same) (shrinkLoop_steps 5 hpos h hfix).1

/-- What both do not touch. -/
theorem liveTerms_of_steps {R : DbTableHash Obj → DbTableHash Obj → Prop}
    (hR : ∀ a b, R a b → b.liveTerms = a.liveTerms) (h : Relation.ReflTransGen R tb tb') :
    tb'.liveTerms = tb.liveTerms := by
  induction h with
  | refl => rfl
  | tail _ hstep ih => exact (hR _ _ hstep).trans ih

/-! ## Sequences of steps -/

/-- What happens to the buckets of a table that is not fixed. -/
inductive LayoutStep (tb : DbTableHash Obj) : DbTableHash Obj → Prop where
  /-- `grow` -/
  | grow (nitems : ℕ) : LayoutStep tb (tb.grow nitems)
  /-- `shrink` -/
  | shrink (nitems : ℕ) : LayoutStep tb (tb.shrink nitems)
  /-- a term is linked into its bucket -/
  | insert (p : HashDbTerm Obj) (before after : List (HashDbTerm Obj))
      (hbucket : tb.bucket (tb.hashToIx p.hvalue) = before ++ after) :
      LayoutStep tb { tb with
        bucket := Function.update tb.bucket (tb.hashToIx p.hvalue) (before ++ p :: after) }
  /-- a term is unlinked -/
  | remove (ix : ℕ) (p : HashDbTerm Obj) (before after : List (HashDbTerm Obj))
      (hix : ix < tb.nactive) (hbucket : tb.bucket ix = before ++ p :: after) :
      LayoutStep tb { tb with bucket := Function.update tb.bucket ix (before ++ after) }

/-- Changing one bucket. -/
theorem Laid.update (h : Laid tb) (hsame : SameLayout tb tb') {ix : ℕ}
    (hbucket : tb'.bucket = Function.update tb.bucket ix l)
    (hl : ∀ p ∈ l, p ∈ tb.bucket ix ∨ tb.hashToIx p.hvalue = ix) : Laid tb' := by
  refine ⟨hsame.shape h.shape, fun i hi p hp => ?_⟩
  rw [hsame.nactive] at hi
  rw [hsame.hashToIx_eq]
  by_cases hix : i = ix
  · subst hix
    rw [hbucket, Function.update_self] at hp
    exact (hl p hp).elim (h.placed i hi p) id
  · rw [hbucket, Function.update_of_ne hix] at hp
    exact h.placed i hi p hp

theorem LayoutStep.laid (hstep : LayoutStep tb tb') (h : Laid tb) (hfix : tb.fixCount = 0) :
    Laid tb' ∧ tb'.fixCount = 0 := by
  cases hstep with
  | grow nitems =>
    exact ⟨(growLoop_steps 5 nitems h hfix).2, (grow_same h hfix nitems).fixCount.trans hfix⟩
  | shrink nitems =>
    have hpos : (0 : ℤ) ≤ nitems := Int.natCast_nonneg nitems
    exact ⟨(shrinkLoop_steps 5 hpos h hfix).2, (shrink_same h hfix hpos).fixCount.trans hfix⟩
  | insert p before after hbucket =>
    refine ⟨h.update ⟨rfl, rfl, rfl, rfl, rfl, rfl, rfl⟩ rfl fun q hq => ?_, hfix⟩
    rw [hbucket]
    rcases List.mem_append.1 hq with hq | hq
    · exact Or.inl (List.mem_append_left _ hq)
    · rcases List.mem_cons.1 hq with rfl | hq
      · exact Or.inr rfl
      · exact Or.inl (List.mem_append_right _ hq)
  | remove ix p before after hix hbucket =>
    refine ⟨h.update ⟨rfl, rfl, rfl, rfl, rfl, rfl, rfl⟩ rfl fun q hq => Or.inl ?_, hfix⟩
    rw [hbucket]
    rcases List.mem_append.1 hq with hq | hq
    · exact List.mem_append_left _ hq
    · exact List.mem_append_right _ (List.mem_cons_of_mem _ hq)

/-- Linear hashing as it is meant to be. -/
structure LinearHashing (tb : DbTableHash Obj) : Prop where
  mask : ∃ j, tb.szm + 1 = 2 ^ j
  active : (tb.szm + 1) / 2 < tb.nactive ∧ tb.nactive ≤ tb.szm + 1
  bounds : tb.nlocks ≤ tb.nactive ∧ tb.nactive ≤ tb.nslots
  placed : Placed tb
  /-- the bucket of a hash value is active, and its segment is there -/
  found : ∀ hval, tb.hashToIx hval < tb.nactive ∧ slotIxToSegIx (tb.hashToIx hval) < tb.nsegs ∧
    ∃ size, tb.segtab.seg (slotIxToSegIx (tb.hashToIx hval)) = some size ∧
      tb.hashToIx hval % extSegsz < size
  /-- a turn of `grow` above the limit splits a bucket, and is one of the turns of the call -/
  growTurn : ∀ nitems : ℕ, growLimit tb.nactive < nitems →
    Splits tb (tb.growTurn nitems).1 ∧ (tb.growTurn nitems).2 = true
  /-- `grow` has such turns until the limit is reached, five at most -/
  grows : ∀ nitems : ℕ, ∃ n ≤ 5,
    Turns (fun a b => growLimit a.nactive < nitems ∧ Splits a b) n tb (tb.grow nitems) ∧
    (n < 5 → nitems ≤ growLimit (tb.grow nitems).nactive) ∧
    (tb.grow nitems).liveTerms = tb.liveTerms
  /-- a turn of `shrink` below the limit joins two buckets -/
  shrinkTurn : ∀ nitems : ℕ, nitems < tb.shrinkLimit →
    Joins tb (tb.shrinkTurn nitems).1 ∧ (tb.shrinkTurn nitems).2 = true
  /-- `shrink` has such turns until the limit is reached, five at most -/
  shrinks : ∀ nitems : ℕ, ∃ n ≤ 5,
    Turns (fun a b => nitems < a.shrinkLimit ∧ Joins a b) n tb (tb.shrink nitems) ∧
    (n < 5 → (tb.shrink nitems).shrinkLimit ≤ nitems) ∧
    (tb.shrink nitems).liveTerms = tb.liveTerms

theorem Laid.linearHashing (h : Laid tb) (hfix : tb.fixCount = 0) : LinearHashing tb := by
  obtain ⟨j, hszm, hlt, hle⟩ := h.shape.mask
  obtain ⟨k, hslots, hholds⟩ := h.shape.segs
  have hpow : 2 ^ (j + 1) = 2 * 2 ^ j := Nat.pow_succ'
  refine ⟨⟨j + 1, hszm.trans hpow.symm⟩, ⟨by omega, by omega⟩,
    ⟨h.shape.locks, h.shape.allocated⟩, h.placed, fun hval => ?_, fun nitems hmany => ?_,
    fun nitems => ?_, fun nitems hfew => ?_, fun nitems => ?_⟩
  · have hix := h.shape.mask.hashToIx_lt hval
    have hseg : slotIxToSegIx (tb.hashToIx hval) ≤ k :=
      slotIxToSegIx_le (hslots ▸ Nat.lt_of_lt_of_le hix h.shape.allocated)
    exact ⟨hix, Nat.lt_of_le_of_lt hseg hholds.lt, _, hholds.seg hseg, and_lt_segSize _⟩
  · obtain ⟨hs, hend, -⟩ := growTurn_spec h.shape h.placed hfix (Int.ofNat_lt.mpr hmany)
    exact ⟨hs, hend⟩
  · obtain ⟨n, hle, hturns, hstop, -⟩ := growLoop_turns 5 nitems h hfix
    refine ⟨n, hle, hturns.mono fun _ _ hturn => ⟨Int.ofNat_lt.mp hturn.1, hturn.2.2.1⟩,
      fun hlt => Int.ofNat_le.mp (hstop hlt), ?_⟩
    exact liveTerms_of_steps (fun _ _ hstep => hstep.2.1.liveTerms_eq hstep.1)
      (growLoop_steps 5 nitems h hfix).1
  · obtain ⟨hj, hend, -⟩ :=
      shrinkTurn_spec h.shape hfix (Int.natCast_nonneg nitems) (Int.ofNat_lt.mpr hfew)
    exact ⟨hj, hend⟩
  · have hpos : (0 : ℤ) ≤ nitems := Int.natCast_nonneg nitems
    obtain ⟨n, hle, hturns, hstop, -⟩ := shrinkLoop_turns 5 hpos h hfix
    refine ⟨n, hle, hturns.mono fun _ _ hturn => ⟨Int.ofNat_lt.mp hturn.1, hturn.2.2.1⟩,
      fun hlt => Int.ofNat_le.mp (Int.not_lt.mp (hstop hlt)), ?_⟩
    exact liveTerms_of_steps (fun _ _ hstep => hstep.2.1.liveTerms_eq hstep.2.2.shape)
      (shrinkLoop_steps 5 hpos h hfix).1

theorem create_laid {status : TableType} {isDecentralized : Bool} {nlocks : ℕ}
    (htb : DbTableHash.create status isDecentralized nlocks = tb) : Laid tb ∧ tb.fixCount = 0 := by
  have hfresh := (create_fresh htb).1
  refine ⟨⟨htb ▸ create_shape status isDecentralized nlocks, fun i _ p hp => ?_⟩,
    hfresh.fixCount_eq⟩
  rw [hfresh.empty i] at hp
  exact absurd hp List.not_mem_nil

/-- **Linear hashing**, whatever happens to a table that is not fixed. -/
theorem reach_linearHashing (status : TableType) (isDecentralized : Bool)
    (locking : DbTableHash.Locking)
    (hreach : Relation.ReflTransGen LayoutStep
      (DbTableHash.create status isDecentralized locking.nlocks) tb) : LinearHashing tb := by
  have hlaid : Laid tb ∧ tb.fixCount = 0 := by
    induction hreach with
    | refl => exact create_laid rfl
    | tail _ hstep ih => exact hstep.laid ih.1 ih.2
  exact hlaid.1.linearHashing hlaid.2

/-- Two terms of the bucket 0 differ in the next bit of their hash values; `grow` with one item
above the limit splits the bucket. -/
theorem twoTerms_linearHashing : ∃ tb : DbTableHash ℕ,
    tb.nactive = 257 ∧
    tb.bucket 0 = [{ dbterm := 1, hvalue := 0, pseudoDeleted := false }] ∧
    tb.bucket 256 = [{ dbterm := 2, hvalue := 256, pseudoDeleted := false }] ∧
    LinearHashing tb := by
  have hfirst : LayoutStep (DbTableHash.create .set false 1 : DbTableHash ℕ) _ :=
    .insert { dbterm := 1, hvalue := 0, pseudoDeleted := false } [] [] rfl
  have hreach := ((Relation.ReflTransGen.single hfirst).tail
    (.insert { dbterm := 2, hvalue := 256, pseudoDeleted := false } [] _ rfl)).tail (.grow 257)
  exact ⟨_, rfl, rfl, rfl, reach_linearHashing .set false .none hreach⟩

end

end PonBeam.EtsHash
