import PonBeam.EtsHash.Ops
import PonBeam.Lib.LinearHash
import Mathlib.Tactic.Common

/-!
# Where a hash table keeps its terms

The mask, the active buckets, the allocated ones and the segment tables belong together: the
mask is the least one for the active buckets, all but the last segment are in use, and each of
the segment tables points to the segments that were there when a larger one replaced it.
-/

namespace PonBeam.EtsHash

section

variable {Obj : Type} {szm j k nsegs : ℕ} {tab : SegTab} {tb : DbTableHash Obj}

/-! ## Masks -/

theorem and_szm (hszm : szm + 1 = 2 * 2 ^ j) (x : ℕ) : x &&& szm = x % (2 * 2 ^ j) := by
  have hpow : szm = 2 ^ (j + 1) - 1 := by
    rw [Nat.pow_succ]
    omega
  rw [hpow, Nat.and_two_pow_sub_one_eq_mod, Nat.pow_succ, Nat.mul_comm]

theorem and_low_szm (hszm : szm + 1 = 2 * 2 ^ j) (x : ℕ) : x &&& (szm >>> 1) = x % 2 ^ j := by
  have hlow : szm >>> 1 = 2 ^ j - 1 := by
    rw [Nat.shiftRight_eq_div_pow]
    omega
  rw [hlow, Nat.and_two_pow_sub_one_eq_mod]

theorem next_szm (szm : ℕ) : (szm <<< 1) ||| 1 = 2 * szm + 1 := by
  rw [Nat.shiftLeft_eq, Nat.mul_comm]
  exact (Nat.two_pow_add_eq_or_of_lt (show 1 < 2 ^ 1 by decide) szm).symm

/-- `hash_to_ix` is linear hashing. -/
theorem hashToIx_eq (hszm : tb.szm + 1 = 2 * 2 ^ j) (hval : ℕ) :
    tb.hashToIx hval = linearSlot (2 ^ j) tb.nactive hval := by
  unfold DbTableHash.hashToIx linearSlot
  simp only [and_szm hszm, and_low_szm hszm, mod_two_mul_mod]
  split_ifs <;> first | rfl | omega

/-! ## Segments -/

/-- How many buckets a segment has. -/
def segSize (segIx : ℕ) : ℕ := if segIx = 0 then firstSegsz else extSegsz

/-- The segment table points to the first segment and `k` others. -/
def SegTab.Holds : SegTab → ℕ → ℕ → Prop
  | .first segtab, k, nsegs => k = 0 ∧ nsegs = nseg1 ∧ segtab 0 = some firstSegsz
  | .ext segtab prevSegtab prevNsegs, k, nsegs =>
    (∀ i ≤ k, segtab i = some (segSize i)) ∧ k < nsegs ∧ 0 < prevNsegs ∧ prevNsegs ≤ k ∧
      prevSegtab.Holds (prevNsegs - 1) prevNsegs

theorem SegTab.Holds.lt (h : tab.Holds k nsegs) : k < nsegs := by
  cases tab with
  | first segtab =>
    obtain ⟨rfl, rfl, -⟩ := h
    exact Nat.zero_lt_one
  | ext segtab prev p => exact h.2.1

theorem SegTab.Holds.seg (h : tab.Holds k nsegs) {i : ℕ} (hi : i ≤ k) :
    tab.seg i = some (segSize i) := by
  cases tab with
  | first segtab =>
    obtain ⟨rfl, -, hseg⟩ := h
    obtain rfl := Nat.le_zero.1 hi
    exact hseg
  | ext segtab prev p => exact h.1 i hi

theorem slotIxToSegIx_nslots (k : ℕ) : slotIxToSegIx (firstSegsz + extSegsz * k) = k + 1 := by
  simp only [slotIxToSegIx, firstSegsz, extSegsz]
  omega

/-- The bucket `i` is in one of the segments. -/
theorem slotIxToSegIx_le {i : ℕ} (hi : i < firstSegsz + extSegsz * k) : slotIxToSegIx i ≤ k := by
  simp only [firstSegsz, extSegsz] at hi
  simp only [slotIxToSegIx, firstSegsz, extSegsz]
  omega

theorem and_lt_segSize (i : ℕ) : i % extSegsz < segSize (slotIxToSegIx i) := by
  unfold segSize
  split
  case isTrue h =>
    simp only [slotIxToSegIx, firstSegsz, extSegsz] at h ⊢
    omega
  case isFalse h => exact Nat.mod_lt i (by decide)

/-- A shrink limit is only set if a whole segment can go. -/
def LimitOk (tb : DbTableHash Obj) : Prop :=
  tb.shrinkLimit ≠ 0 →
    tb.nlocks + extSegsz ≤ tb.nslots ∧ firstSegsz + 2 * extSegsz ≤ tb.nslots

theorem calcShrinkLimit_ok (tb : DbTableHash Obj) : LimitOk tb.calcShrinkLimit := by
  intro h
  simp only [DbTableHash.calcShrinkLimit] at h ⊢
  split_ifs at h with hc
  · exact Nat.max_le.1 hc.2
  · exact absurd rfl h

/-- There is room for the next segment. -/
theorem allocExtSegtab_spec (hsegs : tb.segtab.Holds k tb.nsegs) : ∃ segtab nsegs,
    (if k + 1 = tb.nsegs then tb.allocExtSegtab (k + 1) else tb) =
      { tb with segtab := segtab, nsegs := nsegs } ∧
    (segtab.setSeg (k + 1) (some extSegsz)).Holds (k + 1) nsegs := by
  have hsize : ∀ {segtab : ℕ → Option ℕ}, (∀ i ≤ k, segtab i = some (segSize i)) →
      ∀ i ≤ k + 1, Function.update segtab (k + 1) (some extSegsz) i = some (segSize i) := by
    intro segtab h i hi
    by_cases hik : i = k + 1
    · subst hik
      rw [Function.update_self]
      rfl
    · rw [Function.update_of_ne hik]
      exact h i (by omega)
  by_cases hnsegs : k + 1 = tb.nsegs
  · -- the table is full: the old one is kept behind the new one
    rw [if_pos hnsegs]
    refine ⟨_, _, rfl, hsize fun i hi => ?_, ?_, ?_, ?_, ?_⟩
    · rw [if_pos (by omega)]
      exact hsegs.seg hi
    · split_ifs with h1
      · simp only [nseg1, nseg2] at *
        omega
      · simp only [nsegInc]
        omega
    · omega
    · omega
    · rwa [← hnsegs, Nat.add_sub_cancel, hnsegs]
  · rw [if_neg hnsegs]
    refine ⟨tb.segtab, tb.nsegs, rfl, ?_⟩
    cases htab : tb.segtab with
    | first segtab =>
      rw [htab] at hsegs
      obtain ⟨rfl, hn, -⟩ := hsegs
      exact absurd hn.symm hnsegs
    | ext segtab prev p =>
      rw [htab] at hsegs
      obtain ⟨hseg, hlt, hp, hpk, hprev⟩ := hsegs
      exact ⟨hsize hseg, by omega, hp, by omega, hprev⟩

/-- A segment more. -/
theorem allocSeg_spec (hslots : tb.nslots = firstSegsz + extSegsz * k)
    (hsegs : tb.segtab.Holds k tb.nsegs) : ∃ segtab nsegs limit,
    tb.allocSeg false = { tb with
      nslots := firstSegsz + extSegsz * (k + 1)
      segtab := segtab
      nsegs := nsegs
      shrinkLimit := limit } ∧ segtab.Holds (k + 1) nsegs ∧ LimitOk (tb.allocSeg false) := by
  obtain ⟨segtab, nsegs, heq, hholds⟩ := allocExtSegtab_spec hsegs
  refine ⟨_, _, (tb.allocSeg false).shrinkLimit, ?_, hholds, calcShrinkLimit_ok _⟩
  simp only [DbTableHash.allocSeg, hslots, slotIxToSegIx_nslots, heq, Nat.mul_succ, Nat.add_assoc]
  rfl

/-- The last segment goes. -/
theorem removeSeg_spec (hslots : tb.nslots = firstSegsz + extSegsz * (k + 1))
    (hsegs : tb.segtab.Holds (k + 1) tb.nsegs) : ∃ segtab nsegs limit,
    tb.removeSeg = { tb with
      nslots := firstSegsz + extSegsz * k
      segtab := segtab
      nsegs := nsegs
      shrinkLimit := limit } ∧ segtab.Holds k nsegs ∧ LimitOk tb.removeSeg := by
  have hix : slotIxToSegIx tb.nslots - 1 = k + 1 := by
    rw [hslots, slotIxToSegIx_nslots, Nat.add_sub_cancel]
  have hn : tb.nslots - extSegsz = firstSegsz + extSegsz * k := by
    rw [hslots, Nat.mul_succ, ← Nat.add_assoc, Nat.add_sub_cancel]
  cases htab : tb.segtab with
  | first segtab =>
    rw [htab] at hsegs
    exact absurd hsegs.1 (Nat.succ_ne_zero k)
  | ext segtab prev p =>
    rw [htab] at hsegs
    obtain ⟨hseg, hlt, hp, hpk, hprev⟩ := hsegs
    by_cases hback : k + 1 = p
    · -- the first segment of its table: the one before is used again
      subst hback
      have heq : tb.removeSeg = DbTableHash.calcShrinkLimit { tb with
          nslots := firstSegsz + extSegsz * k, segtab := prev, nsegs := k + 1 } := by
        simp [DbTableHash.removeSeg, hix, htab, hn, nseg1]
      rw [heq]
      exact ⟨_, _, _, rfl, hprev, calcShrinkLimit_ok _⟩
    · have heq : tb.removeSeg = DbTableHash.calcShrinkLimit { tb with
          nslots := firstSegsz + extSegsz * k
          segtab := .ext (Function.update segtab (k + 1) none) prev p } := by
        simp [DbTableHash.removeSeg, hix, htab, hn, hback, hlt, SegTab.setSeg]
      rw [heq]
      refine ⟨_, _, _, rfl, ⟨fun i hi => ?_, Nat.lt_of_succ_lt hlt, hp, by omega, hprev⟩,
        calcShrinkLimit_ok _⟩
      rw [Function.update_of_ne (by omega)]
      exact hseg i (by omega)

/-! ## The invariant -/

/-- The mask is the least one for the active buckets. -/
def MaskOk (tb : DbTableHash Obj) : Prop :=
  ∃ j, tb.szm + 1 = 2 * 2 ^ j ∧ 2 ^ j < tb.nactive ∧ tb.nactive ≤ 2 * 2 ^ j

/-- The segment table points to the allocated buckets. -/
def SegsOk (tb : DbTableHash Obj) : Prop :=
  ∃ k, tb.nslots = firstSegsz + extSegsz * k ∧ tb.segtab.Holds k tb.nsegs

/-- The numbers of a table and its segment table. -/
structure Shape (tb : DbTableHash Obj) : Prop where
  mask : MaskOk tb
  segs : SegsOk tb
  allocated : tb.nactive ≤ tb.nslots
  used : tb.nslots < tb.nactive + extSegsz
  locks : tb.nlocks ≤ tb.nactive
  limit : LimitOk tb

/-- Tables that differ in their terms and counters only. -/
structure SameLayout (tb tb' : DbTableHash Obj) : Prop where
  nlocks : tb'.nlocks = tb.nlocks
  szm : tb'.szm = tb.szm
  nactive : tb'.nactive = tb.nactive
  nslots : tb'.nslots = tb.nslots
  shrinkLimit : tb'.shrinkLimit = tb.shrinkLimit
  segtab : tb'.segtab = tb.segtab
  nsegs : tb'.nsegs = tb.nsegs

theorem SameLayout.trans {tb' tb'' : DbTableHash Obj} (hs : SameLayout tb tb')
    (hs' : SameLayout tb' tb'') : SameLayout tb tb'' :=
  ⟨hs'.nlocks.trans hs.nlocks, hs'.szm.trans hs.szm, hs'.nactive.trans hs.nactive,
    hs'.nslots.trans hs.nslots, hs'.shrinkLimit.trans hs.shrinkLimit, hs'.segtab.trans hs.segtab,
    hs'.nsegs.trans hs.nsegs⟩

theorem SameLayout.hashToIx_eq {tb' : DbTableHash Obj} (hs : SameLayout tb tb') (hval : ℕ) :
    tb'.hashToIx hval = tb.hashToIx hval := by
  simp only [DbTableHash.hashToIx, hs.szm, hs.nactive]

theorem SameLayout.shape {tb' : DbTableHash Obj} (hs : SameLayout tb tb') (h : Shape tb) :
    Shape tb' := by
  obtain ⟨hmask, hsegs, hallocated, hused, hlocks, hlimit⟩ := h
  constructor
  · rwa [MaskOk, hs.szm, hs.nactive]
  · rwa [SegsOk, hs.nslots, hs.segtab, hs.nsegs]
  · rwa [hs.nactive, hs.nslots]
  · rwa [hs.nactive, hs.nslots]
  · rwa [hs.nlocks, hs.nactive]
  · rwa [LimitOk, hs.shrinkLimit, hs.nlocks, hs.nslots]

/-- A table while it is created. -/
structure Fresh (status : TableType) (nlocks : ℕ) (tb : DbTableHash Obj) : Prop where
  mask : MaskOk tb
  segs : SegsOk tb
  limit : LimitOk tb
  full : tb.nactive = tb.nslots
  status_eq : tb.status = status
  nlocks_eq : tb.nlocks = nlocks
  nitems_eq : tb.nitems = 0
  lockNitems_eq : ∀ j, tb.lockNitems j = 0
  fixCount_eq : tb.fixCount = 0
  fixdel_eq : tb.fixdel = []
  empty : ∀ i, tb.bucket i = []

variable {status : TableType} {nlocks : ℕ}

theorem maskOk_floor {n : ℕ} (hn : 1 < n) (hact : tb.nactive = n)
    (hszm : tb.szm = if 2 ^ Nat.log2 n ≠ n then 2 ^ Nat.log2 n * 2 - 1 else 2 ^ Nat.log2 n - 1) :
    MaskOk tb := by
  have hle := Nat.log2_self_le (show n ≠ 0 by omega)
  have hlt := Nat.lt_log2_self (n := n)
  have hpos := Nat.two_pow_pos (Nat.log2 n)
  rw [Nat.pow_succ] at hlt
  split_ifs at hszm with hpow
  · exact ⟨Nat.log2 n, by omega, by omega, by omega⟩
  · -- a power of two is the whole mask
    have hpow' : 2 ^ Nat.log2 n = n := not_not.1 hpow
    have hlog : Nat.log2 n ≠ 0 := by
      intro h0
      rw [h0] at hpow'
      omega
    obtain ⟨j, hj⟩ := Nat.exists_eq_succ_of_ne_zero hlog
    rw [hj, Nat.pow_succ] at hpow' hszm
    exact ⟨j, by omega, by omega, by omega⟩

theorem Fresh.allocSeg (h : Fresh status nlocks tb) : Fresh status nlocks (tb.allocSeg true) := by
  obtain ⟨k, hslots, hsegs⟩ := h.segs
  obtain ⟨segtab, nsegs, heq, hholds⟩ := allocExtSegtab_spec hsegs
  have hstep : tb.allocSeg true = DbTableHash.calcShrinkLimit { tb with
      nslots := firstSegsz + extSegsz * k + extSegsz
      segtab := segtab.setSeg (k + 1) (some extSegsz)
      nsegs := nsegs
      szm :=
        if 2 ^ Nat.log2 (tb.nactive + extSegsz) ≠ tb.nactive + extSegsz then
          2 ^ Nat.log2 (tb.nactive + extSegsz) * 2 - 1
        else 2 ^ Nat.log2 (tb.nactive + extSegsz) - 1
      nactive := tb.nactive + extSegsz
      bucket := fun i => if firstSegsz + extSegsz * k ≤ i ∧
        i < firstSegsz + extSegsz * k + extSegsz then [] else tb.bucket i } := by
    simp only [DbTableHash.allocSeg, hslots, slotIxToSegIx_nslots, heq, if_true]
  have hfull : tb.nactive + extSegsz = firstSegsz + extSegsz * k + extSegsz := by
    rw [h.full, hslots]
  rw [hstep]
  refine ⟨maskOk_floor (n := tb.nactive + extSegsz) ?_ rfl rfl,
    ⟨k + 1, (Nat.add_assoc ..).trans rfl, hholds⟩, calcShrinkLimit_ok _, hfull, h.status_eq,
    h.nlocks_eq, h.nitems_eq, h.lockNitems_eq, h.fixCount_eq, h.fixdel_eq, fun i => ?_⟩
  · exact Nat.lt_of_lt_of_le (by decide) (Nat.le_add_left extSegsz tb.nactive)
  · simp only [DbTableHash.calcShrinkLimit]
    split_ifs
    · rfl
    · exact h.empty i

theorem Fresh.expandToLocks {fuel : ℕ} (h : Fresh status nlocks tb)
    (hfuel : nlocks ≤ tb.nslots + extSegsz * fuel) :
    Fresh status nlocks (tb.expandToLocks fuel) ∧ nlocks ≤ (tb.expandToLocks fuel).nslots := by
  induction fuel generalizing tb with
  | zero => exact ⟨h, hfuel⟩
  | succ fuel ih =>
    rw [DbTableHash.expandToLocks]
    split_ifs with hgt
    · refine ih h.allocSeg (Nat.le_trans hfuel (Nat.le_of_eq ?_))
      have hn : (tb.allocSeg true).nslots = tb.nslots + extSegsz := by
        simp [DbTableHash.allocSeg, DbTableHash.calcShrinkLimit]
      rw [hn, Nat.mul_succ, Nat.add_assoc, Nat.add_comm extSegsz]
    · rw [h.nlocks_eq] at hgt
      exact ⟨h, Nat.le_of_not_lt hgt⟩

theorem create_fresh {isDecentralized : Bool}
    (htb : DbTableHash.create status isDecentralized nlocks = tb) :
    Fresh status nlocks tb ∧ nlocks ≤ tb.nslots := by
  subst htb
  have hpow : 2 ^ 7 < firstSegsz ∧ firstSegsz ≤ 2 * 2 ^ 7 := by decide
  refine Fresh.expandToLocks ⟨⟨7, rfl, hpow⟩, ⟨0, rfl, rfl, rfl, rfl⟩,
    fun h => absurd rfl h, rfl, rfl, rfl, rfl, fun _ => rfl, rfl, rfl, fun _ => rfl⟩ ?_
  simp only [extSegsz]
  omega

/-- **Creation.** -/
theorem create_shape (status : TableType) (isDecentralized : Bool) (nlocks : ℕ) :
    Shape (DbTableHash.create status isDecentralized nlocks : DbTableHash Obj) := by
  obtain ⟨h, hlocks⟩ := create_fresh rfl
  refine ⟨h.mask, h.segs, Nat.le_of_eq h.full, ?_, ?_, h.limit⟩
  · rw [h.full]
    exact Nat.lt_add_of_pos_right (by decide)
  · rwa [h.nlocks_eq, h.full]

/-! ## Hash values -/

/-- The bit that decides about the next bucket. -/
def DbTableHash.nextBit (tb : DbTableHash Obj) : ℕ := Nat.log2 tb.nactive

/-- The bucket that is split to get the next one. -/
def DbTableHash.splitIx (tb : DbTableHash Obj) : ℕ := tb.nactive - 2 ^ tb.nextBit

theorem MaskOk.pos (h : MaskOk tb) : 0 < tb.nactive := by
  obtain ⟨j, -, hlt, -⟩ := h
  exact Nat.zero_lt_of_lt hlt

theorem nextBit_le (h : 0 < tb.nactive) : 2 ^ tb.nextBit ≤ tb.nactive :=
  Nat.log2_self_le (Nat.pos_iff_ne_zero.1 h)

theorem lt_nextBit (tb : DbTableHash Obj) : tb.nactive < 2 * 2 ^ tb.nextBit := by
  rw [← Nat.pow_succ']
  exact Nat.lt_log2_self

theorem nextBit_eq (hle : 2 ^ j ≤ tb.nactive) (hlt : tb.nactive < 2 * 2 ^ j) : tb.nextBit = j := by
  have hpos : tb.nactive ≠ 0 := Nat.pos_iff_ne_zero.1 (Nat.lt_of_lt_of_le (Nat.two_pow_pos j) hle)
  refine (Nat.log2_eq_iff hpos).2 ⟨hle, ?_⟩
  rwa [Nat.pow_succ']

/-- `hash_to_ix` with the bit of the next bucket: it is not used yet if all bits are. -/
theorem MaskOk.hashToIx_eq (h : MaskOk tb) (hval : ℕ) :
    tb.hashToIx hval = linearSlot (2 ^ tb.nextBit) tb.nactive hval := by
  obtain ⟨j, hszm, hlt, hle⟩ := h
  rcases Nat.lt_or_eq_of_le hle with hle | heq
  · rw [nextBit_eq (Nat.le_of_lt hlt) hle, EtsHash.hashToIx_eq hszm]
  · have hbit : tb.nextBit = j + 1 := by
      apply nextBit_eq
      · rw [Nat.pow_succ']
        exact Nat.le_of_eq heq.symm
      · have hpos := Nat.two_pow_pos j
        rw [Nat.pow_succ']
        omega
    rw [hbit, EtsHash.hashToIx_eq hszm, Nat.pow_succ', heq, linearSlot_full (Nat.two_pow_pos j)]

theorem MaskOk.hashToIx_lt (h : MaskOk tb) (hval : ℕ) : tb.hashToIx hval < tb.nactive := by
  rw [h.hashToIx_eq]
  exact linearSlot_lt (Nat.two_pow_pos _) (nextBit_le h.pos)

/-- **One bucket more** takes its hash values from one other bucket. -/
theorem MaskOk.hashToIx_succ {tb' : DbTableHash Obj} (h : MaskOk tb) (h' : MaskOk tb')
    (hnext : tb'.nactive = tb.nactive + 1) (hval : ℕ) : tb'.hashToIx hval =
      if hval % (2 * 2 ^ tb.nextBit) = tb.nactive then tb.nactive else tb.hashToIx hval := by
  obtain ⟨j, hszm, hlt, hle⟩ := h'
  have hbit : tb.nextBit = j := nextBit_eq (by omega) (by omega)
  rw [EtsHash.hashToIx_eq hszm, h.hashToIx_eq, hbit, hnext, linearSlot_succ]

theorem MaskOk.splitIx_lt (h : MaskOk tb) : tb.splitIx < tb.nactive := by
  have hpos := Nat.two_pow_pos tb.nextBit
  have hle := nextBit_le h.pos
  unfold DbTableHash.splitIx
  omega

/-- The hash values of the bucket that is split. -/
theorem MaskOk.mod_of_splitIx (h : MaskOk tb) {hval : ℕ} (hix : tb.hashToIx hval = tb.splitIx) :
    hval % (2 * 2 ^ tb.nextBit) = tb.splitIx ∨ hval % (2 * 2 ^ tb.nextBit) = tb.nactive := by
  rw [h.hashToIx_eq] at hix
  exact linearSlot_split (Nat.two_pow_pos _) (nextBit_le h.pos) hix

/-- The bucket of a hash value for the next one. -/
theorem MaskOk.hashToIx_of_next (h : MaskOk tb) {hval : ℕ}
    (hmod : hval % (2 * 2 ^ tb.nextBit) = tb.nactive) : tb.hashToIx hval = tb.splitIx := by
  rw [h.hashToIx_eq]
  exact linearSlot_of_next (nextBit_le h.pos) (lt_nextBit tb) hmod

/-- They differ in the next bit. -/
theorem MaskOk.testBit_of_splitIx (h : MaskOk tb) {hval : ℕ}
    (hix : tb.hashToIx hval = tb.splitIx) :
    hval.testBit tb.nextBit = decide (hval % (2 * 2 ^ tb.nextBit) = tb.nactive) := by
  have hdiv : hval / 2 ^ tb.nextBit % 2 = hval % (2 * 2 ^ tb.nextBit) / 2 ^ tb.nextBit := by
    rw [Nat.mul_comm, Nat.mod_mul_right_div_self]
  have hpos := Nat.two_pow_pos tb.nextBit
  have hle := nextBit_le h.pos
  have hlt := lt_nextBit tb
  rw [Nat.testBit_eq_decide_div_mod_eq, hdiv]
  rcases h.mod_of_splitIx hix with hmod | hmod
  · rw [hmod, Nat.div_eq_of_lt (by unfold DbTableHash.splitIx; omega)]
    exact decide_eq_decide.2 ⟨nofun, fun heq => absurd heq (Nat.ne_of_lt h.splitIx_lt)⟩
  · rw [hmod, Nat.div_eq_of_lt_le (k := 1) (by omega) (by omega)]
    exact decide_eq_decide.2 ⟨fun _ => rfl, fun _ => rfl⟩

end

end PonBeam.EtsHash
