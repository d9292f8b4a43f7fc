import Mathlib.Algebra.Group.Nat.Defs
import Mathlib.Data.Int.Notation
import Mathlib.Data.Nat.Notation
import Mathlib.Logic.Function.Basic

/-!
# Hash tables (`erl_db_hash.c`)

The operations of a `set`, a `bag` and a `duplicate_bag`, one after the other, with fixations
and with the growing and shrinking they bring about. A bucket is the list of its terms; a loop
over it is a function on lists. One operation runs at a time, so locks, races with a fixer and
the flag `is_resizing` are left out; the item counters and the number of locks are not, since
they decide when a table grows and shrinks. Counters are never negative here, so that signed
and unsigned comparisons agree.
-/

namespace PonBeam.EtsHash

/-! ## Data -/

/-- `DB_SET`, `DB_BAG`, `DB_DUPLICATE_BAG` -/
inductive TableType : Type where
  /-- one object for each key -/
  | set
  /-- distinct objects -/
  | bag
  /-- any objects -/
  | duplicateBag
  deriving DecidableEq, Repr

/-- What the table asks of terms: the tuple's element at `keypos`, and the hash of a key. Two
terms are equal if they are the same. -/
structure Terms (Key Obj : Type) where
  /-- `GETKEY` -/
  getkey : Obj → Key
  /-- `MAKE_HASH` -/
  makeHash : Key → ℕ

/-- `HashDbTerm` -/
structure HashDbTerm (Obj : Type) where
  /-- the object -/
  dbterm : Obj
  /-- the hash of its key -/
  hvalue : ℕ
  /-- deleted, but not removed yet -/
  pseudoDeleted : Bool
  deriving DecidableEq, Repr

/-- `FixedDeletion` -/
structure FixedDeletion where
  /-- a bucket with a pseudo-deleted term -/
  slot : ℕ
  /-- are those before it meant too? -/
  all : Bool
  deriving DecidableEq, Repr

/-- The sizes of the segments that a segment table points to; a freed segment is `none`. -/
inductive SegTab : Type where
  /-- `first_segtab` -/
  | first (segtab : ℕ → Option ℕ)
  /-- `struct ext_segtab` -/
  | ext (segtab : ℕ → Option ℕ) (prevSegtab : SegTab) (prevNsegs : ℕ)

/-- `DbTableHash` -/
structure DbTableHash (Obj : Type) where
  /-- `common.status` -/
  status : TableType
  /-- the item counter -/
  nitems : ℤ
  /-- `IS_DECENTRALIZED_CTRS` -/
  isDecentralized : Bool
  /-- the item counters of the locks -/
  lockNitems : ℕ → ℤ
  /-- `common.fix_count` -/
  fixCount : ℕ
  /-- number of locks -/
  nlocks : ℕ
  /-- mask of hash values -/
  szm : ℕ
  /-- number of active buckets -/
  nactive : ℕ
  /-- number of allocated buckets -/
  nslots : ℕ
  /-- shrink below so many items -/
  shrinkLimit : ℕ
  /-- `SEGTAB` -/
  segtab : SegTab
  /-- length of the segment table -/
  nsegs : ℕ
  /-- the buckets -/
  bucket : ℕ → List (HashDbTerm Obj)
  /-- where there are pseudo-deleted terms -/
  fixdel : List FixedDeletion

/-- What an operation returns. -/
inductive DbError : Type where
  /-- `DB_ERROR_NONE` -/
  | none
  /-- `DB_ERROR_BADKEY` -/
  | badkey
  deriving DecidableEq, Repr

/-! ## Constants -/

/-- `NLOCKS_WITH_ITEM_COUNTERS` -/
def nlocksWithItemCounters : ℕ := 64

/-- `FIRST_SEGSZ` -/
def firstSegsz : ℕ := 256

/-- `EXT_SEGSZ` -/
def extSegsz : ℕ := 2048

/-- `NSEG_1`: there is room for one segment in the table itself -/
def nseg1 : ℕ := 1

/-- `NSEG_2` -/
def nseg2 : ℕ := 256

/-- `NSEG_INC` -/
def nsegInc : ℕ := 128

/-- `GROW_LIMIT` -/
def growLimit (nactive : ℕ) : ℕ := nactive * 1

/-- `SLOT_IX_TO_SEG_IX` -/
def slotIxToSegIx (i : ℕ) : ℕ := (i + (extSegsz - firstSegsz)) / extSegsz

namespace SegTab

/-- `segtab[segIx]` -/
def seg : SegTab → ℕ → Option ℕ
  | first segtab, segIx => segtab segIx
  | ext segtab _ _, segIx => segtab segIx

/-- `segtab[segIx] = segp` -/
def setSeg (segIx : ℕ) (segp : Option ℕ) : SegTab → SegTab
  | first segtab => first (Function.update segtab segIx segp)
  | ext segtab prevSegtab prevNsegs =>
    ext (Function.update segtab segIx segp) prevSegtab prevNsegs

end SegTab

section

variable {Key Obj : Type} [DecidableEq Key] [DecidableEq Obj]

namespace DbTableHash

variable (tb : DbTableHash Obj)

/-! ## Counters -/

/-- `IS_FIXED` -/
def isFixed : Bool := tb.fixCount ≠ 0

/-- `NITEMS_ESTIMATE` -/
def nitemsEstimate (hash : ℕ) : ℤ :=
  if tb.isDecentralized then
    tb.lockNitems (hash % nlocksWithItemCounters) * nlocksWithItemCounters
  else tb.nitems

/-- `ADD_NITEMS` -/
def addNitems (hash : ℕ) (toAdd : ℤ) : DbTableHash Obj :=
  { tb with
    lockNitems :=
      if tb.isDecentralized then
        Function.update tb.lockNitems (hash % nlocksWithItemCounters)
          (tb.lockNitems (hash % nlocksWithItemCounters) + toAdd)
      else tb.lockNitems
    nitems := tb.nitems + toAdd }

/-- `INC_NITEMS` -/
def incNitems (hash : ℕ) : DbTableHash Obj := tb.addNitems hash 1

/-! ## Segments -/

/-- `calc_shrink_limit` -/
def calcShrinkLimit : DbTableHash Obj :=
  let neededSlots := 100 * nlocksWithItemCounters
  let sampleSizeIsEnough : Bool := ¬ (tb.isDecentralized ∧ tb.nslots < neededSlots)
  { tb with
    shrinkLimit :=
      if sampleSizeIsEnough ∧
          tb.nslots ≥ max (tb.nlocks + extSegsz) (firstSegsz + 2 * extSegsz) then
        (tb.nslots - extSegsz) / 2
      else 0 }

/-- `alloc_ext_segtab`, and the two assignments after it -/
def allocExtSegtab (segIx : ℕ) : DbTableHash Obj :=
  let copy := fun i => if i < tb.nsegs then tb.segtab.seg i else none
  { tb with
    segtab := .ext copy tb.segtab tb.nsegs
    nsegs := if segIx = nseg1 then nseg2 else segIx + nsegInc }

/-- `alloc_seg` -/
def allocSeg (activateBuckets : Bool) : DbTableHash Obj :=
  let old := tb.nslots
  let segIx := slotIxToSegIx old
  let tb := if segIx = tb.nsegs then tb.allocExtSegtab segIx else tb
  let tb := { tb with segtab := tb.segtab.setSeg segIx (some extSegsz), nslots := old + extSegsz }
  let tb :=
    if activateBuckets then
      let nactiveNow := tb.nactive + extSegsz
      let floor2Mult := 2 ^ Nat.log2 nactiveNow
      { tb with
        szm := if floor2Mult ≠ nactiveNow then floor2Mult * 2 - 1 else floor2Mult - 1
        bucket := fun i => if old ≤ i ∧ i < tb.nslots then [] else tb.bucket i
        nactive := nactiveNow }
    else tb
  tb.calcShrinkLimit

/-- `remove_seg` of an empty segment, and `dealloc_seg` -/
def removeSeg : DbTableHash Obj :=
  let segIx := slotIxToSegIx tb.nslots - 1
  let tb :=
    match tb.segtab with
    | .first _ => tb
    | .ext _ prevSegtab prevNsegs =>
      if segIx ≥ nseg1 ∧ segIx = prevNsegs then
        { tb with segtab := prevSegtab, nsegs := prevNsegs }
      else tb
  let segSz := if segIx = 0 then firstSegsz else extSegsz
  { tb with
    nslots := tb.nslots - segSz
    segtab := if segIx < tb.nsegs then tb.segtab.setSeg segIx none else tb.segtab }.calcShrinkLimit

/-- `while (tb->nlocks > tb->nslots)` of `db_create_hash` -/
def expandToLocks : ℕ → DbTableHash Obj → DbTableHash Obj
  | 0, tb => tb
  | fuel + 1, tb => if tb.nlocks > tb.nslots then expandToLocks fuel (tb.allocSeg true) else tb

/-- What a table is to do about locks. -/
inductive Locking : Type where
  /-- no `DB_FINE_LOCKED` -/
  | none
  /-- `DB_FINE_LOCKED_AUTO` -/
  | auto
  /-- so many, or as many as are usual for 0 -/
  | fixed (nlocks : ℕ)

/-- The number of locks in `db_create_hash`, with `DB_HASH_LOCK_CNT` = 64. -/
def Locking.nlocks : Locking → ℕ
  | .none => 1
  | .auto => nlocksWithItemCounters
  | .fixed nlocks => max (2 ^ Nat.log2 (if nlocks = 0 then 64 else nlocks)) nlocksWithItemCounters

/-- `db_create_hash` with the number of locks that was found -/
def create (status : TableType) (isDecentralized : Bool) (nlocks : ℕ) : DbTableHash Obj :=
  expandToLocks nlocks
    { status := status
      nitems := 0
      isDecentralized := isDecentralized
      lockNitems := fun _ => 0
      fixCount := 0
      nlocks := nlocks
      szm := firstSegsz - 1
      nactive := firstSegsz
      nslots := firstSegsz
      shrinkLimit := 0
      segtab := .first fun i => if i = 0 then some firstSegsz else none
      nsegs := nseg1
      bucket := fun _ => []
      fixdel := [] }

/-! ## Growing and shrinking -/

/-- `hash_to_ix` -/
def hashToIx (hval : ℕ) : ℕ :=
  let ix := hval &&& tb.szm
  if ix ≥ tb.nactive then ix &&& (tb.szm >>> 1) else ix

end DbTableHash

/-- The `while` of `grow`: the terms of the bucket `fromIx`, and the others. At a term of the
other bucket the two change places. -/
def splitBucket (szm : ℕ) : List (HashDbTerm Obj) → ℕ →
    List (HashDbTerm Obj) × List (HashDbTerm Obj)
  | [], _ => ([], [])
  | p :: ps, fromIx =>
    if p.pseudoDeleted then splitBucket szm ps fromIx
    else
      let ix := p.hvalue &&& szm
      if ix ≠ fromIx then
        let rest := splitBucket szm ps ix
        (rest.2, p :: rest.1)
      else
        let rest := splitBucket szm ps fromIx
        (p :: rest.1, rest.2)

/-- The `while` of `shrink`: what is live of `src`, then `tail`. -/
def joinBuckets (tail : List (HashDbTerm Obj)) : List (HashDbTerm Obj) → List (HashDbTerm Obj)
  | [] => tail
  | p :: ps => if p.pseudoDeleted then joinBuckets tail ps else p :: joinBuckets tail ps

namespace DbTableHash

variable (tb : DbTableHash Obj)

/-- A turn of `grow`, and whether it came to the end. -/
def growTurn (nitems : ℤ) : DbTableHash Obj × Bool :=
  if nitems ≤ growLimit tb.nactive then (tb, false)
  else
    let tb := if tb.nactive = tb.nslots then tb.allocSeg false else tb
    let fromIx := if tb.nactive ≤ tb.szm then tb.nactive &&& (tb.szm >>> 1) else 0
    let szm := if tb.nactive ≤ tb.szm then tb.szm else (tb.szm <<< 1) ||| 1
    let toIx := tb.nactive
    if tb.isFixed then (tb, false)
    else
      let parts := splitBucket szm (tb.bucket fromIx) fromIx
      ({ tb with
        nactive := tb.nactive + 1
        szm := if fromIx = 0 then szm else tb.szm
        bucket := Function.update (Function.update tb.bucket fromIx parts.1) toIx parts.2 }, true)

/-- `grow`, with so many turns left -/
def growLoop (nitems : ℤ) : ℕ → DbTableHash Obj → DbTableHash Obj
  | 0, tb => tb
  | limit + 1, tb =>
    let turn := tb.growTurn nitems
    if turn.2 ∧ nitems > growLimit turn.1.nactive then growLoop nitems limit turn.1 else turn.1

/-- `grow` -/
def grow (nitems : ℤ) : DbTableHash Obj := growLoop nitems 5 tb

/-- A turn of `shrink`, and whether it came to the end. -/
def shrinkTurn (nitems : ℤ) : DbTableHash Obj × Bool :=
  if ¬ nitems < tb.shrinkLimit then (tb, false)
  else
    let srcIx := tb.nactive - 1
    let lowSzm := tb.szm >>> 1
    let dstIx := srcIx &&& lowSzm
    if tb.isFixed then (tb, false)
    else
      let src := tb.bucket srcIx
      let tb := { tb with nactive := srcIx, szm := if dstIx = 0 then lowSzm else tb.szm }
      let tb := if tb.nslots - srcIx ≥ extSegsz then tb.removeSeg else tb
      ({ tb with
        bucket :=
          if src ≠ [] then
            Function.update tb.bucket dstIx (joinBuckets (tb.bucket dstIx) src)
          else tb.bucket }, true)

/-- `shrink`, with so many turns left -/
def shrinkLoop (nitems : ℤ) : ℕ → DbTableHash Obj → DbTableHash Obj
  | 0, tb => tb
  | limit + 1, tb =>
    let turn := tb.shrinkTurn nitems
    if turn.2 ∧ nitems < turn.1.shrinkLimit then shrinkLoop nitems limit turn.1 else turn.1

/-- `shrink` -/
def shrink (nitems : ℤ) : DbTableHash Obj := shrinkLoop nitems 5 tb

/-- `try_shrink` -/
def tryShrink (nitems : ℤ) : DbTableHash Obj :=
  if nitems < tb.shrinkLimit ∧ ¬ tb.isFixed then tb.shrink nitems else tb

end DbTableHash

end

end PonBeam.EtsHash
