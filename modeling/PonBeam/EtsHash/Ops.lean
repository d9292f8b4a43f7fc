import PonBeam.EtsHash.Model
import PonBeam.Lib.MachineInt

/-!
# The operations of a hash table

`db_put_hash`, `db_get_hash`, `db_member_hash`, `db_erase_hash`, `db_erase_object_hash`,
`db_unfix_table_hash`, and the fixations of `erl_db.c`. The loops of the two deletions count in
`int`s, which wrap.
-/

namespace PonBeam.EtsHash

section

variable {Key Obj : Type} [DecidableEq Key] [DecidableEq Obj] (T : Terms Key Obj)

/-- `has_live_key` -/
def hasLiveKey (b : HashDbTerm Obj) (key : Key) (hval : ℕ) : Bool :=
  if b.hvalue ≠ hval ∨ b.pseudoDeleted then false else key = T.getkey b.dbterm

/-- `has_key` -/
def hasKey (b : HashDbTerm Obj) (key : Key) (hval : ℕ) : Bool :=
  if b.hvalue ≠ hval then false else key = T.getkey b.dbterm

/-! ## Inserting -/

/-- Where `db_put_hash` goes at a term with the key. -/
inductive PutAt (Obj : Type) : Type where
  /-- `goto Lnew` -/
  | new (reds : ℕ)
  /-- `goto Ldone`, with the bucket from that term on; `added` is what `INC_NITEMS` counts. -/
  | done (ret : DbError) (added : ℤ) (reds : ℕ) (rest : List (HashDbTerm Obj))

/-- The loop of `db_put_hash` over a bag: the terms of the key before the object, its term and
the terms after it. -/
def findObject (obj : Obj) (key : Key) (hval : ℕ) : List (HashDbTerm Obj) →
    Option (List (HashDbTerm Obj) × HashDbTerm Obj × List (HashDbTerm Obj))
  | [] => none
  | q :: qs =>
    if hasKey T q key hval then
      if obj = q.dbterm then some ([], q, qs)
      else (findObject obj key hval qs).map fun found => (q :: found.1, found.2)
    else none

/-- `db_put_hash` at the first term `b` with the key. -/
def putAtKey (status : TableType) (obj : Obj) (key : Key) (hval : ℕ) (keyClashFail : Bool)
    (b : HashDbTerm Obj) (bs : List (HashDbTerm Obj)) : PutAt Obj :=
  match status with
  | .set =>
    if b.pseudoDeleted then
      .done .none 1 0 ({ b with dbterm := obj, pseudoDeleted := false } :: bs)
    else if keyClashFail then .done .badkey 0 0 (b :: bs)
    else .done .none 0 0 ({ b with dbterm := obj } :: bs)
  | .bag =>
    let group := (b :: bs).takeWhile (hasKey T · key hval)
    if keyClashFail then
      if group.any (!·.pseudoDeleted) then .done .badkey 0 0 (b :: bs) else .new 0
    else
      match findObject T obj key hval (b :: bs) with
      | none => .new group.length
      | some (before, q, after) =>
        if q.pseudoDeleted then
          -- in front of the others, as it is the last one inserted
          .done .none 1 before.length ({ q with pseudoDeleted := false } :: (before ++ after))
        else .done .none 0 before.length (b :: bs)
  | .duplicateBag =>
    let group := (b :: bs).takeWhile (hasKey T · key hval)
    if keyClashFail then
      if group.any (!·.pseudoDeleted) then .done .badkey 0 0 (b :: bs) else .new 0
    else .new 0

/-- `db_put_hash` with the bucket from the first term with the key on, if there is one. -/
def putPlace (status : TableType) (obj : Obj) (key : Key) (hval : ℕ) (keyClashFail : Bool) :
    List (HashDbTerm Obj) → PutAt Obj
  | [] => .new 0
  | b :: bs => putAtKey T status obj key hval keyClashFail b bs

/-- `Lnew` and `Ldone` of `db_put_hash` -/
def finishPut (tb : DbTableHash Obj) (obj : Obj) (hval ix : ℕ) (before rest : List (HashDbTerm Obj)) :
    PutAt Obj → DbError × ℕ × DbTableHash Obj
  | .done ret added reds rest =>
    let tb := { tb with bucket := Function.update tb.bucket ix (before ++ rest) }
    (ret, reds, if added = 0 then tb else tb.addNitems hval added)
  | .new reds =>
    let q : HashDbTerm Obj := { dbterm := obj, hvalue := hval, pseudoDeleted := false }
    let tb := { tb with bucket := Function.update tb.bucket ix (before ++ q :: rest) }
    let tb := tb.incNitems hval
    let nitems : ℤ := tb.nitemsEstimate hval
    (.none, reds, if nitems > growLimit tb.nactive ∧ ¬ tb.isFixed then tb.grow nitems else tb)

/-- `db_put_hash`: what it returns and the reductions it consumes. -/
def dbPutHash (tb : DbTableHash Obj) (obj : Obj) (keyClashFail : Bool) :
    DbError × ℕ × DbTableHash Obj :=
  let key := T.getkey obj
  let hval := T.makeHash key
  let ix := tb.hashToIx hval
  let before := (tb.bucket ix).takeWhile (!hasKey T · key hval)
  let rest := (tb.bucket ix).dropWhile (!hasKey T · key hval)
  finishPut tb obj hval ix before rest (putPlace T tb.status obj key hval keyClashFail rest)

/-! ## Looking up -/

/-- `build_term_list`: the list it makes is the other way round. -/
def buildTermList (ptrs : List (HashDbTerm Obj)) : List Obj :=
  ptrs.foldl (fun list ptr => if ptr.pseudoDeleted then list else ptr.dbterm :: list) []

/-- `get_term_list` -/
def getTermList (tb : DbTableHash Obj) (key : Key) (hval : ℕ) (b1 : HashDbTerm Obj)
    (bs : List (HashDbTerm Obj)) : List Obj :=
  match tb.status with
  | .set => buildTermList [b1]
  | .bag | .duplicateBag => buildTermList (b1 :: bs.takeWhile (hasKey T · key hval))

/-- `db_get_hash` -/
def dbGetHash (tb : DbTableHash Obj) (key : Key) : List Obj :=
  let hval := T.makeHash key
  match (tb.bucket (tb.hashToIx hval)).dropWhile (!hasLiveKey T · key hval) with
  | [] => []
  | b :: bs => getTermList T tb key hval b bs

/-- `db_member_hash` -/
def dbMemberHash (tb : DbTableHash Obj) (key : Key) : Bool :=
  let hval := T.makeHash key
  (tb.bucket (tb.hashToIx hval)).any (hasLiveKey T · key hval)

/-! ## Deleting -/

/-- `add_fixed_deletion`; in a fixed table it succeeds. -/
def addFixedDeletion (fixdel : List FixedDeletion) (ix : ℕ) : List FixedDeletion :=
  { slot := ix, all := false } :: fixdel

/-- The loop of `db_erase_hash`: the bucket, `nitems_diff` and `fixdel` after it. -/
def eraseLoop (fixed : Bool) (ix : ℕ) (key : Key) (hval : ℕ) : List (HashDbTerm Obj) → ℤ →
    List FixedDeletion → List (HashDbTerm Obj) × ℤ × List FixedDeletion
  | [], diff, fixdel => ([], diff, fixdel)
  | b :: bs, diff, fixdel =>
    if hasLiveKey T b key hval then
      let diff := wrapInt (diff - 1)
      if diff = -1 ∧ fixed then
        let rest := eraseLoop fixed ix key hval bs diff (addFixedDeletion fixdel ix)
        ({ b with pseudoDeleted := true } :: rest.1, rest.2)
      else eraseLoop fixed ix key hval bs diff fixdel
    else if diff ≠ 0 ∧ ¬ b.pseudoDeleted then (b :: bs, diff, fixdel)
    else
      let rest := eraseLoop fixed ix key hval bs diff fixdel
      (b :: rest.1, rest.2)

/-- The loop of `db_erase_object_hash`. -/
def eraseObjectLoop (status : TableType) (fixed : Bool) (ix : ℕ) (obj : Obj) (key : Key)
    (hval : ℕ) : List (HashDbTerm Obj) → ℤ → ℤ → List FixedDeletion →
    List (HashDbTerm Obj) × ℤ × List FixedDeletion
  | [], _, diff, fixdel => ([], diff, fixdel)
  | b :: bs, nkeys, diff, fixdel =>
    if hasLiveKey T b key hval then
      let nkeys := wrapInt (nkeys + 1)
      if obj = b.dbterm then
        let diff := wrapInt (diff - 1)
        if nkeys = 1 ∧ fixed then
          let b := { b with pseudoDeleted := true }
          let fixdel := addFixedDeletion fixdel ix
          if status = .duplicateBag then
            let rest := eraseObjectLoop status fixed ix obj key hval bs nkeys diff fixdel
            (b :: rest.1, rest.2)
          else (b :: bs, diff, fixdel)
        else if status = .duplicateBag then
          eraseObjectLoop status fixed ix obj key hval bs nkeys diff fixdel
        else (bs, diff, fixdel)
      else
        let rest := eraseObjectLoop status fixed ix obj key hval bs nkeys diff fixdel
        (b :: rest.1, rest.2)
    else if diff ≠ 0 ∧ ¬ b.pseudoDeleted then (b :: bs, diff, fixdel)
    else
      let rest := eraseObjectLoop status fixed ix obj key hval bs nkeys diff fixdel
      (b :: rest.1, rest.2)

/-- What `db_erase_hash` and `db_erase_object_hash` do after their loops. -/
def finishErase (tb : DbTableHash Obj) (ix hval : ℕ)
    (r : List (HashDbTerm Obj) × ℤ × List FixedDeletion) : DbTableHash Obj :=
  let tb := { tb with bucket := Function.update tb.bucket ix r.1, fixdel := r.2.2 }
  if r.2.1 ≠ 0 then
    let tb := tb.addNitems hval r.2.1
    tb.tryShrink (tb.nitemsEstimate hval)
  else tb

/-- `db_erase_hash` -/
def dbEraseHash (tb : DbTableHash Obj) (key : Key) : DbTableHash Obj :=
  let hval := T.makeHash key
  let ix := tb.hashToIx hval
  finishErase tb ix hval (eraseLoop T tb.isFixed ix key hval (tb.bucket ix) 0 tb.fixdel)

/-- `db_erase_object_hash` -/
def dbEraseObjectHash (tb : DbTableHash Obj) (obj : Obj) : DbTableHash Obj :=
  let key := T.getkey obj
  let hval := T.makeHash key
  let ix := tb.hashToIx hval
  finishErase tb ix hval
    (eraseObjectLoop T tb.status tb.isFixed ix obj key hval (tb.bucket ix) 0 0 tb.fixdel)

/-! ## Fixations -/

/-- The buckets a `FixedDeletion` stands for, in the order `db_unfix_table_hash` purges them. -/
def FixedDeletion.slots (fixdel : FixedDeletion) : List ℕ :=
  if fixdel.all then (List.range (fixdel.slot + 1)).reverse else [fixdel.slot]

/-- Remove the pseudo-deleted terms of a bucket. -/
def purgeSlot (tb : DbTableHash Obj) (slot : ℕ) : DbTableHash Obj :=
  if slot < tb.nactive then
    { tb with bucket := Function.update tb.bucket slot ((tb.bucket slot).filter (!·.pseudoDeleted)) }
  else tb

/-- `db_unfix_table_hash`; a table that is fixed again keeps its list. -/
def dbUnfixTableHash (tb : DbTableHash Obj) : DbTableHash Obj :=
  if tb.isFixed then tb
  else { (tb.fixdel.flatMap FixedDeletion.slots).foldl purgeSlot tb with fixdel := [] }

/-- `fix_table_locked` -/
def fixTable (tb : DbTableHash Obj) : DbTableHash Obj := { tb with fixCount := tb.fixCount + 1 }

/-- `unfix_table_locked`, called only for a fixed table; the last one purges it. -/
def unfixTable (tb : DbTableHash Obj) : DbTableHash Obj :=
  if tb.isFixed then
    let tb := { tb with fixCount := tb.fixCount - 1 }
    if ¬ tb.isFixed ∧ tb.fixdel ≠ [] then dbUnfixTableHash tb else tb
  else tb

/-! ## Sequences of operations -/

/-- An operation. -/
inductive Op (Key Obj : Type) : Type where
  /-- `insert`, or `insert_new` if `keyClashFail` -/
  | put (obj : Obj) (keyClashFail : Bool)
  /-- `lookup` -/
  | get (key : Key)
  /-- `member` -/
  | member (key : Key)
  /-- `delete` -/
  | erase (key : Key)
  /-- `delete_object` -/
  | eraseObject (obj : Obj)
  /-- `safe_fixtable(true)` -/
  | fix
  /-- `safe_fixtable(false)` -/
  | unfix

/-- What it answers. -/
inductive Answer (Obj : Type) : Type where
  /-- an insertion -/
  | put (ret : DbError)
  /-- the objects of the key -/
  | got (objs : List Obj)
  /-- is there one? -/
  | member (found : Bool)
  /-- `true` -/
  | ok

/-- One operation. -/
def DbTableHash.step (tb : DbTableHash Obj) : Op Key Obj → Answer Obj × DbTableHash Obj
  | .put obj keyClashFail =>
    let r := dbPutHash T tb obj keyClashFail
    (.put r.1, r.2.2)
  | .get key => (.got (dbGetHash T tb key), tb)
  | .member key => (.member (dbMemberHash T tb key), tb)
  | .erase key => (.ok, dbEraseHash T tb key)
  | .eraseObject obj => (.ok, dbEraseObjectHash T tb obj)
  | .fix => (.ok, fixTable tb)
  | .unfix => (.ok, unfixTable tb)

/-- A sequence of operations, with their answers. -/
def DbTableHash.run (tb : DbTableHash Obj) : List (Op Key Obj) → List (Answer Obj) × DbTableHash Obj
  | [] => ([], tb)
  | op :: ops =>
    let first := tb.step T op
    let rest := DbTableHash.run first.2 ops
    (first.1 :: rest.1, rest.2)

end

end PonBeam.EtsHash
