import PonBeam.EtsHash.Refine

/-!
# `first` and `next` on a hash table

A traversal keeps nothing but the key it was given last: `db_next_hash` looks for the key again
and goes on behind it. The buckets are visited lock by lock.
-/

namespace PonBeam.EtsHash

section

variable {Key Obj : Type} [DecidableEq Key] [DecidableEq Obj] (T : Terms Key Obj)

/-! ## The functions -/

/-- `next_slot`, 0 if there are no more; `next_slot_w` differs in the locks it takes -/
def DbTableHash.nextSlot (tb : DbTableHash Obj) (ix : ℕ) : ℕ :=
  let ix := ix + tb.nlocks
  if ix < tb.nactive then ix else (ix + 1) &&& (tb.nlocks - 1)

/-- A term with its bucket and the terms behind it. -/
abbrev Position (Obj : Type) : Type := ℕ × HashDbTerm Obj × List (HashDbTerm Obj)

/-- More than the buckets that come after each other. -/
def DbTableHash.slotFuel (tb : DbTableHash Obj) : ℕ := tb.nlocks * tb.nactive

/-- The `while` of `next_live` -/
def nextLiveSlot (tb : DbTableHash Obj) : ℕ → ℕ → Option (Position Obj)
  | 0, _ => none
  | fuel + 1, i =>
    let i := tb.nextSlot i
    if i = 0 then none
    else
      match (tb.bucket i).dropWhile (·.pseudoDeleted) with
      | [] => nextLiveSlot tb fuel i
      | list :: next => some (i, list, next)

/-- `next_live` -/
def nextLive (tb : DbTableHash Obj) (iptr : ℕ) (list : List (HashDbTerm Obj)) :
    Option (Position Obj) :=
  match list.dropWhile (·.pseudoDeleted) with
  | [] => nextLiveSlot tb tb.slotFuel iptr
  | list :: next => some (iptr, list, next)

/-- `db_first_hash`, `none` for `'$end_of_table'` -/
def dbFirstHash (tb : DbTableHash Obj) : Option Key :=
  (nextLive tb 0 (tb.bucket 0)).map fun pos => T.getkey pos.2.1.dbterm

/-- The `while` of `db_next_hash_common` over the terms of a `bag` -/
def skipKey (tb : DbTableHash Obj) (key : Key) (hval : ℕ) :
    ℕ → Option (Position Obj) → Option (Position Obj)
  | 0, pos => pos
  | _, none => none
  | fuel + 1, some (ix, b, next) =>
    if hasKey T b key hval then skipKey tb key hval fuel (nextLive tb ix next) else some (ix, b, next)

/-- The number of terms. -/
def DbTableHash.nterms (tb : DbTableHash Obj) : ℕ :=
  ((List.range tb.nactive).map fun i => (tb.bucket i).length).sum

/-- The `if` around it. -/
def behindKey (tb : DbTableHash Obj) (key : Key) (hval : ℕ) (b : Option (Position Obj)) :
    Option (Position Obj) :=
  match tb.status with
  | .set => b
  | .bag | .duplicateBag => skipKey T tb key hval tb.nterms b

/-- `db_next_hash` -/
def dbNextHash (tb : DbTableHash Obj) (key : Key) : Except DbError (Option Key) :=
  let hval := T.makeHash key
  let ix := tb.hashToIx hval
  match (tb.bucket ix).dropWhile (!hasKey T · key hval) with
  | [] => .error .badkey
  | _ :: next =>
    let b := behindKey T tb key hval (nextLive tb ix next)
    .ok (b.map fun pos => T.getkey pos.2.1.dbterm)

/-! ## Traversals -/

/-- What may happen to a table during a traversal. -/
inductive Update (Key Obj : Type) : Type where
  /-- an insertion -/
  | put (obj : Obj) (keyClashFail : Bool)
  /-- a deletion -/
  | erase (key : Key)
  /-- a deletion of an object -/
  | eraseObject (obj : Obj)

/-- It is an operation. -/
def Update.op : Update Key Obj → Op Key Obj
  | .put obj keyClashFail => .put obj keyClashFail
  | .erase key => .erase key
  | .eraseObject obj => .eraseObject obj

/-- Its key. -/
def Update.key : Update Key Obj → Key
  | .put obj _ => T.getkey obj
  | .erase key => key
  | .eraseObject obj => T.getkey obj

/-- A step of the table or of the traversal. -/
inductive Event (Key Obj : Type) : Type where
  /-- an operation on the table -/
  | update (u : Update Key Obj)
  /-- `first`, or `next` on the key last returned -/
  | next

/-- Where a traversal is. -/
inductive Cursor (Key : Type) : Type where
  /-- not begun -/
  | start
  /-- the key last returned -/
  | at (key : Key)
  /-- `'$end_of_table'` -/
  | eot
  /-- `badarg` -/
  | badkey
  deriving DecidableEq

/-- A table with a traversal of it. -/
structure Traversal (Key Obj : Type) where
  /-- the table -/
  tb : DbTableHash Obj
  /-- where it is -/
  cursor : Cursor Key
  /-- the keys it was given -/
  returned : List Key

namespace Traversal

/-- The next key, or none. -/
def go (s : Traversal Key Obj) : Option Key → Traversal Key Obj
  | none => { s with cursor := .eot }
  | some key => { s with cursor := .at key, returned := s.returned ++ [key] }

/-- One step. -/
def step (s : Traversal Key Obj) : Event Key Obj → Traversal Key Obj
  | .update u => { s with tb := (s.tb.step T u.op).2 }
  | .next =>
    match s.cursor with
    | .start => s.go (dbFirstHash T s.tb)
    | .at key =>
      match dbNextHash T s.tb key with
      | .error _ => { s with cursor := .badkey }
      | .ok next => s.go next
    | .eot | .badkey => s

/-- Any steps. -/
def run (s : Traversal Key Obj) (events : List (Event Key Obj)) : Traversal Key Obj :=
  events.foldl (step T) s

end Traversal

end

end PonBeam.EtsHash
