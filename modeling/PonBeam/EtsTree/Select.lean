import PonBeam.EtsTree.Queries

/-!
# `select` and `select_delete`

A traversal visits the nodes in one direction and calls a function for each; the next node is
looked up before the call, since the function may unlink the node. After 1000 nodes it stops,
and the query goes on with the key of the last node when its process is scheduled again.

What `analyze_pattern` finds out of the match specification is given here, with the compiled
match program as a function of objects. Chunks (`ets:select/3`) are in `SelectChunk`.
-/

namespace PonBeam.EtsTree

variable {Key Obj Res : Type}

/-! ## Match specifications -/

/-- `enum ms_key_boundness` -/
inductive MsKeyBoundness : Type where
  /-- `MS_KEY_UNBOUND` -/
  | unbound
  /-- `MS_KEY_PARTIALLY_BOUND` -/
  | partiallyBound
  /-- `MS_KEY_BOUND` -/
  | bound
  /-- `MS_KEY_IMPOSSIBLE` -/
  | impossible
  deriving DecidableEq

/-- `struct mp_info`, where a match program `mp` is a function of objects. -/
structure MpInfo (Key Obj Res : Type) where
  /-- `key_boundness` -/
  keyBoundness : MsKeyBoundness
  /-- `least`, or `THE_NON_VALUE` -/
  least : Option Key
  /-- `most`, or `THE_NON_VALUE` -/
  most : Option Key
  /-- `mp` -/
  mp : Obj → Res

/-- What the queries ask of keys that may have variables in them. -/
structure Patterns (Key : Type) where
  /-- `cmp_partly_bound` -/
  cmpPartlyBound : Key → Key → ℤ
  /-- `key == NIL` -/
  isNil : Key → Bool

/-- `sc.end_condition = key`, where `none` is `NIL` -/
def Patterns.endCondition (P : Patterns Key) (key : Key) : Option Key :=
  if P.isNil key then none else some key

/-- `end_condition != NIL && cmp_partly_bound(end_condition, key) > 0`, for the other direction
with `< 0`: the key is beyond the end. -/
def Patterns.atEnd (P : Patterns Key) (d : Side) (endCondition : Option Key) (key : Key) : Bool :=
  match endCondition with
  | none => false
  | some e => d.sgn * P.cmpPartlyBound e key < 0

namespace DbTableTree

/-! ## Traversals -/

/-- The loop in `find_next_from_pb_key` and `find_prev_from_pb_key`. -/
def findFromPbLoop (T : Terms Key Obj) (P : Patterns Key) (tb : DbTableTree Obj) (d : Side)
    (pbKey : Key) : ℕ → Addr → List Addr → ℕ → Option (Option Addr × List Addr)
  | 0, _, _, _ => none
  | room + 1, this, array, candidate => do
    let n ← tb.heap this
    if 0 ≤ d.sgn * P.cmpPartlyBound pbKey (T.getkey n.dbterm) then
      match n.child d with
      | none =>
        -- `stack->pos = candidate`
        let array := (this :: array).drop (array.length + 1 - candidate)
        return (array.head?, array)
      | some q => findFromPbLoop T P tb d pbKey room q (this :: array) candidate
    else
      match n.child d.other with
      | none => return (some this, this :: array)
      | some q => findFromPbLoop T P tb d pbKey room q (this :: array) (array.length + 1)

/-- `find_next_from_pb_key`, `find_prev_from_pb_key`: the nearest node beyond the key. -/
def findFromPbKey (T : Terms Key Obj) (P : Patterns Key) (tb : DbTableTree Obj) (d : Side)
    (pbKey : Key) : Option (Option Addr × DbTableTree Obj) :=
  match tb.root with
  | none => some (none, tb.setStaticStack ⟨[], 0⟩)
  | some root => do
    let (this, array) ← tb.findFromPbLoop T P d pbKey stackNeed root [] 0
    return (this, tb.setStaticStack ⟨array, 0⟩)

/-- What `traverse_backwards` and `traverse_forward` start with: the extreme node, or the
neighbour of `lastkey`. -/
def traverseStart (T : Terms Key Obj) (tb : DbTableTree Obj) (d : Side) (lastkey : Option Key) :
    Option (Option Addr × DbTableTree Obj) :=
  match lastkey with
  | none =>
    match tb.root with
    | none => some (none, tb.setStaticStack ⟨[], 0⟩)
    | some root => do
      let (next, array) ← tb.pushSpine d.other stackNeed root []
      return (some next, tb.setStaticStack ⟨array, 0⟩)
  | some key => do
    let (next, stack) ← tb.findNeighbour T d key tb.staticStack
    return (next, tb.setStaticStack stack)

/-- `while (next)`, with a bound on the turns: `doit` is called for each node once. -/
def traverseLoop {S : Type} (T : Terms Key Obj) (d : Side)
    (doit : S → DbTableTree Obj → Addr → Option (S × DbTableTree Obj × Bool)) :
    ℕ → S → DbTableTree Obj → Option Addr → Option (S × DbTableTree Obj)
  | _, sc, tb, none => some (sc, tb)
  | 0, _, _, some _ => none
  | turns + 1, sc, tb, some this => do
    let n ← tb.heap this
    let (next, stack) ← tb.findNeighbour T d (T.getkey n.dbterm) tb.staticStack
    let (sc, tb, more) ← doit sc (tb.setStaticStack stack) this
    if more then traverseLoop T d doit turns sc tb next else return (sc, tb)

/-- `traverse_backwards`, `traverse_forward` -/
def traverse {S : Type} (T : Terms Key Obj) (tb : DbTableTree Obj) (d : Side)
    (lastkey : Option Key)
    (doit : S → DbTableTree Obj → Addr → Option (S × DbTableTree Obj × Bool)) (sc : S) :
    Option (S × DbTableTree Obj) := do
  let (next, tb) ← tb.traverseStart T d lastkey
  traverseLoop T d doit tb.nitems sc tb next

/-! ## `select` -/

/-- `struct select_context` -/
structure SelectContext (Key Obj Res : Type) where
  /-- `accum` -/
  accum : List Res
  /-- `end_condition` -/
  endCondition : Option Key
  /-- `lastobj` -/
  lastobj : Option Obj
  /-- `max` -/
  max : ℤ

/-- The continuation of a `select` that has trapped. -/
structure SelectContinuation (Key Obj Res : Type) where
  /-- the last key -/
  lastkey : Key
  /-- `end_condition` -/
  endCondition : Option Key
  /-- the match program -/
  mp : Obj → Option Res
  /-- `accum` -/
  accum : List Res
  /-- `reverse` -/
  reverse : Bool

/-- What a `select` returns. -/
inductive SelectRet (Key Obj Res : Type) : Type where
  /-- the list of the results -/
  | list (accum : List Res)
  /-- `bif_trap1` -/
  | trap (continuation : SelectContinuation Key Obj Res)

/-- `doit_select`: the match program returns a result or none. -/
def doitSelect (T : Terms Key Obj) (P : Patterns Key) (d : Side) (mp : Obj → Option Res)
    (sc : SelectContext Key Obj Res) (tb : DbTableTree Obj) (this : Addr) :
    Option (SelectContext Key Obj Res × DbTableTree Obj × Bool) := do
  let n ← tb.heap this
  let sc := { sc with lastobj := some n.dbterm }
  if P.atEnd d sc.endCondition (T.getkey n.dbterm) then return (sc, tb, false)
  else
    let sc := match mp n.dbterm with
      | some ret => { sc with accum := ret :: sc.accum }
      | none => sc
    let sc := { sc with max := sc.max - 1 }
    return (sc, tb, !decide (sc.max ≤ 0))

/-- The direction of a traversal for `select`, which builds the list from its end. -/
def selectDir (reverse : Bool) : Side :=
  if reverse then .right else .left

/-- `db_select_tree_common` -/
def dbSelectTreeCommon (T : Terms Key Obj) (P : Patterns Key) (tb : DbTableTree Obj)
    (mpi : MpInfo Key Obj (Option Res)) (reverse : Bool) :
    Option (SelectRet Key Obj Res × DbTableTree Obj) := do
  let sc : SelectContext Key Obj Res := ⟨[], none, none, 1000⟩
  let d := selectDir reverse
  match mpi.keyBoundness with
  | .impossible => return (.list [], tb)
  | .bound =>
    let least ← mpi.least
    match ← tb.findNode T least ⟨[], 0⟩ with
    | none => return (.list sc.accum, tb)
    | some this =>
      let (sc, tb, _) ← tb.doitSelect T P .left mpi.mp sc this
      return (.list sc.accum, tb)
  | _ =>
    let (lastkey, endCondition, tb) ←
      if mpi.keyBoundness = .partiallyBound then do
        let start ← if reverse then mpi.least else mpi.most
        let stop ← if reverse then mpi.most else mpi.least
        match ← tb.findFromPbKey T P d.other start with
        | (none, tb) => pure (none, P.endCondition stop, tb)
        | (some this, tb) =>
          let n ← tb.heap this
          pure (some (T.getkey n.dbterm), P.endCondition stop, tb)
      else pure (none, none, tb)
    let sc := { sc with endCondition := endCondition }
    let (sc, tb) ← tb.traverse T d lastkey (doitSelect T P d mpi.mp) sc
    if 0 < sc.max then return (.list sc.accum, tb)
    else
      let lastobj ← sc.lastobj
      return (.trap ⟨T.getkey lastobj, sc.endCondition, mpi.mp, sc.accum, reverse⟩, tb)

/-- `db_select_continue_tree_common` for a continuation without chunks. -/
def dbSelectContinueTreeCommon (T : Terms Key Obj) (P : Patterns Key) (tb : DbTableTree Obj)
    (continuation : SelectContinuation Key Obj Res) :
    Option (SelectRet Key Obj Res × DbTableTree Obj) := do
  let sc : SelectContext Key Obj Res := ⟨continuation.accum, none, none, 1000⟩
  let d := selectDir continuation.reverse
  let (sc, tb) ← tb.traverse T d (some continuation.lastkey) (doitSelect T P d continuation.mp) sc
  if 0 < sc.max then return (.list sc.accum, tb)
  else
    let lastobj ← sc.lastobj
    if P.atEnd d continuation.endCondition (T.getkey lastobj) then return (.list sc.accum, tb)
    else return (.trap { continuation with lastkey := T.getkey lastobj, accum := sc.accum }, tb)

/-! ## `select_delete` -/

/-- `struct select_delete_context` -/
structure SelectDeleteContext (Key Obj : Type) where
  /-- `accum` -/
  accum : ℕ
  /-- `end_condition` -/
  endCondition : Option Key
  /-- `erase_lastterm` -/
  eraseLastterm : Bool
  /-- `lastterm` -/
  lastterm : Option Addr
  /-- `max` -/
  max : ℤ
  /-- the objects that the match program has been run on, which the code does not record -/
  visited : List Obj

/-- A number as a term. -/
inductive UintTerm : Type where
  /-- `make_small` -/
  | small (n : ℕ)
  /-- `uint_to_big` -/
  | big (n : ℕ)
  deriving DecidableEq

/-- `MAX_SMALL` -/
def maxSmall : ℕ := 2 ^ 59 - 1

/-- `IS_USMALL(0, accum) ? make_small(accum) : uint_to_big(accum, hp)` -/
def eaccsum (accum : ℕ) : UintTerm :=
  if accum ≤ maxSmall then .small accum else .big accum

/-- `is_big(t) ? big_to_uint32(t) : unsigned_val(t)` -/
def UintTerm.val : UintTerm → ℕ
  | small n => n
  | big n => n % 2 ^ 32

/-- The continuation of a `select_delete` that has trapped. -/
structure DeleteContinuation (Key Obj : Type) where
  /-- the last key -/
  lastkey : Key
  /-- `end_condition` -/
  endCondition : Option Key
  /-- the match program -/
  mp : Obj → Bool
  /-- `eaccsum` -/
  eaccsum : UintTerm

/-- What a `select_delete` returns. -/
inductive DeleteRet (Key Obj : Type) : Type where
  /-- `erts_make_integer` -/
  | integer (accum : ℕ)
  /-- `bif_trap1` -/
  | trap (continuation : DeleteContinuation Key Obj)

/-- `if (sc.erase_lastterm) free_term(tbl, sc.lastterm)` -/
def freeLastterm (tb : DbTableTree Obj) (sc : SelectDeleteContext Key Obj) :
    Option (DbTableTree Obj) :=
  if sc.eraseLastterm then do
    let lastterm ← sc.lastterm
    let _ ← tb.heap lastterm
    return tb.freeTerm lastterm
  else some tb

/-- `doit_select_delete`: the match program returns `true` or not. -/
def doitSelectDelete (T : Terms Key Obj) (P : Patterns Key) (mp : Obj → Bool)
    (sc : SelectDeleteContext Key Obj) (tb : DbTableTree Obj) (this : Addr) :
    Option (SelectDeleteContext Key Obj × DbTableTree Obj × Bool) := do
  let tb ← tb.freeLastterm sc
  let sc := { sc with eraseLastterm := false, lastterm := some this }
  let n ← tb.heap this
  if P.atEnd .left sc.endCondition (T.getkey n.dbterm) then return (sc, tb, false)
  else
    let sc := { sc with visited := sc.visited ++ [n.dbterm] }
    let (sc, tb) ← if mp n.dbterm then do
        let (_, tb) ← tb.linkoutTree T (T.getkey n.dbterm)
        pure ({ sc with eraseLastterm := true, accum := sc.accum + 1 }, tb)
      else pure (sc, tb)
    let sc := { sc with max := sc.max - 1 }
    return (sc, tb, !decide (sc.max ≤ 0))

/-- `db_select_delete_tree_common`: with the objects that have been visited. -/
def dbSelectDeleteTreeCommon (T : Terms Key Obj) (P : Patterns Key) (tb : DbTableTree Obj)
    (mpi : MpInfo Key Obj Bool) :
    Option (DeleteRet Key Obj × DbTableTree Obj × List Obj) := do
  let sc : SelectDeleteContext Key Obj := ⟨0, none, false, none, 1000, []⟩
  match mpi.keyBoundness with
  | .impossible => return (.integer 0, tb, [])
  | .bound =>
    let least ← mpi.least
    match ← tb.findNode T least ⟨[], 0⟩ with
    | none => return (.integer sc.accum, tb, [])
    | some this =>
      let (sc, tb, _) ← tb.doitSelectDelete T P mpi.mp sc this
      let tb ← tb.freeLastterm sc
      return (.integer sc.accum, tb, sc.visited)
  | _ =>
    let (lastkey, endCondition, tb) ←
      if mpi.keyBoundness = .partiallyBound then do
        let most ← mpi.most
        let least ← mpi.least
        match ← tb.findFromPbKey T P .right most with
        | (none, tb) => pure (none, P.endCondition least, tb)
        | (some this, tb) =>
          let n ← tb.heap this
          pure (some (T.getkey n.dbterm), P.endCondition least, tb)
      else pure (none, none, tb)
    let sc := { sc with endCondition := endCondition }
    let (sc, tb) ← tb.traverse T .left lastkey (doitSelectDelete T P mpi.mp) sc
    if 0 < sc.max then
      let tb ← tb.freeLastterm sc
      return (.integer sc.accum, tb, sc.visited)
    else
      let lastterm ← sc.lastterm
      let n ← tb.heap lastterm
      let tb ← tb.freeLastterm sc
      return (.trap ⟨T.getkey n.dbterm, sc.endCondition, mpi.mp, eaccsum sc.accum⟩, tb,
        sc.visited)

/-- `db_select_delete_continue_tree_common`, with the objects that have been visited. -/
def dbSelectDeleteContinueTreeCommon (T : Terms Key Obj) (P : Patterns Key)
    (tb : DbTableTree Obj) (continuation : DeleteContinuation Key Obj) :
    Option (DeleteRet Key Obj × DbTableTree Obj × List Obj) := do
  let sc : SelectDeleteContext Key Obj := ⟨continuation.eaccsum.val, none, false, none, 1000, []⟩
  let (sc, tb) ← tb.traverse T .left (some continuation.lastkey)
    (doitSelectDelete T P continuation.mp) sc
  if 0 < sc.max then
    let tb ← tb.freeLastterm sc
    return (.integer sc.accum, tb, sc.visited)
  else
    let lastterm ← sc.lastterm
    let n ← tb.heap lastterm
    let tb' ← tb.freeLastterm sc
    if P.atEnd .left continuation.endCondition (T.getkey n.dbterm) then
      return (.integer sc.accum, tb', sc.visited)
    else return (.trap ⟨T.getkey n.dbterm, continuation.endCondition, continuation.mp,
      eaccsum sc.accum⟩, tb', sc.visited)

end DbTableTree

end PonBeam.EtsTree
