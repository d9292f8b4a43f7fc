import PonBeam.EtsTree.SelectRuns
import PonBeam.EtsTree.Visit

/-!
# `select` in chunks

`ets:select/3` returns at most so many results, with a continuation that `ets:select/1` goes on
with. The continuation has the key of the object that was visited last, so that the table may
change from one chunk to the next. After 1000 objects a call traps before its chunk is full, and
the results, which have been collected in reverse, are turned around by a function that traps too.

The size of a chunk is positive: `ets:select/3` refuses others.
-/

namespace PonBeam.EtsTree

variable {Key Obj Res : Type}

/-- `struct select_context`, for chunks. -/
structure ChunkContext (Obj Key Res : Type) where
  /-- `accum` -/
  accum : List Res
  /-- `end_condition` -/
  endCondition : Option Key
  /-- `lastobj` -/
  lastobj : Option Obj
  /-- `max` -/
  max : ℤ
  /-- `got` -/
  got : ℕ
  /-- `chunk_size` -/
  chunkSize : ℕ

/-- The continuation, a tuple of the table and these. -/
structure ChunkContinuation (Key Obj Res : Type) where
  /-- the last key -/
  lastkey : Key
  /-- `end_condition` -/
  endCondition : Option Key
  /-- `chunk_size` -/
  chunkSize : ℕ
  /-- the match program -/
  mp : Obj → Option Res
  /-- `accum` -/
  accum : List Res
  /-- `reverse` -/
  reverse : Bool
  /-- `got` -/
  got : ℕ

/-- What the functions for chunks return; a continuation `none` is `'$end_of_table'`. -/
inductive ChunkRet (Key Obj Res : Type) : Type where
  /-- `'$end_of_table'` -/
  | eot
  /-- a tuple of the results and the continuation -/
  | tuple (results : List Res) (next : Option (ChunkContinuation Key Obj Res))
  /-- `bif_trap3`, to `ets_select_reverse` -/
  | trapReverse (list result : List Res) (next : Option (ChunkContinuation Key Obj Res))
  /-- `bif_trap1`, to `ets:select/1` -/
  | trapSelect (continuation : ChunkContinuation Key Obj Res)

/-- `CONTEXT_REDS` -/
def contextReds : ℕ := 4000

/-- `while (is_list(list))`, where `max_iter` is one more than the bound. -/
def selectReverseLoop : ℕ → List Res → List Res → List Res × List Res
  | _, [], result => ([], result)
  | 0, list, result => (list, result)
  | maxIter + 1, x :: list, result => selectReverseLoop maxIter list (x :: result)

/-- `ets_select_reverse` -/
def etsSelectReverse (list result : List Res) (next : Option (ChunkContinuation Key Obj Res)) :
    ChunkRet Key Obj Res :=
  match selectReverseLoop (contextReds * 10 - 1) list result with
  | ([], result) => .tuple result next
  | (list, result) => .trapReverse list result next

/-- The direction of a traversal for chunks. -/
def chunkDir (reverse : Bool) : Side :=
  if reverse then .left else .right

namespace DbTableTree

/-- `doit_select_chunk` -/
def doitSelectChunk (T : Terms Key Obj) (P : Patterns Key) (d : Side) (mp : Obj → Option Res)
    (sc : ChunkContext Obj Key Res) (tb : DbTableTree Obj) (this : Addr) :
    Option (ChunkContext Obj Key Res × DbTableTree Obj × Bool) := do
  let n ← tb.heap this
  let sc := { sc with lastobj := some n.dbterm }
  if P.atEnd d sc.endCondition (T.getkey n.dbterm) then return (sc, tb, false)
  else
    let sc := match mp n.dbterm with
      | some ret => { sc with got := sc.got + 1, accum := ret :: sc.accum }
      | none => sc
    let sc := { sc with max := sc.max - 1 }
    return (sc, tb, !decide (sc.max ≤ 0 ∨ sc.got = sc.chunkSize))

/-- The end of a call whose traversal has got the whole chunk or has not trapped. -/
def chunkEnd (T : Terms Key Obj) (sc : ChunkContext Obj Key Res) (endCondition : Option Key)
    (mp : Obj → Option Res) (reverse : Bool) : ChunkRet Key Obj Res :=
  -- without a full chunk, or an object that it could end with, this is the end of the table
  match if sc.got < sc.chunkSize then none else sc.lastobj with
  | none => if sc.got = 0 then .eot else .trapReverse sc.accum [] none
  | some lastobj => .trapReverse sc.accum []
      (some ⟨T.getkey lastobj, endCondition, sc.chunkSize, mp, [], reverse, 0⟩)

/-- `db_select_chunk_tree_common` -/
def dbSelectChunkTreeCommon (T : Terms Key Obj) (P : Patterns Key) (tb : DbTableTree Obj)
    (mpi : MpInfo Key Obj (Option Res)) (chunkSize : ℕ) (reverse : Bool) :
    Option (ChunkRet Key Obj Res × DbTableTree Obj) := do
  let d := chunkDir reverse
  match mpi.keyBoundness with
  | .impossible => return (.eot, tb)
  | .bound =>
    let least ← mpi.least
    let sc : SelectContext Key Obj Res := ⟨[], none, none, 1000⟩
    let sc ← match ← tb.findNode T least ⟨[], 0⟩ with
      | none => pure sc
      | some this => do
        let (sc, _, _) ← tb.doitSelect T P .left mpi.mp sc this
        pure sc
    match sc.accum with
    | [] => return (.eot, tb)
    | accum => return (.tuple accum none, tb)
  | _ =>
    let (lastkey, endCondition, tb) ←
      if mpi.keyBoundness = .partiallyBound then do
        let start ← if reverse then mpi.most else mpi.least
        let stop ← if reverse then mpi.least else mpi.most
        match ← tb.findFromPbKey T P d.other start with
        | (none, tb) => pure (none, P.endCondition stop, tb)
        | (some this, tb) =>
          let n ← tb.heap this
          pure (some (T.getkey n.dbterm), P.endCondition stop, tb)
      else pure (none, none, tb)
    let sc : ChunkContext Obj Key Res := ⟨[], endCondition, none, 1000, 0, chunkSize⟩
    let (sc, tb) ← tb.traverse T d lastkey (doitSelectChunk T P d mpi.mp) sc
    if 0 < sc.max ∨ sc.got = chunkSize then
      return (chunkEnd T sc sc.endCondition mpi.mp reverse, tb)
    else
      let lastobj ← sc.lastobj
      return (.trapSelect ⟨T.getkey lastobj, sc.endCondition, chunkSize, mpi.mp, sc.accum,
        reverse, sc.got⟩, tb)

/-- `db_select_continue_tree_common` for a continuation with chunks. -/
def dbSelectContinueChunk (T : Terms Key Obj) (P : Patterns Key) (tb : DbTableTree Obj)
    (continuation : ChunkContinuation Key Obj Res) :
    Option (ChunkRet Key Obj Res × DbTableTree Obj) := do
  let d := chunkDir continuation.reverse
  let sc : ChunkContext Obj Key Res :=
    ⟨continuation.accum, none, none, 1000, continuation.got, continuation.chunkSize⟩
  let (sc, tb) ← tb.traverse T d (some continuation.lastkey)
    (doitSelectChunk T P d continuation.mp) sc
  if 0 < sc.max ∨ sc.got = sc.chunkSize then
    return (chunkEnd T sc continuation.endCondition continuation.mp continuation.reverse, tb)
  else
    let lastobj ← sc.lastobj
    if P.atEnd d continuation.endCondition (T.getkey lastobj) then
      -- `done anyway`
      return (if sc.got = 0 then .eot else .trapReverse sc.accum [] none, tb)
    else return (.trapSelect { continuation with
      lastkey := T.getkey lastobj, accum := sc.accum, got := sc.got }, tb)

end DbTableTree

/-! ## Sessions -/

/-- Where a `select` in chunks is. -/
inductive ChunkPhase (Key Obj Res : Type) : Type where
  /-- before the first call -/
  | start
  /-- a continuation is to be called, by the process itself or after a trap -/
  | select (continuation : ChunkContinuation Key Obj Res)
  /-- `ets_select_reverse` is to be called -/
  | reverse (list result : List Res) (next : Option (ChunkContinuation Key Obj Res))
  /-- `'$end_of_table'` -/
  | eot

/-- A `select` in chunks on a table. -/
structure ChunkSession (Key Obj Res : Type) where
  /-- the table -/
  tb : DbTableTree Obj
  /-- where the `select` is -/
  phase : ChunkPhase Key Obj Res
  /-- the chunks that have been returned -/
  chunks : List (List Res)

/-- What happens: another call on the table, or the `select` goes on. -/
inductive ChunkEvent (Key Obj : Type) : Type where
  /-- an update or a query, by whatever process -/
  | call (call : Call Key Obj)
  /-- the next call of the `select` -/
  | select

/-- The next phase, after what a call has returned. -/
def nextPhase : Option (ChunkContinuation Key Obj Res) → ChunkPhase Key Obj Res
  | none => .eot
  | some continuation => .select continuation

namespace ChunkSession

variable (T : Terms Key Obj) (P : Patterns Key) (mpi : MpInfo Key Obj (Option Res))
  (chunkSize : ℕ) (reverse : Bool)

/-- The session after what a call has returned. -/
def returned (s : ChunkSession Key Obj Res) (tb : DbTableTree Obj) :
    ChunkRet Key Obj Res → ChunkSession Key Obj Res
  | .eot => { s with tb := tb, phase := .eot }
  | .tuple results next => ⟨tb, nextPhase next, s.chunks ++ [results]⟩
  | .trapReverse list result next => { s with tb := tb, phase := .reverse list result next }
  | .trapSelect continuation => { s with tb := tb, phase := .select continuation }

/-- The next call of the `select`. -/
def select (s : ChunkSession Key Obj Res) : Option (ChunkSession Key Obj Res) :=
  match s.phase with
  | .start => do
    let (ret, tb) ← s.tb.dbSelectChunkTreeCommon T P mpi chunkSize reverse
    return s.returned tb ret
  | .select continuation => do
    let (ret, tb) ← s.tb.dbSelectContinueChunk T P continuation
    return s.returned tb ret
  | .reverse list result next => some (s.returned s.tb (etsSelectReverse list result next))
  | .eot => some s

/-- An event. -/
def step (s : ChunkSession Key Obj Res) :
    ChunkEvent Key Obj → Option (ChunkSession Key Obj Res)
  | .call call => do
    let (_, tb) ← call.onTable T s.tb
    return { s with tb := tb }
  | .select => s.select T P mpi chunkSize reverse

/-- Events one after the other. -/
def run : ChunkSession Key Obj Res → List (ChunkEvent Key Obj) →
    Option (ChunkSession Key Obj Res)
  | s, [] => some s
  | s, event :: events => do
    let s ← s.step T P mpi chunkSize reverse event
    run s events

/-- Each event finds fewer than `2 ^ 61` objects, and the addresses of insertions are not in
use. -/
def Fits : ChunkSession Key Obj Res → List (ChunkEvent Key Obj) → Prop
  | _, [] => True
  | s, event :: events => s.tb.nitems < 2 ^ 61 ∧
      (match event with
        | .call call => call.Fits T s.tb
        | .select => True) ∧
      match s.step T P mpi chunkSize reverse event with
      | none => True
      | some s => Fits s events

end ChunkSession

instance decidableFits (T : Terms Key Obj) (P : Patterns Key) (mpi : MpInfo Key Obj (Option Res))
    (chunkSize : ℕ) (reverse : Bool) : ∀ (s : ChunkSession Key Obj Res)
    (events : List (ChunkEvent Key Obj)), Decidable (s.Fits T P mpi chunkSize reverse events)
  | _, [] => isTrue trivial
  | s, event :: events =>
    have : Decidable (match event with
        | .call call => call.Fits T s.tb
        | .select => True) :=
      match event with
      | .call call => inferInstanceAs (Decidable (call.Fits T s.tb))
      | .select => isTrue trivial
    have : Decidable (match s.step T P mpi chunkSize reverse event with
        | none => True
        | some s => s.Fits T P mpi chunkSize reverse events) :=
      match s.step T P mpi chunkSize reverse event with
      | none => isTrue trivial
      | some s => decidableFits T P mpi chunkSize reverse s events
    inferInstanceAs (Decidable (_ ∧ _ ∧ _))

end PonBeam.EtsTree
