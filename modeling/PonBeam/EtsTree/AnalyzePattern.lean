import PonBeam.EtsTree.Select
import PonBeam.EtsTree.Term

/-!
# Patterns of keys (`analyze_pattern`)

A variable in the key of a match head matches anything. Before a table is searched, the keys
of the heads are compared with each other for the least and the most of them, and these are
compared with the keys in the table, each comparison up to the first variable. It ends there
by `*done`, which is the second of the two results.

`is_same` of a pattern and a key in the table only holds of immediate words, since the table
has copies. The functions test it first; then `CMP` finds no difference either, so that this
test is left out here. In a list they also test the tails, before they look whether the tail of
the pattern is a variable: a variable that is the tail of both lists does not end the comparison.
-/

namespace PonBeam.EtsTree

variable {Prim Obj Res : Type}

namespace Prims

variable (P : Prims Prim)

/-- `is_atom(a) && (a == am_Underscore || db_is_variable(a) >= 0)` -/
def isWild (p : Prim) : Bool := P.isUnderscore p || decide (0 ≤ P.dbIsVariable p)

end Prims

namespace Term

variable (P : Prims Prim)

/-- `a == am_Underscore` -/
def isUnderscore : Term Prim → Bool
  | prim p => P.isUnderscore p
  | _ => false

/-- `db_is_variable` -/
def dbIsVariable : Term Prim → ℤ
  | prim p => P.dbIsVariable p
  | _ => -1

/-- `a == am_Underscore || db_is_variable(a) >= 0` -/
def isWild : Term Prim → Bool
  | prim p => P.isWild p
  | _ => false

mutual

/-- `db_has_map` -/
def dbHasMap : Term Prim → Bool
  | prim p => P.tag p = .map
  | nil => false
  | cons x xs => dbHasMap x || dbHasMap xs
  | tuple xs => dbHasMapElems xs

/-- `db_has_map` of one of them -/
def dbHasMapElems : List (Term Prim) → Bool
  | [] => false
  | x :: xs => dbHasMap x || dbHasMapElems xs

end

mutual

/-- `db_is_fully_bound` -/
def dbIsFullyBound : Term Prim → Bool
  | prim p => !P.isWild p && decide (P.tag p ≠ .map)
  | nil => true
  | cons x xs => dbIsFullyBound x && dbIsFullyBound xs
  | tuple xs => dbIsFullyBoundElems xs

/-- `db_is_fully_bound` of all of them -/
def dbIsFullyBoundElems : List (Term Prim) → Bool
  | [] => true
  | x :: xs => dbIsFullyBound x && dbIsFullyBoundElems xs

end

/-- `if (j != 0 || *done) return j;` -/
def orElse (r r' : ℤ × Bool) : ℤ × Bool := if r.1 ≠ 0 ∨ r.2 then r else r'

mutual

/-- `do_cmp_partly_bound`, with `*done`. -/
def doCmpPartlyBound : Term Prim → Term Prim → ℤ × Bool
  | prim p, b => if P.isWild p then (0, true) else (cmp P (prim p) b, false)
  | cons x xs, cons y ys => orElse (doCmpPartlyBound x y) <|
    -- `if (is_same(*aa, *bb)) return 0;`
    if xs.sameWord P ys then (0, false) else doCmpPartlyBound xs ys
  | tuple xs, tuple ys =>
    if xs.length < ys.length then (-1, false)
    else if xs.length > ys.length then (1, false)
    else doCmpPartlyBoundElems xs ys
  | a, b => (cmp P a b, false)

/-- `while (i--)` -/
def doCmpPartlyBoundElems : List (Term Prim) → List (Term Prim) → ℤ × Bool
  | x :: xs, y :: ys => orElse (doCmpPartlyBound x y) (doCmpPartlyBoundElems xs ys)
  | _, _ => (0, false)

end

/-- `cmp_partly_bound` -/
def cmpPartlyBound (a b : Term Prim) : ℤ := (doCmpPartlyBound P a b).1

/-- `key == NIL` -/
def isNil : Term Prim → Bool
  | nil => true
  | _ => false

/-- `db_getkey` of a match head -/
def dbGetkey (keypos : ℕ) : Term Prim → Option (Term Prim)
  | tuple xs => if keypos ≤ xs.length then xs[keypos - 1]? else none
  | _ => none

/-- `key_boundness`, with `*keyp` -/
def keyBoundness (keypos : ℕ) (pattern : Term Prim) : MsKeyBoundness × Option (Term Prim) :=
  if isUnderscore P pattern || decide (dbIsVariable P pattern ≠ -1) then (.unbound, none)
  else
    match dbGetkey keypos pattern with
    | none => (.impossible, none)
    | some key =>
      if dbIsFullyBound P key then (.bound, some key)
      else if !isUnderscore P key && decide (dbIsVariable P key < 0) && !dbHasMap P key then
        (.partiallyBound, some key)
      else (.unbound, none)

end Term

/-- What the queries ask of keys with variables. -/
def TermTable.patterns (K : TermTable Prim Obj) : Patterns (Term Prim) where
  cmpPartlyBound := Term.cmpPartlyBound K.toPrims
  isNil := Term.isNil

namespace TermTable

variable (K : TermTable Prim Obj)

/-- `if ((j = ...) != 0 || *done) return j;` -/
def orElse (r r' : Bool × Bool) : Bool × Bool := if r.1 ∨ r.2 then r else r'

/-- The tests for variables and for the same word, and then the rest. -/
def testVariables (a b : Term Prim) (rest : Bool × Bool) : Bool × Bool :=
  if a.isWild K.toPrims then (!b.isWild K.toPrims, true)
  else if b.isWild K.toPrims then (false, true)
  else if K.isSame a b then (false, false)
  else rest

mutual

/-- `do_partly_bound_can_match_lesser` and, for the other direction,
`do_partly_bound_can_match_greater`, with `*done`. -/
def doPartlyBoundCanMatch (d : Side) : Term Prim → Term Prim → Bool × Bool
  | .tuple xs, .tuple ys => K.testVariables (.tuple xs) (.tuple ys) <|
    -- compare the arities
    if xs.length < ys.length then (d = .left, false)
    else if xs.length > ys.length then (d = .right, false)
    else doPartlyBoundCanMatchElems d xs ys
  | .cons x xs, .cons y ys => K.testVariables (.cons x xs) (.cons y ys) <|
    orElse (doPartlyBoundCanMatch d x y) <|
      -- `if (*aa==*bb) return 0;`
      if K.isSame xs ys then (false, false) else doPartlyBoundCanMatch d xs ys
  | a, b => K.testVariables a b <|
    let i := a.cmp K.toPrims b
    (0 < d.sgn * i, a.tagValDef K.toPrims ≠ b.tagValDef K.toPrims ∨ i ≠ 0)

/-- `while (i--)` -/
def doPartlyBoundCanMatchElems (d : Side) : List (Term Prim) → List (Term Prim) → Bool × Bool
  | x :: xs, y :: ys => orElse (doPartlyBoundCanMatch d x y) (doPartlyBoundCanMatchElems d xs ys)
  | _, _ => (false, false)

end

/-- `partly_bound_can_match_lesser`, `partly_bound_can_match_greater` -/
def partlyBoundCanMatch (d : Side) (a b : Term Prim) : Bool := (K.doPartlyBoundCanMatch d a b).1

end TermTable

/-- The number of a `ms_key_boundness`. -/
def MsKeyBoundness.val : MsKeyBoundness → ℕ
  | unbound => 0
  | partiallyBound => 1
  | bound => 2
  | impossible => 3

namespace TermTable

variable (K : TermTable Prim Obj)

/-- `least = key`, `most = key`, if the key can match beyond them. -/
def widen (d : Side) (limit : Option (Term Prim)) (key : Term Prim) : Option (Term Prim) :=
  match limit with
  | none => some key
  | some l => if K.partlyBoundCanMatch d key l then some key else some l

/-- What the loop of `analyze_pattern` over the heads keeps. -/
structure Analysis (Prim : Type) where
  /-- `key_boundness` -/
  keyBoundness : MsKeyBoundness
  /-- `least` -/
  least : Option (Term Prim)
  /-- `most` -/
  most : Option (Term Prim)

/-- `switch (boundness)`, for one head. -/
def analyzeHead (a : Analysis Prim) (tpl : Term Prim) : Analysis Prim :=
  let (boundness, key) := tpl.keyBoundness K.toPrims K.keypos
  let a := match key with
    | some key => { a with least := K.widen .left a.least key, most := K.widen .right a.most key }
    | none => a
  if a.keyBoundness.val > boundness.val then { a with keyBoundness := boundness } else a

/-- The loop of `analyze_pattern`. -/
def analyzeHeads (matches_ : List (Term Prim)) : Analysis Prim :=
  matches_.foldl K.analyzeHead ⟨.impossible, none, none⟩

/-- The elements of a proper list. -/
def listVal : Term Prim → Option (List (Term Prim))
  | .nil => some []
  | .cons x xs => do
    let xs ← listVal xs
    return x :: xs
  | _ => none

/-- A tuple with a match, a guard and a body. -/
def clause : Term Prim → Option (Term Prim × Term Prim × Term Prim)
  | .tuple [m, guard, body] => some (m, guard, body)
  | _ => none

/-- The clauses of a match specification. -/
def clausesOf (pattern : Term Prim) : Option (List (Term Prim × Term Prim × Term Prim)) := do
  let lst ← listVal pattern
  lst.mapM clause

/-- `if (mpi->key_boundness == MS_KEY_BOUND && !CMP_EQ(least, most))`: several different bound
keys. -/
def severalKeys (a : Analysis Prim) : MsKeyBoundness :=
  match a.keyBoundness, a.least, a.most with
  | .bound, some least, some most =>
    if least.cmp K.toPrims most = 0 then .bound else .partiallyBound
  | b, _, _ => b

/-- `analyze_pattern`, where `compile` is `db_match_compile`. -/
def analyzePattern
    (compile : List (Term Prim × Term Prim × Term Prim) → Except DbError (Obj → Option Res))
    (pattern : Term Prim) : Except DbError (MpInfo (Term Prim) Obj (Option Res)) :=
  match clausesOf pattern with
  | none => .error .badparam
  | some clauses => do
    let a := K.analyzeHeads (clauses.map Prod.fst)
    let mp ← compile clauses
    return ⟨K.severalKeys a, a.least, a.most, mp⟩

end TermTable

end PonBeam.EtsTree
