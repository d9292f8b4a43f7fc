import PonBeam.EtsTree.Model

/-!
# Insertion and deletion

`tstack` and `dstack` are pushed together, so that a stack here is a list of directions with
places, the last pushed first; its end is `DIR_END`.
-/

namespace PonBeam.EtsTree

variable {Key Obj : Type}

namespace DbTableTree

/-! ## Down to a key -/

/-- The loop that looks for the key from a place down, with `room` entries free on the stack:
it stops at a `NULL` and at an equal key. -/
def search (T : Terms Key Obj) (tb : DbTableTree Obj) (key : Key) :
    ℕ → Place → List (Side × Place) → Option (Place × List (Side × Place))
  | room, this, stack => do
    match ← tb.get this with
    | none => return (this, stack)
    | some p =>
      let n ← tb.heap p
      if T.cmpKey key n < 0 then
        match room with
        | 0 => none
        | room + 1 => search T tb key room (.child .left p) ((.left, this) :: stack)
      else if 0 < T.cmpKey key n then
        match room with
        | 0 => none
        | room + 1 => search T tb key room (.child .right p) ((.right, this) :: stack)
      else return (this, stack)

/-! ## Rotations -/

/-- Single rotation: `p` goes below its child `p1` on side `d`. -/
def singleRotation (tb : DbTableTree Obj) (d : Side) (this : Place) (p p1 : Addr) (b b1 : ℤ) :
    Option (DbTableTree Obj) := do
  let n1 ← tb.heap p1
  let tb ← tb.modify p fun n => (n.setChild (n1.child d.other) d).setBalance b
  let tb ← tb.modify p1 fun n => (n.setChild (some p) d.other).setBalance b1
  tb.set (some p1) this

/-- Double rotation: `p` and its child `p1` on side `d` go below the inner child of `p1`. -/
def doubleRotation (tb : DbTableTree Obj) (d : Side) (this : Place) (p p1 : Addr) :
    Option (DbTableTree Obj) := do
  let n1 ← tb.heap p1
  let p2 ← n1.child d.other
  let n2 ← tb.heap p2
  let tb ← tb.modify p1 fun n => (n.setChild (n2.child d) d.other).setBalance
    (if n2.balance = -d.sgn then d.sgn else 0)
  let tb ← tb.modify p2 fun n => n.setChild (some p1) d
  let tb ← tb.modify p fun n => (n.setChild (n2.child d.other) d).setBalance
    (if n2.balance = d.sgn then -d.sgn else 0)
  let tb ← tb.modify p2 fun n => (n.setChild (some p) d.other).setBalance 0
  tb.set (some p2) this

/-! ## Insertion -/

/-- One turn of the loop after an insertion: the child of `*this` on side `d` has grown. -/
def putTurn (tb : DbTableTree Obj) (d : Side) (this : Place) :
    Option (DbTableTree Obj × Bool) := do
  let p ← ← tb.get this
  let n ← tb.heap p
  if n.balance = -d.sgn then
    let tb ← tb.modify p fun n => n.setBalance 0
    return (tb, false)
  else if n.balance = 0 then
    let tb ← tb.modify p fun n => n.setBalance d.sgn
    return (tb, true)
  else if n.balance = d.sgn then
    -- the icky case
    let p1 ← n.child d
    let n1 ← tb.heap p1
    if n1.balance = d.sgn then
      let tb ← tb.singleRotation d this p p1 0 0
      return (tb, false)
    else
      let tb ← tb.doubleRotation d this p p1
      return (tb, false)
  else return (tb, true)

/-- `while (state && ( dir = dstack[--dpos] ) != DIR_END)` -/
def putLoop : DbTableTree Obj → List (Side × Place) → Option (DbTableTree Obj)
  | tb, [] => some tb
  | tb, (d, this) :: stack => do
    let (tb, state) ← tb.putTurn d this
    if state then putLoop tb stack else return tb

/-- A new node is hung up in the place of a `NULL`. -/
def putNew (tb : DbTableTree Obj) (obj : Obj) (newp : Addr) (this : Place)
    (stack : List (Side × Place)) : Option (DbTableTree Obj) := do
  let tb := { tb with nitems := tb.nitems + 1 }
  let tb := tb.write newp ⟨none, none, 0, obj⟩
  let tb ← tb.set (some newp) this
  tb.putLoop stack

/-- `replace_dbterm`: the header of the node is kept, where it may move to `newp`. -/
def replaceDbterm (tb : DbTableTree Obj) (p : Addr) (obj : Obj) (newp : Addr) :
    Option (DbTableTree Obj) := do
  let n ← tb.heap p
  return (tb.freeTerm p).write newp { n with dbterm := obj }

/-- `db_put_tree_common` -/
def dbPutTreeCommon (T : Terms Key Obj) (tb : DbTableTree Obj) (obj : Obj)
    (keyClashFail : Bool) (newp : Addr) : Option (DbError × DbTableTree Obj) := do
  let tb := tb.resetStaticStack
  let (this, stack) ← tb.search T (T.getkey obj) stackNeed .root []
  match ← tb.get this with
  | none =>
    let tb ← tb.putNew obj newp this stack
    return (.none, tb)
  | some p =>
    if keyClashFail then
      return (.badkey, tb)
    else
      let tb ← tb.replaceDbterm p obj newp
      let tb ← tb.set (some newp) this
      return (.none, tb)

/-- `db_put_dbterm_tree_common`: `value_to_insert` is the node at `newp` with the object. -/
def dbPutDbtermTreeCommon (T : Terms Key Obj) (tb : DbTableTree Obj) (obj : Obj)
    (keyClashFail : Bool) (newp : Addr) : Option (DbError × DbTableTree Obj) := do
  let tb := tb.resetStaticStack
  let (this, stack) ← tb.search T (T.getkey obj) stackNeed .root []
  match ← tb.get this with
  | none =>
    let tb ← tb.putNew obj newp this stack
    return (.none, tb)
  | some p =>
    if keyClashFail then
      return (.badkey, tb)
    else
      let n ← tb.heap p
      let tb := tb.write newp ⟨n.left, n.right, n.balance, obj⟩
      let tb := tb.freeTerm p
      let tb ← tb.set (some newp) this
      return (.none, tb)

/-! ## Deletion -/

/-- The child of `*this` on side `d` has shrunk: `tree_balance_left`, `tree_balance_right`. -/
def treeBalance (d : Side) (tb : DbTableTree Obj) (this : Place) :
    Option (DbTableTree Obj × Bool) := do
  let p ← ← tb.get this
  let n ← tb.heap p
  if n.balance = d.sgn then
    let tb ← tb.modify p fun n => n.setBalance 0
    return (tb, true)
  else if n.balance = 0 then
    let tb ← tb.modify p fun n => n.setBalance (-d.sgn)
    return (tb, false)
  else if n.balance = -d.sgn then
    let p1 ← n.child d.other
    let n1 ← tb.heap p1
    if 0 ≤ d.other.sgn * n1.balance then
      if n1.balance = 0 then
        let tb ← tb.singleRotation d.other this p p1 d.other.sgn (-d.other.sgn)
        return (tb, false)
      else
        let tb ← tb.singleRotation d.other this p p1 0 0
        return (tb, true)
    else
      let tb ← tb.doubleRotation d.other this p p1
      return (tb, true)
  else return (tb, true)

/-- `tree_balance_left` -/
def treeBalanceLeft : DbTableTree Obj → Place → Option (DbTableTree Obj × Bool) :=
  treeBalance .left

/-- `tree_balance_right` -/
def treeBalanceRight : DbTableTree Obj → Place → Option (DbTableTree Obj × Bool) :=
  treeBalance .right

/-- `if (dir == DIR_LEFT)` -/
def balanceTurn (tb : DbTableTree Obj) (dir : Side) (this : Place) :
    Option (DbTableTree Obj × Bool) :=
  match dir with
  | .left => tb.treeBalanceLeft this
  | .right => tb.treeBalanceRight this

/-- `while (state && ( dir = dstack[--dpos] ) != DIR_END)` -/
def balanceLoop : DbTableTree Obj → List (Side × Place) → Option (DbTableTree Obj × Bool)
  | tb, [] => some (tb, true)
  | tb, (dir, this) :: stack => do
    let (tb, state) ← tb.balanceTurn dir this
    if state then balanceLoop tb stack else return (tb, false)

/-- `while ((*r)->right != NULL)` -/
def delsubWalk (tb : DbTableTree Obj) : ℕ → Place → List Place → Option (Place × List Place)
  | room, r, tstack => do
    let p ← ← tb.get r
    let n ← tb.heap p
    match n.right with
    | none => return (r, tstack)
    | some _ =>
      match room with
      | 0 => none
      | room + 1 => delsubWalk tb room (.child .right p) (r :: tstack)

/-- `tstack[0] = r` -/
def patchBottom (tstack : List Place) (r : Place) : List Place :=
  if tstack = [] then [] else tstack.dropLast ++ [r]

/-- `delsub`: the last node of the left child takes the place of `*this`. -/
def delsub (tb : DbTableTree Obj) (this : Place) : Option (DbTableTree Obj × Bool) := do
  let q ← ← tb.get this
  let (r, tstack) ← tb.delsubWalk stackNeed (.child .left q) []
  let p ← ← tb.get r
  let tb ← tb.set (some p) this
  let n ← tb.heap p
  let tb ← tb.set n.left r
  let nq ← tb.heap q
  let tb ← tb.modify p fun n =>
    { n with left := nq.left, right := nq.right, balance := nq.balance }
  tb.balanceLoop ((patchBottom tstack (.child .left p)).map fun r => (.right, r))

/-- The node `q` in a place is taken out of it; whether the tree there has shrunk, and the
stack. -/
def unhook (tb : DbTableTree Obj) (q : Addr) (this : Place) (stack : List (Side × Place)) :
    Option (DbTableTree Obj × Bool × List (Side × Place)) := do
  let n ← tb.heap q
  if n.right = none then
    let tb ← tb.set n.left this
    return (tb, true, stack)
  else if n.left = none then
    let tb ← tb.set n.right this
    return (tb, true, stack)
  else if stack.length < stackNeed then
    let (tb, state) ← tb.delsub this
    return (tb, state, (.left, this) :: stack)
  else none

/-- What `linkout_tree` and `linkout_object_tree` do with the node they have found. -/
def linkout (tb : DbTableTree Obj) (q : Addr) (this : Place) (stack : List (Side × Place)) :
    Option (DbTableTree Obj) := do
  let (tb, state, stack) ← tb.unhook q this stack
  let tb := { tb with nitems := tb.nitems - 1 }
  if state then
    let (tb, _) ← tb.balanceLoop stack
    return tb
  else return tb

/-- `linkout_tree` -/
def linkoutTree (T : Terms Key Obj) (tb : DbTableTree Obj) (key : Key) :
    Option (Option Addr × DbTableTree Obj) := do
  let tb := tb.resetStaticStack
  let (this, stack) ← tb.search T key stackNeed .root []
  match ← tb.get this with
  | none => return (none, tb)
  | some q =>
    let tb ← tb.linkout q this stack
    return (some q, tb)

/-- `linkout_object_tree` -/
def linkoutObjectTree (T : Terms Key Obj) (tb : DbTableTree Obj) (object : Obj) :
    Option (Option Addr × DbTableTree Obj) := do
  let tb := tb.resetStaticStack
  let (this, stack) ← tb.search T (T.getkey object) stackNeed .root []
  match ← tb.get this with
  | none => return (none, tb)
  | some q =>
    let n ← tb.heap q
    if T.dbEq object n.dbterm then
      let tb ← tb.linkout q this stack
      return (some q, tb)
    else return (none, tb)

/-- `db_erase_tree_common` -/
def dbEraseTreeCommon (T : Terms Key Obj) (tb : DbTableTree Obj) (key : Key) :
    Option (DbTableTree Obj) := do
  match ← tb.linkoutTree T key with
  | (none, tb) => return tb
  | (some res, tb) => return tb.freeTerm res

/-- `db_erase_object_tree_common` -/
def dbEraseObjectTreeCommon (T : Terms Key Obj) (tb : DbTableTree Obj) (object : Obj) :
    Option (DbTableTree Obj) := do
  match ← tb.linkoutObjectTree T object with
  | (none, tb) => return tb
  | (some res, tb) => return tb.freeTerm res

/-- `db_take_tree_common`: the list of the objects that were taken. -/
def dbTakeTreeCommon (T : Terms Key Obj) (tb : DbTableTree Obj) (key : Key) :
    Option (List Obj × DbTableTree Obj) := do
  match ← tb.linkoutTree T key with
  | (none, tb) => return ([], tb)
  | (some this, tb) =>
    let n ← tb.heap this
    return ([n.dbterm], tb.freeTerm this)

end DbTableTree

end PonBeam.EtsTree
