import PonBeam.EtsTree.OrderedMap

/-!
# Queries

The queries walk from the node on top of the static stack if it has the key they start from,
and else from the root. `find_next` and `find_prev` are the same walk in the two directions.
-/

namespace PonBeam.EtsTree

variable {Key Obj : Type}

/-- What a query puts into `*ret`. -/
inductive Answer (Key Obj : Type) : Type where
  /-- `$end_of_table` -/
  | endOfTable
  /-- a key -/
  | key (key : Key)
  /-- a key and a list of the object -/
  | keyAndObject (key : Key) (obj : Obj)
  /-- a list of objects -/
  | objects (objs : List Obj)
  /-- `false` -/
  | false
  /-- nothing, since the query fails -/
  | none
  deriving DecidableEq

/-- `db_copy_key_tree` -/
def dbCopyKeyTree (T : Terms Key Obj) (n : TreeDbTerm Obj) : Answer Key Obj :=
  .key (T.getkey n.dbterm)

/-- `db_copy_key_and_object_tree` -/
def dbCopyKeyAndObjectTree (T : Terms Key Obj) (n : TreeDbTerm Obj) : Answer Key Obj :=
  .keyAndObject (T.getkey n.dbterm) n.dbterm

namespace DbTableTree

/-! ## Walks -/

/-- Pushes the node and those below it on one side, as long as there is room. -/
def pushSpine (tb : DbTableTree Obj) (d : Side) :
    ℕ → Addr → List Addr → Option (Addr × List Addr)
  | 0, _, _ => none
  | room + 1, this, array => do
    let n ← tb.heap this
    match n.child d with
    | none => return (this, this :: array)
    | some q => pushSpine tb d room q (this :: array)

/-- `do ... while (this->right == tmp)`: pops up to the first node whose child on side `d` is
not the one that was popped. -/
def popWhile (tb : DbTableTree Obj) (d : Side) : List Addr → Option (Option Addr × List Addr)
  | [] => some (none, [])
  | tmp :: array =>
    match array with
    | [] => some (none, [])
    | this :: _ => do
      let n ← tb.heap this
      if n.child d = some tmp then popWhile tb d array
      else return (some this, array)

/-- `for (;;) ... if (this->left == tmp) break`: pops up to the first node whose child on the
other side is the one that was popped. -/
def popUntil (tb : DbTableTree Obj) (d : Side) : List Addr → Option (Option Addr × List Addr)
  | [] => some (none, [])
  | tmp :: array =>
    match array with
    | [] => some (none, [])
    | this :: _ => do
      let n ← tb.heap this
      if n.child d.other = some tmp then return (some this, array)
      else popUntil tb d array

/-! ## The next and the previous node -/

/-- The stack, emptied if the node on its top has another key. -/
def resumeStack (T : Terms Key Obj) (tb : DbTableTree Obj) (key : Key) (stack : DbTreeStack) :
    Option DbTreeStack :=
  match stack.array with
  | [] => some stack
  | top :: _ => do
    let n ← tb.heap top
    if T.cmpKeyEq key n then return stack
    else return ⟨[], 0⟩

/-- The loop that rebuilds the stack: it ends at the node that is asked for (`true`), or at one
from which this is the next in the direction `d`. -/
def rebuild (T : Terms Key Obj) (tb : DbTableTree Obj) (d : Side) (key : Key) :
    ℕ → Addr → List Addr → Option (Bool × Addr × List Addr)
  | 0, _, _ => none
  | room + 1, this, array => do
    let n ← tb.heap this
    if 0 < d.sgn * T.cmpKey key n then
      match n.child d with
      | none => return (false, this, this :: array)
      | some q => rebuild T tb d key room q (this :: array)
    else if d.sgn * T.cmpKey key n < 0 then
      match n.child d.other with
      | none => return (true, this, this :: array)
      | some q => rebuild T tb d key room q (this :: array)
    else return (false, this, this :: array)

/-- `if (stack->slot > 0) ++(stack->slot)`, `if (stack->slot > 0) --(stack->slot)` -/
def countSlot (d : Side) (slot : ℕ) : ℕ :=
  if 0 < slot then
    match d with
    | .right => slot + 1
    | .left => slot - 1
  else slot

/-- The next element from this in the direction `d`. -/
def stepFrom (tb : DbTableTree Obj) (d : Side) (this : Addr) (stack : DbTreeStack) :
    Option (Option Addr × DbTreeStack) := do
  let n ← tb.heap this
  match n.child d with
  | some q =>
    let (this, array) ← tb.pushSpine d.other (stackNeed - stack.array.length) q stack.array
    return (some this, ⟨array, countSlot d stack.slot⟩)
  | none =>
    match ← tb.popWhile d stack.array with
    | (none, array) => return (none, ⟨array, 0⟩)
    | (some this, array) => return (some this, ⟨array, countSlot d stack.slot⟩)

/-- The next node from a key in the direction `d`. -/
def findNeighbour (T : Terms Key Obj) (tb : DbTableTree Obj) (d : Side) (key : Key)
    (stack : DbTreeStack) : Option (Option Addr × DbTreeStack) := do
  let stack ← tb.resumeStack T key stack
  match stack.array with
  | top :: _ => tb.stepFrom d top stack
  | [] =>
    match tb.root with
    | none => return (none, stack)
    | some root =>
      let (found, this, array) ← tb.rebuild T d key stackNeed root []
      if found then return (some this, ⟨array, countSlot d stack.slot⟩)
      else tb.stepFrom d this ⟨array, stack.slot⟩

/-- `find_next` -/
def findNext (T : Terms Key Obj) (tb : DbTableTree Obj) :
    Key → DbTreeStack → Option (Option Addr × DbTreeStack) :=
  tb.findNeighbour T .right

/-- `find_prev` -/
def findPrev (T : Terms Key Obj) (tb : DbTableTree Obj) :
    Key → DbTreeStack → Option (Option Addr × DbTreeStack) :=
  tb.findNeighbour T .left

/-! ## The n-th node -/

/-- One turn of the loop in `slot_search`: to the neighbour in the direction `d`. -/
def slotTurn (tb : DbTableTree Obj) (d : Side) (this : Addr) (array : List Addr) :
    Option (Option Addr × List Addr) := do
  let n ← tb.heap this
  match n.child d with
  | some q =>
    let (this, array) ← tb.pushSpine d.other (stackNeed - array.length) q array
    return (some this, array)
  | none => tb.popUntil d array

/-- `while (stack->slot != slot)`, with a bound on the turns: each of them takes the slot of the
stack one nearer. -/
def slotLoop (tb : DbTableTree Obj) (slot : ℕ) :
    ℕ → Addr → DbTreeStack → Option (Option Addr × DbTreeStack)
  | turns, this, stack =>
    if stack.slot = slot then some (some this, stack)
    else match turns with
      | 0 => none
      | turns + 1 =>
        if stack.slot < slot then do
          match ← tb.slotTurn .right this stack.array with
          | (none, array) => return (none, ⟨array, stack.slot⟩)
          | (some this, array) => slotLoop tb slot turns this ⟨array, stack.slot + 1⟩
        else do
          match ← tb.slotTurn .left this stack.array with
          | (none, array) => return (none, ⟨array, stack.slot⟩)
          | (some this, array) => slotLoop tb slot turns this ⟨array, stack.slot - 1⟩

/-- `slot_search`: the node, the stack, and whether the slot is behind the last. -/
def slotSearch (tb : DbTableTree Obj) (slot : ℕ) (stack : DbTreeStack) :
    Option (Option Addr × DbTreeStack × Bool) := do
  let stack := if slot = 1 then { stack with slot := 0 } else stack
  let stack := if stack.slot = 0 then { stack with array := [] } else stack
  match stack.array with
  | top :: _ =>
    let (this, stack) ← tb.slotLoop slot (slot + stack.slot) top stack
    return (this, stack, this.isNone && stack.slot + 1 == slot)
  | [] =>
    match tb.root with
    | none => return (none, stack, stack.slot + 1 == slot)
    | some root =>
      let (this, array) ← tb.pushSpine .left stackNeed root []
      let stack : DbTreeStack := ⟨array, stack.slot + 1⟩
      let (this, stack) ← tb.slotLoop slot (slot + stack.slot) this stack
      return (this, stack, this.isNone && stack.slot + 1 == slot)

/-! ## A key -/

/-- `while (this != NULL && (res = cmp_key(tb,key,this)) != 0)`, with a bound on the length of
the path. -/
def findLoop (T : Terms Key Obj) (tb : DbTableTree Obj) (key : Key) :
    ℕ → Option Addr → Option (Option Addr)
  | _, none => some none
  | 0, some _ => none
  | turns + 1, some this => do
    let n ← tb.heap this
    if T.cmpKey key n = 0 then return some this
    else if T.cmpKey key n < 0 then findLoop T tb key turns n.left
    else findLoop T tb key turns n.right

/-- `find_node` -/
def findNode (T : Terms Key Obj) (tb : DbTableTree Obj) (key : Key) (stack : DbTreeStack) :
    Option (Option Addr) :=
  match stack.array with
  | [] => tb.findLoop T key tb.nitems tb.root
  | top :: _ => do
    let n ← tb.heap top
    if T.cmpKeyEq key n then return some top
    else tb.findLoop T key tb.nitems tb.root

/-! ## Queries -/

/-- The table with another static stack. -/
def setStaticStack (tb : DbTableTree Obj) (stack : DbTreeStack) : DbTableTree Obj :=
  { tb with staticStack := stack }

/-- `db_first_tree_common`, `db_last_tree_common`: the extreme node on a side, with its slot. -/
def dbEndTreeCommon (tb : DbTableTree Obj) (d : Side) (slot : ℕ)
    (func : TreeDbTerm Obj → Answer Key Obj) :
    Option (DbError × Answer Key Obj × DbTableTree Obj) :=
  match tb.root with
  | none => some (.none, .endOfTable, tb)
  | some root => do
    let (this, array) ← tb.pushSpine d stackNeed root []
    let n ← tb.heap this
    return (.none, func n, tb.setStaticStack ⟨array, slot⟩)

/-- `db_first_tree_common` -/
def dbFirstTreeCommon (tb : DbTableTree Obj) :
    (TreeDbTerm Obj → Answer Key Obj) → Option (DbError × Answer Key Obj × DbTableTree Obj) :=
  tb.dbEndTreeCommon .left 1

/-- `db_last_tree_common` -/
def dbLastTreeCommon (tb : DbTableTree Obj) :
    (TreeDbTerm Obj → Answer Key Obj) → Option (DbError × Answer Key Obj × DbTableTree Obj) :=
  tb.dbEndTreeCommon .right tb.nitems

/-- `db_next_tree_common`, `db_prev_tree_common` -/
def dbNeighbourTreeCommon (T : Terms Key Obj) (tb : DbTableTree Obj) (d : Side) (key : Key)
    (func : TreeDbTerm Obj → Answer Key Obj) :
    Option (DbError × Answer Key Obj × DbTableTree Obj) :=
  if T.isEot key then some (.badkey, .none, tb)
  else do
    match ← tb.findNeighbour T d key tb.staticStack with
    | (none, stack) => return (.none, .endOfTable, tb.setStaticStack stack)
    | (some this, stack) =>
      let n ← tb.heap this
      return (.none, func n, tb.setStaticStack stack)

/-- `db_next_tree_common` -/
def dbNextTreeCommon (T : Terms Key Obj) (tb : DbTableTree Obj) : Key →
    (TreeDbTerm Obj → Answer Key Obj) → Option (DbError × Answer Key Obj × DbTableTree Obj) :=
  tb.dbNeighbourTreeCommon T .right

/-- `db_prev_tree_common` -/
def dbPrevTreeCommon (T : Terms Key Obj) (tb : DbTableTree Obj) : Key →
    (TreeDbTerm Obj → Answer Key Obj) → Option (DbError × Answer Key Obj × DbTableTree Obj) :=
  tb.dbNeighbourTreeCommon T .left

/-- `db_slot_tree_common` of the small `slot`. Any other term is the bad parameter that a negative
small is. -/
def dbSlotTreeCommon (tb : DbTableTree Obj) (slot : ℤ) :
    Option (DbError × Answer Key Obj × DbTableTree Obj) :=
  if slot < 0 ∨ (tb.nitems : ℤ) < slot then some (.badparam, .none, tb)
  else if slot = tb.nitems then some (.none, .endOfTable, tb)
  else do
    match ← tb.slotSearch (slot.toNat + 1) tb.staticStack with
    | (_, stack, true) => return (.none, .endOfTable, tb.setStaticStack stack)
    | (none, stack, false) => return (.unspec, .false, tb.setStaticStack stack)
    | (some st, stack, false) =>
      let n ← tb.heap st
      return (.none, .objects [n.dbterm], tb.setStaticStack stack)

/-- `db_get_tree_common` -/
def dbGetTreeCommon (T : Terms Key Obj) (tb : DbTableTree Obj) (key : Key) :
    Option (DbError × Answer Key Obj × DbTableTree Obj) := do
  match ← tb.findNode T key tb.staticStack with
  | none => return (.none, .objects [], tb)
  | some this =>
    let n ← tb.heap this
    return (.none, .objects [n.dbterm], tb)

end DbTableTree

end PonBeam.EtsTree
