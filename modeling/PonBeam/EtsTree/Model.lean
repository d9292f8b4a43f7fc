import PonBeam.Lib.Avl

/-!
# Ordered tables (`erl_db_tree.c`)

An `ordered_set` is an AVL tree of nodes in memory. Memory is a partial function of addresses:
reading or writing a node that is not allocated, a `NULL` and a stack that is full are
undefined behaviour, and the operations are undefined (`none`) there. `TreeDbTerm **` is a
`Place`: the root pointer or a child pointer of a node. The code for the two directions is the
same up to the sign of the balance, so that both are written once, for a `Side`.

One operation runs at a time, so `is_stack_busy` is never set when a query starts, and all of
them have the static stack. Counters are never negative.
-/

namespace PonBeam.EtsTree

/-- Where a node is. -/
abbrev Addr := ℕ

/-- What the table asks of terms. -/
structure Terms (Key Obj : Type) where
  /-- `GETKEY` -/
  getkey : Obj → Key
  /-- `CMP`, a total preorder -/
  cmp : Key → Key → ℤ
  /-- `is_same`: the same word -/
  isSame : Key → Key → Bool
  /-- `db_eq` -/
  dbEq : Obj → Obj → Bool
  /-- `key == am_EOT` -/
  isEot : Key → Bool
  cmp_swap : ∀ a b, cmp a b < 0 ↔ 0 < cmp b a
  cmp_trans : ∀ a b c, cmp a b ≤ 0 → cmp b c ≤ 0 → cmp a c ≤ 0
  cmp_of_isSame : ∀ a b, isSame a b = true → cmp a b = 0

/-- `TreeDbTerm` -/
structure TreeDbTerm (Obj : Type) where
  /-- `left` -/
  left : Option Addr
  /-- `right` -/
  right : Option Addr
  /-- `balance` -/
  balance : ℤ
  /-- `dbterm` -/
  dbterm : Obj

/-- `DbTreeStack` -/
structure DbTreeStack where
  /-- `array[pos - 1]`, ..., `array[0]` -/
  array : List Addr
  /-- number of the top node, counted from one, or zero if it is not known -/
  slot : ℕ
  deriving DecidableEq

/-- `DbTableTree` -/
structure DbTableTree (Obj : Type) where
  /-- the nodes -/
  heap : Addr → Option (TreeDbTerm Obj)
  /-- `root` -/
  root : Option Addr
  /-- `NITEMS` -/
  nitems : ℕ
  /-- `static_stack` -/
  staticStack : DbTreeStack

/-- `TreeDbTerm **` -/
inductive Place : Type where
  /-- `&tb->root` -/
  | root
  /-- `&p->left`, `&p->right` -/
  | child (d : Side) (p : Addr)
  deriving DecidableEq

/-- What an operation returns. -/
inductive DbError : Type where
  /-- `DB_ERROR_NONE` -/
  | none
  /-- `DB_ERROR_BADKEY` -/
  | badkey
  /-- `DB_ERROR_BADPARAM` -/
  | badparam
  /-- `DB_ERROR_UNSPEC` -/
  | unspec
  deriving DecidableEq

/-- `STACK_NEED` -/
def stackNeed : ℕ := 90

variable {Key Obj : Type}

namespace TreeDbTerm

/-- `n->left`, `n->right` -/
def child (n : TreeDbTerm Obj) : Side → Option Addr
  | .left => n.left
  | .right => n.right

/-- `n->left = q`, `n->right = q` -/
def setChild (n : TreeDbTerm Obj) (q : Option Addr) : Side → TreeDbTerm Obj
  | .left => { n with left := q }
  | .right => { n with right := q }

/-- `n->balance = b` -/
def setBalance (n : TreeDbTerm Obj) (b : ℤ) : TreeDbTerm Obj := { n with balance := b }

end TreeDbTerm

namespace DbTableTree

variable (tb : DbTableTree Obj)

/-- The whole node is written. -/
def write (p : Addr) (n : TreeDbTerm Obj) : DbTableTree Obj :=
  { tb with heap := Function.update tb.heap p (some n) }

/-- Fields of the node are written. -/
def modify (p : Addr) (f : TreeDbTerm Obj → TreeDbTerm Obj) : Option (DbTableTree Obj) := do
  let n ← tb.heap p
  return tb.write p (f n)

/-- `free_term` -/
def freeTerm (p : Addr) : DbTableTree Obj :=
  { tb with heap := Function.update tb.heap p none }

/-- `*this` -/
def get : Place → Option (Option Addr)
  | .root => some tb.root
  | .child d p => do
    let n ← tb.heap p
    return n.child d

/-- `*this = q` -/
def set (q : Option Addr) : Place → Option (DbTableTree Obj)
  | .root => some { tb with root := q }
  | .child d p => tb.modify p fun n => n.setChild q d

/-- `reset_static_stack` -/
def resetStaticStack : DbTableTree Obj := { tb with staticStack := ⟨[], 0⟩ }

end DbTableTree

/-- `cmp_key` -/
def Terms.cmpKey (T : Terms Key Obj) (key : Key) (n : TreeDbTerm Obj) : ℤ :=
  T.cmp key (T.getkey n.dbterm)

/-- `cmp_key_eq` -/
def Terms.cmpKeyEq (T : Terms Key Obj) (key : Key) (n : TreeDbTerm Obj) : Bool :=
  T.isSame key (T.getkey n.dbterm) || T.cmp key (T.getkey n.dbterm) == 0

/-- `db_create_tree` -/
def dbCreateTree : DbTableTree Obj where
  heap := fun _ => none
  root := none
  nitems := 0
  staticStack := ⟨[], 0⟩

end PonBeam.EtsTree
