import PonBeam.EtsTree.Model
import PonBeam.Lib.Comparison

/-!
# Terms as keys (`erl_term.h`)

Lists and tuples are built here; of the other terms (numbers, atoms, pids, maps and so on)
only their tags and the order among them are used. Numbers of different tags may be equal to
`CMP`, as `1` and `1.0` are.
-/

namespace PonBeam.EtsTree

/-- What `tag_val_def` returns. -/
inductive TagVal : Type where
  /-- `BITSTRING_DEF` -/
  | bitstring
  /-- `LIST_DEF` -/
  | list
  /-- `NIL_DEF` -/
  | nil
  /-- `MAP_DEF` -/
  | map
  /-- `RECORD_DEF` -/
  | record
  /-- `TUPLE_DEF` -/
  | tuple
  /-- `PID_DEF` -/
  | pid
  /-- `EXTERNAL_PID_DEF` -/
  | externalPid
  /-- `PORT_DEF` -/
  | port
  /-- `EXTERNAL_PORT_DEF` -/
  | externalPort
  /-- `FUN_DEF` -/
  | func
  /-- `REF_DEF` -/
  | ref
  /-- `EXTERNAL_REF_DEF` -/
  | externalRef
  /-- `ATOM_DEF` -/
  | atom
  /-- `FLOAT_DEF` -/
  | float
  /-- `BIG_DEF` -/
  | big
  /-- `SMALL_DEF` -/
  | small
  deriving DecidableEq

/-- The place of a type in the order of all terms: `number < atom < ref < fun < port < pid <
tuple < record < map < nil < cons < binary`. -/
def TagVal.rank : TagVal → ℕ
  | small | big | float => 0
  | atom => 1
  | ref | externalRef => 2
  | func => 3
  | port | externalPort => 4
  | pid | externalPid => 5
  | tuple => 6
  | record => 7
  | map => 8
  | nil => 9
  | list => 10
  | bitstring => 11

/-- The terms that are neither lists nor tuples, and what is asked of them. -/
structure Prims (Prim : Type) where
  /-- `tag_val_def` -/
  tag : Prim → TagVal
  /-- `CMP`, a total preorder -/
  cmp : Prim → Prim → ℤ
  /-- `a == am_Underscore` -/
  isUnderscore : Prim → Bool
  /-- `db_is_variable` -/
  dbIsVariable : Prim → ℤ
  /-- `is_same` of immediate words; what is boxed has a place of its own -/
  sameWord : Prim → Prim → Bool
  eq_of_sameWord : ∀ p q, sameWord p q = true → p = q
  sameWord_atom : ∀ p, tag p = .atom → sameWord p p = true
  tag_ne : ∀ p, tag p ≠ .tuple ∧ tag p ≠ .nil ∧ tag p ≠ .list
  cmp_of_rank : ∀ p q, (tag p).rank < (tag q).rank → cmp p q < 0
  cmp_swap : ∀ p q, cmp p q < 0 ↔ 0 < cmp q p
  cmp_trans : ∀ p q r, cmp p q ≤ 0 → cmp q r ≤ 0 → cmp p r ≤ 0

/-- A term. -/
inductive Term (Prim : Type) : Type where
  /-- neither a list nor a tuple -/
  | prim (p : Prim)
  /-- `NIL` -/
  | nil
  /-- a list cell with its `CAR` and its `CDR` -/
  | cons (head tail : Term Prim)
  /-- a tuple -/
  | tuple (elems : List (Term Prim))

variable {Prim : Type} (P : Prims Prim)

/-- `tag_val_def` -/
def Term.tagValDef : Term Prim → TagVal
  | .prim p => P.tag p
  | .nil => .nil
  | .cons _ _ => .list
  | .tuple _ => .tuple

/-- `is_same` of terms that have no places in common: they are immediate words. -/
def Term.sameWord : Term Prim → Term Prim → Bool
  | .prim p, .prim q => P.sameWord p q
  | .nil, .nil => true
  | _, _ => false

theorem Term.eq_of_sameWord {P : Prims Prim} {a b : Term Prim} (h : a.sameWord P b = true) :
    a = b := by
  cases a with
  | prim p =>
    cases b with
    | prim q => exact congrArg Term.prim (P.eq_of_sameWord p q h)
    | _ => cases h
  | nil =>
    cases b with
    | nil => rfl
    | _ => cases h
  | _ => cases h

/-- The place of a term's type in the order. -/
def Term.rank (a : Term Prim) : ℕ := (a.tagValDef P).rank

/-- Tuples of different sizes. -/
def cmpArity (m n : ℕ) : ℤ := if m < n then -1 else if n < m then 1 else 0

mutual

/-- `CMP` -/
def Term.cmp : Term Prim → Term Prim → ℤ
  | .prim p, .prim q => P.cmp p q
  | .nil, .nil => 0
  | .cons x xs, .cons y ys => thenCmp (Term.cmp x y) (Term.cmp xs ys)
  | .tuple xs, .tuple ys => thenCmp (cmpArity xs.length ys.length) (Term.cmpElems xs ys)
  -- `mixed_types`
  | a, b => a.rank P - b.rank P

/-- `CMP` of the elements of two tuples, which are of the same size. -/
def Term.cmpElems : List (Term Prim) → List (Term Prim) → ℤ
  | x :: xs, y :: ys => thenCmp (Term.cmp x y) (Term.cmpElems xs ys)
  | [], [] => 0
  | [], _ :: _ => -1
  | _ :: _, [] => 1

end

/-- Induction on terms, where a tuple has an assumption for each element. -/
theorem Term.ind {motive : Term Prim → Prop} (prim : ∀ p, motive (.prim p)) (nil : motive .nil)
    (cons : ∀ x xs, motive x → motive xs → motive (.cons x xs))
    (tuple : ∀ xs, (∀ x ∈ xs, motive x) → motive (.tuple xs)) (a : Term Prim) : motive a :=
  @Term.rec Prim motive (fun xs => ∀ x ∈ xs, motive x) prim nil cons tuple
    (fun _ h => absurd h List.not_mem_nil)
    (fun _ _ hx hxs => List.forall_mem_cons.2 ⟨hx, hxs⟩) a

/-! ## A total preorder -/

theorem cmpArity_ranks (m n : ℕ) :
    (m < n → cmpArity m n < 0) ∧ (n < m → 0 < cmpArity m n) := by
  constructor <;> intro h <;> rw [cmpArity] <;> split_ifs <;> omega

theorem cmpArity_self (n : ℕ) : cmpArity n n = 0 := by
  rw [cmpArity, if_neg (lt_irrefl n), if_neg (lt_irrefl n)]

theorem cmpArity_eq_zero {m n : ℕ} : cmpArity m n = 0 ↔ m = n := by
  refine ⟨fun h => ?_, fun h => by rw [h, cmpArity_self]⟩
  have hmn := cmpArity_ranks m n
  omega

theorem swaps_cmpArity (m n : ℕ) : Swaps (cmpArity m n) (cmpArity n m) := by
  rcases Nat.lt_trichotomy m n with h | rfl | h
  · exact .of_neg_pos ((cmpArity_ranks m n).1 h) ((cmpArity_ranks n m).2 h)
  · rw [cmpArity_self]
    exact .zero
  · exact (Swaps.of_neg_pos ((cmpArity_ranks n m).1 h) ((cmpArity_ranks m n).2 h)).symm

theorem consistent_cmpArity (l m n : ℕ) :
    Consistent (cmpArity l m) (cmpArity m n) (cmpArity l n) := by
  by_cases h : l = m ∧ m = n
  · rw [h.1, h.2, cmpArity_self]
    exact .zero
  · exact .of_ranks h (cmpArity_ranks l m) (cmpArity_ranks m n) (cmpArity_ranks l n)

namespace Prims

theorem swaps_cmp (p q : Prim) : Swaps (P.cmp p q) (P.cmp q p) :=
  ⟨P.cmp_swap p q, (P.cmp_swap q p).symm⟩

theorem consistent_cmp (p q r : Prim) : Consistent (P.cmp p q) (P.cmp q r) (P.cmp p r) := by
  have hpq := P.cmp_swap p q
  have hqp := P.cmp_swap q p
  have hqr := P.cmp_swap q r
  have hrq := P.cmp_swap r q
  have hpr := P.cmp_swap p r
  have hrp := P.cmp_swap r p
  have hpqr := P.cmp_trans p q r
  have hrqp := P.cmp_trans r q p
  have hrpq := P.cmp_trans r p q
  have hqrp := P.cmp_trans q r p
  have hprq := P.cmp_trans p r q
  have hqpr := P.cmp_trans q p r
  constructor <;> omega

end Prims

namespace Term

variable {P}

/-- Terms of different types, `mixed_types`. -/
theorem cmp_mixed {a b : Term Prim} (h : a.rank P ≠ b.rank P) :
    (∃ p q, a = .prim p ∧ b = .prim q) ∨ a.cmp P b = a.rank P - b.rank P := by
  cases a <;> cases b <;> first
    | exact Or.inr rfl
    | exact Or.inl ⟨_, _, rfl, rfl⟩
    | exact absurd rfl h

theorem cmp_ranks (a b : Term Prim) :
    (a.rank P < b.rank P → a.cmp P b < 0) ∧ (b.rank P < a.rank P → 0 < a.cmp P b) := by
  constructor <;> intro h
  · rcases cmp_mixed (ne_of_lt h) with ⟨p, q, rfl, rfl⟩ | hmixed
    · exact P.cmp_of_rank p q h
    · omega
  · rcases cmp_mixed (ne_of_gt h) with ⟨p, q, rfl, rfl⟩ | hmixed
    · exact (P.cmp_swap q p).1 (P.cmp_of_rank q p h)
    · omega

/-- A type has its own place, apart from those of `Prim`. -/
theorem rank_prim_ne (p : Prim) :
    (prim p).rank P ≠ TagVal.tuple.rank ∧ (prim p).rank P ≠ TagVal.nil.rank ∧
      (prim p).rank P ≠ TagVal.list.rank := by
  have hne := P.tag_ne p
  rw [rank, tagValDef]
  revert hne
  cases P.tag p <;> decide

theorem swaps_of_rank_ne {a b : Term Prim} (h : a.rank P ≠ b.rank P) :
    Swaps (a.cmp P b) (b.cmp P a) := by
  rcases Nat.lt_or_gt_of_ne h with h | h
  · exact .of_neg_pos ((cmp_ranks a b).1 h) ((cmp_ranks b a).2 h)
  · exact (Swaps.of_neg_pos ((cmp_ranks b a).1 h) ((cmp_ranks a b).2 h)).symm

theorem swaps_cmpElems {xs : List (Term Prim)}
    (h : ∀ x ∈ xs, ∀ y, Swaps (x.cmp P y) (y.cmp P x)) (ys : List (Term Prim)) :
    Swaps (cmpElems P xs ys) (cmpElems P ys xs) := by
  induction xs generalizing ys with
  | nil =>
    cases ys with
    | nil => exact .zero
    | cons y ys => exact .of_neg_pos (show (-1 : ℤ) < 0 by decide) Int.zero_lt_one
  | cons x xs ih =>
    obtain ⟨hx, hxs⟩ := List.forall_mem_cons.1 h
    cases ys with
    | nil => exact (Swaps.of_neg_pos (show (-1 : ℤ) < 0 by decide) Int.zero_lt_one).symm
    | cons y ys =>
      rw [cmpElems, cmpElems]
      exact (hx y).thenCmp (ih hxs ys)

/-- Two terms of one type. -/
theorem same_rank {a b : Term Prim} (h : a.rank P = b.rank P) :
    (∃ p q, a = .prim p ∧ b = .prim q) ∨ (a = .nil ∧ b = .nil) ∨
    (∃ x xs y ys, a = .cons x xs ∧ b = .cons y ys) ∨ (∃ xs ys, a = .tuple xs ∧ b = .tuple ys) := by
  cases a with
  | prim p =>
    cases b with
    | prim q => exact Or.inl ⟨p, q, rfl, rfl⟩
    | nil => exact absurd h (rank_prim_ne p).2.1
    | cons y ys => exact absurd h (rank_prim_ne p).2.2
    | tuple ys => exact absurd h (rank_prim_ne p).1
  | nil =>
    cases b with
    | prim q => exact absurd h.symm (rank_prim_ne q).2.1
    | nil => exact Or.inr (Or.inl ⟨rfl, rfl⟩)
    | cons y ys => exact absurd h (show TagVal.nil.rank ≠ TagVal.list.rank by decide)
    | tuple ys => exact absurd h (show TagVal.nil.rank ≠ TagVal.tuple.rank by decide)
  | cons x xs =>
    cases b with
    | prim q => exact absurd h.symm (rank_prim_ne q).2.2
    | nil => exact absurd h (show TagVal.list.rank ≠ TagVal.nil.rank by decide)
    | cons y ys => exact Or.inr (Or.inr (Or.inl ⟨x, xs, y, ys, rfl, rfl⟩))
    | tuple ys => exact absurd h (show TagVal.list.rank ≠ TagVal.tuple.rank by decide)
  | tuple xs =>
    cases b with
    | prim q => exact absurd h.symm (rank_prim_ne q).1
    | nil => exact absurd h (show TagVal.tuple.rank ≠ TagVal.nil.rank by decide)
    | cons y ys => exact absurd h (show TagVal.tuple.rank ≠ TagVal.list.rank by decide)
    | tuple ys => exact Or.inr (Or.inr (Or.inr ⟨xs, ys, rfl, rfl⟩))

/-- `CMP` the other way round. -/
theorem swaps_cmp (a b : Term Prim) : Swaps (a.cmp P b) (b.cmp P a) := by
  induction a using Term.ind generalizing b with
  | prim p =>
    cases b with
    | prim q => exact P.swaps_cmp p q
    | _ => exact swaps_of_rank_ne fun h => by simpa using same_rank h
  | nil =>
    cases b with
    | nil => exact .zero
    | _ => exact swaps_of_rank_ne fun h => by simpa using same_rank h
  | cons x xs hx hxs =>
    cases b with
    | cons y ys =>
      rw [cmp, cmp]
      exact (hx y).thenCmp (hxs ys)
    | _ => exact swaps_of_rank_ne fun h => by simpa using same_rank h
  | tuple xs h =>
    cases b with
    | tuple ys =>
      rw [cmp, cmp]
      exact (swaps_cmpArity _ _).thenCmp (swaps_cmpElems h ys)
    | _ => exact swaps_of_rank_ne fun h => by simpa using same_rank h

theorem consistent_of_rank_ne {a b c : Term Prim}
    (h : ¬(a.rank P = b.rank P ∧ b.rank P = c.rank P)) :
    Consistent (a.cmp P b) (b.cmp P c) (a.cmp P c) :=
  .of_ranks h (cmp_ranks a b) (cmp_ranks b c) (cmp_ranks a c)

theorem consistent_cmpElems {xs : List (Term Prim)}
    (h : ∀ x ∈ xs, ∀ y z, Consistent (x.cmp P y) (y.cmp P z) (x.cmp P z))
    (ys zs : List (Term Prim)) :
    Consistent (cmpElems P xs ys) (cmpElems P ys zs) (cmpElems P xs zs) := by
  induction xs generalizing ys zs with
  | nil => cases ys <;> cases zs <;> constructor <;> simp [cmpElems]
  | cons x xs ih =>
    obtain ⟨hx, hxs⟩ := List.forall_mem_cons.1 h
    cases ys with
    | nil => cases zs <;> constructor <;> simp [cmpElems]
    | cons y ys =>
      cases zs with
      | nil => constructor <;> simp [cmpElems]
      | cons z zs =>
        rw [cmpElems, cmpElems, cmpElems]
        exact (hx y z).thenCmp (ih hxs ys zs)

/-- **`CMP` is transitive.** -/
theorem consistent_cmp (a b c : Term Prim) :
    Consistent (a.cmp P b) (b.cmp P c) (a.cmp P c) := by
  induction a using Term.ind generalizing b c with
  | prim p =>
    by_cases h : (prim p).rank P = b.rank P ∧ b.rank P = c.rank P
    · obtain ⟨-, q, -, rfl⟩ | h' := same_rank h.1
      · obtain ⟨-, r, -, rfl⟩ | h' := same_rank h.2
        · exact P.consistent_cmp p q r
        · simp at h'
      · simp at h'
    · exact consistent_of_rank_ne h
  | nil =>
    by_cases h : nil.rank P = b.rank P ∧ b.rank P = c.rank P
    · obtain rfl : b = nil := by simpa using same_rank h.1
      obtain rfl : c = nil := by simpa using same_rank h.2
      exact .zero
    · exact consistent_of_rank_ne h
  | cons x xs hx hxs =>
    by_cases h : (cons x xs).rank P = b.rank P ∧ b.rank P = c.rank P
    · obtain ⟨y, ys, rfl⟩ : ∃ y ys, b = cons y ys := by simpa using same_rank h.1
      obtain ⟨z, zs, rfl⟩ : ∃ z zs, c = cons z zs := by simpa using same_rank h.2
      rw [cmp, cmp, cmp]
      exact (hx y z).thenCmp (hxs ys zs)
    · exact consistent_of_rank_ne h
  | tuple xs hxs =>
    by_cases h : (tuple xs).rank P = b.rank P ∧ b.rank P = c.rank P
    · obtain ⟨ys, rfl⟩ : ∃ ys, b = tuple ys := by simpa using same_rank h.1
      obtain ⟨zs, rfl⟩ : ∃ zs, c = tuple zs := by simpa using same_rank h.2
      rw [cmp, cmp, cmp]
      exact (consistent_cmpArity _ _ _).thenCmp (consistent_cmpElems hxs ys zs)
    · exact consistent_of_rank_ne h

end Term

/-- A table whose keys are terms. -/
structure TermTable (Prim Obj : Type) extends Prims Prim where
  /-- `keypos` -/
  keypos : ℕ
  /-- `GETKEY` -/
  getkey : Obj → Term Prim
  /-- `is_same`: the same word, also where both are in the same place -/
  isSame : Term Prim → Term Prim → Bool
  /-- `db_eq` -/
  dbEq : Obj → Obj → Bool
  /-- `key == am_EOT` -/
  isEot : Term Prim → Bool
  eq_of_isSame : ∀ a b, isSame a b = true → a = b
  isSame_of_sameWord : ∀ a b, a.sameWord toPrims b = true → isSame a b = true

/-- What the table asks of its keys. -/
def TermTable.terms {Obj : Type} (K : TermTable Prim Obj) : Terms (Term Prim) Obj where
  getkey := K.getkey
  cmp := Term.cmp K.toPrims
  isSame := K.isSame
  dbEq := K.dbEq
  isEot := K.isEot
  cmp_swap a b := (Term.swaps_cmp a b).1
  cmp_trans a b c := (Term.consistent_cmp a b c).nonpos
  cmp_of_isSame a b h := by
    rw [K.eq_of_isSame a b h]
    exact (Term.swaps_cmp b b).eq_zero

end PonBeam.EtsTree
