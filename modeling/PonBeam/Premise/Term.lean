import Mathlib.Data.Int.Notation
import Mathlib.Data.List.Basic

/-!
# Terms in memory (`erl_term.h`)

A term is a word. What does not fit into a word is kept on a heap (of the process, of a
message, or among the literals), and the word is a tagged pointer at it; so one value has
many words. `Reads` says which value a word stands for, and `=:=` compares the values, as
`eq` of `utils.c` does.
-/

namespace PonBeam.Premise

/-- `Eterm`: a tagged word. -/
inductive Eterm : Type where
  /-- `THE_NON_VALUE` -/
  | nonValue
  /-- an atom, a small integer, a local pid or port, or `NIL` -/
  | immed (word : ℕ)
  /-- a pointer at a list cell -/
  | list (addr : ℕ)
  /-- a pointer at anything else -/
  | boxed (addr : ℕ)
  deriving DecidableEq, Repr

/-- `NIL` -/
def nil : Eterm := .immed 18446744073709551611

/-- `make_small(0)` and so on. -/
def makeSmall (n : ℕ) : Eterm := .immed (n * 16 + 15)

/-- What a header word says of the words behind it. -/
inductive Boxed : Type where
  /-- `ARITYVAL`: a tuple -/
  | tuple (elems : List Eterm)
  /-- a big integer -/
  | big (n : ℤ)
  /-- a float, as `eq` compares them -/
  | float (fdw : ℕ)
  /-- a bitstring, wherever its bytes are -/
  | bitstring (bits : List Bool)
  /-- a fun, a map, a reference, a record or an external thing: words that are compared as
  words, and terms -/
  | thing (header : ℕ) (words : List ℕ) (terms : List Eterm)

/-- All heaps together. -/
structure Heap where
  /-- `CAR` and `CDR` of the list cells -/
  cell : ℕ → Eterm × Eterm
  /-- the boxed things -/
  boxed : ℕ → Boxed

/-- `is_list` of a term -/
def Eterm.isList : Eterm → Bool
  | .list _ => true
  | _ => false

/-- The elements of a tuple: `tuple_val` if `is_tuple`. -/
def Heap.tupleVal (heap : Heap) : Eterm → Option (List Eterm)
  | .boxed addr =>
    match heap.boxed addr with
    | .tuple elems => some elems
    | _ => none
  | _ => none

/-- A value. -/
inductive Value : Type where
  /-- an immediate -/
  | immed (word : ℕ)
  /-- `[hd | tl]` -/
  | cons (hd tl : Value)
  /-- a tuple -/
  | tuple (elems : List Value)
  /-- a big integer -/
  | big (n : ℤ)
  /-- a float -/
  | float (fdw : ℕ)
  /-- a bitstring -/
  | bitstring (bits : List Bool)
  /-- a fun, a map, a reference, a record or an external thing -/
  | thing (header : ℕ) (words : List ℕ) (terms : List Value)

mutual

/-- The term stands for the value. -/
inductive Reads (heap : Heap) : Eterm → Value → Prop
  | immed (word : ℕ) : Reads heap (.immed word) (.immed word)
  | list {addr : ℕ} {hd tl : Value} : Reads heap (heap.cell addr).1 hd →
      Reads heap (heap.cell addr).2 tl → Reads heap (.list addr) (.cons hd tl)
  | tuple {addr : ℕ} {elems : List Eterm} {vs : List Value} :
      heap.boxed addr = .tuple elems → ReadsAll heap elems vs →
      Reads heap (.boxed addr) (.tuple vs)
  | big {addr : ℕ} {n : ℤ} : heap.boxed addr = .big n → Reads heap (.boxed addr) (.big n)
  | float {addr fdw : ℕ} : heap.boxed addr = .float fdw →
      Reads heap (.boxed addr) (.float fdw)
  | bitstring {addr : ℕ} {bits : List Bool} : heap.boxed addr = .bitstring bits →
      Reads heap (.boxed addr) (.bitstring bits)
  | thing {addr header : ℕ} {words : List ℕ} {terms : List Eterm} {vs : List Value} :
      heap.boxed addr = .thing header words terms → ReadsAll heap terms vs →
      Reads heap (.boxed addr) (.thing header words vs)

/-- The terms stand for the values, one by one. -/
inductive ReadsAll (heap : Heap) : List Eterm → List Value → Prop
  | nil : ReadsAll heap [] []
  | cons {t : Eterm} {v : Value} {ts : List Eterm} {vs : List Value} :
      Reads heap t v → ReadsAll heap ts vs → ReadsAll heap (t :: ts) (v :: vs)

end

/-- A term that stands for a value. -/
def IsTerm (heap : Heap) (t : Eterm) : Prop := ∃ v, Reads heap t v

/-- `=:=` -/
def ExactEq (heap : Heap) (a b : Eterm) : Prop := ∃ v, Reads heap a v ∧ Reads heap b v

/-- Two terms of one value, each with its own place on a heap. -/
def Copied (heap : Heap) (a b : Eterm) : Prop :=
  ExactEq heap a b ∧
    ((∃ x y, a = .list x ∧ b = .list y ∧ x ≠ y) ∨ ∃ x y, a = .boxed x ∧ b = .boxed y ∧ x ≠ y)

section

variable {heap : Heap} {a b : Eterm}

theorem IsTerm.exactEq (h : IsTerm heap a) : ExactEq heap a a :=
  let ⟨v, hv⟩ := h
  ⟨v, hv, hv⟩

/-- The words of one value are the same, or both are pointers. -/
theorem ExactEq.eq_or_copied (h : ExactEq heap a b) : a = b ∨ Copied heap a b := by
  obtain ⟨v, ha, hb⟩ := h
  by_cases hab : a = b
  · exact .inl hab
  · refine .inr ⟨⟨v, ha, hb⟩, ?_⟩
    cases ha with
    | immed word =>
      cases hb
      exact absurd rfl hab
    | list _ _ =>
      cases hb
      exact .inl ⟨_, _, rfl, rfl, fun h => hab (congrArg _ h)⟩
    | tuple _ _ | big _ | float _ | bitstring _ | thing _ _ =>
      cases hb
      exact .inr ⟨_, _, rfl, rfl, fun h => hab (congrArg _ h)⟩

theorem Copied.ne (h : Copied heap a b) : a ≠ b := by
  rintro rfl
  obtain ⟨-, ⟨x, y, rfl, hy, hne⟩ | ⟨x, y, rfl, hy, hne⟩⟩ := h
  · exact hne (Eterm.list.inj hy)
  · exact hne (Eterm.boxed.inj hy)

/-- Elements of one value each, paired. -/
theorem readsAll_zip {ts ts' : List Eterm} :
    (∃ vs, ReadsAll heap ts vs ∧ ReadsAll heap ts' vs) ↔
      ts.length = ts'.length ∧ ∀ x ∈ ts.zip ts', ExactEq heap x.1 x.2 := by
  induction ts generalizing ts' with
  | nil =>
    constructor
    · rintro ⟨vs, h, h'⟩
      cases h
      cases h'
      exact ⟨rfl, fun x hx => nomatch hx⟩
    · rintro ⟨hlen, -⟩
      rw [List.length_eq_zero_iff.mp hlen.symm]
      exact ⟨[], .nil, .nil⟩
  | cons t ts ih =>
    cases ts' with
    | nil =>
      constructor
      · rintro ⟨vs, h, h'⟩
        cases h'
        cases h
      · rintro ⟨hlen, -⟩
        cases hlen
    | cons t' ts' =>
      constructor
      · rintro ⟨vs, h, h'⟩
        cases h with
        | cons ht hts =>
          cases h' with
          | cons ht' hts' =>
            obtain ⟨hlen, hall⟩ := ih.mp ⟨_, hts, hts'⟩
            refine ⟨congrArg (· + 1) hlen, fun x hx => ?_⟩
            rcases List.mem_cons.mp hx with rfl | hx
            · exact ⟨_, ht, ht'⟩
            · exact hall x hx
      · rintro ⟨hlen, hall⟩
        obtain ⟨v, ht, ht'⟩ := hall (t, t') (List.mem_cons_self ..)
        obtain ⟨vs, hts, hts'⟩ := ih.mpr
          ⟨Nat.succ.inj hlen, fun x hx => hall x (List.mem_cons_of_mem _ hx)⟩
        exact ⟨v :: vs, .cons ht hts, .cons ht' hts'⟩

theorem tupleVal_eq_some {ts : List Eterm} (h : heap.tupleVal a = some ts) :
    ∃ addr, a = .boxed addr ∧ heap.boxed addr = .tuple ts := by
  cases a with
  | boxed addr =>
    simp only [Heap.tupleVal] at h
    split at h
    · rename_i elems hbox
      exact ⟨addr, rfl, Option.some.inj h ▸ hbox⟩
    · cases h
  | nonValue | immed _ | list _ => cases h

theorem reads_tuple {ts : List Eterm} {v : Value} (h : heap.tupleVal a = some ts) :
    Reads heap a v ↔ ∃ vs, v = .tuple vs ∧ ReadsAll heap ts vs := by
  obtain ⟨addr, rfl, hbox⟩ := tupleVal_eq_some h
  constructor
  · intro hv
    cases hv with
    | tuple hbox' hvs =>
      rw [hbox] at hbox'
      exact ⟨_, rfl, Boxed.tuple.inj hbox' ▸ hvs⟩
    | big hbox' | float hbox' | bitstring hbox' | thing hbox' _ =>
      rw [hbox] at hbox'
      cases hbox'
  · rintro ⟨vs, rfl, hvs⟩
    exact .tuple hbox hvs

/-- Tuples are equal if their elements are. -/
theorem exactEq_tuple {ts ts' : List Eterm} (ha : heap.tupleVal a = some ts)
    (hb : heap.tupleVal b = some ts') :
    ExactEq heap a b ↔
      ts.length = ts'.length ∧ ∀ x ∈ ts.zip ts', ExactEq heap x.1 x.2 := by
  rw [← readsAll_zip]
  constructor
  · rintro ⟨v, hva, hvb⟩
    obtain ⟨vs, rfl, hvs⟩ := (reads_tuple ha).mp hva
    obtain ⟨vs', heq, hvs'⟩ := (reads_tuple hb).mp hvb
    obtain rfl := Value.tuple.inj heq
    exact ⟨vs, hvs, hvs'⟩
  · rintro ⟨vs, hvs, hvs'⟩
    exact ⟨_, (reads_tuple ha).mpr ⟨vs, rfl, hvs⟩, (reads_tuple hb).mpr ⟨vs, rfl, hvs'⟩⟩

end

end PonBeam.Premise
