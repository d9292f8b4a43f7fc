import Mathlib.Data.List.Nodup
import Mathlib.Data.List.Basic
import Mathlib.Logic.Function.Basic

/-!
# Linked segments

`Seg next a l b` says that following `next` from the pointer `a` visits exactly
the nodes of `l`, in order, and then arrives at `b`; with `b = none` it is a
NULL-terminated list. The lemmas here are the ones a pointer program needs:
segments compose, a write outside a segment does not disturb it, a node is
appended by writing the last `next` word, and a node is unlinked by writing the
`next` word of its predecessor.
-/

namespace PonBeam

universe u

variable {α : Type u}

/-- Following `next` from `a` visits `l` and then stands at `b`. -/
def Seg (next : α → Option α) : Option α → List α → Option α → Prop
  | a, [], b => a = b
  | a, x :: l, b => a = some x ∧ Seg next (next x) l b

namespace Seg

variable {next : α → Option α} {a b : Option α} {x : α} {l l₁ l₂ : List α}

@[simp] theorem nil_iff : Seg next a [] b ↔ a = b := Iff.rfl

@[simp] theorem cons_iff : Seg next a (x :: l) b ↔ a = some x ∧ Seg next (next x) l b :=
  Iff.rfl

theorem append_iff : Seg next a (l₁ ++ l₂) b ↔ ∃ m, Seg next a l₁ m ∧ Seg next m l₂ b := by
  induction l₁ generalizing a with
  | nil => simp
  | cons x l ih =>
    simp only [List.cons_append, cons_iff, ih]
    constructor
    · rintro ⟨rfl, m, h₁, h₂⟩
      exact ⟨m, ⟨rfl, h₁⟩, h₂⟩
    · rintro ⟨m, ⟨rfl, h₁⟩, h₂⟩
      exact ⟨rfl, m, h₁, h₂⟩

/-- Only the `next` words of the visited nodes matter. -/
theorem congr {next' : α → Option α} (h : ∀ y ∈ l, next' y = next y) :
    Seg next' a l b ↔ Seg next a l b := by
  induction l generalizing a with
  | nil => simp
  | cons x l ih =>
    simp only [cons_iff]
    rw [h x (List.mem_cons_self ..), ih fun y hy => h y (List.mem_cons_of_mem _ hy)]

/-- The head pointer of a NULL-terminated list is its first node. -/
theorem head_eq (h : Seg next a l none) : a = l.head? := by
  cases l with
  | nil => exact h
  | cons x l => exact h.1

/-- The way to the end of a list goes along every segment from where it starts. -/
theorem prefix_of_end (h : Seg next a l b) (h' : Seg next a l₁ none) :
    ∃ l₂, l₁ = l ++ l₂ ∧ Seg next b l₂ none := by
  induction l generalizing a l₁ with
  | nil =>
    obtain rfl : a = b := h
    exact ⟨l₁, rfl, h'⟩
  | cons x l ih =>
    obtain ⟨rfl, h⟩ := h
    cases l₁ with
    | nil => cases h'
    | cons y l₁ =>
      obtain rfl : x = y := Option.some.inj h'.1
      obtain ⟨l₂, rfl, hl₂⟩ := ih h h'.2
      exact ⟨l₂, rfl, hl₂⟩

/-- There is one NULL-terminated list from a pointer. -/
theorem unique (h : Seg next a l none) (h' : Seg next a l₁ none) : l = l₁ := by
  obtain ⟨l₂, rfl, hl₂⟩ := h.prefix_of_end h'
  cases l₂ with
  | nil => exact (List.append_nil l).symm
  | cons y l₂ => cases hl₂.1

/-- A cycle has no end. -/
theorem endless_of_cycle (h : Seg next (some x) (x :: l) (some x)) :
    ¬Seg next (some x) l₁ none := by
  intro h'
  obtain ⟨l₂, rfl, hl₂⟩ := h.prefix_of_end h'
  have hlen := congrArg List.length (h'.unique hl₂)
  rw [List.length_append, List.length_cons] at hlen
  omega

/-- It does not come back to a node. -/
theorem nodup (h : Seg next a l none) : l.Nodup := by
  induction l generalizing a with
  | nil => exact List.nodup_nil
  | cons x l ih =>
    obtain ⟨rfl, h⟩ := h
    refine List.nodup_cons.mpr ⟨fun hx => ?_, ih h⟩
    obtain ⟨l₁, l₂, rfl⟩ := List.append_of_mem hx
    obtain ⟨-, -, rfl, hback⟩ := append_iff.mp h
    -- the list behind `x` would be a part of itself
    have heq : l₁ ++ x :: l₂ = l₂ := h.unique hback
    have hlen : (l₁ ++ x :: l₂).length = l₂.length := congrArg List.length heq
    rw [List.length_append, List.length_cons] at hlen
    omega

/-- Appending a NULL-terminated list `l₂` to a segment: the `next` word of the last node
(the head pointer, if there is none) now points where `l₂` starts. -/
theorem extend {c : Option α} (h : Seg next a l₁ c) (hnd : l₁.Nodup)
    {next' : α → Option α} {a' : Option α} (h₂ : Seg next' b l₂ none)
    (hlast : ∀ y, l₁.getLast? = some y → next' y = b)
    (hhead : a' = if l₁ = [] then b else a)
    (hrest : ∀ z ∈ l₁, l₁.getLast? ≠ some z → next' z = next z) :
    Seg next' a' (l₁ ++ l₂) none := by
  rcases List.eq_nil_or_concat l₁ with rfl | ⟨l, y, rfl⟩
  · subst hhead
    simpa using h₂
  · rw [List.concat_eq_append] at *
    have hy : y ∉ l := fun hm => (List.nodup_append.mp hnd).2.2 y hm y (by simp) rfl
    obtain ⟨m, h₁, rfl, -⟩ := append_iff.mp h
    have hl : Seg next' a l (some y) := by
      refine (congr fun z hz => hrest z (by simp [hz]) fun hl => ?_).mpr h₁
      simp only [List.getLast?_append, List.getLast?_singleton, Option.some_or,
        Option.some.injEq] at hl
      exact hy (hl ▸ hz)
    rw [hhead, if_neg (by simp), append_iff]
    exact ⟨b, append_iff.mpr ⟨some y, hl, rfl, hlast y (by simp)⟩, h₂⟩

/-- Appending `x` to a NULL-terminated list. -/
theorem snoc (h : Seg next a l none) (hnd : l.Nodup) {next' : α → Option α} {a' : Option α}
    (hlast : ∀ y, l.getLast? = some y → next' y = some x)
    (hhead : a' = if l = [] then some x else a) (hx : next' x = none)
    (hrest : ∀ z ∈ l, l.getLast? ≠ some z → next' z = next z) :
    Seg next' a' (l ++ [x]) none :=
  h.extend hnd (b := some x) ⟨rfl, hx⟩ hlast hhead hrest

/-- Unlinking `x`: its predecessor (the list head, if it has none) now points
where `x` pointed. -/
theorem unlink (h : Seg next a (l₁ ++ x :: l₂) none) (hnd : (l₁ ++ x :: l₂).Nodup)
    {next' : α → Option α} {a' : Option α}
    (hpre : ∀ y, l₁.getLast? = some y → next' y = next x)
    (hhead : a' = if l₁ = [] then next x else a)
    (hrest : ∀ z ∈ l₁ ++ l₂, l₁.getLast? ≠ some z → next' z = next z) :
    Seg next' a' (l₁ ++ l₂) none := by
  obtain ⟨m, h₁, rfl, h₂⟩ := append_iff.mp h
  have hdisj : ∀ z ∈ l₁, z ∉ l₂ := fun z hz hz' =>
    (List.nodup_append.mp hnd).2.2 z hz z (List.mem_cons_of_mem _ hz') rfl
  have h₂' : Seg next' (next x) l₂ none := by
    refine (congr fun z hz => hrest z (List.mem_append_right _ hz) fun hl => ?_).mpr h₂
    exact hdisj z (List.mem_of_getLast? hl) hz
  exact h₁.extend (List.nodup_append.mp hnd).1 h₂' hpre hhead fun z hz =>
    hrest z (List.mem_append_left _ hz)

end Seg

end PonBeam
