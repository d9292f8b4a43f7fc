import PonBeam.Lib.TreeZipper
import Mathlib.Data.Nat.Fib.Basic

/-!
# AVL trees

Binary trees whose nodes carry the height of the right child less that of the left. After a
subtree has grown or shrunk by one, `regrow` and `reshrink` walk the frames above it to the
root and turn the tree where it leans too much. Both keep the items in their order.
-/

namespace PonBeam

universe u

variable {α : Type u} {d : Side}

/-- An item with the balance of its node. -/
structure Weighed (α : Type u) where
  balance : ℤ
  item : α

namespace Weighed

/-- The same item with another balance. -/
def tilt (p : Weighed α) (b : ℤ) : Weighed α := { p with balance := b }

@[simp] theorem balance_tilt (p : Weighed α) (b : ℤ) : (p.tilt b).balance = b := rfl

@[simp] theorem item_tilt (p : Weighed α) (b : ℤ) : (p.tilt b).item = p.item := rfl

end Weighed

/-- The balance of a node that leans to a side. -/
def Side.sgn : Side → ℤ
  | .left => -1
  | .right => 1

theorem Side.sgn_cases (d : Side) : d.sgn = 1 ∨ d.sgn = -1 := by
  cases d
  · exact Or.inr rfl
  · exact Or.inl rfl

/-- The items of a tree from left to right. -/
def items (t : BinaryTree (Weighed α)) : List α :=
  (inorder t).map Weighed.item

@[simp] theorem items_nil : items (.nil : BinaryTree (Weighed α)) = [] := rfl

@[simp] theorem items_node {p : Weighed α} {l r : BinaryTree (Weighed α)} :
    items (.node p l r) = items l ++ p.item :: items r := by
  simp [items]

@[simp] theorem items_join {p : Weighed α} {s t : BinaryTree (Weighed α)} :
    items (d.join p s t) = d.cat (items s) p.item (items t) := by
  cases d <;> simp [Side.join, Side.cat]

theorem length_items (t : BinaryTree (Weighed α)) : (items t).length = t.numNodes := by
  rw [items, List.length_map, length_inorder]

theorem items_plug_congr {fs : List (Frame (Weighed α))} {t t' : BinaryTree (Weighed α)}
    (h : items t = items t') : items (plug fs t) = items (plug fs t') := by
  simp only [items] at h ⊢
  simp [inorder_plug, h]

/-- The balances are right, and none is out of `{-1, 0, 1}`. -/
def Avl : BinaryTree (Weighed α) → Prop
  | .nil => True
  | .node p l r => p.balance = (r.height : ℤ) - l.height ∧ -1 ≤ p.balance ∧ p.balance ≤ 1 ∧
      Avl l ∧ Avl r

theorem avl_join {p : Weighed α} {s t : BinaryTree (Weighed α)} : Avl (d.join p s t) ↔
    p.balance = d.sgn * ((s.height : ℤ) - t.height) ∧ -1 ≤ p.balance ∧ p.balance ≤ 1 ∧
      Avl s ∧ Avl t := by
  cases d
  · simp only [Side.join, Avl, Side.sgn]
    rw [show (-1 : ℤ) * ((s.height : ℤ) - t.height) = (t.height : ℤ) - s.height by omega]
  · simp only [Side.join, Avl, Side.sgn]
    rw [show (1 : ℤ) * ((s.height : ℤ) - t.height) = (s.height : ℤ) - t.height by omega]
    tauto

theorem fib_add_three_le {m n₁ n₂ : ℕ} (h₁ : Nat.fib (m + 1) ≤ n₁) (h₂ : Nat.fib (m + 2) ≤ n₂) :
    Nat.fib (m + 3) ≤ n₁ + n₂ := by
  have : Nat.fib (m + 3) = Nat.fib (m + 1) + Nat.fib (m + 2) := Nat.fib_add_two
  omega

/-- **A tree with few nodes is not high.** -/
theorem Avl.fib_le {t : BinaryTree (Weighed α)} (h : Avl t) :
    Nat.fib (t.height + 2) ≤ t.numNodes + 1 := by
  induction t with
  | nil => simp
  | node p l r ihl ihr =>
    obtain ⟨hbal, hlow, hhigh, hl, hr⟩ := h
    have hleft := ihl hl
    have hright := ihr hr
    have hcases : l.height = r.height + 1 ∨ r.height = l.height + 1 ∨ l.height = r.height := by
      omega
    rw [BinaryTree.height, BinaryTree.numNodes]
    rcases hcases with hlr | hlr | hlr
    · rw [hlr] at hleft
      rw [hlr, max_eq_left (by omega)]
      exact (fib_add_three_le hright hleft).trans (by omega)
    · rw [hlr] at hright
      rw [hlr, max_eq_right (by omega)]
      exact (fib_add_three_le hleft hright).trans (by omega)
    · rw [hlr] at hleft
      rw [hlr, max_self]
      exact (fib_add_three_le (Nat.fib_le_fib_succ.trans hleft) hright).trans (by omega)

/-- The root leans to a side. -/
def Leans : BinaryTree (Weighed α) → Prop
  | .nil => False
  | .node p _ _ => p.balance ≠ 0

@[simp] theorem leans_join {p : Weighed α} {s t : BinaryTree (Weighed α)} :
    Leans (d.join p s t) ↔ p.balance ≠ 0 := by
  cases d <;> exact Iff.rfl

/-! ### Rotations -/

/-- `p` and its child `p₁` on side `d` change places. -/
def single (d : Side) (p p₁ : Weighed α) (x y z : BinaryTree (Weighed α)) :
    BinaryTree (Weighed α) :=
  d.join p₁ x (d.join p y z)

/-- The inner child `p₂` of the child `p₁` of `p` on side `d` comes above both. -/
def double (d : Side) (p p₁ p₂ : Weighed α) (x y z w : BinaryTree (Weighed α)) :
    BinaryTree (Weighed α) :=
  d.join (p₂.tilt 0) (d.join (p₁.tilt (if p₂.balance = -d.sgn then d.sgn else 0)) x y)
    (d.join (p.tilt (if p₂.balance = d.sgn then -d.sgn else 0)) z w)

variable {p p₁ p₂ : Weighed α} {s t x y z w : BinaryTree (Weighed α)} {h : ℕ}

theorem items_single (b b₁ : ℤ) : items (single d (p.tilt b) (p₁.tilt b₁) x y z) =
    items (d.join p (d.join p₁ x y) z) := by
  cases d <;> simp [single, Side.cat]

theorem items_double : items (double d p p₁ p₂ x y z w) =
    items (d.join p (d.join p₁ x (d.join p₂ y z)) w) := by
  cases d <;> simp [double, Side.cat]

/-- The rotation that brings up an inner child. -/
theorem double_avl (hs : Avl (d.join p₁ x (d.join p₂ y z))) (hw : Avl w)
    (hp₁ : p₁.balance = -d.sgn)
    (hh : (d.join p₁ x (d.join p₂ y z)).height = w.height + 2) :
    Avl (double d p p₁ p₂ x y z w) ∧ (double d p p₁ p₂ x y z w).height = w.height + 2 := by
  obtain ⟨hb₁, -, -, hx, hin⟩ := avl_join.1 hs
  obtain ⟨hb₂, hlow, hhigh, hy, hz⟩ := avl_join.1 hin
  simp only [Side.height_join] at hh hb₁
  rcases d.sgn_cases with hd | hd
  all_goals
    rw [hd] at hb₁ hb₂ hp₁
    have hxw : x.height = w.height := by omega
    have hyz : max y.height z.height = w.height := by omega
    clear hh hb₁
    simp only [double, avl_join, Side.height_join, Weighed.balance_tilt, hd]
    refine ⟨⟨?_, ?_, ?_, ⟨?_, ?_, ?_, hx, hy⟩, ?_, ?_, ?_, hz, hw⟩, ?_⟩ <;> omega

/-! ### A child has grown -/

/-- The tree of `p`, whose child `s` on side `d` has grown, and whether it has grown. -/
def grown (d : Side) (p : Weighed α) (s t : BinaryTree (Weighed α)) :
    Option (BinaryTree (Weighed α) × Bool) :=
  if p.balance = -d.sgn then some (d.join (p.tilt 0) s t, false)
  else if p.balance = 0 then some (d.join (p.tilt d.sgn) s t, true)
  else if p.balance = d.sgn then
    match d.split s with
    | none => none
    | some (p₁, x, y) =>
      if p₁.balance = d.sgn then some (single d (p.tilt 0) (p₁.tilt 0) x y t, false)
      else match d.split y with
        | none => none
        | some (p₂, y, z) => some (double d p p₁ p₂ x y z t, false)
  else some (d.join p s t, true)

theorem grown_spec (hs : Avl s) (ht : Avl t) (hh : s.height = h + 1)
    (hb : p.balance = d.sgn * ((h : ℤ) - t.height)) (hlow : -1 ≤ p.balance)
    (hhigh : p.balance ≤ 1) (hlean : Leans s ∨ h = 0) :
    ∃ t' state, grown d p s t = some (t', state) ∧ Avl t' ∧ items t' = items (d.join p s t) ∧
      t'.height = max h t.height + (if state then 2 else 1) ∧ (state = true → Leans t') := by
  have hd := d.sgn_cases
  by_cases h1 : p.balance = -d.sgn
  · refine ⟨_, _, if_pos h1, ?_, ?_, ?_, fun hf => nomatch hf⟩
    · rw [avl_join]
      refine ⟨?_, by simp, by simp, hs, ht⟩
      rcases hd with hd | hd <;> rw [hd] at h1 hb ⊢ <;> simp only [Weighed.balance_tilt] <;> omega
    · simp
    · rw [Side.height_join]
      rcases hd with hd | hd <;> rw [hd] at h1 hb <;> simp <;> omega
  by_cases h2 : p.balance = 0
  · refine ⟨_, _, (if_neg h1).trans (if_pos h2), ?_, ?_, ?_, ?_⟩
    · rw [avl_join]
      rcases hd with hd | hd <;> rw [hd] at hb ⊢ <;> simp [hs, ht] <;> omega
    · simp
    · rw [Side.height_join]
      rcases hd with hd | hd <;> rw [hd] at hb <;> simp <;> omega
    · rcases hd with hd | hd <;> simp [hd]
  have h3 : p.balance = d.sgn := by
    rcases hd with hd | hd <;> omega
  -- the node leans to the side that has grown, so the child is no leaf
  have hne : s ≠ .nil := by
    rintro rfl
    simp at hh
  obtain ⟨p₁, x, y, rfl⟩ := d.eq_join hne
  have hpos : h = t.height + 1 := by
    rcases hd with hd | hd <;> rw [hd] at hb h3 <;> omega
  have hlean' : p₁.balance ≠ 0 := by
    rcases hlean with hlean | h0
    · exact leans_join.1 hlean
    · omega
  obtain ⟨hb₁, hlow₁, hhigh₁, hx, hy⟩ := avl_join.1 hs
  rw [Side.height_join] at hh
  have hgrown : grown d p (d.join p₁ x y) t =
      (if p₁.balance = d.sgn then some (single d (p.tilt 0) (p₁.tilt 0) x y t, false)
        else match d.split y with
          | none => none
          | some (p₂, y, z) => some (double d p p₁ p₂ x y z t, false)) := by
    rw [grown, if_neg h1, if_neg h2, if_pos h3, Side.split_join]
  rw [hgrown]
  by_cases h4 : p₁.balance = d.sgn
  · refine ⟨_, _, if_pos h4, ?_, ?_, ?_, fun hf => nomatch hf⟩
    · simp only [single, avl_join, Side.height_join, Weighed.balance_tilt]
      refine ⟨?_, by simp, by simp, hx, ?_, by simp, by simp, hy, ht⟩
      · rcases hd with hd | hd <;> rw [hd] at h4 hb₁ ⊢ <;> omega
      · rcases hd with hd | hd <;> rw [hd] at h4 hb₁ ⊢ <;> omega
    · exact items_single 0 0
    · simp only [single, Side.height_join]
      rcases hd with hd | hd <;> rw [hd] at h4 hb₁ <;> simp <;> omega
  · have h5 : p₁.balance = -d.sgn := by
      rcases hd with hd | hd <;> rw [hd] at h4 ⊢ <;> omega
    have hney : y ≠ .nil := by
      rintro rfl
      rcases hd with hd | hd <;> rw [hd] at hb₁ h5 <;> simp at hb₁ <;> omega
    obtain ⟨p₂, y, z, rfl⟩ := d.eq_join hney
    obtain ⟨havl, hheight⟩ := double_avl (p := p) hs ht h5 (by rw [Side.height_join]; omega)
    refine ⟨double d p p₁ p₂ x y z t, false, ?_, havl, items_double, ?_, fun hf => nomatch hf⟩
    · rw [if_neg h4, Side.split_join]
    · rw [hheight]
      simp
      omega

/-! ### A child has shrunk -/

/-- The tree of `p`, whose child `s` on side `d` has shrunk, and whether it has shrunk. -/
def shrunk (d : Side) (p : Weighed α) (s t : BinaryTree (Weighed α)) :
    Option (BinaryTree (Weighed α) × Bool) :=
  if p.balance = d.sgn then some (d.join (p.tilt 0) s t, true)
  else if p.balance = 0 then some (d.join (p.tilt (-d.sgn)) s t, false)
  else if p.balance = -d.sgn then
    match d.other.split t with
    | none => none
    | some (p₁, x, y) =>
      if 0 ≤ d.other.sgn * p₁.balance then
        if p₁.balance = 0 then
          some (single d.other (p.tilt d.other.sgn) (p₁.tilt (-d.other.sgn)) x y s, false)
        else some (single d.other (p.tilt 0) (p₁.tilt 0) x y s, true)
      else match d.other.split y with
        | none => none
        | some (p₂, y, z) => some (double d.other p p₁ p₂ x y z s, true)
  else some (d.join p s t, true)

theorem shrunk_spec (hs : Avl s) (ht : Avl t) (hh : s.height = h)
    (hb : p.balance = d.sgn * ((h : ℤ) + 1 - t.height)) (hlow : -1 ≤ p.balance)
    (hhigh : p.balance ≤ 1) :
    ∃ t' state, shrunk d p s t = some (t', state) ∧ Avl t' ∧ items t' = items (d.join p s t) ∧
      t'.height + (if state then 1 else 0) = max (h + 1) t.height + 1 := by
  have hd := d.sgn_cases
  by_cases h1 : p.balance = d.sgn
  · refine ⟨_, _, if_pos h1, ?_, by simp, ?_⟩
    · rw [avl_join]
      refine ⟨?_, by simp, by simp, hs, ht⟩
      rcases hd with hd | hd <;> rw [hd] at h1 hb ⊢ <;> simp only [Weighed.balance_tilt] <;> omega
    · rw [Side.height_join]
      rcases hd with hd | hd <;> rw [hd] at h1 hb <;> simp <;> omega
  by_cases h2 : p.balance = 0
  · refine ⟨_, _, (if_neg h1).trans (if_pos h2), ?_, by simp, ?_⟩
    · rw [avl_join]
      rcases hd with hd | hd <;> rw [hd] at hb ⊢ <;> simp [hs, ht] <;> omega
    · rw [Side.height_join]
      rcases hd with hd | hd <;> rw [hd] at hb <;> simp <;> omega
  have h3 : p.balance = -d.sgn := by
    rcases hd with hd | hd <;> omega
  -- the other child is the higher one
  have hpos : t.height = h + 2 := by
    rcases hd with hd | hd <;> rw [hd] at hb h3 <;> omega
  have hne : t ≠ .nil := by
    rintro rfl
    simp at hpos
  obtain ⟨p₁, x, y, rfl⟩ := d.other.eq_join hne
  obtain ⟨hb₁, hlow₁, hhigh₁, hx, hy⟩ := avl_join.1 ht
  have hshrunk : shrunk d p s (d.other.join p₁ x y) =
      (if 0 ≤ d.other.sgn * p₁.balance then
        if p₁.balance = 0 then
          some (single d.other (p.tilt d.other.sgn) (p₁.tilt (-d.other.sgn)) x y s, false)
        else some (single d.other (p.tilt 0) (p₁.tilt 0) x y s, true)
      else match d.other.split y with
        | none => none
        | some (p₂, y, z) => some (double d.other p p₁ p₂ x y z s, true)) := by
    rw [shrunk, if_neg h1, if_neg h2, if_pos h3, Side.split_join]
  have hitems : items (d.join p s (d.other.join p₁ x y)) =
      items (d.other.join p (d.other.join p₁ x y) s) := congrArg items Side.join_other.symm
  rw [hshrunk, hitems]
  rw [Side.height_join] at hpos ⊢
  have he := d.other.sgn_cases
  generalize d.other = e at *
  by_cases h4 : 0 ≤ e.sgn * p₁.balance
  · rw [if_pos h4]
    by_cases h5 : p₁.balance = 0
    · have hxy : x.height = y.height := by
        rcases he with he | he <;> rw [he] at hb₁ <;> omega
      refine ⟨_, _, if_pos h5, ?_, items_single .., ?_⟩
      · simp only [single, avl_join, Side.height_join, Weighed.balance_tilt]
        refine ⟨?_, ?_, ?_, hx, ?_, ?_, ?_, hy, hs⟩ <;>
          rcases he with he | he <;> rw [he] <;> omega
      · simp only [single, Side.height_join, Bool.false_eq_true, if_false]
        omega
    · have hxy : x.height = y.height + 1 := by
        rcases he with he | he <;> rw [he] at h4 hb₁ <;> omega
      refine ⟨_, _, if_neg h5, ?_, items_single .., ?_⟩
      · simp only [single, avl_join, Side.height_join, Weighed.balance_tilt]
        refine ⟨?_, by simp, by simp, hx, ?_, by simp, by simp, hy, hs⟩ <;>
          rcases he with he | he <;> rw [he] <;> omega
      · simp only [single, Side.height_join, if_true]
        omega
  · rw [if_neg h4]
    have h5 : p₁.balance = -e.sgn := by
      rcases he with he | he <;> rw [he] at h4 ⊢ <;> omega
    have hney : y ≠ .nil := by
      rintro rfl
      rcases he with he | he <;> rw [he] at hb₁ h5 <;> simp at hb₁ <;> omega
    obtain ⟨p₂, y, z, rfl⟩ := e.eq_join hney
    obtain ⟨havl, hheight⟩ := double_avl (p := p) ht hs h5 (by rw [Side.height_join]; omega)
    refine ⟨double e p p₁ p₂ x y z s, true, ?_, havl, items_double, ?_⟩
    · rw [Side.split_join]
    · rw [hheight, if_pos rfl]
      omega

/-! ### On the way to the root -/

/-- The balances of the frames are right for a subtree of height `h` in the place. -/
def AvlPath : List (Frame (Weighed α)) → ℕ → Prop
  | [], _ => True
  | f :: fs, h => f.label.balance = f.side.sgn * ((h : ℤ) - f.sibling.height) ∧
      -1 ≤ f.label.balance ∧ f.label.balance ≤ 1 ∧ Avl f.sibling ∧
      AvlPath fs (max h f.sibling.height + 1)

variable {fs gs : List (Frame (Weighed α))}

theorem avl_plug : Avl (plug fs t) ↔ AvlPath fs t.height ∧ Avl t := by
  induction fs generalizing t with
  | nil => simp [AvlPath]
  | cons f fs ih =>
    rw [plug_cons, ih, Frame.attach, avl_join, Side.height_join, AvlPath]
    tauto

/-- The place holds a tree that has grown by one. -/
def regrow : List (Frame (Weighed α)) → BinaryTree (Weighed α) → Option (BinaryTree (Weighed α))
  | [], t => some t
  | f :: fs, t =>
    match grown f.side f.label t f.sibling with
    | none => none
    | some (t, state) => if state then regrow fs t else some (plug fs t)

theorem regrow_spec (hfs : AvlPath fs h) (ht : Avl t) (hh : t.height = h + 1)
    (hlean : Leans t ∨ h = 0) :
    ∃ t', regrow fs t = some t' ∧ Avl t' ∧ items t' = items (plug fs t) := by
  induction fs generalizing t h with
  | nil => exact ⟨t, rfl, ht, rfl⟩
  | cons f fs ih =>
    obtain ⟨hb, hlow, hhigh, hsib, hrest⟩ := hfs
    obtain ⟨t', state, hgrown, ht', hitems, hheight, hlean'⟩ :=
      grown_spec ht hsib hh hb hlow hhigh hlean
    rw [regrow, hgrown, plug_cons]
    simp only
    cases state with
    | true =>
      obtain ⟨t'', heq, ht'', hitems''⟩ := ih hrest ht' hheight (Or.inl (hlean' rfl))
      exact ⟨t'', heq, ht'', hitems''.trans (items_plug_congr hitems)⟩
    | false => exact ⟨_, rfl, avl_plug.2 ⟨hheight ▸ hrest, ht'⟩, items_plug_congr hitems⟩

/-- The place holds a tree that has shrunk by one. Whether the whole tree has shrunk. -/
def reshrink : List (Frame (Weighed α)) → BinaryTree (Weighed α) →
    Option (BinaryTree (Weighed α) × Bool)
  | [], t => some (t, true)
  | f :: fs, t =>
    match shrunk f.side f.label t f.sibling with
    | none => none
    | some (t, state) => if state then reshrink fs t else some (plug fs t, false)

theorem reshrink_spec (hfs : AvlPath fs (h + 1)) (ht : Avl t) (hh : t.height = h) :
    ∃ t' state, reshrink fs t = some (t', state) ∧ Avl t' ∧ items t' = items (plug fs t) := by
  induction fs generalizing t h with
  | nil => exact ⟨t, true, rfl, ht, rfl⟩
  | cons f fs ih =>
    obtain ⟨hb, hlow, hhigh, hsib, hrest⟩ := hfs
    obtain ⟨t', state, hshrunk, ht', hitems, hheight⟩ :=
      shrunk_spec ht hsib hh (by push_cast at hb; exact hb) hlow hhigh
    rw [reshrink, hshrunk, plug_cons]
    simp only
    cases state with
    | true =>
      rw [if_pos rfl] at hheight
      rw [← hheight] at hrest
      obtain ⟨t'', state, heq, ht'', hitems''⟩ := ih hrest ht' rfl
      exact ⟨t'', state, heq, ht'', hitems''.trans (items_plug_congr hitems)⟩
    | false =>
      rw [if_neg (by simp), Nat.add_zero] at hheight
      exact ⟨_, false, rfl, avl_plug.2 ⟨hheight ▸ hrest, ht'⟩, items_plug_congr hitems⟩

/-- Shrinking up a path is shrinking up its lower and then its upper part. -/
theorem reshrink_append : reshrink (gs ++ fs) t = (match reshrink gs t with
    | none => none
    | some (t', state) => if state then reshrink fs t' else some (plug fs t', false)) := by
  induction gs generalizing t with
  | nil => simp [reshrink]
  | cons g gs ih =>
    rw [List.cons_append, reshrink, reshrink]
    cases shrunk g.side g.label t g.sibling with
    | none => rfl
    | some r =>
      obtain ⟨t', state⟩ := r
      cases state with
      | true => exact ih
      | false => simp [plug_append]

/-! ### Insertion and deletion -/

theorem items_plug : items (plug fs t) = (Frame.before fs).map Weighed.item ++
    (items t ++ (Frame.after fs).map Weighed.item) := by
  simp [items, inorder_plug]

/-- Another item in a place. -/
theorem Avl.relabel {l r : BinaryTree (Weighed α)} (h : Avl (plug fs (.node p l r)))
    (hp : p₁.balance = p.balance) : Avl (plug fs (.node p₁ l r)) := by
  obtain ⟨hpath, hnode⟩ := avl_plug.1 h
  refine avl_plug.2 ⟨hpath, ?_⟩
  rw [Avl] at hnode ⊢
  rwa [hp]

/-- A new node in the place of a missing child. -/
def leaf (x : α) : BinaryTree (Weighed α) :=
  .node ⟨0, x⟩ .nil .nil

theorem regrow_leaf (havl : Avl (plug fs .nil)) (x : α) :
    ∃ t', regrow fs (leaf x) = some t' ∧ Avl t' ∧ items t' = items (plug fs (leaf x)) :=
  regrow_spec (avl_plug.1 havl).1 (by simp [leaf, Avl]) rfl (Or.inr rfl)

/-- The last node of the tree of `a`, `l` and `r`: the frames above it, it and its left child. -/
def rightmost : List (Frame (Weighed α)) → Weighed α → BinaryTree (Weighed α) →
    BinaryTree (Weighed α) → List (Frame (Weighed α)) × Weighed α × BinaryTree (Weighed α)
  | gs, a, l, .nil => (gs, a, l)
  | gs, a, l, .node b l' r' => rightmost (⟨.right, a, l⟩ :: gs) b l' r'

theorem plug_rightmost {a : Weighed α} {l r : BinaryTree (Weighed α)} :
    plug (rightmost gs a l r).1
      (.node (rightmost gs a l r).2.1 (rightmost gs a l r).2.2 .nil) = plug gs (.node a l r) := by
  induction r generalizing gs a l with
  | nil => rfl
  | node b l' r' _ ih => exact ih

theorem after_rightmost {a : Weighed α} {l r : BinaryTree (Weighed α)}
    (h : Frame.after gs = []) : Frame.after (rightmost gs a l r).1 = [] := by
  induction r generalizing gs a l with
  | nil => exact h
  | node b l' r' _ ih => exact ih h

/-- The last node of a tree is its last item. -/
theorem items_plug_last {b : Weighed α} (h : Frame.after gs = []) :
    items (plug gs (.node b x .nil)) = items (plug gs x) ++ [b.item] := by
  rw [items_plug, items_plug, h]
  simp

theorem side_rightmost {a : Weighed α} {l r : BinaryTree (Weighed α)}
    (h : ∀ g ∈ gs, g.side = .right) : ∀ g ∈ (rightmost gs a l r).1, g.side = .right := by
  induction r generalizing gs a l with
  | nil => exact h
  | node b l' r' _ ih =>
    refine ih fun g hg => ?_
    rcases List.mem_cons.1 hg with rfl | hg
    · rfl
    · exact h g hg

/-- The tree without the node `p`, whose place the last node of its left child takes if it
has two. -/
def removed (fs : List (Frame (Weighed α))) (p : Weighed α) :
    BinaryTree (Weighed α) → BinaryTree (Weighed α) → Option (BinaryTree (Weighed α) × Bool)
  | l, .nil => reshrink fs l
  | .nil, r => reshrink fs r
  | .node a l' r', r =>
    let (gs, b, x) := rightmost [] a l' r'
    reshrink (gs ++ ⟨.left, b.tilt p.balance, r⟩ :: fs) x

theorem removed_spec {l r : BinaryTree (Weighed α)} (havl : Avl (plug fs (.node p l r))) :
    ∃ t' state, removed fs p l r = some (t', state) ∧ Avl t' ∧
      items t' = (Frame.before fs).map Weighed.item ++
        (items l ++ items r ++ (Frame.after fs).map Weighed.item) := by
  obtain ⟨hpath, hnode⟩ := avl_plug.1 havl
  obtain ⟨hbal, hlow, hhigh, hl, hr⟩ := hnode
  cases r with
  | nil =>
    obtain ⟨t', state, heq, ht', hitems⟩ := reshrink_spec (by simpa using hpath) hl rfl
    exact ⟨t', state, by cases l <;> exact heq, ht', by rw [hitems, items_plug]; simp⟩
  | node c rl rr =>
    cases l with
    | nil =>
      obtain ⟨t', state, heq, ht', hitems⟩ := reshrink_spec (by simpa using hpath) hr rfl
      exact ⟨t', state, heq, ht', by rw [hitems, items_plug]; simp⟩
    | node a l' r' =>
      have hplug := @plug_rightmost _ [] a l' r'
      have hafter := @after_rightmost _ [] a l' r' rfl
      rw [removed]
      · generalize rightmost [] a l' r' = last at hplug hafter
        obtain ⟨gs, b, x⟩ := last
        simp only [plug_nil] at hplug hafter ⊢
        -- the tree with the last node in the place of `p`, before it is unhooked
        have havl' : Avl (plug (gs ++ ⟨.left, b.tilt p.balance, .node c rl rr⟩ :: fs)
            (.node b x .nil)) := by
          rw [plug_append, plug_cons, hplug]
          exact avl_plug.2 ⟨hpath, hbal, hlow, hhigh, hl, hr⟩
        obtain ⟨hpath', hnode'⟩ := avl_plug.1 havl'
        obtain ⟨t', state, heq, ht', hitems⟩ :=
          reshrink_spec (by simpa using hpath') hnode'.2.2.2.1 rfl
        refine ⟨t', state, heq, ht', ?_⟩
        rw [hitems, plug_append, plug_cons, ← hplug, items_plug]
        simp [Frame.attach, Side.cat, items_plug, hafter]
      · exact fun h => by cases h

end PonBeam
