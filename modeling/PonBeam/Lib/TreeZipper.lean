import Mathlib.Data.Int.Notation
import Mathlib.Data.Tree.Basic
import Mathlib.Order.Lattice

/-!
# Walking in a binary tree

A place in a binary tree is a subtree with the frames above it, innermost first: for each
node on the path to the root the side the path takes, the node and its other child. `plug`
puts the subtree back. `descend` walks from a subtree down by a comparison.

The sides are treated alike: `d.join a s t` is the node `a` with the child `s` on side `d`.
-/

namespace PonBeam

universe u v

variable {α : Type u} {β : Type v}

/-- A side of a node. -/
inductive Side
  | left
  | right
  deriving DecidableEq

namespace Side

/-- The other side. -/
def other : Side → Side
  | left => right
  | right => left

/-- The node `a` with the child `s` on this side and `t` on the other. -/
def join : Side → α → BinaryTree α → BinaryTree α → BinaryTree α
  | left, a, s, t => .node a s t
  | right, a, s, t => .node a t s

/-- A node and its children, that on this side first. -/
def split : Side → BinaryTree α → Option (α × BinaryTree α × BinaryTree α)
  | _, .nil => none
  | left, .node a l r => some (a, l, r)
  | right, .node a l r => some (a, r, l)

/-- `xs` on this side of `a`, `ys` on the other. -/
def cat : Side → List β → β → List β → List β
  | left, xs, a, ys => xs ++ a :: ys
  | right, xs, a, ys => ys ++ a :: xs

variable {d : Side} {a : α} {s t : BinaryTree α}

@[simp] theorem other_other (d : Side) : d.other.other = d := by
  cases d <;> rfl

@[simp] theorem split_nil (d : Side) : d.split (.nil : BinaryTree α) = none := by
  cases d <;> rfl

@[simp] theorem split_join : d.split (d.join a s t) = some (a, s, t) := by
  cases d <;> rfl

theorem join_other : d.other.join a s t = d.join a t s := by
  cases d <;> rfl

@[simp] theorem join_ne_nil : d.join a s t ≠ .nil := by
  cases d <;> exact fun h => nomatch h

/-- A node is a `join` for either side. -/
theorem eq_join (d : Side) (h : t ≠ .nil) : ∃ a x y, t = d.join a x y := by
  cases t with
  | nil => exact absurd rfl h
  | node a l r =>
    cases d with
    | left => exact ⟨a, l, r, rfl⟩
    | right => exact ⟨a, r, l, rfl⟩

@[simp] theorem height_join : (d.join a s t).height = max s.height t.height + 1 := by
  cases d with
  | left => rfl
  | right => exact congrArg (· + 1) (max_comm ..)

@[simp] theorem numNodes_join : (d.join a s t).numNodes = s.numNodes + t.numNodes + 1 := by
  cases d with
  | left => rfl
  | right => exact congrArg (· + 1) (Nat.add_comm ..)

end Side

/-- The labels of a tree from left to right. -/
def inorder : BinaryTree α → List α
  | .nil => []
  | .node a l r => inorder l ++ a :: inorder r

@[simp] theorem inorder_nil : inorder (.nil : BinaryTree α) = [] := rfl

@[simp] theorem inorder_node {a : α} {l r : BinaryTree α} :
    inorder (.node a l r) = inorder l ++ a :: inorder r := rfl

@[simp] theorem inorder_join {d : Side} {a : α} {s t : BinaryTree α} :
    inorder (d.join a s t) = d.cat (inorder s) a (inorder t) := by
  cases d <;> rfl

@[simp] theorem length_inorder (t : BinaryTree α) : (inorder t).length = t.numNodes := by
  induction t with
  | nil => rfl
  | node a l r ihl ihr =>
    simp only [inorder_node, List.length_append, List.length_cons, ihl, ihr,
      BinaryTree.numNodes]
    omega

/-- A node on the path to a subtree: the side of the subtree, the node, the other child. -/
structure Frame (α : Type u) where
  side : Side
  label : α
  sibling : BinaryTree α

namespace Frame

/-- The tree of the node, with a subtree in its place. -/
def attach (f : Frame α) (t : BinaryTree α) : BinaryTree α :=
  f.side.join f.label t f.sibling

/-- The labels to the left of the place. -/
def before : List (Frame α) → List α
  | [] => []
  | ⟨.left, _, _⟩ :: fs => before fs
  | ⟨.right, a, s⟩ :: fs => before fs ++ (inorder s ++ [a])

/-- The labels to the right of the place. -/
def after : List (Frame α) → List α
  | [] => []
  | ⟨.left, a, s⟩ :: fs => a :: (inorder s ++ after fs)
  | ⟨.right, _, _⟩ :: fs => after fs

end Frame

open PonBeam.Frame

/-- The whole tree. -/
def plug : List (Frame α) → BinaryTree α → BinaryTree α
  | [], t => t
  | f :: fs, t => plug fs (f.attach t)

variable {fs gs : List (Frame α)} {t : BinaryTree α} {cut : α → ℤ}

@[simp] theorem plug_nil : plug [] t = t := rfl

@[simp] theorem plug_cons {f : Frame α} : plug (f :: fs) t = plug fs (f.attach t) := rfl

theorem plug_append : plug (gs ++ fs) t = plug fs (plug gs t) := by
  induction gs generalizing t with
  | nil => rfl
  | cons g gs ih => exact ih

theorem inorder_plug (fs : List (Frame α)) (t : BinaryTree α) :
    inorder (plug fs t) = before fs ++ (inorder t ++ after fs) := by
  induction fs generalizing t with
  | nil => simp [before, after]
  | cons f fs ih =>
    rw [plug_cons, ih]
    obtain ⟨side, a, s⟩ := f
    cases side <;> simp [attach, Side.join, before, after]

/-- The path to a place and what is below it fit into the height of the tree. -/
theorem length_add_height_le (fs : List (Frame α)) (t : BinaryTree α) :
    fs.length + t.height ≤ (plug fs t).height := by
  induction fs generalizing t with
  | nil => simp
  | cons f fs ih =>
    refine Nat.le_trans ?_ (ih (f.attach t))
    rw [attach, Side.height_join, List.length_cons]
    omega

/-- Walks down as a comparison says, to the left if it is negative. -/
def descend (cut : α → ℤ) : List (Frame α) → BinaryTree α → List (Frame α) × BinaryTree α
  | fs, .nil => (fs, .nil)
  | fs, .node a l r =>
    if cut a < 0 then descend cut (⟨.left, a, r⟩ :: fs) l
    else if 0 < cut a then descend cut (⟨.right, a, l⟩ :: fs) r
    else (fs, .node a l r)

theorem plug_descend (cut : α → ℤ) (fs : List (Frame α)) (t : BinaryTree α) :
    plug (descend cut fs t).1 (descend cut fs t).2 = plug fs t := by
  induction t generalizing fs with
  | nil => rfl
  | node a l r ihl ihr =>
    rw [descend]
    split
    · exact ihl _
    · split
      · exact ihr _
      · rfl

/-- The elements of a list are in the order of a comparison, which is zero at most once. -/
def CutBy (cut : α → ℤ) (l : List α) : Prop :=
  l.Pairwise fun a b => cut a ≤ 0 → cut b < 0

/-- What is before a place compares positive, what is after it negative. -/
structure Around (cut : α → ℤ) (fs : List (Frame α)) : Prop where
  before : ∀ a ∈ before fs, 0 < cut a
  after : ∀ a ∈ after fs, cut a < 0

theorem CutBy.around_node {a : α} {l r : List α} (h : CutBy cut (l ++ a :: r)) :
    (cut a ≤ 0 → ∀ b ∈ r, cut b < 0) ∧ (0 ≤ cut a → ∀ b ∈ l, 0 < cut b) := by
  obtain ⟨-, hr, hlr⟩ := List.pairwise_append.1 h
  refine ⟨fun ha b hb => (List.pairwise_cons.1 hr).1 b hb ha, fun ha b hb => ?_⟩
  by_contra hneg
  have := hlr b hb a List.mem_cons_self (not_lt.1 hneg)
  omega

/-- **Where the walk ends**: at a node that compares equal, or at a missing child. -/
theorem descend_around (h : CutBy cut (inorder (plug fs t))) (hfs : Around cut fs) :
    Around cut (descend cut fs t).1 ∧
      ∀ a l r, (descend cut fs t).2 = .node a l r → cut a = 0 := by
  induction t generalizing fs with
  | nil => exact ⟨hfs, fun a l r hnode => nomatch hnode⟩
  | node a l r ihl ihr =>
    have hin := h
    rw [inorder_plug] at hin
    have hsub : CutBy cut (inorder l ++ a :: inorder r) := by
      obtain ⟨-, hmid, -⟩ := List.pairwise_append.1 hin
      exact (List.pairwise_append.1 hmid).1
    obtain ⟨hright, hleft⟩ := hsub.around_node
    rw [descend]
    split
    · next hneg =>
      refine ihl h ⟨hfs.before, fun b hb => ?_⟩
      rw [Frame.after, List.mem_cons, List.mem_append] at hb
      rcases hb with rfl | hb | hb
      · exact hneg
      · exact hright hneg.le b hb
      · exact hfs.after b hb
    · next hneg =>
      split
      · next hpos =>
        refine ihr h ⟨fun b hb => ?_, hfs.after⟩
        rw [Frame.before, List.mem_append, List.mem_append, List.mem_singleton] at hb
        rcases hb with hb | hb | rfl
        · exact hfs.before b hb
        · exact hleft hpos.le b hb
        · exact hpos
      · next hpos =>
        refine ⟨hfs, fun a' l' r' hnode => ?_⟩
        cases hnode
        omega

/-! ### In either direction

`listing d t` are the labels of a tree in the order in which a walk in the direction `d` meets
them, `ahead d fs` those that it meets after it has left a place.
-/

/-- The labels of a tree, those on side `d` last. -/
def listing (d : Side) (t : BinaryTree α) : List α :=
  match d with
  | .right => inorder t
  | .left => (inorder t).reverse

/-- The labels outside of a place on side `d`, the nearest first. -/
def ahead (d : Side) (fs : List (Frame α)) : List α :=
  match d with
  | .right => Frame.after fs
  | .left => (Frame.before fs).reverse

variable {d : Side} {a : α} {s u : BinaryTree α}

@[simp] theorem listing_nil : listing d (.nil : BinaryTree α) = [] := by
  cases d <;> rfl

@[simp] theorem ahead_nil : ahead d ([] : List (Frame α)) = [] := by
  cases d <;> rfl

theorem listing_join : listing d (d.join a s u) = listing d u ++ a :: listing d s := by
  cases d
  · simp [listing, Side.cat]
  · rfl

theorem ahead_cons_self : ahead d (⟨d, a, s⟩ :: fs) = ahead d fs := by
  cases d <;> rfl

theorem ahead_cons_other :
    ahead d (⟨d.other, a, s⟩ :: fs) = a :: (listing d s ++ ahead d fs) := by
  cases d
  · simp [ahead, Side.other, Frame.before, listing]
  · rfl

theorem listing_plug (d : Side) (fs : List (Frame α)) (t : BinaryTree α) :
    listing d (plug fs t) = (ahead d.other fs).reverse ++ (listing d t ++ ahead d fs) := by
  cases d
  · simp [listing, ahead, Side.other, inorder_plug]
  · simp [listing, ahead, Side.other, inorder_plug]

theorem listing_other (d : Side) (t : BinaryTree α) :
    listing d.other t = (listing d t).reverse := by
  cases d
  · exact (List.reverse_reverse _).symm
  · rfl

end PonBeam
