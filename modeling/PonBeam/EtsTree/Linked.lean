import PonBeam.EtsTree.Ops
import Mathlib.Data.List.Nodup

/-!
# The tree in memory

`Linked tb fs t` says that the nodes of the table are linked as the tree `plug fs t`, seen from
the place of `t`: the path to it leads there from the root, and `t` hangs in it. What an
operation changes at a place is local: `Linked.update` puts a new tree into the place if its
nodes are linked and the nodes outside are untouched.
-/

namespace PonBeam.EtsTree

variable {Key Obj : Type}

/-- A node of the tree: its balance, its address and its object. -/
abbrev Cell (Obj : Type) := Weighed (Addr × Obj)

/-- The pointer to a tree. -/
def ptr : BinaryTree (Cell Obj) → Option Addr
  | .nil => none
  | .node c _ _ => some c.item.1

/-- The node of a cell with a child `s` on side `d` and `t` on the other. -/
def nodeOf (d : Side) (c : Cell Obj) (s t : Option Addr) : TreeDbTerm Obj :=
  match d with
  | .left => ⟨s, t, c.balance, c.item.2⟩
  | .right => ⟨t, s, c.balance, c.item.2⟩

variable {d : Side} {c c₁ c₂ : Cell Obj} {p q : Option Addr} {s t t' : BinaryTree (Cell Obj)}
  {tb tb₁ tb₂ : DbTableTree Obj} {fs : List (Frame (Cell Obj))} {a : Addr}
  {heap heap' : Addr → Option (TreeDbTerm Obj)}

@[simp] theorem ptr_nil : ptr (.nil : BinaryTree (Cell Obj)) = none := rfl

@[simp] theorem ptr_node : ptr (.node c s t) = some c.item.1 := rfl

@[simp] theorem ptr_join : ptr (d.join c s t) = some c.item.1 := by
  cases d <;> rfl

@[simp] theorem nodeOf_balance : (nodeOf d c p q).balance = c.balance := by
  cases d <;> rfl

@[simp] theorem nodeOf_dbterm : (nodeOf d c p q).dbterm = c.item.2 := by
  cases d <;> rfl

@[simp] theorem nodeOf_child : (nodeOf d c p q).child d = p := by
  cases d <;> rfl

@[simp] theorem nodeOf_child_other : (nodeOf d c p q).child d.other = q := by
  cases d <;> rfl

@[simp] theorem nodeOf_setChild {r : Option Addr} :
    (nodeOf d c p q).setChild r d = nodeOf d c r q := by
  cases d <;> rfl

@[simp] theorem nodeOf_setChild_other {r : Option Addr} :
    (nodeOf d c p q).setChild r d.other = nodeOf d c p r := by
  cases d <;> rfl

@[simp] theorem nodeOf_setBalance {b : ℤ} :
    (nodeOf d c p q).setBalance b = nodeOf d (c.tilt b) p q := by
  cases d <;> rfl

theorem nodeOf_other : nodeOf d.other c p q = nodeOf d c q p := by
  cases d <;> rfl

/-! ## Nodes that are linked as a tree -/

/-- The addresses of a tree. -/
def addrs (t : BinaryTree (Cell Obj)) : List Addr :=
  (items t).map Prod.fst

@[simp] theorem addrs_nil : addrs (.nil : BinaryTree (Cell Obj)) = [] := rfl

theorem addrs_join_perm : (addrs (d.join c s t)).Perm (c.item.1 :: (addrs s ++ addrs t)) := by
  rw [addrs, items_join]
  cases d
  · rw [Side.cat, List.map_append, List.map_cons]
    exact List.perm_middle
  · rw [Side.cat, List.map_append, List.map_cons]
    exact List.perm_middle.trans (List.perm_append_comm.cons _)

theorem mem_addrs_join : a ∈ addrs (d.join c s t) ↔ a = c.item.1 ∨ a ∈ addrs s ∨ a ∈ addrs t := by
  rw [addrs_join_perm.mem_iff, List.mem_cons, List.mem_append]

theorem addrs_node_perm : (addrs (.node c s t)).Perm (c.item.1 :: (addrs s ++ addrs t)) :=
  addrs_join_perm (d := .left)

theorem mem_addrs_node : a ∈ addrs (.node c s t) ↔ a = c.item.1 ∨ a ∈ addrs s ∨ a ∈ addrs t :=
  mem_addrs_join (d := .left)

/-- The nodes of a tree are in memory with their children. -/
def Holds (heap : Addr → Option (TreeDbTerm Obj)) : BinaryTree (Cell Obj) → Prop
  | .nil => True
  | .node c l r => heap c.item.1 = some (nodeOf .left c (ptr l) (ptr r)) ∧ Holds heap l ∧
      Holds heap r

@[simp] theorem holds_nil : Holds heap .nil := trivial

theorem holds_join : Holds heap (d.join c s t) ↔
    heap c.item.1 = some (nodeOf d c (ptr s) (ptr t)) ∧ Holds heap s ∧ Holds heap t := by
  cases d
  · rfl
  · exact and_congr Iff.rfl and_comm

theorem Holds.congr (h : Holds heap t) (heq : ∀ a ∈ addrs t, heap' a = heap a) :
    Holds heap' t := by
  induction t with
  | nil => trivial
  | node c l r ihl ihr =>
    obtain ⟨hnode, hl, hr⟩ := h
    refine ⟨?_, ihl hl fun a ha => ?_, ihr hr fun a ha => ?_⟩
    · rw [heq _ (mem_addrs_node.2 (Or.inl rfl)), hnode]
    · exact heq a (mem_addrs_node.2 (Or.inr (Or.inl ha)))
    · exact heq a (mem_addrs_node.2 (Or.inr (Or.inr ha)))

theorem Holds.ne_none (h : Holds heap t) (ha : a ∈ addrs t) : heap a ≠ none := by
  induction t with
  | nil => exact absurd ha List.not_mem_nil
  | node c l r ihl ihr =>
    obtain ⟨hnode, hl, hr⟩ := h
    rcases mem_addrs_node.1 ha with rfl | ha | ha
    · rw [hnode]
      exact Option.some_ne_none _
    · exact ihl hl ha
    · exact ihr hr ha

theorem Holds.mem_items {n : TreeDbTerm Obj} (h : Holds heap t) (ha : a ∈ addrs t)
    (hn : heap a = some n) : (a, n.dbterm) ∈ items t := by
  induction t with
  | nil => exact absurd ha List.not_mem_nil
  | node c l r ihl ihr =>
    obtain ⟨hnode, hl, hr⟩ := h
    rw [items_node, List.mem_append, List.mem_cons]
    rcases mem_addrs_node.1 ha with rfl | ha | ha
    · rw [hnode] at hn
      cases hn
      exact Or.inr (Or.inl rfl)
    · exact Or.inl (ihl hl ha)
    · exact Or.inr (Or.inr (ihr hr ha))

/-- The place of the tree below some frames. -/
def placeOf : List (Frame (Cell Obj)) → Place
  | [] => .root
  | f :: _ => .child f.side f.label.item.1

/-- What is on the stack when the loop has come to that place. -/
def pathOf : List (Frame (Cell Obj)) → List (Side × Place)
  | [] => []
  | f :: fs => (f.side, placeOf fs) :: pathOf fs

@[simp] theorem length_pathOf (fs : List (Frame (Cell Obj))) : (pathOf fs).length = fs.length := by
  induction fs with
  | nil => rfl
  | cons f fs ih => simp [pathOf, ih]

/-- From `root` the path leads to the place, where `q` hangs. -/
def HoldsPath (heap : Addr → Option (TreeDbTerm Obj)) (root : Option Addr) :
    List (Frame (Cell Obj)) → Option Addr → Prop
  | [], q => root = q
  | f :: fs, q => heap f.label.item.1 = some (nodeOf f.side f.label q (ptr f.sibling)) ∧
      Holds heap f.sibling ∧ HoldsPath heap root fs (some f.label.item.1)

/-- The addresses outside of the place. -/
def outer (fs : List (Frame (Cell Obj))) : List Addr :=
  (Frame.before fs ++ Frame.after fs).map fun c => c.item.1

@[simp] theorem outer_nil : outer ([] : List (Frame (Cell Obj))) = [] := rfl

theorem outer_cons_perm {f : Frame (Cell Obj)} :
    (outer (f :: fs)).Perm (f.label.item.1 :: (addrs f.sibling ++ outer fs)) := by
  obtain ⟨side, c, s⟩ := f
  have hsib : addrs s = (inorder s).map fun c => c.item.1 := by
    rw [addrs, items, List.map_map]
    rfl
  rw [hsib]
  cases side
  · simp only [outer, Frame.before, Frame.after, List.map_append, List.map_cons]
    refine List.perm_middle.trans (List.Perm.cons _ ?_)
    rw [← List.append_assoc, ← List.append_assoc]
    exact List.perm_append_comm.append_right _
  · simp only [outer, Frame.before, Frame.after, List.map_append, List.map_cons,
      List.append_assoc, List.singleton_append]
    rw [← List.append_assoc]
    refine List.perm_middle.trans (List.Perm.cons _ ?_)
    rw [← List.append_assoc]
    exact List.perm_append_comm.append_right _

theorem mem_outer_cons {f : Frame (Cell Obj)} :
    a ∈ outer (f :: fs) ↔ a = f.label.item.1 ∨ a ∈ addrs f.sibling ∨ a ∈ outer fs := by
  rw [outer_cons_perm.mem_iff, List.mem_cons, List.mem_append]

theorem outer_append_perm (gs fs : List (Frame (Cell Obj))) :
    (outer (gs ++ fs)).Perm (outer gs ++ outer fs) := by
  induction gs with
  | nil => exact List.Perm.refl _
  | cons g gs ih =>
    refine outer_cons_perm.trans (List.Perm.trans ?_ (outer_cons_perm.symm.append_right _))
    rw [List.cons_append, List.append_assoc]
    exact (ih.append_left _).cons _

theorem HoldsPath.congr {root : Option Addr} (h : HoldsPath heap root fs q)
    (heq : ∀ a ∈ outer fs, heap' a = heap a) : HoldsPath heap' root fs q := by
  induction fs generalizing q with
  | nil => exact h
  | cons f fs ih =>
    obtain ⟨hnode, hsib, hrest⟩ := h
    refine ⟨?_, hsib.congr fun a ha => ?_, ih hrest fun a ha => ?_⟩
    · rw [heq _ (mem_outer_cons.2 (Or.inl rfl)), hnode]
    · exact heq a (mem_outer_cons.2 (Or.inr (Or.inl ha)))
    · exact heq a (mem_outer_cons.2 (Or.inr (Or.inr ha)))

/-- The addresses of the whole tree, those outside of a place first. -/
theorem addrs_plug_perm (fs : List (Frame (Cell Obj))) (t : BinaryTree (Cell Obj)) :
    (addrs (plug fs t)).Perm (outer fs ++ addrs t) := by
  rw [addrs, items_plug, outer, addrs, List.map_append, List.map_append, List.map_append,
    List.map_map, List.map_map]
  refine List.Perm.trans (List.Perm.append_left _ List.perm_append_comm) ?_
  rw [← List.append_assoc]
  exact List.Perm.refl _

/-- **The nodes of the table are linked as `plug fs t`.** -/
structure Linked (tb : DbTableTree Obj) (fs : List (Frame (Cell Obj)))
    (t : BinaryTree (Cell Obj)) : Prop where
  path : HoldsPath tb.heap tb.root fs (ptr t)
  sub : Holds tb.heap t
  nodup : (outer fs ++ addrs t).Nodup

namespace Linked

variable {f : Frame (Cell Obj)}

theorem nodup_plug (h : Linked tb fs t) : (addrs (plug fs t)).Nodup :=
  (addrs_plug_perm fs t).nodup_iff.2 h.nodup

theorem not_outer (h : Linked tb fs t) (ha : a ∈ addrs t) : a ∉ outer fs := fun ha' =>
  (List.nodup_append.1 h.nodup).2.2 a ha' a ha rfl

/-- One frame up or down. -/
theorem attach_iff : Linked tb (f :: fs) t ↔ Linked tb fs (f.attach t) := by
  have hnodup : (outer (f :: fs) ++ addrs t).Nodup ↔ (outer fs ++ addrs (f.attach t)).Nodup := by
    rw [← (addrs_plug_perm (f :: fs) t).nodup_iff, ← (addrs_plug_perm fs _).nodup_iff, plug_cons]
  constructor
  · rintro ⟨⟨hnode, hsib, hrest⟩, hsub, hnd⟩
    refine ⟨?_, ?_, hnodup.1 hnd⟩
    · rw [Frame.attach, ptr_join]
      exact hrest
    · exact holds_join.2 ⟨hnode, hsub, hsib⟩
  · rintro ⟨hpath, hsub, hnd⟩
    rw [Frame.attach, ptr_join] at hpath
    obtain ⟨hnode, hin, hsib⟩ := holds_join.1 hsub
    exact ⟨⟨hnode, hsib, hpath⟩, hin, hnodup.2 hnd⟩

/-- From the root down to a place. -/
theorem plug_iff : Linked tb fs t ↔ Linked tb [] (plug fs t) := by
  induction fs generalizing t with
  | nil => exact Iff.rfl
  | cons f fs ih => rw [attach_iff, ih, plug_cons]

/-- The nodes of the tree are as they were. -/
theorem congr (h : Linked tb fs t) (hroot : tb₁.root = tb.root)
    (heap : ∀ a ∈ outer fs ++ addrs t, tb₁.heap a = tb.heap a) : Linked tb₁ fs t := by
  refine ⟨?_, h.sub.congr fun a ha => ?_, h.nodup⟩
  · rw [hroot]
    exact h.path.congr fun a ha => heap a (List.mem_append_left _ ha)
  · exact heap a (List.mem_append_right _ ha)

/-- What is in the place. -/
theorem get_eq (h : Linked tb fs t) : tb.get (placeOf fs) = some (ptr t) := by
  obtain ⟨hpath, -, -⟩ := h
  cases fs with
  | nil => exact congrArg some hpath
  | cons f fs => simp [placeOf, DbTableTree.get, hpath.1]

/-- The nodes of the tree are allocated. -/
theorem ne_none (h : Linked tb fs t) (ha : a ∈ outer fs ++ addrs t) : tb.heap a ≠ none :=
  (plug_iff.1 h).sub.ne_none ((addrs_plug_perm fs t).mem_iff.2 ha)

/-- The node that hangs in the place. -/
theorem heap_eq (h : Linked tb fs (d.join c s t)) :
    tb.heap c.item.1 = some (nodeOf d c (ptr s) (ptr t)) :=
  (holds_join.1 h.sub).1

end Linked

/-! ## What stays as it is -/

/-- Only the links and balances of the nodes differ. -/
structure Kept (tb tb' : DbTableTree Obj) : Prop where
  nitems : tb'.nitems = tb.nitems
  staticStack : tb'.staticStack = tb.staticStack
  dbterm : ∀ a, (tb'.heap a).map TreeDbTerm.dbterm = (tb.heap a).map TreeDbTerm.dbterm

theorem Kept.refl (tb : DbTableTree Obj) : Kept tb tb :=
  ⟨rfl, rfl, fun _ => rfl⟩

theorem Kept.trans (h : Kept tb tb₁) (h' : Kept tb₁ tb₂) : Kept tb tb₂ :=
  ⟨h'.nitems.trans h.nitems, h'.staticStack.trans h.staticStack,
    fun a => (h'.dbterm a).trans (h.dbterm a)⟩

theorem Kept.ne_none_iff (h : Kept tb tb₁) : tb₁.heap a ≠ none ↔ tb.heap a ≠ none := by
  have := congrArg Option.isNone (h.dbterm a)
  simp only [Option.isNone_map] at this
  rw [← not_iff_not, not_not, not_not, ← Option.isNone_iff_eq_none, ← Option.isNone_iff_eq_none,
    this]

/-- A node is written that differs from the one there in links and balance. -/
theorem kept_write {n n' : TreeDbTerm Obj} (hn : tb.heap a = some n)
    (hdbterm : n'.dbterm = n.dbterm) : Kept tb (tb.write a n') := by
  refine ⟨rfl, rfl, fun b => ?_⟩
  by_cases hb : b = a
  · subst hb
    simp [DbTableTree.write, hn, hdbterm]
  · simp [DbTableTree.write, hb]

@[simp] theorem write_heap_self {n : TreeDbTerm Obj} : (tb.write a n).heap a = some n :=
  Function.update_self ..

theorem write_heap_of_ne {n : TreeDbTerm Obj} {b : Addr} (h : b ≠ a) :
    (tb.write a n).heap b = tb.heap b :=
  Function.update_of_ne h ..

@[simp] theorem freeTerm_heap_self : (tb.freeTerm a).heap a = none :=
  Function.update_self ..

theorem freeTerm_heap_of_ne {b : Addr} (h : b ≠ a) : (tb.freeTerm a).heap b = tb.heap b :=
  Function.update_of_ne h ..

theorem write_freeTerm {b : Addr} {n : TreeDbTerm Obj} (h : b ≠ a) :
    (tb.write b n).freeTerm a = (tb.freeTerm a).write b n := by
  rw [DbTableTree.freeTerm, DbTableTree.write, DbTableTree.write, DbTableTree.freeTerm]
  simp only
  rw [Function.update_comm h]

theorem modify_eq {n : TreeDbTerm Obj} {f : TreeDbTerm Obj → TreeDbTerm Obj}
    (hn : tb.heap a = some n) : tb.modify a f = some (tb.write a (f n)) := by
  simp [DbTableTree.modify, hn]

/-- The child pointer of a node on a path is written. -/
theorem HoldsPath.set_cons {f : Frame (Cell Obj)} {root : Option Addr}
    (h : HoldsPath tb.heap root (f :: fs) p) (hnd : (outer (f :: fs)).Nodup) (q : Option Addr) :
    ∃ tb', tb.set q (placeOf (f :: fs)) = some tb' ∧ tb'.root = tb.root ∧
      HoldsPath tb'.heap root (f :: fs) q ∧ Kept tb tb' ∧
      ∀ a, a ≠ f.label.item.1 → tb'.heap a = tb.heap a := by
  obtain ⟨hnode, hsib, hrest⟩ := h
  have hne : ∀ a, a ∈ addrs f.sibling ++ outer fs → a ≠ f.label.item.1 := by
    rintro a ha rfl
    exact (List.nodup_cons.1 (outer_cons_perm.nodup_iff.1 hnd)).1 ha
  refine ⟨_, modify_eq hnode, rfl, ⟨by simp, hsib.congr fun a ha => ?_,
    hrest.congr fun a ha => ?_⟩, kept_write hnode (by simp), fun a ha => write_heap_of_ne ha⟩
  · exact write_heap_of_ne (hne a (List.mem_append_left _ ha))
  · exact write_heap_of_ne (hne a (List.mem_append_right _ ha))

/-- The pointer in a place is written. -/
theorem HoldsPath.set (h : HoldsPath tb.heap tb.root fs p) (hnd : (outer fs).Nodup)
    (q : Option Addr) :
    ∃ tb', tb.set q (placeOf fs) = some tb' ∧ HoldsPath tb'.heap tb'.root fs q ∧
      Kept tb tb' ∧ ∀ a, a ∉ outer fs → tb'.heap a = tb.heap a := by
  cases fs with
  | nil => exact ⟨_, rfl, rfl, ⟨rfl, rfl, fun _ => rfl⟩, fun _ _ => rfl⟩
  | cons f fs =>
    obtain ⟨tb', hset, hroot, hpath, hkept, hheap⟩ := h.set_cons hnd q
    refine ⟨tb', hset, hroot ▸ hpath, hkept, fun a ha => hheap a ?_⟩
    rintro rfl
    exact ha (mem_outer_cons.2 (Or.inl rfl))

/-- The lower and the upper part of a path. -/
theorem holdsPath_append {gs : List (Frame (Cell Obj))} {root : Option Addr} :
    HoldsPath heap root (gs ++ fs) q ↔
      ∃ top, HoldsPath heap top gs q ∧ HoldsPath heap root fs top := by
  induction gs generalizing q with
  | nil => exact ⟨fun h => ⟨q, rfl, h⟩, fun ⟨_, heq, h⟩ => heq ▸ h⟩
  | cons g gs ih =>
    rw [List.cons_append, HoldsPath, ih]
    constructor
    · rintro ⟨hnode, hsib, top, hlow, hhigh⟩
      exact ⟨top, ⟨hnode, hsib, hlow⟩, hhigh⟩
    · rintro ⟨top, ⟨hnode, hsib, hlow⟩, hhigh⟩
      exact ⟨hnode, hsib, top, hlow, hhigh⟩

/-- **A new tree in the place**, whose nodes are linked already. -/
theorem Linked.update (h : Linked tb fs t) (hroot : tb₁.root = tb.root)
    (hout : ∀ a ∈ outer fs, tb₁.heap a = tb.heap a) (hsub : Holds tb₁.heap t')
    (hnd : (outer fs ++ addrs t').Nodup) :
    ∃ tb₂, tb₁.set (ptr t') (placeOf fs) = some tb₂ ∧ Linked tb₂ fs t' ∧ Kept tb₁ tb₂ := by
  have hpath : HoldsPath tb₁.heap tb₁.root fs (ptr t) := by
    rw [hroot]
    exact h.path.congr hout
  obtain ⟨hndout, -, hdisj⟩ := List.nodup_append.1 hnd
  obtain ⟨tb₂, hset, hpath', hkept, hheap⟩ := hpath.set hndout (ptr t')
  refine ⟨tb₂, hset, ⟨hpath', hsub.congr fun a ha => hheap a fun ha' => ?_, hnd⟩, hkept⟩
  exact hdisj a ha' a ha rfl

theorem Holds.write {n : TreeDbTerm Obj} (h : Holds tb.heap t) (ha : a ∉ addrs t) :
    Holds (tb.write a n).heap t :=
  h.congr fun _ hb => write_heap_of_ne fun heq => ha (heq ▸ hb)

theorem addrs_congr (h : items t' = items t) : addrs t' = addrs t := by
  rw [addrs, h, addrs]

/-! ## Rotations -/

theorem Linked.singleRotation {x y z : BinaryTree (Cell Obj)}
    (h : Linked tb fs (d.join c (d.join c₁ x y) z)) (b b₁ : ℤ) :
    ∃ tb', tb.singleRotation d (placeOf fs) c.item.1 c₁.item.1 b b₁ = some tb' ∧
      Linked tb' fs (single d (c.tilt b) (c₁.tilt b₁) x y z) ∧ Kept tb tb' := by
  obtain ⟨hc, hchild, hz⟩ := holds_join.1 h.sub
  obtain ⟨hc₁, hx, hy⟩ := holds_join.1 hchild
  rw [ptr_join] at hc
  have hnd := (List.nodup_append.1 h.nodup).2.1
  simp only [addrs_join_perm.nodup_iff, List.nodup_cons, List.nodup_append, List.mem_append,
    mem_addrs_join, not_or] at hnd
  obtain ⟨⟨⟨hne, hcx, hcy⟩, hcz⟩, ⟨⟨hc₁x, hc₁y⟩, -⟩, -, hdisj⟩ := hnd
  have hc₁z : c₁.item.1 ∉ addrs z := fun hmem => hdisj _ (Or.inl rfl) _ hmem rfl
  set tb₁ := tb.write c.item.1 (nodeOf d (c.tilt b) (ptr y) (ptr z)) with htb₁
  set tb₂ := tb₁.write c₁.item.1 (nodeOf d (c₁.tilt b₁) (ptr x) (some c.item.1)) with htb₂
  have hc₁' : tb₁.heap c₁.item.1 = some (nodeOf d c₁ (ptr x) (ptr y)) := by
    rw [htb₁, write_heap_of_ne (Ne.symm hne), hc₁]
  have hkept : Kept tb tb₂ :=
    (kept_write hc (by simp)).trans (kept_write hc₁' (by simp))
  have hsub : Holds tb₂.heap (single d (c.tilt b) (c₁.tilt b₁) x y z) := by
    rw [single, holds_join, holds_join, ptr_join]
    refine ⟨by simp [htb₂], (hx.write hcx).write hc₁x, ?_, (hy.write hcy).write hc₁y,
      (hz.write hcz).write hc₁z⟩
    rw [Weighed.item_tilt, htb₂, write_heap_of_ne hne, htb₁, write_heap_self]
  have haddrs : addrs (single d (c.tilt b) (c₁.tilt b₁) x y z) =
      addrs (d.join c (d.join c₁ x y) z) := addrs_congr (items_single b b₁)
  have hout : ∀ a ∈ outer fs, tb₂.heap a = tb.heap a := by
    rintro a ha
    have hnot : a ∉ addrs (d.join c (d.join c₁ x y) z) := fun hmem => h.not_outer hmem ha
    simp only [mem_addrs_join, not_or] at hnot
    rw [htb₂, write_heap_of_ne hnot.2.1.1, htb₁, write_heap_of_ne hnot.1]
  have hroot : tb₂.root = tb.root := rfl
  obtain ⟨tb', hset, hlinked, hkept'⟩ := h.update hroot hout hsub (haddrs ▸ h.nodup)
  refine ⟨tb', ?_, hlinked, hkept.trans hkept'⟩
  rw [single, ptr_join] at hset
  simp only [DbTableTree.singleRotation, hc₁, Option.bind_eq_bind, Option.bind_some,
    modify_eq hc, nodeOf_child_other, nodeOf_setChild, nodeOf_setBalance, ← htb₁, modify_eq hc₁',
    nodeOf_setChild_other, ← htb₂]
  exact hset

theorem Linked.doubleRotation {x y z w : BinaryTree (Cell Obj)}
    (h : Linked tb fs (d.join c (d.join c₁ x (d.join c₂ y z)) w)) :
    ∃ tb', tb.doubleRotation d (placeOf fs) c.item.1 c₁.item.1 = some tb' ∧
      Linked tb' fs (double d c c₁ c₂ x y z w) ∧ Kept tb tb' := by
  obtain ⟨hc, hchild, hw⟩ := holds_join.1 h.sub
  obtain ⟨hc₁, hx, hin⟩ := holds_join.1 hchild
  obtain ⟨hc₂, hy, hz⟩ := holds_join.1 hin
  rw [ptr_join] at hc hc₁
  have hnd := (List.nodup_append.1 h.nodup).2.1
  simp only [addrs_join_perm.nodup_iff, List.nodup_cons, List.nodup_append, List.mem_append,
    mem_addrs_join, not_or] at hnd
  obtain ⟨⟨⟨hne₁, hcx, hne₂, hcy, hcz⟩, hcw⟩, ⟨⟨hc₁x, hne, hc₁y, hc₁z⟩, -, ⟨⟨hc₂y, hc₂z⟩, -⟩,
    hdisj₂⟩, -, hdisj⟩ := hnd
  have hc₁w : c₁.item.1 ∉ addrs w := fun hmem => hdisj _ (Or.inl rfl) _ hmem rfl
  have hc₂w : c₂.item.1 ∉ addrs w := fun hmem =>
    hdisj _ (Or.inr (Or.inr (Or.inl rfl))) _ hmem rfl
  have hc₂x : c₂.item.1 ∉ addrs x := fun hmem => hdisj₂ _ hmem _ (Or.inl rfl) rfl
  set c' := c.tilt (if c₂.balance = d.sgn then -d.sgn else 0) with hc'
  set c₁' := c₁.tilt (if c₂.balance = -d.sgn then d.sgn else 0) with hc₁'
  set tb₁ := tb.write c₁.item.1 (nodeOf d c₁' (ptr x) (ptr y)) with htb₁
  set tb₂ := tb₁.write c₂.item.1 (nodeOf d c₂ (some c₁.item.1) (ptr z)) with htb₂
  set tb₃ := tb₂.write c.item.1 (nodeOf d c' (ptr z) (ptr w)) with htb₃
  set tb₄ := tb₃.write c₂.item.1
    (nodeOf d (c₂.tilt 0) (some c₁.item.1) (some c.item.1)) with htb₄
  have h₁ : tb₁.heap c₂.item.1 = some (nodeOf d c₂ (ptr y) (ptr z)) := by
    rw [htb₁, write_heap_of_ne (Ne.symm hne), hc₂]
  have h₂ : tb₂.heap c.item.1 = some (nodeOf d c (some c₁.item.1) (ptr w)) := by
    rw [htb₂, write_heap_of_ne hne₂, htb₁, write_heap_of_ne hne₁, hc]
  have h₃ : tb₃.heap c₂.item.1 = some (nodeOf d c₂ (some c₁.item.1) (ptr z)) := by
    rw [htb₃, write_heap_of_ne (Ne.symm hne₂), htb₂, write_heap_self]
  have hkept : Kept tb tb₄ :=
    (((kept_write hc₁ (by simp [hc₁'])).trans (kept_write h₁ (by simp))).trans
      (kept_write h₂ (by simp [hc']))).trans (kept_write h₃ (by simp))
  have hsub : Holds tb₄.heap (double d c c₁ c₂ x y z w) := by
    rw [double, holds_join, holds_join, holds_join, ptr_join, ptr_join, ← hc', ← hc₁']
    refine ⟨write_heap_self, ⟨?_, ?_, ?_⟩, ?_, ?_, ?_⟩
    · rw [hc₁', Weighed.item_tilt, htb₄, write_heap_of_ne hne, htb₃,
        write_heap_of_ne (Ne.symm hne₁), htb₂, write_heap_of_ne hne, htb₁, write_heap_self]
    · exact (((hx.write hc₁x).write hc₂x).write hcx).write hc₂x
    · exact (((hy.write hc₁y).write hc₂y).write hcy).write hc₂y
    · rw [hc', Weighed.item_tilt, htb₄, write_heap_of_ne hne₂, htb₃, write_heap_self]
    · exact (((hz.write hc₁z).write hc₂z).write hcz).write hc₂z
    · exact (((hw.write hc₁w).write hc₂w).write hcw).write hc₂w
  have haddrs : addrs (double d c c₁ c₂ x y z w) =
      addrs (d.join c (d.join c₁ x (d.join c₂ y z)) w) := addrs_congr items_double
  have hout : ∀ a ∈ outer fs, tb₄.heap a = tb.heap a := by
    rintro a ha
    have hnot : a ∉ addrs (d.join c (d.join c₁ x (d.join c₂ y z)) w) := fun hmem =>
      h.not_outer hmem ha
    simp only [mem_addrs_join, not_or] at hnot
    obtain ⟨ha₀, ⟨ha₁, -, ha₂, -⟩, -⟩ := hnot
    rw [htb₄, write_heap_of_ne ha₂, htb₃, write_heap_of_ne ha₀, htb₂, write_heap_of_ne ha₂, htb₁,
      write_heap_of_ne ha₁]
  have hroot : tb₄.root = tb.root := rfl
  obtain ⟨tb', hset, hlinked, hkept'⟩ := h.update hroot hout hsub (haddrs ▸ h.nodup)
  refine ⟨tb', ?_, hlinked, hkept.trans hkept'⟩
  rw [double, ptr_join] at hset
  simp only [DbTableTree.doubleRotation, hc₁, hc₂, Option.bind_eq_bind, Option.bind_some,
    nodeOf_child_other, nodeOf_child, nodeOf_balance, modify_eq hc₁, nodeOf_setChild_other,
    nodeOf_setBalance, ← hc₁', ← htb₁, modify_eq h₁, nodeOf_setChild, ← htb₂, modify_eq h₂,
    ← hc', ← htb₃, modify_eq h₃, ← htb₄]
  exact hset

end PonBeam.EtsTree
