import PonBeam.EtsTree.Select

/-!
# The order of a traversal

A traversal in the direction `d` meets the objects of the table as `dirObjs d t` lists them:
after an object it comes to the next in the list, from whatever cursor.
-/

namespace PonBeam.EtsTree

variable {Key Obj : Type} {T : Terms Key Obj} {tb : DbTableTree Obj} {d : Side}
  {t : BinaryTree (Cell Obj)} {before rest : List Obj} {o : Obj} {key : Key}

/-- The objects in the order in which a direction meets them. -/
def dirObjs (d : Side) (t : BinaryTree (Cell Obj)) : List Obj := objsOf (listing d t)

theorem dirObjs_right (t : BinaryTree (Cell Obj)) : dirObjs .right t = objects t :=
  (objects_eq t).symm

theorem dirObjs_left (t : BinaryTree (Cell Obj)) : dirObjs .left t = (objects t).reverse := by
  rw [objects_eq, objsOf, ← List.map_reverse]
  rfl

theorem length_dirObjs (d : Side) (t : BinaryTree (Cell Obj)) :
    (dirObjs d t).length = t.numNodes := by
  cases d with
  | left => rw [dirObjs_left, List.length_reverse, length_objects]
  | right => rw [dirObjs_right, length_objects]

/-- The greater objects are those that stand after. -/
theorem greater_getkey {as bs : List Obj} (h : Ascending T (as ++ o :: bs)) :
    greater T (T.getkey o) (as ++ o :: bs) = bs := by
  obtain ⟨-, hright, hcross⟩ := List.pairwise_append.1 h
  have hsplit : SplitAt T (T.getkey o) (as ++ o :: bs) as [o] bs := by
    refine ⟨rfl, fun a ha => ?_, fun a ha => ?_, fun b hb => ?_⟩
    · exact (T.cmp_swap _ _).1 (hcross a ha o List.mem_cons_self)
    · rw [List.mem_singleton.1 ha]
      exact Terms.cmp_self _
    · exact (List.pairwise_cons.1 hright).1 b hb
  exact hsplit.greater_eq

/-- Beyond an object are those that follow it. -/
theorem beyond_getkey (hasc : Ascending T (objects t)) (hobjs : dirObjs d t = before ++ o :: rest) :
    objsOf (beyond T d (T.getkey o) t) = rest := by
  rw [objsOf_beyond]
  cases d with
  | right =>
    rw [dirObjs_right] at hobjs
    rw [hobjs] at hasc ⊢
    exact greater_getkey hasc
  | left =>
    rw [dirObjs_left, List.reverse_eq_iff, List.reverse_append, List.reverse_cons,
      List.append_assoc] at hobjs
    rw [hobjs] at hasc ⊢
    dsimp only
    rw [List.singleton_append] at hasc ⊢
    rw [smaller_getkey hasc, List.reverse_reverse]

/-- The node is that of the first object. -/
def HeadAt (tb : DbTableTree Obj) (next : Option Addr) : List Obj → Prop
  | [] => next = none
  | o :: _ => ∃ a n, next = some a ∧ tb.heap a = some n ∧ n.dbterm = o

/-- The node of the first of some cells. -/
theorem headAt_objsOf (h : Linked tb [] t) {cs : List (Cell Obj)}
    (hcs : ∀ c ∈ cs, c ∈ listing d t) : HeadAt tb (addr? cs) (objsOf cs) := by
  cases cs with
  | nil => rfl
  | cons c cs =>
    have hmem : c ∈ listing d t := hcs c List.mem_cons_self
    have hin : c ∈ inorder t := by
      cases d
      · exact List.mem_reverse.1 hmem
      · exact hmem
    obtain ⟨n, hn, hterm⟩ := h.node_of_mem hin
    exact ⟨_, n, rfl, hn, hterm⟩

/-- **The neighbour of a key** is the node of the first object beyond it, also in another memory
that holds the tree. -/
theorem findNeighbour_headAt {tb₁ : DbTableTree Obj} (h : Linked tb [] t) (h₁ : Linked tb₁ [] t)
    (hasc : Ascending T (objects t)) (hroom : t.height ≤ stackNeed)
    (hc : Cursor t tb.staticStack) (d : Side) (key : Key) :
    ∃ next stack, tb.findNeighbour T d key tb.staticStack = some (next, stack) ∧
      Cursor t stack ∧ HeadAt tb₁ next (objsOf (beyond T d key t)) := by
  obtain ⟨stack, hrun, hc'⟩ := @findNeighbour_spec _ _ T _ d _ _ key h hasc hroom hc
  exact ⟨_, stack, hrun, hc', headAt_objsOf h₁ fun c hc => (List.mem_filter.1 hc).1⟩

/-- **The start of a traversal** without a key. -/
theorem traverseStart_none (h : Inv T tb t) (hroom : t.height ≤ stackNeed) (d : Side) :
    ∃ next stack, tb.traverseStart T d none = some (next, tb.setStaticStack stack) ∧
      Cursor t stack ∧ HeadAt tb next (dirObjs d t) := by
  by_cases ht : t = .nil
  · subst ht
    have hroot : tb.root = none := h.linked.path
    refine ⟨none, ⟨[], 0⟩, ?_, .empty, ?_⟩
    · rw [DbTableTree.traverseStart, hroot]
    · rw [dirObjs, listing_nil]
      rfl
  · obtain ⟨root, b, array, xs, hroot, hspine, hp⟩ :=
      @pushSpine_end _ tb d.other t h.linked hroom ht
    obtain ⟨n, hn, hterm⟩ := hp.node h.linked
    refine ⟨some b.item.1, ⟨array, 0⟩, ?_, .of_points hp (Or.inl rfl), ?_⟩
    · rw [DbTableTree.traverseStart, hroot]
      simp only [hspine, Option.bind_eq_bind, Option.bind_some]
      rfl
    · have hlist : listing d t = b :: xs := by
        have hflip := hp.flip.listing_eq
        rw [Side.other_other] at hflip
        exact hflip
      rw [dirObjs, hlist]
      exact ⟨_, n, rfl, hn, hterm⟩

end PonBeam.EtsTree
