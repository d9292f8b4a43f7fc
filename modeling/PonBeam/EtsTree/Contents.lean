import PonBeam.EtsTree.Unlink
import PonBeam.EtsTree.OrderedMap
import Mathlib.Tactic.NormNum.NatFib

/-!
# The contents of a table

`Inv T tb t` says that the table is the AVL tree `t` in memory, in the order of the keys, and
that nothing else is allocated. Each operation keeps it, and changes the contents as the
operation of the ordered map does.
-/

namespace PonBeam.EtsTree

variable {Key Obj : Type} {T : Terms Key Obj} {tb tb' : DbTableTree Obj}
  {t t' : BinaryTree (Cell Obj)} {fs : List (Frame (Cell Obj))} {key : Key} {obj : Obj}

/-- The objects of a tree from left to right. -/
def objects (t : BinaryTree (Cell Obj)) : List Obj :=
  (items t).map Prod.snd

/-- **The table is the tree `t`.** -/
structure Inv (T : Terms Key Obj) (tb : DbTableTree Obj) (t : BinaryTree (Cell Obj)) : Prop where
  linked : Linked tb [] t
  avl : Avl t
  ascending : Ascending T (objects t)
  nitems_eq : tb.nitems = t.numNodes
  live : ∀ a, tb.heap a ≠ none → a ∈ addrs t

/-- The empty table. -/
theorem inv_dbCreateTree : Inv T dbCreateTree .nil where
  linked := ⟨rfl, trivial, List.nodup_nil⟩
  avl := trivial
  ascending := List.Pairwise.nil
  nitems_eq := rfl
  live := fun _ h => absurd rfl h

/-- A table with other counters or another stack. -/
theorem Inv.resetStaticStack (h : Inv T tb t) : Inv T tb.resetStaticStack t :=
  ⟨h.linked.congr rfl fun _ _ => rfl, h.avl, h.ascending, h.nitems_eq, h.live⟩

/-! ## Height -/

/-- **No path is longer than the stack** in a table with fewer than `2 ^ 61` objects. -/
theorem Avl.height_lt (h : Avl t) (hn : t.numNodes < 2 ^ 61) : t.height < stackNeed := by
  by_contra hheight
  have hfib : Nat.fib 92 ≤ Nat.fib (t.height + 2) := Nat.fib_mono (by
    rw [stackNeed] at hheight
    omega)
  have := h.fib_le
  have : Nat.fib 92 = 7540113804746346429 := by norm_num
  omega

/-! ## Down to a key -/

/-- A key against that of a node. -/
def cutCell (T : Terms Key Obj) (key : Key) (c : Cell Obj) : ℤ := T.cut key c.item.2

/-- **The search** is the walk that the keys direct. -/
theorem search_spec {room : ℕ} (h : Linked tb fs t) (hroom : t.height ≤ room) :
    tb.search T key room (placeOf fs) (pathOf fs) =
        some (placeOf (descend (cutCell T key) fs t).1, pathOf (descend (cutCell T key) fs t).1) ∧
      Linked tb (descend (cutCell T key) fs t).1 (descend (cutCell T key) fs t).2 := by
  refine ⟨?_, Linked.plug_iff.2 (plug_descend (cutCell T key) fs t ▸ Linked.plug_iff.1 h)⟩
  induction t generalizing fs room with
  | nil =>
    rw [DbTableTree.search, h.get_eq]
    rfl
  | node c l r ihl ihr =>
    have hnode := (holds_join (d := .left)).1 h.sub |>.1
    have hcut : T.cmpKey key (nodeOf .left c (ptr l) (ptr r)) = cutCell T key c := rfl
    cases room with
    | zero => simp at hroom
    | succ room =>
      rw [BinaryTree.height] at hroom
      have hl : l.height ≤ room := by omega
      have hr : r.height ≤ room := by omega
      have hleft := ihl (Linked.attach_iff.2 h : Linked tb (⟨.left, c, r⟩ :: fs) l) hl
      have hright := ihr (Linked.attach_iff.2 h : Linked tb (⟨.right, c, l⟩ :: fs) r) hr
      rw [DbTableTree.search, h.get_eq, descend]
      simp only [ptr_node, Option.bind_eq_bind, Option.bind_some, hnode, hcut]
      split_ifs with h1 h2
      · exact hleft
      · exact hright
      · rfl

/-- The objects before a place. -/
def beforeObjs (fs : List (Frame (Cell Obj))) : List Obj := (Frame.before fs).map fun c => c.item.2

/-- The objects after a place. -/
def afterObjs (fs : List (Frame (Cell Obj))) : List Obj := (Frame.after fs).map fun c => c.item.2

theorem objects_plug {sub : BinaryTree (Cell Obj)} :
    objects (plug fs sub) = beforeObjs fs ++ (objects sub ++ afterObjs fs) := by
  simp [objects, items_plug, beforeObjs, afterObjs, Function.comp_def]

theorem Ascending.cutBy (h : Ascending T (objects t)) (key : Key) :
    CutBy (cutCell T key) (inorder t) := by
  rw [Ascending, objects, items, List.map_map, List.pairwise_map] at h
  exact h.imp fun hlt hle => Terms.cmp_lt_of_le_of_lt hle hlt

/-- **Where the search ends**: at the node with an equal key, or at a missing child. -/
structure Found (T : Terms Key Obj) (key : Key) (tb : DbTableTree Obj)
    (t : BinaryTree (Cell Obj)) (fs : List (Frame (Cell Obj))) (sub : BinaryTree (Cell Obj)) :
    Prop where
  plug_eq : plug fs sub = t
  search_eq : tb.search T key stackNeed .root [] = some (placeOf fs, pathOf fs)
  linked : Linked tb fs sub
  around : Around (cutCell T key) fs
  cut_eq : ∀ c l r, sub = .node c l r → cutCell T key c = 0

/-- The walk that the keys direct finds the place. -/
theorem Inv.found (h : Inv T tb t) (hroom : t.height ≤ stackNeed) (key : Key) :
    Found T key tb t (descend (cutCell T key) [] t).1 (descend (cutCell T key) [] t).2 := by
  have hcutBy : CutBy (cutCell T key) (inorder (plug [] t)) := h.ascending.cutBy key
  obtain ⟨hsearch, hlinked⟩ := @search_spec _ _ T _ t [] key _ h.linked hroom
  obtain ⟨haround, hcut⟩ := descend_around hcutBy
    ⟨fun _ ha => absurd ha List.not_mem_nil, fun _ ha => absurd ha List.not_mem_nil⟩
  exact ⟨plug_descend _ [] t, hsearch, hlinked, haround, hcut⟩

theorem Inv.find (h : Inv T tb t) (hroom : t.height ≤ stackNeed) (key : Key) :
    ∃ fs sub, Found T key tb t fs sub :=
  ⟨_, _, h.found hroom key⟩

namespace Found

variable {sub : BinaryTree (Cell Obj)} {c : Cell Obj} {l r : BinaryTree (Cell Obj)}

theorem before_pos (h : Found T key tb t fs sub) : ∀ o ∈ beforeObjs fs, 0 < T.cut key o := by
  rintro _ ho
  obtain ⟨c, hc, rfl⟩ := List.mem_map.1 ho
  exact h.around.before c hc

theorem after_neg (h : Found T key tb t fs sub) : ∀ o ∈ afterObjs fs, T.cut key o < 0 := by
  rintro _ ho
  obtain ⟨c, hc, rfl⟩ := List.mem_map.1 ho
  exact h.around.after c hc

/-- There is no object with the key. -/
theorem splitAt_nil (h : Found T key tb t fs .nil) :
    SplitAt T key (objects t) (beforeObjs fs) [] (afterObjs fs) where
  eq := by
    rw [← h.plug_eq, objects_plug]
    rfl
  before := h.before_pos
  at_key := fun _ ho => absurd ho List.not_mem_nil
  after := h.after_neg

/-- There is one. -/
theorem splitAt_node (h : Found T key tb t fs (.node c l r)) (hasc : Ascending T (objects t)) :
    SplitAt T key (objects t) (beforeObjs fs ++ objects l) [c.item.2] (objects r ++ afterObjs fs) := by
  have hcut := h.cut_eq c l r rfl
  have heq : objects t =
      beforeObjs fs ++ objects l ++ ([c.item.2] ++ (objects r ++ afterObjs fs)) := by
    rw [← h.plug_eq, objects_plug, objects, items_node]
    simp [objects]
  have hcutby := hasc.cutBy key
  rw [← h.plug_eq, inorder_plug] at hcutby
  obtain ⟨-, hmid, -⟩ := List.pairwise_append.1 hcutby
  obtain ⟨hright, hleft⟩ := CutBy.around_node (List.pairwise_append.1 hmid).1
  refine ⟨heq, fun o ho => ?_, fun o ho => ?_, fun o ho => ?_⟩
  · rcases List.mem_append.1 ho with ho | ho
    · exact h.before_pos o ho
    · rw [objects, items, List.map_map] at ho
      obtain ⟨b, hb, rfl⟩ := List.mem_map.1 ho
      exact hleft hcut.ge b hb
  · rw [List.mem_singleton.1 ho]
    exact hcut
  · rcases List.mem_append.1 ho with ho | ho
    · rw [objects, items, List.map_map] at ho
      obtain ⟨b, hb, rfl⟩ := List.mem_map.1 ho
      exact hright hcut.le b hb
    · exact h.after_neg o ho

/-- Only the node that was found has an equal key. -/
theorem eq_item (h : Found T key tb t fs (.node c l r)) (hasc : Ascending T (objects t))
    {i : Addr × Obj} (hi : i ∈ items t) (hcut : T.cut key i.2 = 0) : i = c.item := by
  have hsplit := h.splitAt_node hasc
  rw [← h.plug_eq, items_plug, items_node, List.append_assoc, List.cons_append,
    ← List.append_assoc, List.mem_append, List.mem_cons] at hi
  rcases hi with hi | rfl | hi
  · have hmem : i.2 ∈ beforeObjs fs ++ objects l := by
      have := List.mem_map_of_mem (f := Prod.snd) hi
      simpa [beforeObjs, objects] using this
    have := hsplit.before _ hmem
    omega
  · rfl
  · have hmem : i.2 ∈ objects r ++ afterObjs fs := by
      have := List.mem_map_of_mem (f := Prod.snd) hi
      simpa [afterObjs, objects] using this
    have := hsplit.after _ hmem
    omega

end Found

/-- A node in memory is one of the tree. -/
theorem Inv.mem_items {a : Addr} {n : TreeDbTerm Obj} (h : Inv T tb t) (hn : tb.heap a = some n) :
    (a, n.dbterm) ∈ items t :=
  h.linked.sub.mem_items (h.live a (hn ▸ Option.some_ne_none n)) hn

theorem Inv.mem_objects {a : Addr} {n : TreeDbTerm Obj} (h : Inv T tb t)
    (hn : tb.heap a = some n) : n.dbterm ∈ objects t :=
  List.mem_map_of_mem (f := Prod.snd) (h.mem_items hn)

/-! ## Insertion -/

theorem numNodes_eq (t : BinaryTree (Cell Obj)) : t.numNodes = (objects t).length := by
  rw [objects, List.length_map, length_items]

theorem objects_congr (h : items t' = items t) : objects t' = objects t := by
  rw [objects, h, objects]

/-- **A new object.** -/
theorem putNew_spec {newp : Addr} (h : Inv T tb t) (hf : Found T (T.getkey obj) tb t fs .nil)
    (hnew : tb.heap newp = none) :
    ∃ tb' t', tb.putNew obj newp (placeOf fs) (pathOf fs) = some tb' ∧ Inv T tb' t' ∧
      objects t' = smaller T (T.getkey obj) (objects t) ++
        obj :: greater T (T.getkey obj) (objects t) ∧
      tb'.staticStack = tb.staticStack := by
  have hsplit := hf.splitAt_nil
  have hnot : newp ∉ outer fs := fun ha =>
    hf.linked.ne_none (List.mem_append_left _ ha) hnew
  set tb₁ := ({ tb with nitems := tb.nitems + 1 } : DbTableTree Obj).write newp
    ⟨none, none, 0, obj⟩ with htb₁
  obtain ⟨t', hregrow, havl, hitems⟩ :=
    regrow_leaf (hf.plug_eq ▸ h.avl) (newp, obj)
  have hroot : tb₁.root = tb.root := rfl
  have hholds : Holds tb₁.heap (leaf (newp, obj)) := ⟨write_heap_self, trivial, trivial⟩
  have houter : ∀ a ∈ outer fs, tb₁.heap a = tb.heap a := fun a ha =>
    write_heap_of_ne fun heq => hnot (heq ▸ ha)
  have hnodup : (outer fs ++ addrs (leaf (newp, obj))).Nodup := by
    have := hf.linked.nodup
    rw [addrs_nil, List.append_nil] at this
    refine this.append (List.nodup_singleton _) ?_
    rintro a ha hmem
    rw [List.mem_singleton.1 hmem] at ha
    exact hnot ha
  obtain ⟨tb₂, hset, hlinked₂, hkept₂⟩ := hf.linked.update hroot houter hholds hnodup
  obtain ⟨tb', hloop, hlinked, hkept⟩ := putLoop_spec hlinked₂ hregrow
  have hkept' := hkept₂.trans hkept
  have hobjects : objects t' = beforeObjs fs ++ obj :: afterObjs fs := by
    rw [objects_congr hitems, objects_plug]
    rfl
  refine ⟨tb', t', ?_, ⟨hlinked, havl, ?_, ?_, fun a ha => ?_⟩, ?_, hkept'.staticStack⟩
  · simp only [DbTableTree.putNew, ← htb₁, Option.bind_eq_bind]
    rw [show tb₁.set (some newp) (placeOf fs) = some tb₂ from hset]
    exact hloop
  · rw [hobjects]
    exact hsplit.ascending_put h.ascending
  · rw [hkept'.nitems, numNodes_eq, hobjects, htb₁]
    simp [DbTableTree.write, h.nitems_eq, numNodes_eq, hsplit.eq]
    omega
  · rw [addrs_congr hitems, (addrs_plug_perm ..).mem_iff, List.mem_append]
    by_cases heq : a = newp
    · exact Or.inr (heq ▸ List.mem_singleton_self _)
    · have hold := h.live a (by rwa [hkept'.ne_none_iff, htb₁, write_heap_of_ne heq] at ha)
      rw [← hf.plug_eq, (addrs_plug_perm ..).mem_iff, addrs_nil, List.append_nil] at hold
      exact Or.inl hold
  · rw [hobjects, hsplit.smaller_eq, hsplit.greater_eq]

/-- The node with an equal key is replaced. -/
theorem replace_spec {c : Cell Obj} {l r : BinaryTree (Cell Obj)} {newp : Addr} (h : Inv T tb t)
    (hf : Found T (T.getkey obj) tb t fs (.node c l r))
    (hnew : newp = c.item.1 ∨ tb.heap newp = none) :
    ∃ tb' t', ((tb.freeTerm c.item.1).write newp ⟨ptr l, ptr r, c.balance, obj⟩).set (some newp)
        (placeOf fs) = some tb' ∧ Inv T tb' t' ∧
      objects t' = smaller T (T.getkey obj) (objects t) ++
        obj :: greater T (T.getkey obj) (objects t) ∧
      tb'.staticStack = tb.staticStack := by
  have hsplit := hf.splitAt_node h.ascending
  set c' : Cell Obj := ⟨c.balance, (newp, obj)⟩ with hc'
  set tb₁ := (tb.freeTerm c.item.1).write newp ⟨ptr l, ptr r, c.balance, obj⟩ with htb₁
  -- the addresses of the other nodes
  have hperm : ∀ b : Cell Obj, (outer fs ++ addrs (.node b l r)).Perm
      (b.item.1 :: (outer fs ++ (addrs l ++ addrs r))) := fun b =>
    (addrs_node_perm.append_left _).trans List.perm_middle
  have hnodup := (hperm c).nodup_iff.1 hf.linked.nodup
  obtain ⟨hc, hrest⟩ := List.nodup_cons.1 hnodup
  have hnewp : newp ∉ outer fs ++ (addrs l ++ addrs r) := by
    rcases hnew with rfl | hnone
    · exact hc
    · exact fun ha => hf.linked.ne_none ((hperm c).mem_iff.2 (List.mem_cons_of_mem _ ha)) hnone
  have hsame : ∀ a ∈ outer fs ++ (addrs l ++ addrs r), tb₁.heap a = tb.heap a := by
    rintro a ha
    have hane : a ≠ newp := by
      rintro rfl
      exact hnewp ha
    have hac : a ≠ c.item.1 := by
      rintro rfl
      exact hc ha
    rw [htb₁, write_heap_of_ne hane, freeTerm_heap_of_ne hac]
  have hroot : tb₁.root = tb.root := rfl
  have hholds : Holds tb₁.heap (.node c' l r) := by
    obtain ⟨-, hl, hr⟩ := hf.linked.sub
    refine ⟨write_heap_self, hl.congr fun a ha => hsame a ?_, hr.congr fun a ha => hsame a ?_⟩
    · exact List.mem_append_right _ (List.mem_append_left _ ha)
    · exact List.mem_append_right _ (List.mem_append_right _ ha)
  obtain ⟨tb', hset, hlinked, hkept⟩ := hf.linked.update hroot
    (fun a ha => hsame a (List.mem_append_left _ ha)) hholds
    ((hperm c').nodup_iff.2 (List.nodup_cons.2 ⟨hnewp, hrest⟩))
  have hobjects : objects (plug fs (.node c' l r)) =
      beforeObjs fs ++ objects l ++ obj :: (objects r ++ afterObjs fs) := by
    rw [objects_plug, objects, items_node]
    simp [objects, hc']
  refine ⟨tb', plug fs (.node c' l r), hset, ⟨Linked.plug_iff.1 hlinked, ?_, ?_, ?_, ?_⟩, ?_,
    hkept.staticStack⟩
  · have havl := h.avl
    rw [← hf.plug_eq] at havl
    exact havl.relabel rfl
  · rw [hobjects]
    exact hsplit.ascending_put h.ascending
  · rw [hkept.nitems, numNodes_eq, hobjects]
    refine h.nitems_eq.trans ?_
    rw [numNodes_eq, hsplit.eq]
    simp
  · rintro a ha
    rw [(addrs_plug_perm ..).mem_iff, (hperm c').mem_iff, List.mem_cons]
    by_cases heq : a = newp
    · exact Or.inl heq
    · rw [hkept.ne_none_iff, htb₁, write_heap_of_ne heq] at ha
      have hac : a ≠ c.item.1 := by
        rintro rfl
        exact ha freeTerm_heap_self
      have hold := h.live a (by rwa [freeTerm_heap_of_ne hac] at ha)
      rw [← hf.plug_eq, (addrs_plug_perm ..).mem_iff, (hperm c).mem_iff, List.mem_cons] at hold
      exact Or.inr (hold.resolve_left hac)
  · rw [hobjects, hsplit.smaller_eq, hsplit.greater_eq]

/-! ## Deletion -/

/-- A node that is no longer in the tree is released. -/
theorem Linked.freeTerm {a : Addr} (h : Linked tb [] t) (ha : a ∉ addrs t) :
    Linked (tb.freeTerm a) [] t := by
  refine h.congr rfl fun b hb => freeTerm_heap_of_ne ?_
  rintro rfl
  exact ha (by simpa using hb)

/-- **The node with an equal key is taken out.** It stays allocated until it is released. -/
theorem linkoutFound_spec {c : Cell Obj} {l r : BinaryTree (Cell Obj)} (h : Inv T tb t)
    (hroom : t.height ≤ stackNeed) (hf : Found T key tb t fs (.node c l r)) :
    ∃ tb' t', tb.linkout c.item.1 (placeOf fs) (pathOf fs) = some tb' ∧
      Inv T (tb'.freeTerm c.item.1) t' ∧
      objects t' = smaller T key (objects t) ++ greater T key (objects t) ∧
      tb'.staticStack = tb.staticStack ∧
      ∀ a, (tb'.heap a).map TreeDbTerm.dbterm = (tb.heap a).map TreeDbTerm.dbterm := by
  have hsplit := hf.splitAt_node h.ascending
  obtain ⟨t', state, hremoved, havl, hitems⟩ := removed_spec (hf.plug_eq.symm ▸ h.avl)
  have hlength := length_add_height_le fs (.node c l r)
  rw [hf.plug_eq] at hlength
  obtain ⟨tb', heq, hlinked, hkept⟩ := linkout_spec hf.linked hremoved (by omega)
  have hobjects : objects t' = beforeObjs fs ++ objects l ++ (objects r ++ afterObjs fs) := by
    rw [objects, hitems]
    simp [objects, beforeObjs, afterObjs, Function.comp_def]
  have haddrs : (addrs t).Perm (c.item.1 :: addrs t') := by
    rw [← hf.plug_eq, addrs, addrs, items_plug, hitems, items_node]
    simp only [List.map_append, List.map_cons, List.append_assoc, List.cons_append]
    rw [← List.append_assoc, ← List.append_assoc]
    exact List.perm_middle
  have hnodup := haddrs.nodup_iff.1 (by simpa using h.linked.nodup)
  refine ⟨tb', t', heq, ⟨hlinked.freeTerm (List.nodup_cons.1 hnodup).1, havl, ?_, ?_, ?_⟩, ?_,
    hkept.staticStack, hkept.dbterm⟩
  · rw [hobjects]
    exact hsplit.ascending_erase h.ascending
  · have hn : (tb'.freeTerm c.item.1).nitems = tb.nitems - 1 := hkept.nitems
    rw [hn, h.nitems_eq, numNodes_eq, numNodes_eq, hobjects, hsplit.eq]
    simp
    omega
  · rintro a ha
    have hac : a ≠ c.item.1 := by
      rintro rfl
      exact ha freeTerm_heap_self
    rw [freeTerm_heap_of_ne hac, hkept.ne_none_iff] at ha
    exact (List.mem_cons.1 (haddrs.mem_iff.1 (h.live a ha))).resolve_left hac
  · rw [hobjects, hsplit.smaller_eq, hsplit.greater_eq]

end PonBeam.EtsTree
