import PonBeam.EtsTree.Contents

/-!
# An ordered table is an ordered map

Whatever is inserted and deleted from the empty table on, the operations are defined, return
what those of the ordered map return, and leave an AVL tree with its contents. What is asked
is that the allocator gives addresses that are not in use, and that there are fewer than
`2 ^ 61` objects.
-/

namespace PonBeam.EtsTree

variable {Key Obj : Type} {T : Terms Key Obj} {tb tb' : DbTableTree Obj}
  {t t' : BinaryTree (Cell Obj)} {obj : Obj} {key : Key} {newp : Addr}

/-- The address of an insertion is not in use, except by a node that is replaced in place. -/
def Op.Fits (T : Terms Key Obj) (tb : DbTableTree Obj) : Op Key Obj → Prop
  | put obj _ newp => ∀ n ∈ tb.heap newp, T.cut (T.getkey obj) n.dbterm = 0
  | putDbterm _ _ newp => tb.heap newp = none
  | _ => True

instance (T : Terms Key Obj) (tb : DbTableTree Obj) : ∀ op : Op Key Obj, Decidable (op.Fits T tb)
  | .put obj _ newp =>
    inferInstanceAs (Decidable (∀ n ∈ tb.heap newp, T.cut (T.getkey obj) n.dbterm = 0))
  | .putDbterm _ _ newp => inferInstanceAs (Decidable (tb.heap newp = none))
  | .erase _ | .eraseObject _ | .take _ => isTrue trivial

/-- The table after an operation, and what it returns. -/
structure Outcome (T : Terms Key Obj) (t : BinaryTree (Cell Obj)) (op : Op Key Obj)
    (ret : DbError) (out : List Obj) (tb' : DbTableTree Obj) (t' : BinaryTree (Cell Obj)) :
    Prop where
  inv : Inv T tb' t'
  onMap_eq : op.onMap T (objects t) = (ret, out, objects t')
  staticStack : tb'.staticStack = ⟨[], 0⟩

/-! ## Insertion -/

theorem put_spec (h : Inv T tb t) (hroom : t.height ≤ stackNeed) (clash : Bool)
    (hnew : ∀ n ∈ tb.heap newp, T.cut (T.getkey obj) n.dbterm = 0) :
    ∃ ret tb' t', tb.dbPutTreeCommon T obj clash newp = some (ret, tb') ∧
      Outcome T t (.put obj clash newp) ret [] tb' t' := by
  have h₀ := h.resetStaticStack
  obtain ⟨fs, sub, hf⟩ := h₀.find hroom (T.getkey obj)
  cases sub with
  | nil =>
    have hnone : tb.heap newp = none := by
      refine Option.eq_none_iff_forall_not_mem.2 fun n hn => ?_
      have hmem := mem_equal.2 ⟨h.mem_objects hn, hnew n hn⟩
      rw [hf.splitAt_nil.equal_eq] at hmem
      exact List.not_mem_nil hmem
    obtain ⟨tb', t', hput, hinv, hobjects, hstack⟩ := putNew_spec h₀ hf hnone
    refine ⟨.none, tb', t', ?_, hinv, ?_, hstack⟩
    · simp [DbTableTree.dbPutTreeCommon, hf.search_eq, hf.linked.get_eq, hput]
    · simp [Op.onMap, mapPut, hf.splitAt_nil.equal_eq, hobjects]
  | node c l r =>
    have hequal := (hf.splitAt_node h₀.ascending).equal_eq
    have hnode := (holds_join (d := .left)).1 hf.linked.sub |>.1
    cases clash with
    | true =>
      refine ⟨.badkey, tb.resetStaticStack, t, ?_, h₀, ?_, rfl⟩
      · simp [DbTableTree.dbPutTreeCommon, hf.search_eq, hf.linked.get_eq]
      · simp [Op.onMap, mapPut, hequal]
    | false =>
      have hnew' : newp = c.item.1 ∨ tb.resetStaticStack.heap newp = none := by
        cases hn : tb.heap newp with
        | none => exact Or.inr hn
        | some n =>
          have := hf.eq_item h₀.ascending (h₀.mem_items hn) (hnew n hn)
          exact Or.inl (congrArg Prod.fst this)
      obtain ⟨tb', t', hset, hinv, hobjects, hstack⟩ := replace_spec h₀ hf hnew'
      refine ⟨.none, tb', t', ?_, hinv, ?_, hstack⟩
      · simp [DbTableTree.dbPutTreeCommon, hf.search_eq, hf.linked.get_eq,
          DbTableTree.replaceDbterm, hnode, nodeOf, hset]
      · simp [Op.onMap, mapPut, hobjects]

/-- A node of its own is inserted as an object is for which a node is made. -/
theorem dbPutDbtermTreeCommon_eq (hnew : tb.heap newp = none) (clash : Bool) :
    tb.dbPutDbtermTreeCommon T obj clash newp = tb.dbPutTreeCommon T obj clash newp := by
  rw [DbTableTree.dbPutDbtermTreeCommon, DbTableTree.dbPutTreeCommon]
  congr 1
  funext r
  obtain ⟨this, stack⟩ := r
  simp only
  congr 1
  funext q
  cases q with
  | none => rfl
  | some p =>
    cases hn : tb.resetStaticStack.heap p with
    | none => simp [DbTableTree.replaceDbterm, hn]
    | some n =>
      have hne : newp ≠ p := by
        rintro rfl
        exact nomatch hn.symm.trans hnew
      simp [DbTableTree.replaceDbterm, hn, write_freeTerm hne]

/-! ## Deletion -/

/-- What `linkout_tree` and `linkout_object_tree` do when they find the key. -/
theorem linkoutTree_spec (h : Inv T tb t) (hroom : t.height ≤ stackNeed) (key : Key) :
    (equal T key (objects t) = [] ∧ tb.linkoutTree T key = some (none, tb.resetStaticStack)) ∨
    ∃ q o tb' t', equal T key (objects t) = [o] ∧ tb.linkoutTree T key = some (some q, tb') ∧
      (tb'.heap q).map TreeDbTerm.dbterm = some o ∧ Inv T (tb'.freeTerm q) t' ∧
      objects t' = smaller T key (objects t) ++ greater T key (objects t) ∧
      tb'.staticStack = ⟨[], 0⟩ ∧
      ∀ a, (tb'.heap a).map TreeDbTerm.dbterm = (tb.heap a).map TreeDbTerm.dbterm := by
  have h₀ := h.resetStaticStack
  obtain ⟨fs, sub, hf⟩ := h₀.find hroom key
  cases sub with
  | nil =>
    left
    refine ⟨hf.splitAt_nil.equal_eq, ?_⟩
    simp [DbTableTree.linkoutTree, hf.search_eq, hf.linked.get_eq]
  | node c l r =>
    right
    have hnode := (holds_join (d := .left)).1 hf.linked.sub |>.1
    obtain ⟨tb', t', hlinkout, hinv, hobjects, hstack, hdbterm⟩ := linkoutFound_spec h₀ hroom hf
    refine ⟨c.item.1, c.item.2, tb', t', (hf.splitAt_node h₀.ascending).equal_eq, ?_, ?_, hinv,
      hobjects, hstack, hdbterm⟩
    · simp [DbTableTree.linkoutTree, hf.search_eq, hf.linked.get_eq, hlinkout]
    · rw [hdbterm, hnode]
      rfl

/-- `linkout_object_tree` is `linkout_tree` if the object there is equal. -/
theorem linkoutObjectTree_spec (h : Inv T tb t) (hroom : t.height ≤ stackNeed) (object : Obj) :
    ((∀ o ∈ equal T (T.getkey object) (objects t), T.dbEq object o = false) ∧
      tb.linkoutObjectTree T object = some (none, tb.resetStaticStack)) ∨
    ((∀ o ∈ equal T (T.getkey object) (objects t), T.dbEq object o = true) ∧
      tb.linkoutObjectTree T object = tb.linkoutTree T (T.getkey object)) := by
  have h₀ := h.resetStaticStack
  obtain ⟨fs, sub, hf⟩ := h₀.find hroom (T.getkey object)
  cases sub with
  | nil =>
    left
    refine ⟨fun o ho => ?_, ?_⟩
    · rw [hf.splitAt_nil.equal_eq] at ho
      exact absurd ho List.not_mem_nil
    · simp [DbTableTree.linkoutObjectTree, hf.search_eq, hf.linked.get_eq]
  | node c l r =>
    have hnode := (holds_join (d := .left)).1 hf.linked.sub |>.1
    rw [(hf.splitAt_node h₀.ascending).equal_eq]
    cases heq : T.dbEq object c.item.2 with
    | false =>
      left
      refine ⟨by simpa using heq, ?_⟩
      simp [DbTableTree.linkoutObjectTree, hf.search_eq, hf.linked.get_eq, hnode, heq]
    | true =>
      right
      refine ⟨by simpa using heq, ?_⟩
      simp [DbTableTree.linkoutObjectTree, DbTableTree.linkoutTree, hf.search_eq,
        hf.linked.get_eq, hnode, heq]

/-- The objects before, at and after a key. -/
theorem Inv.split (h : Inv T tb t) (hroom : t.height ≤ stackNeed) (key : Key) : objects t =
    smaller T key (objects t) ++ (equal T key (objects t) ++ greater T key (objects t)) := by
  obtain ⟨fs, sub, hf⟩ := h.find hroom key
  cases sub with
  | nil =>
    have hs := hf.splitAt_nil
    rw [hs.smaller_eq, hs.equal_eq, hs.greater_eq]
    exact hs.eq
  | node c l r =>
    have hs := hf.splitAt_node h.ascending
    rw [hs.smaller_eq, hs.equal_eq, hs.greater_eq]
    exact hs.eq

/-! ## Runs -/

/-- **Each operation** is defined and does what the operation of the ordered map does. -/
theorem step_spec (h : Inv T tb t) (hn : tb.nitems < 2 ^ 61) {op : Op Key Obj}
    (hfits : op.Fits T tb) :
    ∃ ret out tb' t', op.onTable T tb = some (ret, out, tb') ∧ Outcome T t op ret out tb' t' := by
  have hroom : t.height ≤ stackNeed := (Avl.height_lt h.avl (h.nitems_eq ▸ hn)).le
  cases op with
  | put obj clash newp =>
    obtain ⟨ret, tb', t', heq, hout⟩ := put_spec h hroom clash hfits
    exact ⟨ret, [], tb', t', by simp [Op.onTable, heq], hout⟩
  | putDbterm obj clash newp =>
    have hnew : ∀ n ∈ tb.heap newp, T.cut (T.getkey obj) n.dbterm = 0 := fun n hn =>
      nomatch (show tb.heap newp = none from hfits).symm.trans hn
    obtain ⟨ret, tb', t', heq, hout⟩ := put_spec h hroom clash hnew
    refine ⟨ret, [], tb', t', ?_, hout.inv, hout.onMap_eq, hout.staticStack⟩
    simp [Op.onTable, dbPutDbtermTreeCommon_eq hfits, heq]
  | erase key =>
    have hsplit := h.split hroom key
    rcases linkoutTree_spec h hroom key with ⟨hnone, heq⟩ | ⟨q, o, tb', t', -, heq, -, hinv, hobjs,
      hstack, -⟩
    · refine ⟨.none, [], tb.resetStaticStack, t, ?_, h.resetStaticStack, ?_, rfl⟩
      · simp [Op.onTable, DbTableTree.dbEraseTreeCommon, heq]
      · rw [hnone, List.nil_append] at hsplit
        rw [Op.onMap, ← hsplit]
    · refine ⟨.none, [], tb'.freeTerm q, t', ?_, hinv, ?_, hstack⟩
      · simp [Op.onTable, DbTableTree.dbEraseTreeCommon, heq]
      · rw [Op.onMap, hobjs]
  | eraseObject object =>
    have hsplit := h.split hroom (T.getkey object)
    rcases linkoutObjectTree_spec h hroom object with ⟨hno, heq⟩ | ⟨hyes, heq⟩
    · refine ⟨.none, [], tb.resetStaticStack, t, ?_, h.resetStaticStack, ?_, rfl⟩
      · simp [Op.onTable, DbTableTree.dbEraseObjectTreeCommon, heq]
      · simp only [Op.onMap]
        rw [List.filter_eq_self.2 fun o ho => by simp [hno o ho], List.append_assoc, ← hsplit]
    · rcases linkoutTree_spec h hroom (T.getkey object) with ⟨hnone, heq'⟩ |
        ⟨q, o, tb', t', -, heq', -, hinv, hobjs, hstack, -⟩
      · refine ⟨.none, [], tb.resetStaticStack, t, ?_, h.resetStaticStack, ?_, rfl⟩
        · simp [Op.onTable, DbTableTree.dbEraseObjectTreeCommon, heq, heq']
        · rw [hnone, List.nil_append] at hsplit
          simp only [Op.onMap, hnone, List.filter_nil, List.append_nil]
          rw [← hsplit]
      · refine ⟨.none, [], tb'.freeTerm q, t', ?_, hinv, ?_, hstack⟩
        · simp [Op.onTable, DbTableTree.dbEraseObjectTreeCommon, heq, heq']
        · simp only [Op.onMap]
          rw [List.filter_eq_nil_iff.2 fun o ho => by simp [hyes o ho], List.append_nil, hobjs]
  | take key =>
    have hsplit := h.split hroom key
    rcases linkoutTree_spec h hroom key with ⟨hnone, heq⟩ | ⟨q, o, tb', t', hone, heq, ho, hinv,
      hobjs, hstack, -⟩
    · refine ⟨.none, [], tb.resetStaticStack, t, ?_, h.resetStaticStack, ?_, rfl⟩
      · simp [Op.onTable, DbTableTree.dbTakeTreeCommon, heq]
      · rw [hnone, List.nil_append] at hsplit
        rw [Op.onMap, ← hsplit, hnone]
    · obtain ⟨n, hn', rfl⟩ := Option.map_eq_some_iff.1 ho
      refine ⟨.none, [n.dbterm], tb'.freeTerm q, t', ?_, hinv, ?_, hstack⟩
      · simp [Op.onTable, DbTableTree.dbTakeTreeCommon, heq, hn']
      · rw [Op.onMap, hobjs, hone]

/-- Operations one after the other, in memory: what they return, and the table in the end. -/
def runTable (T : Terms Key Obj) : DbTableTree Obj → List (Op Key Obj) →
    Option (List (DbError × List Obj) × DbTableTree Obj)
  | tb, [] => some ([], tb)
  | tb, op :: ops => do
    let (ret, out, tb) ← op.onTable T tb
    let (outs, tb) ← runTable T tb ops
    return ((ret, out) :: outs, tb)

/-- Operations one after the other, on an ordered map. -/
def runMap (T : Terms Key Obj) : List Obj → List (Op Key Obj) →
    List (DbError × List Obj) × List Obj
  | objs, [] => ([], objs)
  | objs, op :: ops =>
    let (ret, out, objs) := op.onMap T objs
    let (outs, objs) := runMap T objs ops
    ((ret, out) :: outs, objs)

/-- Each operation finds fewer than `2 ^ 61` objects, and its address is not in use. -/
def RunFits (T : Terms Key Obj) : DbTableTree Obj → List (Op Key Obj) → Prop
  | _, [] => True
  | tb, op :: ops => tb.nitems < 2 ^ 61 ∧ op.Fits T tb ∧
      match op.onTable T tb with
      | none => True
      | some (_, _, tb) => RunFits T tb ops

instance decidableRunFits (T : Terms Key Obj) : ∀ (tb : DbTableTree Obj)
    (ops : List (Op Key Obj)), Decidable (RunFits T tb ops)
  | _, [] => isTrue trivial
  | tb, op :: ops =>
    have : Decidable (match op.onTable T tb with
        | none => True
        | some (_, _, tb) => RunFits T tb ops) :=
      match op.onTable T tb with
      | none => isTrue trivial
      | some (_, _, tb) => decidableRunFits T tb ops
    inferInstanceAs (Decidable (_ ∧ _ ∧ _))

theorem run_spec (h : Inv T tb t) {ops : List (Op Key Obj)} (hfits : RunFits T tb ops) :
    ∃ outs tb' t', runTable T tb ops = some (outs, tb') ∧ Inv T tb' t' ∧
      runMap T (objects t) ops = (outs, objects t') := by
  induction ops generalizing tb t with
  | nil => exact ⟨[], tb, t, rfl, h, rfl⟩
  | cons op ops ih =>
    obtain ⟨hn, hop, hrest⟩ := hfits
    obtain ⟨ret, out, tb₁, t₁, heq, hout⟩ := step_spec h hn hop
    rw [heq] at hrest
    obtain ⟨outs, tb', t', hrun, hinv, hmap⟩ := ih hout.inv hrest
    refine ⟨(ret, out) :: outs, tb', t', ?_, hinv, ?_⟩
    · simp [runTable, heq, hrun]
    · simp [runMap, hout.onMap_eq, hmap]

/-- **An `ordered_set` is an AVL tree and an ordered map** after any operations. -/
theorem orderedSet_refines (T : Terms Key Obj) (ops : List (Op Key Obj))
    (hfits : RunFits T dbCreateTree ops) :
    ∃ outs tb t, runTable T dbCreateTree ops = some (outs, tb) ∧ Inv T tb t ∧
      runMap T [] ops = (outs, objects t) :=
  run_spec inv_dbCreateTree hfits

/-- Numbers as keys, pairs as objects; `0` is the end of the table. -/
def natTerms : Terms ℕ (ℕ × ℕ) where
  getkey := Prod.fst
  cmp a b := (a : ℤ) - b
  isSame a b := a == b
  dbEq o o' := o == o'
  isEot a := a == 0
  cmp_swap a b := by omega
  cmp_trans a b c hab hbc := by omega
  cmp_of_isSame a b h := by
    rw [beq_iff_eq.1 h]
    omega

/-- Three insertions with a rotation, a deletion of the root, and a failing insertion. -/
def someOps : List (Op ℕ (ℕ × ℕ)) :=
  [.put (1, 10) true 100, .put (2, 20) false 200, .putDbterm (3, 30) true 300, .take 2,
    .put (3, 31) true 200]

theorem someOps_refines : runMap natTerms [] someOps =
      ([(.none, []), (.none, []), (.none, []), (.none, [(2, 20)]), (.badkey, [])],
        [(1, 10), (3, 30)]) ∧
    ∃ outs tb t, runTable natTerms dbCreateTree someOps = some (outs, tb) ∧ Inv natTerms tb t ∧
      runMap natTerms [] someOps = (outs, objects t) :=
  ⟨by decide, orderedSet_refines natTerms someOps (by decide +kernel)⟩

end PonBeam.EtsTree
