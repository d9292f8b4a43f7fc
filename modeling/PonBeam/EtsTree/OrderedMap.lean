import PonBeam.EtsTree.Ops

/-!
# Ordered maps

What an `ordered_set` is for: a list of objects in ascending order of their keys, no two of
which are equal. The operations are defined on the list, without a tree.
-/

namespace PonBeam.EtsTree

variable {Key Obj : Type} (T : Terms Key Obj)

/-- The objects are in ascending order of their keys. -/
def Ascending (objs : List Obj) : Prop :=
  objs.Pairwise fun o o' => T.cmp (T.getkey o) (T.getkey o') < 0

/-- A key against that of an object. -/
def Terms.cut (key : Key) (o : Obj) : ℤ := T.cmp key (T.getkey o)

/-- The objects with a smaller key. -/
def smaller (key : Key) (objs : List Obj) : List Obj := objs.filter fun o => 0 < T.cut key o

/-- The objects with an equal key, of which there is at most one. -/
def equal (key : Key) (objs : List Obj) : List Obj := objs.filter fun o => T.cut key o = 0

/-- The objects with a greater key. -/
def greater (key : Key) (objs : List Obj) : List Obj := objs.filter fun o => T.cut key o < 0

/-- An update: for an insertion the address that the allocator gives its node, or to which it
moves the node that is replaced. -/
inductive Op (Key Obj : Type) : Type where
  /-- `db_put_tree_common` -/
  | put (obj : Obj) (keyClashFail : Bool) (newp : Addr)
  /-- `db_put_dbterm_tree_common` -/
  | putDbterm (obj : Obj) (keyClashFail : Bool) (newp : Addr)
  /-- `db_erase_tree_common` -/
  | erase (key : Key)
  /-- `db_erase_object_tree_common` -/
  | eraseObject (object : Obj)
  /-- `db_take_tree_common` -/
  | take (key : Key)

/-- An insertion. -/
def mapPut (objs : List Obj) (obj : Obj) (keyClashFail : Bool) : DbError × List Obj :=
  let key := T.getkey obj
  if keyClashFail ∧ equal T key objs ≠ [] then (.badkey, objs)
  else (.none, smaller T key objs ++ obj :: greater T key objs)

/-- What an update returns and leaves. -/
def Op.onMap (objs : List Obj) : Op Key Obj → DbError × List Obj × List Obj
  | put obj keyClashFail _ | putDbterm obj keyClashFail _ =>
    let (ret, objs) := mapPut T objs obj keyClashFail
    (ret, [], objs)
  | erase key => (.none, [], smaller T key objs ++ greater T key objs)
  | eraseObject object =>
    let key := T.getkey object
    (.none, [], smaller T key objs ++
      ((equal T key objs).filter fun o => !T.dbEq object o) ++ greater T key objs)
  | take key => (.none, equal T key objs, smaller T key objs ++ greater T key objs)

/-- What an update returns and leaves, in memory. -/
def Op.onTable (tb : DbTableTree Obj) :
    Op Key Obj → Option (DbError × List Obj × DbTableTree Obj)
  | put obj keyClashFail newp => do
    let (ret, tb) ← tb.dbPutTreeCommon T obj keyClashFail newp
    return (ret, [], tb)
  | putDbterm obj keyClashFail newp => do
    let (ret, tb) ← tb.dbPutDbtermTreeCommon T obj keyClashFail newp
    return (ret, [], tb)
  | erase key => do
    let tb ← tb.dbEraseTreeCommon T key
    return (.none, [], tb)
  | eraseObject object => do
    let tb ← tb.dbEraseObjectTreeCommon T object
    return (.none, [], tb)
  | take key => do
    let (ret, tb) ← tb.dbTakeTreeCommon T key
    return (.none, ret, tb)

namespace Terms

variable {T}

theorem cmp_nonneg_iff {a b : Key} : 0 ≤ T.cmp a b ↔ T.cmp b a ≤ 0 := by
  have := T.cmp_swap a b
  omega

theorem cmp_self (a : Key) : T.cmp a a = 0 := by
  have := T.cmp_swap a a
  omega

theorem cmp_lt_of_le_of_lt {a b c : Key} (hab : T.cmp a b ≤ 0) (hbc : T.cmp b c < 0) :
    T.cmp a c < 0 := by
  by_contra hac
  have hca := cmp_nonneg_iff.1 (not_lt.1 hac)
  have hcb := T.cmp_trans c a b hca hab
  have := (T.cmp_swap b c).1 hbc
  omega

theorem cmp_lt_of_lt_of_le {a b c : Key} (hab : T.cmp a b < 0) (hbc : T.cmp b c ≤ 0) :
    T.cmp a c < 0 := by
  by_contra hac
  have hca := cmp_nonneg_iff.1 (not_lt.1 hac)
  have hba := T.cmp_trans b c a hbc hca
  have := (T.cmp_swap a b).1 hab
  omega

end Terms

variable {T} in
theorem mem_equal {key : Key} {objs : List Obj} {o : Obj} :
    o ∈ equal T key objs ↔ o ∈ objs ∧ T.cut key o = 0 := by
  simp [equal]

/-! ## Around a key -/

/-- The objects before, at and after a key. -/
structure SplitAt (key : Key) (objs as ms bs : List Obj) : Prop where
  eq : objs = as ++ (ms ++ bs)
  before : ∀ o ∈ as, 0 < T.cut key o
  at_key : ∀ o ∈ ms, T.cut key o = 0
  after : ∀ o ∈ bs, T.cut key o < 0

variable {T} {key : Key} {objs as ms bs : List Obj}

namespace SplitAt

theorem smaller_eq (h : SplitAt T key objs as ms bs) : smaller T key objs = as := by
  have hms : ms.filter (fun o => decide (0 < T.cut key o)) = [] :=
    List.filter_eq_nil_iff.2 fun o ho => by simp [h.at_key o ho]
  have hbs : bs.filter (fun o => decide (0 < T.cut key o)) = [] :=
    List.filter_eq_nil_iff.2 fun o ho => by
      have := h.after o ho
      simp
      omega
  rw [smaller, h.eq, List.filter_append, List.filter_append, hms, hbs,
    List.filter_eq_self.2 fun o ho => decide_eq_true (h.before o ho)]
  simp

theorem equal_eq (h : SplitAt T key objs as ms bs) : equal T key objs = ms := by
  have has : as.filter (fun o => decide (T.cut key o = 0)) = [] :=
    List.filter_eq_nil_iff.2 fun o ho => by
      have := h.before o ho
      simp
      omega
  have hbs : bs.filter (fun o => decide (T.cut key o = 0)) = [] :=
    List.filter_eq_nil_iff.2 fun o ho => by
      have := h.after o ho
      simp
      omega
  rw [equal, h.eq, List.filter_append, List.filter_append, has, hbs,
    List.filter_eq_self.2 fun o ho => decide_eq_true (h.at_key o ho)]
  simp

theorem greater_eq (h : SplitAt T key objs as ms bs) : greater T key objs = bs := by
  have has : as.filter (fun o => decide (T.cut key o < 0)) = [] :=
    List.filter_eq_nil_iff.2 fun o ho => by
      have := h.before o ho
      simp
      omega
  have hms : ms.filter (fun o => decide (T.cut key o < 0)) = [] :=
    List.filter_eq_nil_iff.2 fun o ho => by simp [h.at_key o ho]
  rw [greater, h.eq, List.filter_append, List.filter_append, has, hms,
    List.filter_eq_self.2 fun o ho => decide_eq_true (h.after o ho)]
  simp

/-- The map after an insertion. -/
theorem ascending_put {obj : Obj} (h : SplitAt T (T.getkey obj) objs as ms bs)
    (hasc : Ascending T objs) : Ascending T (as ++ obj :: bs) := by
  rw [h.eq] at hasc
  obtain ⟨has, hrest, hcross⟩ := List.pairwise_append.1 hasc
  refine List.pairwise_append.2 ⟨has, List.pairwise_cons.2 ⟨h.after, ?_⟩, fun a ha b hb => ?_⟩
  · exact (List.pairwise_append.1 hrest).2.1
  · rcases List.mem_cons.1 hb with rfl | hb
    · exact (T.cmp_swap _ _).2 (h.before a ha)
    · exact hcross a ha b (List.mem_append_right _ hb)

/-- The map after a deletion. -/
theorem ascending_erase (h : SplitAt T key objs as ms bs) (hasc : Ascending T objs) :
    Ascending T (as ++ bs) := by
  rw [h.eq] at hasc
  exact hasc.sublist (List.Sublist.append_left (List.sublist_append_right ..) _)

end SplitAt

end PonBeam.EtsTree
