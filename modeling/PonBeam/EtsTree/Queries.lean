import PonBeam.EtsTree.Cursor

/-!
# Queries on an ordered table

What the queries return is a function of the objects in the order of their keys: the static
stack, which all of them share and on which each leaves where it has come to, does not show.
-/

namespace PonBeam.EtsTree

variable {Key Obj : Type} {T : Terms Key Obj} {tb : DbTableTree Obj} {d : Side}
  {t : BinaryTree (Cell Obj)} {array : List Addr} {xs ys : List (Cell Obj)} {c : Cell Obj}
  {key : Key}

/-! ## Queries of an ordered map -/

/-- What a query copies from the object that it finds. -/
inductive Copy : Type where
  /-- `db_copy_key_tree` -/
  | key
  /-- `db_copy_key_and_object_tree` -/
  | keyAndObject
  deriving DecidableEq

/-- The copy of a node. -/
def Copy.func (T : Terms Key Obj) : Copy → TreeDbTerm Obj → Answer Key Obj
  | .key => dbCopyKeyTree T
  | .keyAndObject => dbCopyKeyAndObjectTree T

/-- The copy of an object, if there is one. -/
def Copy.ofObj (T : Terms Key Obj) : Copy → Option Obj → Answer Key Obj
  | _, none => .endOfTable
  | .key, some o => .key (T.getkey o)
  | .keyAndObject, some o => .keyAndObject (T.getkey o) o

/-- A query. -/
inductive Query (Key : Type) : Type where
  /-- `db_first_tree`, `db_first_lookup_tree` -/
  | first (copy : Copy)
  /-- `db_last_tree`, `db_last_lookup_tree` -/
  | last (copy : Copy)
  /-- `db_next_tree`, `db_next_lookup_tree` -/
  | next (key : Key) (copy : Copy)
  /-- `db_prev_tree`, `db_prev_lookup_tree` -/
  | prev (key : Key) (copy : Copy)
  /-- `db_slot_tree` -/
  | slot (n : ℤ)
  /-- `db_get_tree` -/
  | lookup (key : Key)

/-- The objects with `n` smaller keys. -/
def withSmaller (T : Terms Key Obj) (n : ℕ) (objs : List Obj) : List Obj :=
  objs.filter fun o => (smaller T (T.getkey o) objs).length = n

/-- What a query returns, computed on the objects in ascending order. -/
def Query.onMap (T : Terms Key Obj) (objs : List Obj) : Query Key → DbError × Answer Key Obj
  | first copy => (.none, copy.ofObj T objs.head?)
  | last copy => (.none, copy.ofObj T objs.getLast?)
  | next key copy => (.none, copy.ofObj T (greater T key objs).head?)
  | prev key copy => (.none, copy.ofObj T (smaller T key objs).getLast?)
  | slot n =>
    if n < 0 ∨ (objs.length : ℤ) < n then (.badparam, .none)
    else if n = objs.length then (.none, .endOfTable)
    else (.none, .objects (withSmaller T n.toNat objs))
  | lookup key => (.none, .objects (equal T key objs))

/-- The query asks for a neighbour of `$end_of_table`. -/
def Query.atEnd (T : Terms Key Obj) : Query Key → Bool
  | next key _ | prev key _ => T.isEot key
  | _ => false

/-- What a query returns: a neighbour of `$end_of_table` is refused. -/
def Query.result (T : Terms Key Obj) (objs : List Obj) (q : Query Key) :
    DbError × Answer Key Obj :=
  if q.atEnd T then (.badkey, .none) else q.onMap T objs

/-- What a query returns and leaves, in memory. -/
def Query.onTable (T : Terms Key Obj) (tb : DbTableTree Obj) :
    Query Key → Option (DbError × Answer Key Obj × DbTableTree Obj)
  | first copy => tb.dbFirstTreeCommon (copy.func T)
  | last copy => tb.dbLastTreeCommon (copy.func T)
  | next key copy => tb.dbNextTreeCommon T key (copy.func T)
  | prev key copy => tb.dbPrevTreeCommon T key (copy.func T)
  | slot n => tb.dbSlotTreeCommon n
  | lookup key => tb.dbGetTreeCommon T key

/-- The smaller objects are those that stand before. -/
theorem smaller_getkey {as bs : List Obj} {o : Obj} (h : Ascending T (as ++ o :: bs)) :
    smaller T (T.getkey o) (as ++ o :: bs) = as := by
  obtain ⟨-, hright, hcross⟩ := List.pairwise_append.1 h
  have hsplit : SplitAt T (T.getkey o) (as ++ o :: bs) as [o] bs := by
    refine ⟨rfl, fun a ha => ?_, fun a ha => ?_, fun b hb => ?_⟩
    · exact (T.cmp_swap _ _).1 (hcross a ha o List.mem_cons_self)
    · rw [List.mem_singleton.1 ha]
      exact Terms.cmp_self _
    · exact (List.pairwise_cons.1 hright).1 b hb
  exact hsplit.smaller_eq

/-- **One object has `n` smaller keys**, the one at position `n`. -/
theorem withSmaller_eq {as bs : List Obj} {o : Obj} (h : Ascending T (as ++ o :: bs)) :
    withSmaller T as.length (as ++ o :: bs) = [o] := by
  have hsplit : ∀ as' o' bs', as ++ o :: bs = as' ++ o' :: bs' → as'.length ≠ as.length →
      ¬ decide ((smaller T (T.getkey o') (as ++ o :: bs)).length = as.length) = true := by
    intro as' o' bs' heq hne
    rw [heq, smaller_getkey (heq ▸ h), decide_eq_true_eq]
    exact hne
  rw [withSmaller, List.filter_append, List.filter_cons_of_pos (by simp [smaller_getkey h])]
  have has : as.filter (fun o' =>
      decide ((smaller T (T.getkey o') (as ++ o :: bs)).length = as.length)) = [] := by
    refine List.filter_eq_nil_iff.2 fun o' ho' => ?_
    obtain ⟨as₁, as₂, rfl⟩ := List.append_of_mem ho'
    refine hsplit as₁ o' (as₂ ++ o :: bs) (by simp) ?_
    rw [List.length_append, List.length_cons]
    omega
  have hbs : bs.filter (fun o' =>
      decide ((smaller T (T.getkey o') (as ++ o :: bs)).length = as.length)) = [] := by
    refine List.filter_eq_nil_iff.2 fun o' ho' => ?_
    obtain ⟨bs₁, bs₂, rfl⟩ := List.append_of_mem ho'
    refine hsplit (as ++ o :: bs₁) o' bs₂ (by simp) ?_
    rw [List.length_append, List.length_cons]
    omega
  rw [has, hbs, List.nil_append]

/-! ## The objects around a node -/

/-- The objects of some nodes. -/
def objsOf (cs : List (Cell Obj)) : List Obj := cs.map fun c => c.item.2

theorem objects_eq (t : BinaryTree (Cell Obj)) : objects t = objsOf (inorder t) := by
  rw [objects, items, List.map_map]
  rfl

theorem length_objects (t : BinaryTree (Cell Obj)) : (objects t).length = t.numNodes := by
  rw [objects_eq, objsOf, List.length_map, length_inorder]

theorem head_objsOf (cs : List (Cell Obj)) :
    (objsOf cs).head? = cs.head?.map fun c => c.item.2 :=
  List.head?_map

/-- The objects beyond a key. -/
theorem objsOf_beyond (d : Side) (key : Key) (t : BinaryTree (Cell Obj)) :
    objsOf (beyond T d key t) = match d with
      | .right => greater T key (objects t)
      | .left => (smaller T key (objects t)).reverse := by
  cases d with
  | right =>
    rw [objsOf, beyond, greater, objects_eq, objsOf, List.filter_map]
    congr 1
    refine List.filter_congr fun c _ => ?_
    simp [cutFrom, Side.sgn, cutCell]
  | left =>
    rw [objsOf, beyond, smaller, objects_eq, objsOf, List.filter_map, ← List.map_reverse,
      ← List.filter_reverse]
    congr 1
    refine List.filter_congr fun c _ => ?_
    simp [cutFrom, Side.sgn, cutCell]

namespace Points

/-- The objects before, at and after the node, if it has the key. -/
theorem splitAt (hp : Points .right t array xs c ys) (hasc : Ascending T (objects t))
    (hcut : cutCell T key c = 0) :
    SplitAt T key (objects t) (objsOf xs.reverse) [c.item.2] (objsOf ys) := by
  have hzero : cutFrom T .right key c = 0 := cutFrom_eq_zero.2 hcut
  obtain ⟨hafter, hbefore⟩ := hp.around (hasc.cutBy key)
  refine ⟨?_, fun o ho => ?_, fun o ho => ?_, fun o ho => ?_⟩
  · have hlist : inorder t = xs.reverse ++ c :: ys := hp.listing_eq
    rw [objects_eq, hlist, objsOf, List.map_append]
    rfl
  · obtain ⟨b, hb, rfl⟩ := List.mem_map.1 ho
    have := hbefore hzero.ge b (List.mem_reverse.1 hb)
    rwa [cutFrom, Side.sgn, one_mul] at this
  · rw [List.mem_singleton.1 ho]
    exact hcut
  · obtain ⟨b, hb, rfl⟩ := List.mem_map.1 ho
    have := hafter hzero.le b hb
    rwa [cutFrom, Side.sgn, one_mul] at this

/-- As many objects have smaller keys as nodes are before it. -/
theorem withSmaller_eq (hp : Points .right t array xs c ys) (hasc : Ascending T (objects t)) :
    withSmaller T xs.length (objects t) = [c.item.2] := by
  have heq : objects t = objsOf xs.reverse ++ c.item.2 :: objsOf ys := by
    have hlist : inorder t = xs.reverse ++ c :: ys := hp.listing_eq
    rw [objects_eq, hlist, objsOf, List.map_append]
    rfl
  have hlen : (objsOf xs.reverse).length = xs.length := by
    rw [objsOf, List.length_map, List.length_reverse]
  rw [heq] at hasc ⊢
  rw [← hlen]
  exact EtsTree.withSmaller_eq hasc

end Points

/-- The nodes of the tree are in memory. -/
theorem Linked.node_of_mem (h : Linked tb [] t) (hc : c ∈ inorder t) :
    ∃ n, tb.heap c.item.1 = some n ∧ n.dbterm = c.item.2 := by
  have hsub := h.sub
  clear h
  induction t with
  | nil => exact absurd hc List.not_mem_nil
  | node b l r ihl ihr =>
    obtain ⟨hnode, hl, hr⟩ := hsub
    rw [inorder_node, List.mem_append, List.mem_cons] at hc
    rcases hc with hc | rfl | hc
    · exact ihl hc hl
    · exact ⟨_, hnode, nodeOf_dbterm⟩
    · exact ihr hc hr

theorem Copy.func_eq (copy : Copy) {n : TreeDbTerm Obj} (hn : n.dbterm = c.item.2) :
    copy.func T n = copy.ofObj T (some c.item.2) := by
  cases copy <;> rw [← hn] <;> rfl

/-! ## Queries in memory -/

/-- **What a query does**: it answers as the ordered map does, and leaves a cursor. -/
structure Answers (T : Terms Key Obj) (tb : DbTableTree Obj) (t : BinaryTree (Cell Obj))
    (r : Option (DbError × Answer Key Obj × DbTableTree Obj)) (answer : DbError × Answer Key Obj) :
    Prop where
  run : ∃ stack, r = some (answer.1, answer.2, tb.setStaticStack stack) ∧ Cursor t stack

/-- The extreme node on a side. -/
theorem dbEnd_answers (d : Side) (slot : ℕ) (copy : Copy) (h : Inv T tb t)
    (hroom : t.height ≤ stackNeed) (hc : Cursor t tb.staticStack)
    (hslot : ∀ xs, xs.length + 1 = t.numNodes → number d xs ([] : List (Cell Obj)) = slot) :
    Answers T tb t (tb.dbEndTreeCommon d slot (copy.func T))
      (.none, copy.ofObj T ((listing d t).getLast?.map fun c => c.item.2)) := by
  by_cases ht : t = .nil
  · subst ht
    have hroot : tb.root = none := h.linked.path
    refine ⟨tb.staticStack, ?_, hc⟩
    rw [DbTableTree.dbEndTreeCommon, hroot, listing_nil]
    cases copy <;> rfl
  · obtain ⟨root, b, array, xs, hroot, hspine, hp⟩ := pushSpine_end h.linked hroom ht
    obtain ⟨n, hn, hterm⟩ := hp.node h.linked
    have hlast : (listing d t).getLast? = some b := by
      rw [hp.listing_eq, List.getLast?_concat]
    have hlen : xs.length + 1 = t.numNodes := hp.length_eq
    refine ⟨⟨array, slot⟩, ?_, .of_points hp (Or.inr (hslot xs hlen).symm)⟩
    rw [DbTableTree.dbEndTreeCommon, hroot, hlast]
    simp only [hspine, hn, Option.bind_eq_bind, Option.bind_some, copy.func_eq hterm]
    rfl

/-- The neighbour of a key. -/
theorem dbNeighbour_answers (d : Side) (copy : Copy) (h : Inv T tb t)
    (hroom : t.height ≤ stackNeed) (hc : Cursor t tb.staticStack) (hkey : T.isEot key = false) :
    Answers T tb t (tb.dbNeighbourTreeCommon T d key (copy.func T))
      (.none, copy.ofObj T (objsOf (beyond T d key t)).head?) := by
  obtain ⟨stack, hrun, hc'⟩ := @findNeighbour_spec _ _ T _ d _ _ key h.linked h.ascending hroom hc
  refine ⟨stack, ?_, hc'⟩
  rw [DbTableTree.dbNeighbourTreeCommon, hkey, if_neg Bool.false_ne_true, hrun, head_objsOf]
  cases hb : beyond T d key t with
  | nil => cases copy <;> rfl
  | cons b bs =>
    have hmem : b ∈ listing d t := by
      have : b ∈ beyond T d key t := hb ▸ List.mem_cons_self
      exact (List.mem_filter.1 this).1
    have hin : b ∈ inorder t := by
      cases d
      · exact List.mem_reverse.1 hmem
      · exact hmem
    obtain ⟨n, hn, hterm⟩ := h.linked.node_of_mem hin
    simp only [addr?, List.head?_cons, Option.map_some, hn, Option.bind_eq_bind,
      Option.bind_some, copy.func_eq hterm]
    rfl

/-- A slot. -/
theorem dbSlot_answers (h : Inv T tb t) (hroom : t.height ≤ stackNeed)
    (hc : Cursor t tb.staticStack) (n : ℤ) :
    Answers T tb t (tb.dbSlotTreeCommon n) ((Query.slot n).onMap T (objects t)) := by
  have hlen : ((objects t).length : ℤ) = tb.nitems := by
    rw [length_objects, h.nitems_eq]
  simp only [DbTableTree.dbSlotTreeCommon, Query.onMap, hlen]
  by_cases hout : n < 0 ∨ (tb.nitems : ℤ) < n
  · rw [if_pos hout, if_pos hout]
    exact ⟨tb.staticStack, rfl, hc⟩
  · rw [if_neg hout, if_neg hout]
    by_cases hend : n = tb.nitems
    · rw [if_pos hend, if_pos hend]
      exact ⟨tb.staticStack, rfl, hc⟩
    · rw [if_neg hend, if_neg hend]
      have hslot : 1 ≤ n.toNat + 1 ∧ n.toNat + 1 ≤ t.numNodes := by
        rw [← h.nitems_eq]
        omega
      obtain ⟨array, xs, b, ys, hrun, hp, hnum⟩ := slotSearch_spec h hroom hslot hc
      obtain ⟨m, hm, hterm⟩ := hp.node h.linked
      refine ⟨⟨array, xs.length + 1⟩, ?_, .of_points hp (Or.inr rfl)⟩
      have hxs : n.toNat = xs.length := (Nat.succ.inj hnum).symm
      rw [hrun, hxs, hp.withSmaller_eq h.ascending]
      simp only [hm, hterm, Option.bind_eq_bind, Option.bind_some]
      rfl

/-- The walk to a key, with a bound on its length. -/
theorem findLoop_eq {fs : List (Frame (Cell Obj))} {sub : BinaryTree (Cell Obj)} {turns : ℕ}
    (h : Linked tb fs sub) (hturns : sub.height ≤ turns) :
    tb.findLoop T key turns (ptr sub) = some (ptr (descend (cutCell T key) fs sub).2) := by
  induction sub generalizing fs turns with
  | nil =>
    rw [ptr_nil, DbTableTree.findLoop]
    rfl
  | node c l r ihl ihr =>
    rw [BinaryTree.height] at hturns
    have hpos : 0 < turns := Nat.lt_of_lt_of_le (Nat.succ_pos _) hturns
    obtain ⟨turns, rfl⟩ := Nat.exists_eq_succ_of_ne_zero hpos.ne'
    have hnode : tb.heap c.item.1 = some (nodeOf .left c (ptr l) (ptr r)) := h.sub.1
    have hcut : T.cmpKey key (nodeOf .left c (ptr l) (ptr r)) = cutCell T key c := rfl
    have hleft : Linked tb (⟨.left, c, r⟩ :: fs) l := Linked.attach_iff.2 h
    have hright : Linked tb (⟨.right, c, l⟩ :: fs) r := Linked.attach_iff.2 h
    rw [ptr_node, DbTableTree.findLoop, hnode, descend]
    simp only [Option.bind_eq_bind, Option.bind_some, hcut]
    rcases lt_trichotomy (cutCell T key c) 0 with hneg | hzero | hpos
    · rw [if_neg hneg.ne, if_pos hneg, if_pos hneg]
      exact ihl hleft (by omega)
    · rw [if_pos hzero, if_neg (hzero ▸ lt_irrefl _), if_neg (hzero ▸ lt_irrefl _)]
      rfl
    · rw [if_neg hpos.ne', if_neg hpos.not_gt, if_neg hpos.not_gt, if_pos hpos]
      exact ihr hright (by omega)

/-- **The node with a key**, from any cursor. -/
theorem findNode_spec {stack : DbTreeStack} (h : Inv T tb t) (hroom : t.height ≤ stackNeed)
    (hc : Cursor t stack) :
    (equal T key (objects t) = [] ∧ tb.findNode T key stack = some none) ∨
    ∃ a n, equal T key (objects t) = [n.dbterm] ∧ tb.findNode T key stack = some (some a) ∧
      tb.heap a = some n := by
  have hloop : (equal T key (objects t) = [] ∧ tb.findLoop T key tb.nitems tb.root = some none) ∨
      ∃ a n, equal T key (objects t) = [n.dbterm] ∧
        tb.findLoop T key tb.nitems tb.root = some (some a) ∧ tb.heap a = some n := by
    have hroot : tb.root = ptr t := h.linked.path
    have hturns : t.height ≤ tb.nitems := h.nitems_eq ▸ t.height_le_numNodes
    have hf := h.found hroom key
    rw [hroot, findLoop_eq h.linked hturns]
    cases hsub : (descend (cutCell T key) [] t).2 with
    | nil =>
      rw [hsub] at hf
      exact Or.inl ⟨hf.splitAt_nil.equal_eq, rfl⟩
    | node c l r =>
      rw [hsub] at hf
      exact Or.inr ⟨_, _, (hf.splitAt_node h.ascending).equal_eq, rfl, hf.linked.sub.1⟩
  rcases hc.cases_dir .right with rfl | ⟨array, xs, c, ys, slot, rfl, hp, -⟩
  · exact hloop
  · obtain ⟨rest, rfl⟩ := hp.top
    obtain ⟨n, hn, hterm⟩ := hp.node h.linked
    rw [DbTableTree.findNode]
    simp only [hn, Option.bind_eq_bind, Option.bind_some]
    cases heq : T.cmpKeyEq key n with
    | false =>
      rw [if_neg Bool.false_ne_true]
      exact hloop
    | true =>
      have hcut : cutCell T key c = 0 := by
        rw [cutCell, ← hterm]
        exact cmpKeyEq_iff.1 heq
      refine Or.inr ⟨_, n, ?_, rfl, hn⟩
      rw [(hp.splitAt h.ascending hcut).equal_eq, hterm]

/-- A lookup. -/
theorem dbGet_answers (h : Inv T tb t) (hroom : t.height ≤ stackNeed)
    (hc : Cursor t tb.staticStack) :
    Answers T tb t (tb.dbGetTreeCommon T key) (.none, .objects (equal T key (objects t))) := by
  refine ⟨tb.staticStack, ?_, hc⟩
  rw [DbTableTree.dbGetTreeCommon]
  have hfound := @findNode_spec _ _ T _ _ key _ h hroom hc
  rcases hfound with ⟨heq, hrun⟩ | ⟨a, n, heq, hrun, hn⟩
  · rw [heq, hrun]
    rfl
  · simp only [heq, hrun, hn, Option.bind_eq_bind, Option.bind_some]
    rfl

/-- **Every query** answers as the ordered map does. -/
theorem query_answers (h : Inv T tb t) (hroom : t.height ≤ stackNeed)
    (hc : Cursor t tb.staticStack) (q : Query Key) :
    Answers T tb t (q.onTable T tb) (q.result T (objects t)) := by
  rw [Query.result]
  cases q with
  | first copy =>
    have hend := dbEnd_answers .left 1 copy h hroom hc fun _ _ => rfl
    rw [listing, List.getLast?_reverse, ← head_objsOf, ← objects_eq] at hend
    exact hend
  | last copy =>
    have hend := dbEnd_answers .right tb.nitems copy h hroom hc
      fun xs hxs => hxs.trans h.nitems_eq.symm
    rw [listing, ← List.getLast?_map] at hend
    rw [Query.onMap, objects_eq]
    exact hend
  | next key copy =>
    rw [Query.atEnd, Query.onTable, DbTableTree.dbNextTreeCommon]
    cases hkey : T.isEot key with
    | true =>
      rw [DbTableTree.dbNeighbourTreeCommon, hkey, if_pos rfl, if_pos rfl]
      exact ⟨tb.staticStack, rfl, hc⟩
    | false =>
      have hans := dbNeighbour_answers .right copy h hroom hc hkey
      rw [objsOf_beyond] at hans
      exact hans
  | prev key copy =>
    rw [Query.atEnd, Query.onTable, DbTableTree.dbPrevTreeCommon]
    cases hkey : T.isEot key with
    | true =>
      rw [DbTableTree.dbNeighbourTreeCommon, hkey, if_pos rfl, if_pos rfl]
      exact ⟨tb.staticStack, rfl, hc⟩
    | false =>
      have hans := dbNeighbour_answers .left copy h hroom hc hkey
      rw [objsOf_beyond] at hans
      simp only [List.head?_reverse] at hans
      exact hans
  | slot n => exact dbSlot_answers h hroom hc n
  | lookup key => exact dbGet_answers h hroom hc

/-! ## Runs -/

/-- An update or a query. -/
inductive Call (Key Obj : Type) : Type where
  /-- an update -/
  | update (op : Op Key Obj)
  /-- a query -/
  | query (q : Query Key)

/-- What a call returns. -/
inductive Reply (Key Obj : Type) : Type where
  /-- from an update -/
  | updated (ret : DbError) (out : List Obj)
  /-- from a query -/
  | answered (ret : DbError) (answer : Answer Key Obj)
  deriving DecidableEq

/-- A call in memory. -/
def Call.onTable (T : Terms Key Obj) (tb : DbTableTree Obj) :
    Call Key Obj → Option (Reply Key Obj × DbTableTree Obj)
  | update op => do
    let (ret, out, tb) ← op.onTable T tb
    return (.updated ret out, tb)
  | query q => do
    let (ret, answer, tb) ← q.onTable T tb
    return (.answered ret answer, tb)

/-- A call on an ordered map, where queries are answered by a function of the objects. -/
def Call.onMap (T : Terms Key Obj) (answer : List Obj → Query Key → DbError × Answer Key Obj)
    (objs : List Obj) : Call Key Obj → Reply Key Obj × List Obj
  | update op =>
    let (ret, out, objs) := op.onMap T objs
    (.updated ret out, objs)
  | query q =>
    let (ret, ans) := answer objs q
    (.answered ret ans, objs)

/-- Calls one after the other, in memory. -/
def runCalls (T : Terms Key Obj) : DbTableTree Obj → List (Call Key Obj) →
    Option (List (Reply Key Obj) × DbTableTree Obj)
  | tb, [] => some ([], tb)
  | tb, call :: calls => do
    let (reply, tb) ← call.onTable T tb
    let (replies, tb) ← runCalls T tb calls
    return (reply :: replies, tb)

/-- Calls one after the other, on an ordered map. -/
def mapCalls (T : Terms Key Obj) (answer : List Obj → Query Key → DbError × Answer Key Obj) :
    List Obj → List (Call Key Obj) → List (Reply Key Obj) × List Obj
  | objs, [] => ([], objs)
  | objs, call :: calls =>
    let (reply, objs) := call.onMap T answer objs
    let (replies, objs) := mapCalls T answer objs calls
    (reply :: replies, objs)

/-- The address of an insertion is not in use. -/
def Call.Fits (T : Terms Key Obj) (tb : DbTableTree Obj) : Call Key Obj → Prop
  | update op => op.Fits T tb
  | query _ => True

instance (T : Terms Key Obj) (tb : DbTableTree Obj) :
    ∀ call : Call Key Obj, Decidable (call.Fits T tb)
  | .update op => inferInstanceAs (Decidable (op.Fits T tb))
  | .query _ => isTrue trivial

/-- Each call finds fewer than `2 ^ 61` objects, and its address is not in use. -/
def CallsFit (T : Terms Key Obj) : DbTableTree Obj → List (Call Key Obj) → Prop
  | _, [] => True
  | tb, call :: calls => tb.nitems < 2 ^ 61 ∧ call.Fits T tb ∧
      match call.onTable T tb with
      | none => True
      | some (_, tb) => CallsFit T tb calls

instance decidableCallsFit (T : Terms Key Obj) : ∀ (tb : DbTableTree Obj)
    (calls : List (Call Key Obj)), Decidable (CallsFit T tb calls)
  | _, [] => isTrue trivial
  | tb, call :: calls =>
    have : Decidable (match call.onTable T tb with
        | none => True
        | some (_, tb) => CallsFit T tb calls) :=
      match call.onTable T tb with
      | none => isTrue trivial
      | some (_, tb) => decidableCallsFit T tb calls
    inferInstanceAs (Decidable (_ ∧ _ ∧ _))

theorem Inv.setStaticStack (h : Inv T tb t) (stack : DbTreeStack) :
    Inv T (tb.setStaticStack stack) t :=
  ⟨h.linked.congr rfl fun _ _ => rfl, h.avl, h.ascending, h.nitems_eq, h.live⟩

/-- **Each call** does what it does on the ordered map, and leaves a cursor. -/
theorem call_spec (h : Inv T tb t) (hc : Cursor t tb.staticStack) (hn : tb.nitems < 2 ^ 61)
    {call : Call Key Obj} (hfits : call.Fits T tb) :
    ∃ reply tb' t', call.onTable T tb = some (reply, tb') ∧ Inv T tb' t' ∧
      Cursor t' tb'.staticStack ∧
      call.onMap T (Query.result T) (objects t) = (reply, objects t') := by
  cases call with
  | update op =>
    obtain ⟨ret, out, tb', t', hrun, hout⟩ := step_spec h hn hfits
    refine ⟨.updated ret out, tb', t', ?_, hout.inv, ?_, ?_⟩
    · rw [Call.onTable, hrun]
      rfl
    · rw [hout.staticStack]
      exact .empty
    · rw [Call.onMap, hout.onMap_eq]
  | query q =>
    have hroom : t.height ≤ stackNeed := (Avl.height_lt h.avl (h.nitems_eq ▸ hn)).le
    obtain ⟨stack, hrun, hc'⟩ := (query_answers h hroom hc q).run
    refine ⟨_, tb.setStaticStack stack, t, ?_, h.setStaticStack stack, hc', rfl⟩
    rw [Call.onTable, hrun]
    rfl

theorem calls_spec {calls : List (Call Key Obj)} (h : Inv T tb t) (hc : Cursor t tb.staticStack)
    (hfits : CallsFit T tb calls) :
    ∃ replies tb' t', runCalls T tb calls = some (replies, tb') ∧ Inv T tb' t' ∧
      Cursor t' tb'.staticStack ∧
      mapCalls T (Query.result T) (objects t) calls = (replies, objects t') := by
  induction calls generalizing tb t with
  | nil => exact ⟨[], tb, t, rfl, h, hc, rfl⟩
  | cons call calls ih =>
    obtain ⟨hn, hcall, hrest⟩ := hfits
    obtain ⟨reply, tb₁, t₁, hrun, h₁, hc₁, hmap⟩ := call_spec h hc hn hcall
    rw [hrun] at hrest
    obtain ⟨replies, tb', t', hruns, h', hc', hmaps⟩ := ih h₁ hc₁ hrest
    refine ⟨reply :: replies, tb', t', ?_, h', hc', ?_⟩
    · rw [runCalls, hrun]
      simp only [Option.bind_eq_bind, Option.bind_some, hruns]
      rfl
    · rw [mapCalls, hmap]
      simp only [hmaps]

/-- **Navigation does not depend on the static stack.** Whatever updates and queries there are
from the empty table on, what they return is computed from the objects in ascending order. -/
theorem navigation_refines (T : Terms Key Obj) (calls : List (Call Key Obj))
    (hfits : CallsFit T dbCreateTree calls) :
    ∃ replies tb t, runCalls T dbCreateTree calls = some (replies, tb) ∧ Inv T tb t ∧
      Cursor t tb.staticStack ∧
      mapCalls T (Query.result T) [] calls = (replies, objects t) :=
  calls_spec inv_dbCreateTree .empty hfits

/-- Queries in both directions between insertions and a deletion. -/
def someCalls : List (Call ℕ (ℕ × ℕ)) :=
  [.update (.put (2, 20) true 100), .update (.put (5, 50) true 200), .query (.first .key),
    .query (.next 2 .keyAndObject), .query (.slot 0), .update (.put (7, 70) true 300),
    .query (.slot 2), .query (.prev 7 .key), .query (.prev 6 .key), .update (.take 5),
    .query (.next 2 .key), .query (.next 7 .key), .query (.lookup 2), .query (.last .key),
    .query (.slot 2), .query (.slot 3), .query (.next 0 .key)]

theorem someCalls_refine : mapCalls natTerms (Query.result natTerms) [] someCalls =
      ([.updated .none [], .updated .none [], .answered .none (.key 2),
        .answered .none (.keyAndObject 5 (5, 50)), .answered .none (.objects [(2, 20)]),
        .updated .none [], .answered .none (.objects [(7, 70)]), .answered .none (.key 5),
        .answered .none (.key 5), .updated .none [(5, 50)], .answered .none (.key 7),
        .answered .none .endOfTable, .answered .none (.objects [(2, 20)]),
        .answered .none (.key 7), .answered .none .endOfTable, .answered .badparam .none,
        .answered .badkey .none],
        [(2, 20), (7, 70)]) ∧
    ∃ replies tb t, runCalls natTerms dbCreateTree someCalls = some (replies, tb) ∧
      Inv natTerms tb t ∧ Cursor t tb.staticStack ∧
      mapCalls natTerms (Query.result natTerms) [] someCalls = (replies, objects t) :=
  ⟨by decide, navigation_refines natTerms someCalls (by decide +kernel)⟩

/-- The neighbours of `$end_of_table` are not computed from the objects: the key 1 is greater,
but the query is refused. -/
theorem next_endOfTable_refused :
    ¬ ∀ calls, CallsFit natTerms dbCreateTree calls →
      ∃ replies tb t, runCalls natTerms dbCreateTree calls = some (replies, tb) ∧
        Inv natTerms tb t ∧
        mapCalls natTerms (Query.onMap natTerms) [] calls = (replies, objects t) := by
  intro h
  obtain ⟨replies, tb, t, hrun, -, hmap⟩ :=
    h [.update (.put (1, 10) true 100), .query (.next 0 .key)] (by decide +kernel)
  have hreplies : replies = [.updated .none [], .answered .badkey .none] := by
    have hreturned : (runCalls natTerms dbCreateTree
        [.update (.put (1, 10) true 100), .query (.next 0 .key)]).map Prod.fst =
          some [.updated .none [], .answered .badkey .none] := by
      decide +kernel
    rw [hrun] at hreturned
    exact Option.some.inj hreturned
  have hcomputed : (mapCalls natTerms (Query.onMap natTerms) []
      [.update (.put (1, 10) true 100), .query (.next 0 .key)]).1 =
        [.updated .none [], .answered .none (.key 1)] := by
    decide
  rw [hmap, hreplies] at hcomputed
  cases hcomputed

end PonBeam.EtsTree
