import PonBeam.EtsTree.Traversal

/-!
# `select_delete` deletes the matches

A node that is unlinked stays allocated until the next call of `doit_select_delete`, or until
the query returns. `Pending tb sc tb₁ t` says that the table is the tree `t`, apart from this
node, without which it is `tb₁`.
-/

namespace PonBeam.EtsTree

open DbTableTree

variable {Key Obj : Type} {T : Terms Key Obj} {P : Patterns Key} {tb tb₁ tb' : DbTableTree Obj}
  {t t' : BinaryTree (Cell Obj)} {sc : SelectDeleteContext Key Obj} {mp : Obj → Bool}
  {o : Obj} {rest kept : List Obj}

/-- **The table, and a node that is to be freed.** -/
structure Pending (T : Terms Key Obj) (tb : DbTableTree Obj) (sc : SelectDeleteContext Key Obj)
    (tb₁ : DbTableTree Obj) (t : BinaryTree (Cell Obj)) : Prop where
  free : tb.freeLastterm sc = some tb₁
  inv : Inv T tb₁ t
  root : tb₁.root = tb.root
  stack : tb₁.staticStack = tb.staticStack
  heap : ∀ a n, tb₁.heap a = some n → tb.heap a = some n

namespace Pending

/-- Nothing is to be freed. -/
theorem of_inv (h : Inv T tb t) (hsc : sc.eraseLastterm = false) : Pending T tb sc tb t := by
  refine ⟨?_, h, rfl, rfl, fun _ _ => id⟩
  rw [freeLastterm, hsc]
  exact if_neg Bool.false_ne_true

theorem linked (h : Pending T tb sc tb₁ t) : Linked tb [] t := by
  refine h.inv.linked.congr h.root.symm fun a ha => ?_
  obtain ⟨n, hn⟩ := Option.ne_none_iff_exists'.1 (h.inv.linked.ne_none ha)
  rw [hn]
  exact h.heap a n hn

theorem setStaticStack (h : Pending T tb sc tb₁ t) (stack : DbTreeStack) :
    Pending T (tb.setStaticStack stack) sc (tb₁.setStaticStack stack) t := by
  refine ⟨?_, h.inv.setStaticStack stack, h.root, rfl, h.heap⟩
  have hfree := h.free
  rw [freeLastterm] at hfree ⊢
  cases herase : sc.eraseLastterm with
  | false =>
    rw [herase, if_neg Bool.false_ne_true] at hfree
    rw [if_neg Bool.false_ne_true, Option.some.inj hfree]
  | true =>
    rw [herase, if_pos rfl] at hfree
    rw [if_pos rfl]
    obtain ⟨p, hp, hfree⟩ := Option.bind_eq_some_iff.1 hfree
    obtain ⟨n, hn, hfree⟩ := Option.bind_eq_some_iff.1 hfree
    cases hfree
    rw [hp]
    simp only [Option.bind_eq_bind, Option.bind_some]
    have hn' : (tb.setStaticStack stack).heap p = some n := hn
    rw [hn']
    rfl

end Pending

/-- Nodes with equal keys are one node. -/
theorem Inv.addr_unique {a b : Addr} {n m : TreeDbTerm Obj} (h : Inv T tb t)
    (hroom : t.height ≤ stackNeed) (ha : tb.heap a = some n) (hb : tb.heap b = some m)
    (hkey : T.cut (T.getkey m.dbterm) n.dbterm = 0) : a = b := by
  have hself : T.cut (T.getkey m.dbterm) m.dbterm = 0 := Terms.cmp_self _
  obtain ⟨fs, sub, hf⟩ := h.find hroom (T.getkey m.dbterm)
  cases sub with
  | nil =>
    have hmem := mem_equal.2 ⟨h.mem_objects hb, hself⟩
    rw [hf.splitAt_nil.equal_eq] at hmem
    exact absurd hmem List.not_mem_nil
  | node c l r =>
    have hac := hf.eq_item h.ascending (h.mem_items ha) hkey
    have hbc := hf.eq_item h.ascending (h.mem_items hb) hself
    exact congrArg Prod.fst (hac.trans hbc.symm)

/-! ## One node -/

/-- The context after a call for an object, which the match program keeps or not. -/
def nextContext (sc : SelectDeleteContext Key Obj) (this : Addr) (o : Obj) (deleted : Bool) :
    SelectDeleteContext Key Obj where
  accum := sc.accum + if deleted then 1 else 0
  endCondition := sc.endCondition
  eraseLastterm := deleted
  lastterm := some this
  max := sc.max - 1
  visited := sc.visited ++ [o]

theorem doitSelectDelete_keep {this : Addr} {n : TreeDbTerm Obj}
    (hfree : tb.freeLastterm sc = some tb₁) (hthis : tb₁.heap this = some n)
    (hend : sc.endCondition = none) (hmp : mp n.dbterm = false) :
    tb.doitSelectDelete T P mp sc this =
      some (nextContext sc this n.dbterm false, tb₁, !decide (sc.max - 1 ≤ 0)) := by
  rw [doitSelectDelete, hfree]
  simp only [Option.bind_eq_bind, Option.bind_some, hthis, hend, Patterns.atEnd,
    if_neg Bool.false_ne_true, hmp, nextContext]
  rfl

theorem doitSelectDelete_delete {this : Addr} {n : TreeDbTerm Obj} {q : Option Addr}
    (hfree : tb.freeLastterm sc = some tb₁) (hthis : tb₁.heap this = some n)
    (hend : sc.endCondition = none) (hmp : mp n.dbterm = true)
    (hlinkout : tb₁.linkoutTree T (T.getkey n.dbterm) = some (q, tb')) :
    tb.doitSelectDelete T P mp sc this =
      some (nextContext sc this n.dbterm true, tb', !decide (sc.max - 1 ≤ 0)) := by
  rw [doitSelectDelete, hfree]
  simp only [Option.bind_eq_bind, Option.bind_some, hthis, hend, Patterns.atEnd,
    if_neg Bool.false_ne_true, hmp, hlinkout, nextContext]
  rfl

/-- What a call of `doit_select_delete` has done with an object. -/
structure Visited (T : Terms Key Obj) (mp : Obj → Bool) (sc : SelectDeleteContext Key Obj)
    (this : Addr) (o : Obj) (rest kept : List Obj) (next : Option Addr) (tb' : DbTableTree Obj)
    (tb₁' : DbTableTree Obj) (t' : BinaryTree (Cell Obj)) : Prop where
  pending : Pending T tb' (nextContext sc this o (mp o)) tb₁' t'
  cursor : Cursor t' tb'.staticStack
  objects_eq : objects t' = rest.reverse ++ (if mp o then kept else o :: kept)
  next : HeadAt tb₁' next rest
  last : (tb'.heap this).map TreeDbTerm.dbterm = some o

/-- **One call** of `doit_select_delete`. -/
theorem doitSelectDelete_spec (P : Patterns Key) (mp : Obj → Bool) {this : Addr}
    {n : TreeDbTerm Obj} {next : Option Addr} (h : Pending T tb sc tb₁ t)
    (hroom : t.height ≤ stackNeed) (hc : Cursor t tb₁.staticStack)
    (hobjs : objects t = rest.reverse ++ n.dbterm :: kept) (hthis : tb₁.heap this = some n)
    (hnext : HeadAt tb₁ next rest) (hend : sc.endCondition = none) :
    ∃ tb' tb₁' t', tb.doitSelectDelete T P mp sc this = some
        (nextContext sc this n.dbterm (mp n.dbterm), tb', !decide (sc.max - 1 ≤ 0)) ∧
      Visited T mp sc this n.dbterm rest kept next tb' tb₁' t' := by
  cases hmp : mp n.dbterm with
  | false =>
    refine ⟨tb₁, tb₁, t, doitSelectDelete_keep h.free hthis hend hmp, ?_, hc, ?_, hnext, ?_⟩
    · rw [hmp]
      exact .of_inv h.inv rfl
    · rw [hmp, if_neg Bool.false_ne_true]
      exact hobjs
    · rw [hthis]
      rfl
  | true =>
    have hasc := h.inv.ascending
    rw [hobjs] at hasc
    have hself : T.cut (T.getkey n.dbterm) n.dbterm = 0 := Terms.cmp_self _
    rcases linkoutTree_spec h.inv hroom (T.getkey n.dbterm) with ⟨hnone, -⟩ |
      ⟨q, o, tb', t', hone, hrun, hq, hinv, hobjs', hstack, hdbterm⟩
    · have hmem := mem_equal.2 ⟨h.inv.mem_objects hthis, hself⟩
      rw [hnone] at hmem
      exact absurd hmem List.not_mem_nil
    -- the node that is unlinked is the one that is freed later
    have hq₁ := hdbterm q
    rw [hq] at hq₁
    obtain ⟨m, hm, hmo⟩ := Option.map_eq_some_iff.1 hq₁.symm
    have hmem : m.dbterm ∈ equal T (T.getkey n.dbterm) (objects t) := by
      rw [hone, hmo]
      exact List.mem_singleton_self o
    have hthisq : q = this := h.inv.addr_unique hroom hm hthis (mem_equal.1 hmem).2
    subst hthisq
    rw [hthis] at hm
    cases hm
    obtain ⟨n', hn', hn'o⟩ := Option.map_eq_some_iff.1 hq
    refine ⟨tb', tb'.freeTerm q, t', doitSelectDelete_delete h.free hthis hend hmp hrun,
      ⟨?_, hinv, rfl, rfl, fun a m hm => ?_⟩, ?_, ?_, ?_, ?_⟩
    · rw [hmp, freeLastterm, nextContext, if_pos rfl]
      simp only [Option.bind_eq_bind, Option.bind_some, hn']
      rfl
    · by_cases haq : a = q
      · rw [haq, freeTerm_heap_self] at hm
        cases hm
      · rwa [freeTerm_heap_of_ne haq] at hm
    · rw [hstack]
      exact .empty
    · rw [hmp, if_pos rfl, hobjs', hobjs, smaller_getkey hasc, greater_getkey hasc]
    · cases rest with
      | nil => exact hnext
      | cons o' rest =>
        obtain ⟨b, k, hb, hk, hko⟩ := hnext
        have hbk := hdbterm b
        rw [hk] at hbk
        obtain ⟨k', hk', hk'o⟩ := Option.map_eq_some_iff.1 hbk
        refine ⟨b, k', hb, ?_, hk'o.trans hko⟩
        rw [freeTerm_heap_of_ne, hk']
        -- the next object has another key
        rintro rfl
        rw [hthis] at hk
        cases hk
        rw [List.reverse_cons, List.append_assoc, List.singleton_append, ← hko] at hasc
        have hlt : T.cmp (T.getkey n.dbterm) (T.getkey n.dbterm) < 0 :=
          (List.pairwise_cons.1 (List.pairwise_append.1 hasc).2.1).1 _ List.mem_cons_self
        exact absurd hlt (by rw [Terms.cmp_self]; exact lt_irrefl 0)
    · rw [hn', hmo]
      exact congrArg some hn'o

/-! ## A traversal -/

/-- The node that the context holds has the object, if there is one. -/
def LastIs (sc : SelectDeleteContext Key Obj) (tb : DbTableTree Obj) (last : Option Obj) : Prop :=
  ∀ o ∈ last, ∃ p n, sc.lastterm = some p ∧ tb.heap p = some n ∧ n.dbterm = o

/-- What a traversal has done when it has visited the first of the objects ahead. -/
structure Swept (T : Terms Key Obj) (mp : Obj → Bool) (sc : SelectDeleteContext Key Obj)
    (last : Option Obj) (seen rest kept : List Obj) (sc' : SelectDeleteContext Key Obj)
    (tb' tb₁' : DbTableTree Obj)
    (t' : BinaryTree (Cell Obj)) : Prop where
  pending : Pending T tb' sc' tb₁' t'
  cursor : Cursor t' tb'.staticStack
  objects_eq : objects t' = rest.reverse ++ ((seen.reverse.filter fun o => !mp o) ++ kept)
  accum : sc'.accum = sc.accum + seen.countP mp
  max : sc'.max = sc.max - seen.length
  endCondition : sc'.endCondition = none
  visited : sc'.visited = sc.visited ++ seen
  last : LastIs sc' tb' (seen.getLast?.or last)

/-- **A traversal** visits the objects ahead, as many as it may, and deletes the matches. -/
theorem traverseLoop_swept {next : Option Addr} {turns k : ℕ} {last : Option Obj}
    (h : Pending T tb sc tb₁ t) (hlast : LastIs sc tb last)
    (hc : Cursor t tb.staticStack) (hn : t.numNodes < 2 ^ 61)
    (hobjs : objects t = rest.reverse ++ kept) (hnext : HeadAt tb₁ next rest)
    (hturns : rest.length ≤ turns) (hmax : sc.max = k + 1) (hend : sc.endCondition = none) :
    ∃ sc' tb' tb₁' t', traverseLoop T .left (doitSelectDelete T P mp) turns sc tb next =
        some (sc', tb') ∧
      Swept T mp sc last (rest.take (k + 1)) (rest.drop (k + 1)) kept sc' tb' tb₁' t' := by
  induction rest generalizing sc tb tb₁ t kept next turns k last with
  | nil =>
    obtain rfl : next = none := hnext
    refine ⟨sc, tb, tb₁, t, by cases turns <;> rfl, h, hc, hobjs, ?_, ?_, hend, ?_, ?_⟩
    · rfl
    · simp
    · exact (List.append_nil _).symm
    · exact hlast
  | cons o rest ih =>
    obtain ⟨this, n, rfl, hthis, rfl⟩ := hnext
    obtain ⟨turns, rfl⟩ : ∃ m, turns = m + 1 := Nat.exists_eq_succ_of_ne_zero (by
      rintro rfl
      exact absurd hturns (Nat.not_succ_le_zero _))
    have hroom : t.height ≤ stackNeed := (Avl.height_lt h.inv.avl hn).le
    rw [List.reverse_cons, List.append_assoc, List.singleton_append] at hobjs
    have hdir : dirObjs .left t = kept.reverse ++ n.dbterm :: rest := by
      rw [dirObjs_left, hobjs]
      simp
    obtain ⟨next, stack, hfind, hc', hnext'⟩ := findNeighbour_headAt h.linked h.inv.linked
      h.inv.ascending hroom hc .left (T.getkey n.dbterm)
    rw [beyond_getkey h.inv.ascending hdir] at hnext'
    obtain ⟨tb', tb₁', t', hdoit, hvisited⟩ := doitSelectDelete_spec P mp
      (h.setStaticStack stack) hroom hc' hobjs hthis hnext' hend
    rw [traverseLoop, h.heap _ _ hthis]
    simp only [Option.bind_eq_bind, Option.bind_some, hfind, hdoit]
    have hlast' : LastIs (nextContext sc this n.dbterm (mp n.dbterm)) tb' (some n.dbterm) := by
      obtain ⟨m, hm, hmo⟩ := Option.map_eq_some_iff.1 hvisited.last
      rintro o ho
      cases ho
      exact ⟨this, m, rfl, hm, hmo⟩
    cases k with
    | zero =>
      have hstop : sc.max - 1 ≤ 0 := by omega
      rw [decide_eq_true hstop, Bool.not_true, if_neg Bool.false_ne_true, List.take_succ_cons,
        List.take_zero, List.drop_succ_cons, List.drop_zero]
      refine ⟨_, tb', tb₁', t', rfl, hvisited.pending, hvisited.cursor, ?_, ?_, rfl, hend, rfl,
        hlast'⟩
      · rw [hvisited.objects_eq]
        cases hmp : mp n.dbterm <;> simp [hmp]
      · rw [List.countP_singleton]
        rfl
    | succ k =>
      have hgo : ¬ sc.max - 1 ≤ 0 := by omega
      have hnum : t'.numNodes ≤ t.numNodes := by
        rw [← length_objects, ← length_objects, hvisited.objects_eq, hobjs]
        split <;> simp
      have hmax' : (nextContext sc this n.dbterm (mp n.dbterm)).max = k + 1 := by
        rw [nextContext]
        dsimp only
        omega
      obtain ⟨sc'', tb'', tb₁'', t'', hrun, hswept⟩ := ih hvisited.pending hlast'
        hvisited.cursor (by omega) hvisited.objects_eq hvisited.next
        (Nat.le_of_succ_le_succ hturns) hmax' hend
      rw [decide_eq_false hgo, Bool.not_false, if_pos rfl, List.take_succ_cons,
        List.drop_succ_cons]
      refine ⟨sc'', tb'', tb₁'', t'', hrun, hswept.pending, hswept.cursor, ?_, ?_, ?_,
        hswept.endCondition, ?_, ?_⟩
      · rw [hswept.objects_eq]
        cases hmp : mp n.dbterm <;> simp [hmp]
      · rw [hswept.accum, nextContext, List.countP_cons]
        dsimp only
        omega
      · rw [hswept.max, nextContext, List.length_cons]
        dsimp only
        omega
      · rw [hswept.visited, nextContext, List.append_assoc]
        rfl
      · have hseen := hswept.last
        rw [List.getLast?_cons, Option.some_or]
        rwa [Option.or_some] at hseen

/-! ## A call -/

/-- **The table between two calls**: of the objects that there were, the first of those in
descending order have been visited, and the matches among them are gone. -/
structure Stage (T : Terms Key Obj) (mp : Obj → Bool) (objs seen rest : List Obj)
    (tb : DbTableTree Obj) (t : BinaryTree (Cell Obj)) : Prop where
  inv : Inv T tb t
  cursor : Cursor t tb.staticStack
  split : objs.reverse = seen ++ rest
  objects_eq : objects t = rest.reverse ++ seen.reverse.filter fun o => !mp o

variable {objs seen : List Obj}

theorem Stage.start (h : Inv T tb t) (hc : Cursor t tb.staticStack) :
    Stage T mp (objects t) [] (objects t).reverse tb t :=
  ⟨h, hc, rfl, by simp⟩

theorem Stage.length_le (h : Stage T mp objs seen rest tb t) : t.numNodes ≤ objs.length ∧
    rest.length ≤ t.numNodes := by
  have hlen := congrArg List.length h.split
  have hnum := congrArg List.length h.objects_eq
  have hfilter := List.length_filter_le (fun o => !mp o) seen.reverse
  rw [length_objects, List.length_append, List.length_reverse] at hnum
  rw [List.length_reverse, List.length_append] at hlen
  rw [List.length_reverse] at hfilter
  omega

/-- The objects that are left lie beyond the last that was visited, although it may be gone. -/
theorem Stage.beyond_last (h : Stage T mp objs seen rest tb t) (hasc : Ascending T objs)
    (hlast : seen.getLast? = some o) : objsOf (beyond T .left (T.getkey o) t) = rest := by
  obtain ⟨older, rfl⟩ := List.getLast?_eq_some_iff.1 hlast
  have hobjs : objs = rest.reverse ++ o :: older.reverse := by
    have hrev := congrArg List.reverse h.split
    simpa using hrev
  rw [hobjs] at hasc
  rw [objsOf_beyond]
  dsimp only
  obtain ⟨-, hkept, hcross⟩ := List.pairwise_append.1 hasc
  have hsmaller : smaller T (T.getkey o) (objects t) = rest.reverse := by
    rw [h.objects_eq, smaller, List.filter_append, List.filter_eq_self.2, List.filter_eq_nil_iff.2,
      List.append_nil]
    · intro o' ho'
      have hmem : o' ∈ o :: older.reverse := by
        have := (List.mem_filter.1 ho').1
        simpa using this
      have hle : T.cut (T.getkey o) o' ≤ 0 := by
        rcases List.mem_cons.1 hmem with rfl | hmem
        · exact (Terms.cmp_self _).le
        · exact ((List.pairwise_cons.1 hkept).1 o' hmem).le
      simpa using hle
    · intro o' ho'
      have hlt := hcross o' ho' o List.mem_cons_self
      exact decide_eq_true ((T.cmp_swap _ _).1 hlt)
  rw [hsmaller, List.reverse_reverse]

/-- The context at the start of a call. -/
def startContext (accum : ℕ) : SelectDeleteContext Key Obj := ⟨accum, none, false, none, 1000, []⟩

/-- **The traversal in a call** visits the next 1000 objects. -/
theorem traverse_swept {lastkey : Option Key} {next : Option Addr} {stack : DbTreeStack}
    (accum : ℕ) (h : Stage T mp objs seen rest tb t) (hn : objs.length < 2 ^ 61)
    (hstart : tb.traverseStart T .left lastkey = some (next, tb.setStaticStack stack))
    (hc : Cursor t stack) (hnext : HeadAt tb next rest) :
    ∃ sc' tb' tb₁' t', tb.traverse T .left lastkey (doitSelectDelete T P mp)
        (startContext accum) = some (sc', tb') ∧
      Swept T mp (startContext accum) none (rest.take 1000) (rest.drop 1000)
        (seen.reverse.filter fun o => !mp o) sc' tb' tb₁' t' := by
  obtain ⟨hle, hrest⟩ := h.length_le
  have hpending : Pending T (tb.setStaticStack stack) (startContext accum)
      (tb.setStaticStack stack) t := .of_inv (h.inv.setStaticStack stack) rfl
  have hlast : LastIs (startContext accum : SelectDeleteContext Key Obj) (tb.setStaticStack stack)
      none := fun o ho => by cases ho
  have hturns : rest.length ≤ (tb.setStaticStack stack).nitems := h.inv.nitems_eq ▸ hrest
  have hmax : (startContext accum : SelectDeleteContext Key Obj).max = (999 : ℕ) + 1 := rfl
  rw [DbTableTree.traverse, hstart]
  exact traverseLoop_swept hpending hlast hc (by omega) h.objects_eq hnext hturns hmax rfl

/-- The table after a call. -/
theorem Swept.stage {sc' : SelectDeleteContext Key Obj} {tb₁' : DbTableTree Obj} {accum : ℕ}
    (hs : Swept T mp (startContext accum) none (rest.take 1000) (rest.drop 1000)
      (seen.reverse.filter fun o => !mp o) sc' tb' tb₁' t')
    (h : Stage T mp objs seen rest tb t) :
    Stage T mp objs (seen ++ rest.take 1000) (rest.drop 1000) tb₁' t' := by
  refine ⟨hs.pending.inv, hs.pending.stack ▸ hs.cursor, ?_, ?_⟩
  · rw [h.split, List.append_assoc, List.take_append_drop]
  · rw [hs.objects_eq, List.reverse_append, List.filter_append]

/-- What a call returns when it has visited `seen`, of `rest` at most 1000: the number of the
matches, or a continuation if it has come to 1000. -/
structure Returns (T : Terms Key Obj) (mp : Obj → Bool) (seen rest : List Obj)
    (ret : DeleteRet Key Obj) : Prop where
  finished : rest.length < 1000 → ret = .integer (seen.countP mp)
  more : 1000 ≤ rest.length → ∃ o, seen.getLast? = some o ∧
    ret = .trap ⟨T.getkey o, none, mp, eaccsum (seen.countP mp)⟩

/-- How a traversal of a call has ended. -/
theorem Swept.ended {sc' : SelectDeleteContext Key Obj} {tb₁' : DbTableTree Obj} {accum : ℕ}
    (hs : Swept T mp (startContext accum) none (rest.take 1000) (rest.drop 1000)
      (seen.reverse.filter fun o => !mp o) sc' tb' tb₁' t') :
    (rest.length < 1000 ∧ 0 < sc'.max) ∨
    (1000 ≤ rest.length ∧ ¬ 0 < sc'.max ∧ ∃ o p n, (rest.take 1000).getLast? = some o ∧
      sc'.lastterm = some p ∧ tb'.heap p = some n ∧ n.dbterm = o) := by
  have hmax := hs.max
  have hlen : (rest.take 1000).length = min 1000 rest.length := List.length_take
  rw [hlen, startContext] at hmax
  dsimp only at hmax
  rcases Nat.lt_or_ge rest.length 1000 with hlt | hge
  · exact Or.inl ⟨hlt, by omega⟩
  · right
    have hne : rest.take 1000 ≠ [] := by
      intro hnil
      rw [hnil, List.length_nil] at hlen
      omega
    have hlast := List.getLast?_eq_some_getLast hne
    obtain ⟨p, n, hp, hn, ho⟩ := hs.last _ (by rw [hlast]; rfl)
    exact ⟨hge, by omega, _, p, n, hlast, hp, hn, ho⟩

/-- **The first call**, for a match specification with an unbound key. -/
theorem dbSelectDeleteTreeCommon_spec {mpi : MpInfo Key Obj Bool} (P : Patterns Key)
    (h : Inv T tb t) (hc : Cursor t tb.staticStack) (hn : (objects t).length < 2 ^ 61)
    (hunbound : mpi.keyBoundness = .unbound) :
    ∃ ret tb' t', tb.dbSelectDeleteTreeCommon T P mpi =
        some (ret, tb', (objects t).reverse.take 1000) ∧
      Stage T mpi.mp (objects t) ((objects t).reverse.take 1000) ((objects t).reverse.drop 1000)
        tb' t' ∧
      Returns T mpi.mp ((objects t).reverse.take 1000) (objects t).reverse ret := by
  have hroom : t.height ≤ stackNeed := (Avl.height_lt h.avl (length_objects t ▸ hn)).le
  have hstage : Stage T mpi.mp (objects t) [] (objects t).reverse tb t := .start h hc
  obtain ⟨next, stack, hstart, hc', hnext⟩ := traverseStart_none h hroom .left (T := T)
  rw [dirObjs_left] at hnext
  obtain ⟨sc', tb', tb₁', t', hrun, hs⟩ :=
    traverse_swept (P := P) 0 hstage hn hstart hc' hnext
  have haccum : sc'.accum = ((objects t).reverse.take 1000).countP mpi.mp := by
    rw [hs.accum]
    exact Nat.zero_add _
  have hvisited : sc'.visited = (objects t).reverse.take 1000 := hs.visited
  rw [dbSelectDeleteTreeCommon, hunbound]
  simp only [reduceCtorEq, if_false, Option.bind_eq_bind, Option.pure_def, Option.bind_some]
  change ∃ ret tb' t', (tb.traverse T .left none (doitSelectDelete T P mpi.mp)
    (startContext 0)).bind _ = _ ∧ _
  rw [hrun]
  simp only [Option.bind_some]
  rcases hs.ended with ⟨hlt, hmax⟩ | ⟨hge, hmax, o, p, n, hlast, hp, hn', ho⟩
  · refine ⟨_, tb₁', t', ?_, hs.stage hstage, fun _ => rfl, fun hge => absurd hge hlt.not_ge⟩
    rw [if_pos hmax, hs.pending.free, haccum, hvisited]
    rfl
  · refine ⟨_, tb₁', t', ?_, hs.stage hstage, fun hlt => absurd hge hlt.not_ge, fun _ =>
      ⟨o, hlast, rfl⟩⟩
    rw [if_neg hmax, hp, hs.pending.free, hs.endCondition, haccum, hvisited, ← ho]
    simp only [Option.bind_some, hn']

/-- **A later call**, with the continuation of the one before. -/
theorem dbSelectDeleteContinueTreeCommon_spec (P : Patterns Key)
    (h : Stage T mp objs seen rest tb t) (hasc : Ascending T objs) (hn : objs.length < 2 ^ 59)
    (hlast : seen.getLast? = some o) :
    ∃ ret tb' t', tb.dbSelectDeleteContinueTreeCommon T P
        ⟨T.getkey o, none, mp, eaccsum (seen.countP mp)⟩ = some (ret, tb', rest.take 1000) ∧
      Stage T mp objs (seen ++ rest.take 1000) (rest.drop 1000) tb' t' ∧
      Returns T mp (seen ++ rest.take 1000) rest ret := by
  have hn61 : objs.length < 2 ^ 61 := by omega
  have hnum : t.numNodes < 2 ^ 61 := Nat.lt_of_le_of_lt h.length_le.1 hn61
  have hroom : t.height ≤ stackNeed := (Avl.height_lt h.inv.avl hnum).le
  obtain ⟨next, stack, hfind, hc', hnext⟩ := findNeighbour_headAt h.inv.linked h.inv.linked
    h.inv.ascending hroom h.cursor .left (T.getkey o)
  rw [h.beyond_last hasc hlast] at hnext
  have hstart : tb.traverseStart T .left (some (T.getkey o)) =
      some (next, tb.setStaticStack stack) := by
    rw [traverseStart]
    simp only [hfind, Option.bind_eq_bind, Option.bind_some]
    rfl
  obtain ⟨sc', tb', tb₁', t', hrun, hs⟩ :=
    traverse_swept (P := P) (seen.countP mp) h hn61 hstart hc' hnext
  have hval : (eaccsum (seen.countP mp)).val = seen.countP mp := by
    have hseen : seen.length ≤ objs.length := by
      have hlen := congrArg List.length h.split
      rw [List.length_reverse, List.length_append] at hlen
      omega
    have hcount := List.countP_le_length (p := mp) (l := seen)
    rw [eaccsum, if_pos (by rw [maxSmall]; omega), UintTerm.val]
  have haccum : sc'.accum = (seen ++ rest.take 1000).countP mp := by
    rw [hs.accum, List.countP_append]
    rfl
  have hvisited : sc'.visited = rest.take 1000 := hs.visited
  rw [dbSelectDeleteContinueTreeCommon, hval]
  change ∃ ret tb' t', (tb.traverse T .left (some (T.getkey o)) (doitSelectDelete T P mp)
    (startContext (seen.countP mp))).bind _ = _ ∧ _
  rw [hrun]
  simp only [Option.bind_some]
  rcases hs.ended with ⟨hlt, hmax⟩ | ⟨hge, hmax, o', p, n, hlast', hp, hn', ho⟩
  · refine ⟨_, tb₁', t', ?_, hs.stage h, fun _ => rfl, fun hge => absurd hge hlt.not_ge⟩
    rw [if_pos hmax, hs.pending.free, haccum, hvisited]
    rfl
  · have hlast'' : (seen ++ rest.take 1000).getLast? = some o' := by
      rw [List.getLast?_append, hlast']
      rfl
    refine ⟨_, tb₁', t', ?_, hs.stage h, fun hlt => absurd hge hlt.not_ge, fun _ =>
      ⟨o', hlast'', rfl⟩⟩
    rw [if_neg hmax, hp, hs.pending.free, haccum, hvisited, ← ho]
    simp only [Option.bind_eq_bind, Option.bind_some, hn']
    rfl

/-! ## Runs -/

/-- Queries one after the other. -/
def runQueries (T : Terms Key Obj) : DbTableTree Obj → List (Query Key) →
    Option (DbTableTree Obj)
  | tb, [] => some tb
  | tb, q :: qs => do
    let (_, _, tb) ← q.onTable T tb
    runQueries T tb qs

theorem runQueries_spec (h : Inv T tb t) (hroom : t.height ≤ stackNeed)
    (hc : Cursor t tb.staticStack) (qs : List (Query Key)) :
    ∃ tb', runQueries T tb qs = some tb' ∧ Inv T tb' t ∧ Cursor t tb'.staticStack := by
  induction qs generalizing tb with
  | nil => exact ⟨tb, rfl, h, hc⟩
  | cons q qs ih =>
    obtain ⟨stack, hrun, hc'⟩ := (query_answers h hroom hc q).run
    obtain ⟨tb', hruns, h'⟩ := ih (h.setStaticStack stack) hc'
    refine ⟨tb', ?_, h'⟩
    rw [runQueries, hrun]
    exact hruns

/-- `select_delete` with the calls that follow when it traps, `k` of them at most, and queries
before each of these: what the last call returns, and the objects that have been visited. -/
def selectDelete (T : Terms Key Obj) (P : Patterns Key) (mpi : MpInfo Key Obj Bool)
    (queries : ℕ → List (Query Key)) (tb : DbTableTree Obj) :
    ℕ → Option (DeleteRet Key Obj × DbTableTree Obj × List Obj)
  | 0 => tb.dbSelectDeleteTreeCommon T P mpi
  | k + 1 => do
    let (ret, tb, visited) ← selectDelete T P mpi queries tb k
    match ret with
    | .integer _ => return (ret, tb, visited)
    | .trap continuation =>
      let tb ← runQueries T tb (queries k)
      let (ret, tb, more) ← tb.dbSelectDeleteContinueTreeCommon T P continuation
      return (ret, tb, visited ++ more)

/-- **After any number of calls** the first of the objects in descending order are visited. -/
theorem selectDelete_stage {mpi : MpInfo Key Obj Bool} (P : Patterns Key) (h : Inv T tb t)
    (hc : Cursor t tb.staticStack) (hn : (objects t).length < 2 ^ 59)
    (hunbound : mpi.keyBoundness = .unbound) (queries : ℕ → List (Query Key)) (k : ℕ) :
    ∃ ret tb' t', selectDelete T P mpi queries tb k =
        some (ret, tb', (objects t).reverse.take (1000 * (k + 1))) ∧
      Stage T mpi.mp (objects t) ((objects t).reverse.take (1000 * (k + 1)))
        ((objects t).reverse.drop (1000 * (k + 1))) tb' t' ∧
      Returns T mpi.mp ((objects t).reverse.take (1000 * (k + 1)))
        ((objects t).reverse.drop (1000 * k)) ret := by
  have hn61 : (objects t).length < 2 ^ 61 := by omega
  induction k with
  | zero => exact dbSelectDeleteTreeCommon_spec P h hc hn61 hunbound
  | succ k ih =>
    obtain ⟨ret, tb₁, t₁, hrun, hstage, hret⟩ := ih
    set objs := objects t with hobjs
    have hrest : (objs.reverse.drop (1000 * k)).length = objs.length - 1000 * k := by
      rw [List.length_drop, List.length_reverse]
    have hmul : 1000 * (k + 1) = 1000 * k + 1000 := Nat.mul_succ ..
    have hmul' : 1000 * (k + 1 + 1) = 1000 * (k + 1) + 1000 := Nat.mul_succ ..
    rw [selectDelete, hrun]
    simp only [Option.bind_eq_bind, Option.bind_some]
    rcases Nat.lt_or_ge (objs.reverse.drop (1000 * k)).length 1000 with hlt | hge
    · -- the query has returned, and nothing is left
      have hall : ∀ m, 1000 * (k + 1) ≤ m → objs.reverse.take m = objs.reverse := fun m hm =>
        List.take_of_length_le (by rw [List.length_reverse]; omega)
      have hnone : ∀ m, 1000 * (k + 1) ≤ m → objs.reverse.drop m = [] := fun m hm =>
        List.drop_of_length_le (by rw [List.length_reverse]; omega)
      have hm : 1000 * (k + 1) ≤ 1000 * (k + 1 + 1) := by omega
      have hret' := hret.finished hlt
      rw [hall _ (le_refl _)] at hrun hstage hret'
      rw [hnone _ (le_refl _)] at hstage
      rw [hall _ hm, hnone _ hm, hnone _ (le_refl _)]
      subst hret'
      refine ⟨_, tb₁, t₁, ?_, hstage, fun _ => rfl, fun hge => ?_⟩
      · rw [hall _ (le_refl _)]
        rfl
      · exact absurd hge (by simp)
    · obtain ⟨o, hlast, rfl⟩ := hret.more hge
      have hnum : t₁.numNodes < 2 ^ 61 := Nat.lt_of_le_of_lt hstage.length_le.1 hn61
      have hroom : t₁.height ≤ stackNeed := (Avl.height_lt hstage.inv.avl hnum).le
      obtain ⟨tb₂, hqueries, hinv₂, hc₂⟩ :=
        runQueries_spec hstage.inv hroom hstage.cursor (queries k)
      have hstage₂ : Stage T mpi.mp objs (objs.reverse.take (1000 * (k + 1)))
          (objs.reverse.drop (1000 * (k + 1))) tb₂ t₁ :=
        ⟨hinv₂, hc₂, hstage.split, hstage.objects_eq⟩
      obtain ⟨ret, tb', t', hrun', hstage', hret'⟩ :=
        dbSelectDeleteContinueTreeCommon_spec P hstage₂ h.ascending hn hlast
      rw [← List.take_add, ← hmul'] at hstage' hret'
      rw [List.drop_drop, ← hmul'] at hstage'
      refine ⟨ret, tb', t', ?_, hstage', hret'⟩
      simp only [hqueries, Option.bind_some, hrun']
      rw [← List.take_add, ← hmul']
      rfl

/-- What `select_delete` has done after the first call and `k` more. -/
structure Deleted (T : Terms Key Obj) (mp : Obj → Bool) (objs : List Obj) (k : ℕ)
    (ret : DeleteRet Key Obj) (visited : List Obj) (tb' : DbTableTree Obj)
    (t' : BinaryTree (Cell Obj)) : Prop where
  inv : Inv T tb' t'
  cursor : Cursor t' tb'.staticStack
  /-- the last call has come to the end -/
  finished : objs.length < 1000 * (k + 1) → ret = .integer (objs.countP mp) ∧
    visited = objs.reverse ∧ objects t' = objs.filter fun o => !mp o
  /-- the last call has trapped -/
  more : 1000 * (k + 1) ≤ objs.length → (∃ continuation, ret = .trap continuation) ∧
    visited = objs.reverse.take (1000 * (k + 1)) ∧
    objects t' = objs.take (objs.length - 1000 * (k + 1)) ++
      (objs.drop (objs.length - 1000 * (k + 1))).filter fun o => !mp o

/-- **`select_delete` deletes exactly the matches.** -/
theorem selectDelete_deletes_matches (T : Terms Key Obj) (P : Patterns Key)
    {calls : List (Call Key Obj)} {replies : List (Reply Key Obj)} {tb : DbTableTree Obj}
    (hfits : CallsFit T dbCreateTree calls)
    (hrun : runCalls T dbCreateTree calls = some (replies, tb)) (hn : tb.nitems < 2 ^ 59)
    {mpi : MpInfo Key Obj Bool} (hunbound : mpi.keyBoundness = .unbound)
    (queries : ℕ → List (Query Key)) (k : ℕ) :
    ∃ ret tb' t' visited, selectDelete T P mpi queries tb k = some (ret, tb', visited) ∧
      Deleted T mpi.mp (mapCalls T (Query.result T) [] calls).2 k ret visited tb' t' := by
  obtain ⟨replies', tb₀, t, hrun', hinv, hc, hmap⟩ := calls_spec inv_dbCreateTree .empty hfits
  rw [hrun] at hrun'
  cases hrun'
  have hobjs : (mapCalls T (Query.result T) [] calls).2 = objects t := congrArg Prod.snd hmap
  have hlen : (objects t).length < 2 ^ 59 := by
    rw [length_objects, ← hinv.nitems_eq]
    exact hn
  obtain ⟨ret, tb', t', hdelete, hstage, hret⟩ :=
    selectDelete_stage P hinv hc hlen hunbound queries k
  rw [hobjs]
  refine ⟨ret, tb', t', _, hdelete, hstage.inv, hstage.cursor, fun hlt => ?_, fun hge => ?_⟩
  · have hall : (objects t).reverse.take (1000 * (k + 1)) = (objects t).reverse :=
      List.take_of_length_le (by rw [List.length_reverse]; omega)
    have hnone : (objects t).reverse.drop (1000 * (k + 1)) = [] :=
      List.drop_of_length_le (by rw [List.length_reverse]; omega)
    have hover := hret.finished (by rw [List.length_drop, List.length_reverse]; omega)
    have hkept := hstage.objects_eq
    rw [hall, hnone, List.reverse_nil, List.nil_append, List.reverse_reverse] at hkept
    rw [hall, List.countP_reverse] at hover
    exact ⟨hover, hall, hkept⟩
  · obtain ⟨o, -, htrap⟩ := hret.more (by rw [List.length_drop, List.length_reverse]; omega)
    refine ⟨⟨_, htrap⟩, rfl, ?_⟩
    rw [hstage.objects_eq, List.reverse_take, List.reverse_drop, List.reverse_reverse,
      List.length_reverse]

/-- Four objects. -/
def fourPuts : List (Call ℕ (ℕ × ℕ)) :=
  [.update (.put (3, 30) true 100), .update (.put (1, 10) true 200),
    .update (.put (4, 45) true 300), .update (.put (2, 25) true 400)]

/-- Deletes the objects with an odd number. -/
def oddNumbers : MpInfo ℕ (ℕ × ℕ) Bool := ⟨.unbound, none, none, fun o => o.2 % 2 == 1⟩

theorem fourPuts_deleted : ∃ replies tb ret tb' t' visited,
    runCalls natTerms dbCreateTree fourPuts = some (replies, tb) ∧
    selectDelete natTerms ⟨fun a b => a - b, fun a => a == 0⟩ oddNumbers
      (fun _ => [.first .key]) tb 1 = some (ret, tb', visited) ∧
    Deleted natTerms oddNumbers.mp [(1, 10), (2, 25), (3, 30), (4, 45)] 1 ret visited tb' t' := by
  have hfits : CallsFit natTerms dbCreateTree fourPuts := by decide +kernel
  obtain ⟨replies, tb, t, hrun, hinv, -, hmap⟩ := calls_spec inv_dbCreateTree .empty hfits
  have hn : tb.nitems < 2 ^ 59 := by
    have hobjs : objects t = _ := (congrArg Prod.snd hmap).symm
    rw [hinv.nitems_eq, ← length_objects, hobjs]
    decide
  obtain ⟨ret, tb', t', visited, hdelete, hdeleted⟩ := selectDelete_deletes_matches natTerms
    ⟨fun a b => a - b, fun a => a == 0⟩ hfits hrun hn
    (show oddNumbers.keyBoundness = .unbound from rfl) (fun _ => [.first .key]) 1
  exact ⟨replies, tb, ret, tb', t', visited, hrun, hdelete, hdeleted⟩

end PonBeam.EtsTree
