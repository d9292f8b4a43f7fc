import PonBeam.EtsTree.PatternStart
import PonBeam.EtsTree.SelectDelete
import Mathlib.Data.List.TakeWhile

/-!
# The objects that `select` visits

A bounded `select` starts behind one end of the range and stops when it has come to the other.
After a trap it goes on without this stop, and only tests the last object of each thousand. So
it may go on past the end of the range, to the end of the thousand at most.
-/

namespace PonBeam.EtsTree

open DbTableTree

variable {Key Obj Res : Type} {T : Terms Key Obj} {P : Patterns Key} {tb tb' : DbTableTree Obj}
  {d : Side} {t : BinaryTree (Cell Obj)} {sc : SelectContext Key Obj Res}
  {mp : Obj → Option Res} {o : Obj} {rest seen : List Obj} {e : Option Key}

/-! ## One traversal -/

/-- The context after an object. -/
def selected (sc : SelectContext Key Obj Res) (mp : Obj → Option Res) (o : Obj) :
    SelectContext Key Obj Res where
  accum := (mp o).toList ++ sc.accum
  endCondition := sc.endCondition
  lastobj := some o
  max := sc.max - 1

theorem doitSelect_eq {this : Addr} {n : TreeDbTerm Obj} (hthis : tb.heap this = some n) :
    tb.doitSelect T P d mp sc this =
      if P.atEnd d sc.endCondition (T.getkey n.dbterm) then
        some ({ sc with lastobj := some n.dbterm }, tb, false)
      else some (selected sc mp n.dbterm, tb, !decide (sc.max - 1 ≤ 0)) := by
  rw [doitSelect, hthis]
  simp only [Option.bind_eq_bind, Option.bind_some]
  split
  · rfl
  · cases hmp : mp n.dbterm <;> simp only [selected, hmp] <;> rfl

/-- The objects before the end. -/
def beforeEnd (T : Terms Key Obj) (P : Patterns Key) (d : Side) (e : Option Key)
    (objs : List Obj) : List Obj :=
  objs.takeWhile fun o => !P.atEnd d e (T.getkey o)

theorem beforeEnd_none (objs : List Obj) : beforeEnd T P d none objs = objs :=
  List.takeWhile_eq_self_iff.2 fun _ _ => rfl

/-- What a traversal has done with the objects that it has visited. -/
structure Scanned (mp : Obj → Option Res) (sc : SelectContext Key Obj Res) (last : Option Obj)
    (seen : List Obj) (sc' : SelectContext Key Obj Res) : Prop where
  accum : sc'.accum = (seen.filterMap mp).reverse ++ sc.accum
  max : sc'.max = sc.max - seen.length
  endCondition : sc'.endCondition = sc.endCondition
  lastobj : sc'.max ≤ 0 → sc'.lastobj = seen.getLast?.or last

/-- **A traversal** visits the objects before the end, as many as it may. -/
theorem traverseLoop_scanned (mp : Obj → Option Res) {next : Option Addr} {turns k : ℕ}
    {before : List Obj} (h : Inv T tb t) (hroom : t.height ≤ stackNeed) (hc : Cursor t tb.staticStack)
    (hobjs : dirObjs d t = before ++ rest) (hnext : HeadAt tb next rest)
    (hturns : rest.length ≤ turns) (hmax : sc.max = k + 1) :
    ∃ sc' stack, traverseLoop T d (doitSelect T P d mp) turns sc tb next =
        some (sc', tb.setStaticStack stack) ∧ Cursor t stack ∧
      Scanned mp sc sc.lastobj ((beforeEnd T P d sc.endCondition rest).take (k + 1)) sc' := by
  induction rest generalizing sc tb next turns k before with
  | nil =>
    obtain rfl : next = none := hnext
    refine ⟨sc, tb.staticStack, by cases turns <;> rfl, hc, ?_⟩
    exact ⟨rfl, (sub_zero _).symm, rfl, fun _ => rfl⟩
  | cons o rest ih =>
    obtain ⟨this, n, rfl, hthis, rfl⟩ := hnext
    obtain ⟨turns, rfl⟩ : ∃ m, turns = m + 1 := Nat.exists_eq_succ_of_ne_zero (by
      rintro rfl
      exact absurd hturns (Nat.not_succ_le_zero _))
    obtain ⟨next, stack, hfind, hc', hnext'⟩ := findNeighbour_headAt h.linked h.linked
      h.ascending hroom hc d (T.getkey n.dbterm)
    rw [beyond_getkey h.ascending hobjs] at hnext'
    have hthis' : (tb.setStaticStack stack).heap this = some n := hthis
    rw [traverseLoop, hthis]
    simp only [Option.bind_eq_bind, Option.bind_some, hfind, doitSelect_eq hthis']
    cases hend : P.atEnd d sc.endCondition (T.getkey n.dbterm) with
    | true =>
      have hseen : beforeEnd T P d sc.endCondition (n.dbterm :: rest) = [] := by
        rw [beforeEnd, List.takeWhile_cons, hend]
        rfl
      rw [if_pos rfl, hseen]
      refine ⟨_, stack, rfl, hc', rfl, (sub_zero _).symm, rfl, fun hle => ?_⟩
      dsimp only at hle
      omega
    | false =>
      have hseen : beforeEnd T P d sc.endCondition (n.dbterm :: rest) =
          n.dbterm :: beforeEnd T P d sc.endCondition rest := by
        rw [beforeEnd, List.takeWhile_cons, hend]
        rfl
      rw [if_neg Bool.false_ne_true, hseen, List.take_succ_cons]
      simp only [Option.bind_some]
      cases k with
      | zero =>
        have hstop : sc.max - 1 ≤ 0 := by omega
        rw [decide_eq_true hstop, Bool.not_true, if_neg Bool.false_ne_true, List.take_zero]
        refine ⟨_, stack, rfl, hc', ?_, rfl, rfl, fun _ => rfl⟩
        cases hmp : mp n.dbterm <;> simp [selected, hmp]
      | succ k =>
        have hgo : ¬ sc.max - 1 ≤ 0 := by omega
        have hobjs' : dirObjs d t = (before ++ [n.dbterm]) ++ rest := by
          rw [hobjs, List.append_assoc]
          rfl
        have hmax' : (selected sc mp n.dbterm).max = k + 1 := by
          rw [selected]
          dsimp only
          omega
        obtain ⟨sc', stack', hrun, hc'', hs⟩ := ih (h.setStaticStack stack) hc' hobjs' hnext'
          (Nat.le_of_succ_le_succ hturns) hmax'
        rw [decide_eq_false hgo, Bool.not_false, if_pos rfl]
        refine ⟨sc', stack', hrun, hc'', ?_, ?_, hs.endCondition, fun hle => ?_⟩
        · rw [hs.accum, List.filterMap_cons]
          cases hmp : mp n.dbterm <;> simp [selected, hmp]
        · rw [hs.max, selected, List.length_cons]
          dsimp only
          omega
        · have hlast := hs.lastobj hle
          rw [selected, Option.or_some] at hlast
          rw [hlast, List.getLast?_cons, Option.some_or]

/-- The traversal starts with the first of these objects. -/
def StartsAt (T : Terms Key Obj) (d : Side) (t : BinaryTree (Cell Obj)) (rest : List Obj) :
    Option Key → Prop
  | none => dirObjs d t = rest
  | some key => ∃ before o, key = T.getkey o ∧ dirObjs d t = before ++ o :: rest

theorem traverse_scanned (mp : Obj → Option Res) (sc : SelectContext Key Obj Res)
    {lastkey : Option Key} (h : Inv T tb t)
    (hroom : t.height ≤ stackNeed) (hc : Cursor t tb.staticStack)
    (hstart : StartsAt T d t rest lastkey) (hmax : sc.max = 1000) :
    ∃ sc' stack, tb.traverse T d lastkey (doitSelect T P d mp) sc =
        some (sc', tb.setStaticStack stack) ∧ Cursor t stack ∧
      Scanned mp sc sc.lastobj ((beforeEnd T P d sc.endCondition rest).take 1000) sc' := by
  have hnum : tb.nitems = (dirObjs d t).length := by
    rw [length_dirObjs, h.nitems_eq]
  have hmax' : sc.max = (999 : ℕ) + 1 := hmax
  cases lastkey with
  | none =>
    obtain ⟨next, stack, hrun, hc', hnext⟩ := traverseStart_none h hroom d
    have hobjs : dirObjs d t = [] ++ rest := hstart
    have hturns : rest.length ≤ tb.nitems := by rw [hnum, hstart]
    rw [hstart] at hnext
    obtain ⟨sc', stack', hloop, hs⟩ := traverseLoop_scanned (P := P) mp
      (h.setStaticStack stack) hroom hc' hobjs hnext hturns hmax'
    refine ⟨sc', stack', ?_, hs⟩
    rw [DbTableTree.traverse, hrun]
    exact hloop
  | some key =>
    obtain ⟨before, o, rfl, hobjs⟩ := hstart
    obtain ⟨next, stack, hfind, hc', hnext⟩ := findNeighbour_headAt h.linked h.linked
      h.ascending hroom hc d (T.getkey o)
    rw [beyond_getkey h.ascending hobjs] at hnext
    have hobjs' : dirObjs d t = (before ++ [o]) ++ rest := by
      rw [hobjs, List.append_assoc]
      rfl
    have hturns : rest.length ≤ tb.nitems := by
      rw [hnum, hobjs', List.length_append]
      exact Nat.le_add_left _ _
    obtain ⟨sc', stack', hloop, hs⟩ := traverseLoop_scanned (P := P) mp
      (h.setStaticStack stack) hroom hc' hobjs' hnext hturns hmax'
    refine ⟨sc', stack', ?_, hs⟩
    rw [DbTableTree.traverse, traverseStart]
    simp only [hfind, Option.bind_eq_bind, Option.bind_some]
    exact hloop

/-! ## Calls -/

/-- The list of the results: it has been built from its end. -/
def results (mp : Obj → Option Res) (seen : List Obj) : List Res := (seen.filterMap mp).reverse

/-- The objects that are visited, if `r` of them are before the end: also those that follow, up
to the end of the thousand, if there has been a trap. -/
def visited (objs : List Obj) (r : ℕ) : List Obj :=
  if r < 1000 then objs.take r else objs.take (1000 * (r / 1000 + 1))

/-- What the call after `k` others returns. -/
structure SelectReturns (T : Terms Key Obj) (mp : Obj → Option Res) (e : Option Key)
    (reverse : Bool) (objs : List Obj) (r k : ℕ) (ret : SelectRet Key Obj Res) : Prop where
  finished : r < 1000 * (k + 1) → ret = .list (results mp (visited objs r))
  more : 1000 * (k + 1) ≤ r → ∃ o, (objs.take (1000 * (k + 1))).getLast? = some o ∧
    ret = .trap ⟨T.getkey o, e, mp, results mp (objs.take (1000 * (k + 1))), reverse⟩

variable {objs before : List Obj} {r k m : ℕ} {sc' : SelectContext Key Obj Res}

theorem beforeEnd_eq (e : Option Key) (objs : List Obj) :
    beforeEnd T P d e objs = objs.take (beforeEnd T P d e objs).length :=
  List.prefix_iff_eq_take.1 (List.takeWhile_prefix _)

theorem length_beforeEnd_le (objs : List Obj) :
    (beforeEnd T P d e objs).length ≤ objs.length :=
  (List.takeWhile_prefix _).length_le

/-- The objects that are at the end are the last ones. -/
def EndsSorted (T : Terms Key Obj) (P : Patterns Key) (d : Side) (e : Option Key)
    (objs : List Obj) : Prop :=
  objs.Pairwise fun a b => P.atEnd d e (T.getkey a) = true → P.atEnd d e (T.getkey b) = true

/-- The objects before the last of the first ones, and those after it. -/
theorem eq_of_getLast (hlast : (objs.take m).getLast? = some o) :
    ∃ ys, objs = ys ++ o :: objs.drop m ∧ objs.take m = ys ++ [o] := by
  obtain ⟨ys, hys⟩ := List.getLast?_eq_some_iff.1 hlast
  refine ⟨ys, ?_, hys⟩
  conv_lhs => rw [← List.take_append_drop m objs, hys, List.append_assoc]
  rfl

/-- The test of the last object says whether the end is before it. -/
theorem atEnd_last (hs : EndsSorted T P d e objs) (hm : m ≤ objs.length)
    (hlast : (objs.take m).getLast? = some o) :
    P.atEnd d e (T.getkey o) = true ↔ (beforeEnd T P d e objs).length < m := by
  obtain ⟨ys, hobjs, hys⟩ := eq_of_getLast hlast
  have hlen : ys.length + 1 = m := by
    have := congrArg List.length hys
    rw [List.length_take, List.length_append, List.length_singleton] at this
    omega
  rw [beforeEnd, hobjs, List.takeWhile_append]
  cases hend : P.atEnd d e (T.getkey o) with
  | true =>
    refine iff_of_true rfl ?_
    split
    · rw [List.takeWhile_cons, hend]
      simp only [Bool.not_true, Bool.false_eq_true, if_false, List.append_nil]
      omega
    · have := (List.takeWhile_prefix (fun o => !P.atEnd d e (T.getkey o)) (l := ys)).length_le
      omega
  | false =>
    have hnone : ∀ a ∈ ys, (!P.atEnd d e (T.getkey a)) = true := by
      intro a ha
      rw [hobjs] at hs
      by_contra hat
      rw [Bool.not_eq_true, Bool.not_eq_false'] at hat
      have := (List.pairwise_append.1 hs).2.2 a ha o List.mem_cons_self hat
      rw [hend] at this
      cases this
    rw [List.takeWhile_eq_self_iff.2 hnone, if_pos rfl, List.takeWhile_cons, hend]
    simp only [Bool.false_eq_true, Bool.not_false, if_true, List.length_append, List.length_cons,
      false_iff]
    omega

/-- **The end of the first call.** -/
theorem Scanned.first (hs : Scanned mp ⟨[], e, none, 1000⟩ none
    ((beforeEnd T P d e objs).take 1000) sc') :
    (0 < sc'.max ∧ (beforeEnd T P d e objs).length < 1000 ∧
      sc'.accum = results mp (visited objs (beforeEnd T P d e objs).length)) ∨
    (¬ 0 < sc'.max ∧ 1000 ≤ (beforeEnd T P d e objs).length ∧ ∃ o, sc'.lastobj = some o ∧
      (objs.take 1000).getLast? = some o ∧ sc'.accum = results mp (objs.take 1000)) := by
  have hmax := hs.max
  have haccum := hs.accum
  rw [List.append_nil] at haccum
  rw [List.length_take] at hmax
  dsimp only at hmax
  rcases Nat.lt_or_ge (beforeEnd T P d e objs).length 1000 with hlt | hge
  · refine Or.inl ⟨by omega, hlt, ?_⟩
    rw [haccum, visited, if_pos hlt, ← beforeEnd_eq, List.take_of_length_le hlt.le]
    rfl
  · have hseen : (beforeEnd T P d e objs).take 1000 = objs.take 1000 := by
      rw [beforeEnd_eq, List.take_take, Nat.min_eq_left hge]
    have hle := length_beforeEnd_le (T := T) (P := P) (d := d) (e := e) objs
    have hne : objs.take 1000 ≠ [] := by
      intro hnil
      have := congrArg List.length hnil
      rw [List.length_take, List.length_nil] at this
      omega
    have hlast := List.getLast?_eq_some_getLast hne
    refine Or.inr ⟨by omega, hge, _, ?_, hlast, ?_⟩
    · rw [hs.lastobj (by omega), hseen, hlast]
      rfl
    · rw [haccum, hseen]
      rfl

theorem results_append (mp : Obj → Option Res) (as bs : List Obj) :
    results mp (as ++ bs) = results mp bs ++ results mp as := by
  rw [results, List.filterMap_append, List.reverse_append]
  rfl

/-- **A later call**, with the continuation of the one before. -/
theorem dbSelectContinueTreeCommon_spec {reverse : Bool} (mp : Obj → Option Res) (h : Inv T tb t)
    (hroom : t.height ≤ stackNeed) (hc : Cursor t tb.staticStack)
    (hobjs : dirObjs (selectDir reverse) t = before ++ objs)
    (hsorted : EndsSorted T P (selectDir reverse) e objs)
    (hmore : 1000 * (k + 1) ≤ (beforeEnd T P (selectDir reverse) e objs).length)
    (hlast : (objs.take (1000 * (k + 1))).getLast? = some o) :
    ∃ ret stack, tb.dbSelectContinueTreeCommon T P
        ⟨T.getkey o, e, mp, results mp (objs.take (1000 * (k + 1))), reverse⟩ =
          some (ret, tb.setStaticStack stack) ∧ Cursor t stack ∧
      SelectReturns T mp e reverse objs (beforeEnd T P (selectDir reverse) e objs).length (k + 1)
        ret := by
  have hle := length_beforeEnd_le (T := T) (P := P) (d := selectDir reverse) (e := e) objs
  generalize hr : (beforeEnd T P (selectDir reverse) e objs).length = r at hmore hle
  have hmul : 1000 * (k + 1 + 1) = 1000 * (k + 1) + 1000 := Nat.mul_succ ..
  obtain ⟨ys, hys, -⟩ := eq_of_getLast hlast
  have hstart : StartsAt T (selectDir reverse) t (objs.drop (1000 * (k + 1)))
      (some (T.getkey o)) := by
    refine ⟨before ++ ys, o, rfl, ?_⟩
    rw [List.append_assoc, ← hys]
    exact hobjs
  obtain ⟨sc', stack, hrun, hc', hs⟩ := traverse_scanned (P := P) mp
    ⟨results mp (objs.take (1000 * (k + 1))), none, none, 1000⟩ h hroom hc hstart rfl
  rw [beforeEnd_none] at hs
  have haccum : sc'.accum = results mp (objs.take (1000 * (k + 1 + 1))) := by
    rw [hmul, List.take_add, results_append, hs.accum]
    rfl
  have hmax := hs.max
  rw [List.length_take, List.length_drop] at hmax
  dsimp only at hmax
  -- there are as many objects before the end as the thousands so far, and less than a thousand
  have hvisited : r < 1000 * (k + 1 + 1) →
      visited objs r = objs.take (1000 * (k + 1 + 1)) := by
    intro hlt
    have hdiv : r / 1000 = k + 1 := by omega
    rw [visited, if_neg (by omega), hdiv]
  rw [dbSelectContinueTreeCommon]
  dsimp only
  rw [hrun]
  simp only [Option.bind_eq_bind, Option.bind_some]
  rcases Nat.lt_or_ge objs.length (1000 * (k + 1 + 1)) with hlt | hge
  · rw [if_pos (by omega)]
    refine ⟨_, stack, rfl, hc', fun hr' => ?_, fun hr' => ?_⟩
    · rw [haccum, hvisited hr']
    · omega
  · have hne : (objs.drop (1000 * (k + 1))).take 1000 ≠ [] := by
      intro hnil
      have := congrArg List.length hnil
      rw [List.length_take, List.length_drop, List.length_nil] at this
      omega
    have hlast' := List.getLast?_eq_some_getLast hne
    generalize ((objs.drop (1000 * (k + 1))).take 1000).getLast hne = o' at hlast'
    have hlastobj := hs.lastobj (by omega)
    rw [hlast'] at hlastobj
    have hlast'' : (objs.take (1000 * (k + 1 + 1))).getLast? = some o' := by
      rw [hmul, List.take_add, List.getLast?_append, hlast']
      rfl
    have hend := atEnd_last hsorted hge hlast''
    rw [hr] at hend
    rw [if_neg (by omega), hlastobj]
    simp only [Option.some_or, Option.bind_some]
    cases hat : P.atEnd (selectDir reverse) e (T.getkey o') with
    | true =>
      refine ⟨_, stack, rfl, hc', fun hr' => ?_, fun hr' => ?_⟩
      · rw [haccum, hvisited hr']
      · exact absurd (hend.1 hat) hr'.not_gt
    | false =>
      refine ⟨_, stack, rfl, hc', fun hr' => ?_, fun hr' => ⟨o', hlast'', ?_⟩⟩
      · rw [hend.2 hr'] at hat
        cases hat
      · rw [haccum]

/-- The objects from the start of a range. -/
def fromStart (T : Terms Key Obj) (P : Patterns Key) (d : Side) (start : Key)
    (objs : List Obj) : List Obj :=
  objs.filter fun o => !past T P d.other start o

theorem filter_append_filter {α : Type} (p : α → Bool) (l : List α)
    (h : l.Pairwise fun a b => p a = true → p b = true) :
    l = l.filter (fun a => !p a) ++ l.filter p := by
  induction l with
  | nil => rfl
  | cons a l ih =>
    obtain ⟨ha, hl⟩ := List.pairwise_cons.1 h
    cases hp : p a with
    | false =>
      rw [List.filter_cons_of_pos (by rw [hp]; rfl), List.filter_cons_of_neg (by simp [hp]),
        List.cons_append, ← ih hl]
    | true =>
      have hnone : l.filter (fun a => !p a) = [] := List.filter_eq_nil_iff.2 fun b hb => by
        rw [ha b hb hp]
        exact Bool.false_ne_true
      have hall : l.filter p = l := List.filter_eq_self.2 fun b hb => ha b hb hp
      rw [List.filter_cons_of_neg (by simp [hp]), List.filter_cons_of_pos hp, hnone, hall]
      rfl

theorem dirObjs_other (d : Side) (t : BinaryTree (Cell Obj)) :
    dirObjs d.other t = (dirObjs d t).reverse := by
  rw [dirObjs, listing_other, objsOf, List.map_reverse]
  rfl

/-- The objects past the start come first, the nearest to the start last. -/
theorem dirObjs_eq (hmono : P.Monotone T) (hasc : Ascending T (objects t)) (d : Side)
    (start : Key) : dirObjs d t = (pastObjs T P d.other start t).reverse ++
      fromStart T P d start (dirObjs d t) := by
  have hsplit := filter_append_filter _ _ (sorted_dirObjs hmono hasc d.other start)
  have hrev := congrArg List.reverse hsplit
  rw [dirObjs_other, List.reverse_reverse, List.reverse_append, List.filter_reverse,
    List.filter_reverse, List.reverse_reverse, List.reverse_reverse] at hrev
  rw [pastObjs, dirObjs_other, fromStart, List.filter_reverse, List.reverse_reverse]
  exact hrev

/-- A call, when it is known where the traversal starts and where it ends. -/
def selectFrom (T : Terms Key Obj) (P : Patterns Key) (mp : Obj → Option Res) (reverse : Bool)
    (lastkey e : Option Key) (tb : DbTableTree Obj) :
    Option (SelectRet Key Obj Res × DbTableTree Obj) := do
  let (sc, tb) ← tb.traverse T (selectDir reverse) lastkey
    (doitSelect T P (selectDir reverse) mp) ⟨[], e, none, 1000⟩
  if 0 < sc.max then return (.list sc.accum, tb)
  else
    let lastobj ← sc.lastobj
    return (.trap ⟨T.getkey lastobj, sc.endCondition, mp, sc.accum, reverse⟩, tb)

variable {mpi : MpInfo Key Obj (Option Res)} {reverse : Bool} {start stop : Key}

/-- What the first call returns, where `r` objects are before the end. -/
theorem selectFrom_spec {reverse : Bool} {lastkey : Option Key} (mp : Obj → Option Res) (h : Inv T tb t)
    (hroom : t.height ≤ stackNeed) (hc : Cursor t tb.staticStack)
    (hstart : StartsAt T (selectDir reverse) t objs lastkey) :
    ∃ ret stack, selectFrom T P mp reverse lastkey e tb = some (ret, tb.setStaticStack stack) ∧
      Cursor t stack ∧ SelectReturns T mp e reverse objs
        (beforeEnd T P (selectDir reverse) e objs).length 0 ret := by
  obtain ⟨sc', stack, hrun, hc', hs⟩ := traverse_scanned (P := P) mp
    ⟨[], e, none, 1000⟩ h hroom hc hstart rfl
  rw [selectFrom, hrun]
  simp only [Option.bind_eq_bind, Option.bind_some]
  rcases hs.first with ⟨hmax, hlt, haccum⟩ | ⟨hmax, hge, o, hlastobj, hlast, haccum⟩
  · rw [if_pos hmax, haccum]
    refine ⟨_, stack, rfl, hc', fun _ => rfl, fun hge => ?_⟩
    omega
  · rw [if_neg hmax, hlastobj, hs.endCondition, haccum]
    exact ⟨_, stack, rfl, hc', fun hlt => by omega, fun _ => ⟨o, hlast, rfl⟩⟩

theorem dbSelectTreeCommon_unbound (hb : mpi.keyBoundness = .unbound) :
    tb.dbSelectTreeCommon T P mpi reverse = selectFrom T P mpi.mp reverse none none tb := by
  rw [dbSelectTreeCommon, hb, selectFrom]
  simp only [reduceCtorEq, if_false, Option.bind_eq_bind, Option.bind_some, Option.pure_def]

theorem dbSelectTreeCommon_partly_none (hb : mpi.keyBoundness = .partiallyBound)
    (hstart : (if reverse then mpi.least else mpi.most) = some start)
    (hstop : (if reverse then mpi.most else mpi.least) = some stop)
    (hfind : tb.findFromPbKey T P (selectDir reverse).other start = some (none, tb')) :
    tb.dbSelectTreeCommon T P mpi reverse =
      selectFrom T P mpi.mp reverse none (P.endCondition stop) tb' := by
  rw [dbSelectTreeCommon, hb, selectFrom]
  cases reverse <;> simp only [if_true, if_false, Bool.false_eq_true] at hstart hstop <;>
    simp only [if_true, if_false, Bool.false_eq_true, hstart, hstop, hfind, Option.bind_eq_bind,
      Option.bind_some, Option.pure_def]

theorem dbSelectTreeCommon_partly_some {this : Addr} {n : TreeDbTerm Obj}
    (hb : mpi.keyBoundness = .partiallyBound)
    (hstart : (if reverse then mpi.least else mpi.most) = some start)
    (hstop : (if reverse then mpi.most else mpi.least) = some stop)
    (hfind : tb.findFromPbKey T P (selectDir reverse).other start = some (some this, tb'))
    (hn : tb'.heap this = some n) :
    tb.dbSelectTreeCommon T P mpi reverse =
      selectFrom T P mpi.mp reverse (some (T.getkey n.dbterm)) (P.endCondition stop) tb' := by
  rw [dbSelectTreeCommon, hb, selectFrom]
  cases reverse <;> simp only [if_true, if_false, Bool.false_eq_true] at hstart hstop <;>
    simp only [if_true, if_false, Bool.false_eq_true, hstart, hstop, hfind, hn, Option.bind_eq_bind,
      Option.bind_some, Option.pure_def]

/-- **The first call** for keys that are partly bound. -/
theorem dbSelectTreeCommon_partly (hmono : P.Monotone T) (h : Inv T tb t)
    (hroom : t.height ≤ stackNeed) (hb : mpi.keyBoundness = .partiallyBound)
    (hstart : (if reverse then mpi.least else mpi.most) = some start)
    (hstop : (if reverse then mpi.most else mpi.least) = some stop) :
    ∃ lastkey stack, tb.dbSelectTreeCommon T P mpi reverse = selectFrom T P mpi.mp reverse lastkey
        (P.endCondition stop) (tb.setStaticStack stack) ∧ Cursor t stack ∧
      StartsAt T (selectDir reverse) t
        (fromStart T P (selectDir reverse) start (dirObjs (selectDir reverse) t)) lastkey := by
  obtain ⟨stack, hfind, hc⟩ := findFromPbKey_spec hmono h hroom (selectDir reverse).other start
  have hobjs := dirObjs_eq hmono h.ascending (selectDir reverse) start
  rw [← objsOf_pastCells] at hobjs
  cases hcells : pastCells T P (selectDir reverse).other start t with
  | nil =>
    rw [hcells] at hobjs hfind
    exact ⟨none, stack, dbSelectTreeCommon_partly_none hb hstart hstop hfind, hc, hobjs⟩
  | cons c cs =>
    have hmem : c ∈ pastCells T P (selectDir reverse).other start t := by
      rw [hcells]
      exact List.mem_cons_self
    obtain ⟨a, n, ha, hn, hterm⟩ := headAt_objsOf h.linked fun b (hb : b ∈ [c]) => by
      rw [List.mem_singleton.1 hb]
      exact (List.mem_filter.1 hmem).1
    have hthis : addr? (c :: cs) = some a := ha
    rw [hcells] at hobjs hfind
    rw [hthis] at hfind
    refine ⟨_, stack, dbSelectTreeCommon_partly_some hb hstart hstop hfind hn, hc,
      (objsOf cs).reverse, n.dbterm, rfl, ?_⟩
    refine hobjs.trans ?_
    rw [hterm, objsOf, List.map_cons, List.reverse_cons, List.append_assoc]
    rfl

/-! ## Runs -/

/-- `select` with the calls that follow when it traps, `k` of them at most, and queries before
each of these. -/
def selectCalls (T : Terms Key Obj) (P : Patterns Key) (mpi : MpInfo Key Obj (Option Res))
    (reverse : Bool) (queries : ℕ → List (Query Key)) (tb : DbTableTree Obj) :
    ℕ → Option (SelectRet Key Obj Res × DbTableTree Obj)
  | 0 => tb.dbSelectTreeCommon T P mpi reverse
  | k + 1 => do
    let (ret, tb) ← selectCalls T P mpi reverse queries tb k
    match ret with
    | .list _ => return (ret, tb)
    | .trap continuation =>
      let tb ← runQueries T tb (queries k)
      tb.dbSelectContinueTreeCommon T P continuation

/-- After the first call has returned, so have the others. -/
theorem selectCalls_spec {queries : ℕ → List (Query Key)}
    (hroom : t.height ≤ stackNeed)
    (hfirst : ∃ ret tb', tb.dbSelectTreeCommon T P mpi reverse = some (ret, tb') ∧ Inv T tb' t ∧
      Cursor t tb'.staticStack ∧ SelectReturns T mpi.mp e reverse objs r 0 ret)
    (hlong : 1000 ≤ r → (∃ before, dirObjs (selectDir reverse) t = before ++ objs) ∧
      EndsSorted T P (selectDir reverse) e objs ∧
      r = (beforeEnd T P (selectDir reverse) e objs).length) (k : ℕ) :
    ∃ ret tb', selectCalls T P mpi reverse queries tb k = some (ret, tb') ∧ Inv T tb' t ∧
      Cursor t tb'.staticStack ∧ SelectReturns T mpi.mp e reverse objs r k ret := by
  induction k with
  | zero => exact hfirst
  | succ k ih =>
    obtain ⟨ret, tb₁, hrun, hinv, hc, hret⟩ := ih
    rw [selectCalls, hrun]
    simp only [Option.bind_eq_bind, Option.bind_some]
    rcases Nat.lt_or_ge r (1000 * (k + 1)) with hlt | hge
    · obtain rfl := hret.finished hlt
      exact ⟨_, tb₁, rfl, hinv, hc, fun _ => rfl, fun hge => by omega⟩
    · obtain ⟨o, hlast, rfl⟩ := hret.more hge
      obtain ⟨⟨before, hobjs⟩, hsorted, hr⟩ := hlong (by omega)
      obtain ⟨tb₂, hqueries, hinv₂, hc₂⟩ := runQueries_spec hinv hroom hc (queries k)
      obtain ⟨ret, stack, hcall, hc', hret'⟩ := dbSelectContinueTreeCommon_spec mpi.mp
        hinv₂ hroom hc₂ hobjs hsorted (hr ▸ hge) hlast
      rw [← hr] at hret'
      refine ⟨ret, tb₂.setStaticStack stack, ?_, hinv₂.setStaticStack stack, hc', hret'⟩
      simp only [hqueries, Option.bind_some, hcall]

/-- The contents in the order of a traversal for `select`. -/
def inDir (reverse : Bool) (objs : List Obj) : List Obj := if reverse then objs else objs.reverse

theorem dirObjs_selectDir (reverse : Bool) (t : BinaryTree (Cell Obj)) :
    dirObjs (selectDir reverse) t = inDir reverse (objects t) := by
  cases reverse
  · exact dirObjs_left t
  · exact dirObjs_right t

/-- What `select` scans of the contents: the objects from the start of the range, and the number
of those before its end. -/
def scan (T : Terms Key Obj) (P : Patterns Key) (mpi : MpInfo Key Obj (Option Res))
    (reverse : Bool) (objs : List Obj) : List Obj × ℕ :=
  let ds := inDir reverse objs
  match mpi.keyBoundness, mpi.least, mpi.most with
  | .unbound, _, _ => (ds, ds.length)
  | .bound, some least, _ => (equal T least ds, (equal T least ds).length)
  | .partiallyBound, some least, some most =>
    let start := if reverse then least else most
    let stop := if reverse then most else least
    let scanned := fromStart T P (selectDir reverse) start ds
    (scanned, (beforeEnd T P (selectDir reverse) (P.endCondition stop) scanned).length)
  | _, _, _ => ([], 0)

/-- The objects that `select` visits. -/
def reached (T : Terms Key Obj) (P : Patterns Key) (mpi : MpInfo Key Obj (Option Res))
    (reverse : Bool) (objs : List Obj) : List Obj :=
  visited (scan T P mpi reverse objs).1 (scan T P mpi reverse objs).2

/-- The end conditions of a range are known. -/
structure MpInfo.Bounded (mpi : MpInfo Key Obj (Option Res)) : Prop where
  least : mpi.keyBoundness = .bound ∨ mpi.keyBoundness = .partiallyBound →
    ∃ least, mpi.least = some least
  most : mpi.keyBoundness = .partiallyBound → ∃ most, mpi.most = some most

/-- What `analyze_pattern` promises: the key of an object that has a result is in the range. -/
def MpInfo.Covers (T : Terms Key Obj) (P : Patterns Key) (mpi : MpInfo Key Obj (Option Res)) :
    Prop :=
  ∀ o, mpi.mp o ≠ none → match mpi.keyBoundness with
    | .unbound => True
    | .partiallyBound => (∀ least ∈ mpi.least, P.cmpPartlyBound least (T.getkey o) ≤ 0) ∧
        ∀ most ∈ mpi.most, 0 ≤ P.cmpPartlyBound most (T.getkey o)
    | .bound => ∀ least ∈ mpi.least, T.cut least o = 0
    | .impossible => False

theorem atEnd_endCondition {stop key : Key} (h : 0 ≤ d.sgn * P.cmpPartlyBound stop key) :
    P.atEnd d (P.endCondition stop) key = false := by
  rw [Patterns.endCondition]
  split
  · rfl
  · exact decide_eq_false (not_lt.2 h)

theorem endsSorted (hmono : P.Monotone T) (hasc : Ascending T (objects t)) (d : Side)
    (stop : Key) {objs : List Obj} (hsub : objs.Sublist (dirObjs d t)) :
    EndsSorted T P d (P.endCondition stop) objs := by
  rw [EndsSorted, Patterns.endCondition]
  split
  · exact List.pairwise_of_forall fun _ _ h => h
  · exact (sorted_dirObjs hmono hasc d stop).sublist hsub

/-- **After any number of calls** `select` has visited the objects of the range, or it goes on. -/
theorem select_visits (hmono : P.Monotone T) (h : Inv T tb t) (hroom : t.height ≤ stackNeed)
    (hc : Cursor t tb.staticStack) (hb : mpi.Bounded) (reverse : Bool)
    (queries : ℕ → List (Query Key)) :
    ∃ e, ∀ k, ∃ ret tb', selectCalls T P mpi reverse queries tb k = some (ret, tb') ∧
      Inv T tb' t ∧ Cursor t tb'.staticStack ∧
      SelectReturns T mpi.mp e reverse (scan T P mpi reverse (objects t)).1
        (scan T P mpi reverse (objects t)).2 k ret := by
  cases hkey : mpi.keyBoundness with
  | unbound =>
    have hscan : scan T P mpi reverse (objects t) =
        (dirObjs (selectDir reverse) t, (dirObjs (selectDir reverse) t).length) := by
      rw [scan, hkey, dirObjs_selectDir]
    have hstart : StartsAt T (selectDir reverse) t _ none := rfl
    obtain ⟨ret, stack, hrun, hc', hret⟩ := selectFrom_spec (P := P) (e := none)
      mpi.mp h hroom hc hstart
    rw [← dbSelectTreeCommon_unbound hkey] at hrun
    rw [beforeEnd_none] at hret
    rw [hscan]
    refine ⟨none, selectCalls_spec hroom ⟨ret, _, hrun, h.setStaticStack stack, hc', hret⟩
      fun _ => ⟨⟨[], rfl⟩, ?_, by rw [beforeEnd_none]⟩⟩
    exact List.pairwise_of_forall fun _ _ h => h
  | partiallyBound =>
    obtain ⟨least, hleast⟩ := hb.least (Or.inr hkey)
    obtain ⟨most, hmost⟩ := hb.most hkey
    have hstart : (if reverse then mpi.least else mpi.most) =
        some (if reverse then least else most) := by
      rw [hleast, hmost]
      cases reverse <;> rfl
    have hstop : (if reverse then mpi.most else mpi.least) =
        some (if reverse then most else least) := by
      rw [hleast, hmost]
      cases reverse <;> rfl
    have hscan : scan T P mpi reverse (objects t) =
        (fromStart T P (selectDir reverse) (if reverse then least else most)
            (dirObjs (selectDir reverse) t),
          (beforeEnd T P (selectDir reverse) (P.endCondition (if reverse then most else least))
            (fromStart T P (selectDir reverse) (if reverse then least else most)
              (dirObjs (selectDir reverse) t))).length) := by
      rw [scan, hkey, hleast, hmost, dirObjs_selectDir]
    generalize (if reverse then least else most) = start at hstart hscan
    generalize (if reverse then most else least) = stop at hstop hscan
    obtain ⟨lastkey, stack, hcall, hc', hstarts⟩ :=
      dbSelectTreeCommon_partly (P := P) hmono h hroom hkey hstart hstop
    obtain ⟨ret, stack', hrun, hc'', hret⟩ := selectFrom_spec (P := P) mpi.mp
      (h.setStaticStack stack) hroom hc' hstarts (e := P.endCondition stop)
    rw [← hcall] at hrun
    rw [hscan]
    refine ⟨P.endCondition stop, selectCalls_spec hroom
      ⟨ret, _, hrun, (h.setStaticStack stack).setStaticStack stack', hc'', hret⟩
      fun _ => ⟨⟨_, dirObjs_eq hmono h.ascending _ start⟩, ?_, rfl⟩⟩
    exact endsSorted hmono h.ascending _ stop List.filter_sublist
  | bound =>
    obtain ⟨least, hleast⟩ := hb.least (Or.inl hkey)
    have hscan : scan T P mpi reverse (objects t) =
        (equal T least (inDir reverse (objects t)),
          (equal T least (inDir reverse (objects t))).length) := by
      rw [scan, hkey, hleast]
    have hdir : equal T least (inDir reverse (objects t)) =
        inDir reverse (equal T least (objects t)) := by
      cases reverse
      · exact List.filter_reverse
      · rfl
    rw [hscan, hdir]
    rcases (findNode_spec h hroom .empty : equal T least _ = [] ∧ _ ∨ _) with
      ⟨hnone, hfind⟩ | ⟨a, n, hone, hfind, hn⟩
    · have hrun : tb.dbSelectTreeCommon T P mpi reverse = some (.list [], tb) := by
        rw [dbSelectTreeCommon, hkey, hleast]
        simp only [Option.bind_eq_bind, Option.bind_some, hfind]
        rfl
      have hnil : inDir reverse ([] : List Obj) = [] := by cases reverse <;> rfl
      rw [hnone, hnil]
      exact ⟨none, selectCalls_spec hroom ⟨_, tb, hrun, h, hc, fun _ => rfl,
        fun hge => absurd hge (show ¬ 1000 * (0 + 1) ≤ 0 by decide)⟩
        fun hge => absurd hge (show ¬ 1000 ≤ 0 by decide)⟩
    · have hrun : tb.dbSelectTreeCommon T P mpi reverse =
          some (.list (results mpi.mp [n.dbterm]), tb) := by
        rw [dbSelectTreeCommon, hkey, hleast]
        simp only [Option.bind_eq_bind, Option.bind_some, hfind, doitSelect_eq hn]
        cases hmp : mpi.mp n.dbterm <;> simp [Patterns.atEnd, selected, results, hmp]
      have hsingle : inDir reverse [n.dbterm] = [n.dbterm] := by cases reverse <;> rfl
      rw [hone, hsingle]
      exact ⟨none, selectCalls_spec hroom ⟨_, tb, hrun, h, hc, fun _ => rfl,
        fun hge => absurd hge (show ¬ 1000 * (0 + 1) ≤ 1 by decide)⟩
        fun hge => absurd hge (show ¬ 1000 ≤ 1 by decide)⟩
  | impossible =>
    have hscan : scan T P mpi reverse (objects t) = ([], 0) := by
      rw [scan, hkey]
    have hrun : tb.dbSelectTreeCommon T P mpi reverse = some (.list [], tb) := by
      rw [dbSelectTreeCommon, hkey]
      rfl
    rw [hscan]
    exact ⟨none, selectCalls_spec hroom ⟨_, tb, hrun, h, hc, fun _ => rfl, fun hge => by omega⟩
      fun hge => by omega⟩

/-! ## All matches -/

/-- Of a part of a list all is kept if the part has all that is kept. -/
theorem filterMap_eq_iff {α β : Type} (f : α → Option β) {as bs : List α} (h : as.Sublist bs)
    (hnodup : bs.Nodup) :
    as.filterMap f = bs.filterMap f ↔ ∀ b ∈ bs, f b ≠ none → b ∈ as := by
  induction h with
  | slnil => exact iff_of_true rfl fun b hb => absurd hb List.not_mem_nil
  | @cons as bs b h ih =>
    obtain ⟨hb, hbs⟩ := List.nodup_cons.1 hnodup
    rw [List.forall_mem_cons, ← ih hbs]
    cases hf : f b with
    | none =>
      rw [List.filterMap_cons_none hf]
      exact ⟨fun heq => ⟨fun hne => absurd rfl hne, heq⟩, And.right⟩
    | some r =>
      rw [List.filterMap_cons_some hf]
      refine iff_of_false (fun heq => ?_) fun hall =>
        hb (h.subset (hall.1 (fun hnone => by cases hnone)))
      have hlen := congrArg List.length heq
      have hle := (h.filterMap f).length_le
      rw [List.length_cons] at hlen
      omega
  | @cons_cons as bs b h ih =>
    obtain ⟨hb, hbs⟩ := List.nodup_cons.1 hnodup
    have hrest : as.filterMap f = bs.filterMap f ↔
        ∀ a ∈ b :: bs, f a ≠ none → a ∈ b :: as := by
      rw [ih hbs, List.forall_mem_cons]
      refine ⟨fun hall => ⟨fun _ => List.mem_cons_self, fun a ha hf =>
        List.mem_cons_of_mem b (hall a ha hf)⟩, fun hall a ha hf => ?_⟩
      rcases List.mem_cons.1 (hall.2 a ha hf) with rfl | hmem
      · exact absurd ha hb
      · exact hmem
    rw [← hrest]
    cases hf : f b with
    | none => rw [List.filterMap_cons_none hf, List.filterMap_cons_none hf]
    | some r =>
      rw [List.filterMap_cons_some hf, List.filterMap_cons_some hf, List.cons.injEq]
      exact and_iff_right rfl

theorem inDir_nodup (hasc : Ascending T objs) (reverse : Bool) : (inDir reverse objs).Nodup := by
  have hnodup : objs.Nodup := hasc.imp fun {a b} hlt heq => by
    rw [heq, Terms.cmp_self] at hlt
    exact lt_irrefl _ hlt
  cases reverse
  · exact List.nodup_reverse.2 hnodup
  · exact hnodup

theorem mem_inDir (reverse : Bool) : o ∈ inDir reverse objs ↔ o ∈ objs := by
  cases reverse
  · exact List.mem_reverse
  · exact Iff.rfl

theorem visited_sublist (objs : List Obj) (r : ℕ) : (visited objs r).Sublist objs := by
  rw [visited]
  split <;> exact List.take_sublist ..

theorem reached_sublist (mpi : MpInfo Key Obj (Option Res)) (reverse : Bool) (objs : List Obj) :
    (reached T P mpi reverse objs).Sublist (inDir reverse objs) := by
  refine (visited_sublist _ _).trans ?_
  rw [scan]
  split
  · exact List.Sublist.refl _
  · exact List.filter_sublist
  · exact List.filter_sublist
  · exact List.nil_sublist _

/-- **The results are those of all objects** if all that have one are reached. -/
theorem results_reached_iff (hasc : Ascending T objs) (mpi : MpInfo Key Obj (Option Res))
    (reverse : Bool) :
    results mpi.mp (reached T P mpi reverse objs) = results mpi.mp (inDir reverse objs) ↔
      ∀ o ∈ objs, mpi.mp o ≠ none → o ∈ reached T P mpi reverse objs := by
  rw [results, results, List.reverse_inj,
    filterMap_eq_iff _ (reached_sublist mpi reverse objs) (inDir_nodup hasc reverse)]
  simp only [mem_inDir]

/-- The objects in the range are reached. -/
theorem mem_visited {r : ℕ} (h : o ∈ objs.take r) :
    o ∈ visited objs r := by
  rw [visited]
  split
  · exact h
  · refine List.Sublist.subset ?_ h
    exact (List.take_prefix_take_left (by omega)).sublist

/-- An object before the end is among those that are visited. -/
theorem mem_beforeEnd (hs : EndsSorted T P d e objs) (ho : o ∈ objs)
    (hend : P.atEnd d e (T.getkey o) = false) : o ∈ beforeEnd T P d e objs := by
  obtain ⟨as, bs, rfl⟩ := List.append_of_mem ho
  have has : ∀ a ∈ as, (!P.atEnd d e (T.getkey a)) = true := by
    intro a ha
    by_contra hat
    rw [Bool.not_eq_true, Bool.not_eq_false'] at hat
    have hlast := (List.pairwise_append.1 hs).2.2 a ha o List.mem_cons_self hat
    rw [hend] at hlast
    cases hlast
  rw [beforeEnd, List.takeWhile_append_of_pos has, List.takeWhile_cons, hend]
  exact List.mem_append_right as List.mem_cons_self

theorem mem_reached_partly (hmono : P.Monotone T) (hasc : Ascending T (objects t))
    (hkb : mpi.keyBoundness = .partiallyBound) {least most : Key} (hleast : mpi.least = some least)
    (hmost : mpi.most = some most) (ho : o ∈ objects t)
    (hle : P.cmpPartlyBound least (T.getkey o) ≤ 0)
    (hge : 0 ≤ P.cmpPartlyBound most (T.getkey o)) :
    o ∈ reached T P mpi reverse (objects t) := by
  have hstart : past T P (selectDir reverse).other (if reverse then least else most) o = false := by
    rw [past, decide_eq_false_iff_not]
    cases reverse
    · change ¬ 1 * P.cmpPartlyBound most (T.getkey o) < 0
      omega
    · change ¬ -1 * P.cmpPartlyBound least (T.getkey o) < 0
      omega
  have hend : P.atEnd (selectDir reverse) (P.endCondition (if reverse then most else least))
      (T.getkey o) = false := by
    refine atEnd_endCondition ?_
    cases reverse
    · change 0 ≤ -1 * P.cmpPartlyBound least (T.getkey o)
      omega
    · change 0 ≤ 1 * P.cmpPartlyBound most (T.getkey o)
      omega
  rw [reached, scan, hkb, hleast, hmost, ← dirObjs_selectDir]
  refine mem_visited ?_
  rw [← beforeEnd_eq]
  refine mem_beforeEnd (endsSorted hmono hasc _ _ List.filter_sublist) ?_ hend
  refine List.mem_filter.2 ⟨?_, by rw [hstart]; rfl⟩
  rw [dirObjs_selectDir]
  exact (mem_inDir reverse).2 ho

/-- **What has a result is reached**, if the range covers it. -/
theorem mem_reached (hmono : P.Monotone T) (hasc : Ascending T (objects t)) (hb : mpi.Bounded)
    (hcovers : mpi.Covers T P) (ho : o ∈ objects t) (hmp : mpi.mp o ≠ none) :
    o ∈ reached T P mpi reverse (objects t) := by
  have hrange := hcovers o hmp
  cases hkb : mpi.keyBoundness with
  | unbound =>
    -- the whole table is traversed
    rw [reached, scan, hkb]
    exact mem_visited (by rw [List.take_length]; exact (mem_inDir reverse).2 ho)
  | partiallyBound =>
    obtain ⟨least, hleast⟩ := hb.least (Or.inr hkb)
    obtain ⟨most, hmost⟩ := hb.most hkb
    rw [hkb] at hrange
    exact mem_reached_partly hmono hasc hkb hleast hmost ho (hrange.1 least hleast)
      (hrange.2 most hmost)
  | bound =>
    obtain ⟨least, hleast⟩ := hb.least (Or.inl hkb)
    rw [hkb] at hrange
    rw [reached, scan, hkb, hleast]
    refine mem_visited ?_
    rw [List.take_length]
    exact mem_equal.2 ⟨(mem_inDir reverse).2 ho, hrange least hleast⟩
  | impossible =>
    rw [hkb] at hrange
    exact hrange.elim

end PonBeam.EtsTree
