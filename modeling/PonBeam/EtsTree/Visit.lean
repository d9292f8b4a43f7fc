import PonBeam.EtsTree.Traversal

/-!
# Traversals that only read

Where the function that a traversal calls for each node leaves the table as it is, the traversal
is a fold over the objects behind its starting point, that ends when the function says so. The
table may have been changed since the key of the starting point was noted.
-/

namespace PonBeam.EtsTree

open DbTableTree

variable {Key Obj S : Type} {T : Terms Key Obj} {tb : DbTableTree Obj} {d : Side}
  {t : BinaryTree (Cell Obj)} {o : Obj} {before rest : List Obj} {sc : S} {a b c : Key}
  {doit : S → DbTableTree Obj → Addr → Option (S × DbTableTree Obj × Bool)}
  {step : S → Obj → S × Bool} {lastkey : Option Key}

/-! ## The order of a direction -/

/-- In the direction `d`, the key `b` comes later than `a`. -/
def Later (T : Terms Key Obj) (d : Side) (a b : Key) : Prop := d.sgn * T.cmp a b < 0

theorem later_right : Later T .right a b ↔ T.cmp a b < 0 := by
  rw [Later, Side.sgn, one_mul]

theorem later_left : Later T .left a b ↔ T.cmp b a < 0 := by
  rw [Later, Side.sgn, T.cmp_swap b a]
  omega

theorem not_later_self (a : Key) : ¬ Later T d a a := by
  rw [Later, Terms.cmp_self, mul_zero]
  exact lt_irrefl 0

/-- What is not later than `a` is before what is later than `a`. -/
theorem Later.of_not_later (h : Later T d a b) (hc : ¬ Later T d a c) : Later T d c b := by
  cases d with
  | right =>
    rw [later_right] at h hc ⊢
    exact Terms.cmp_lt_of_le_of_lt (Terms.cmp_nonneg_iff.1 (not_lt.1 hc)) h
  | left =>
    rw [later_left] at h hc ⊢
    exact Terms.cmp_lt_of_lt_of_le h (Terms.cmp_nonneg_iff.1 (not_lt.1 hc))

theorem Later.not_later (h : Later T d a b) : ¬ Later T d b a := by
  cases d with
  | right =>
    rw [later_right] at h ⊢
    exact not_lt.2 ((T.cmp_swap a b).1 h).le
  | left =>
    rw [later_left] at h ⊢
    exact not_lt.2 ((T.cmp_swap b a).1 h).le

theorem Later.trans (hab : Later T d a b) (hbc : Later T d b c) : Later T d a c :=
  hbc.of_not_later hab.not_later

/-- In the direction `d` the objects are met in the order of their keys. -/
theorem dirObjs_pairwise (hasc : Ascending T (objects t)) (d : Side) :
    (dirObjs d t).Pairwise fun o o' => Later T d (T.getkey o) (T.getkey o') := by
  cases d with
  | right =>
    rw [dirObjs_right]
    exact hasc.imp later_right.2
  | left =>
    rw [dirObjs_left, List.pairwise_reverse]
    exact hasc.imp later_left.2

theorem mem_dirObjs : o ∈ dirObjs d t ↔ o ∈ objects t := by
  cases d with
  | left => rw [dirObjs_left, List.mem_reverse]
  | right => rw [dirObjs_right]

/-! ## What is still to come -/

/-- The object is still to come, if `lastkey` has been the last. -/
def isPending (T : Terms Key Obj) (d : Side) (lastkey : Option Key) (o : Obj) : Bool :=
  match lastkey with
  | none => true
  | some key => d.sgn * T.cmp key (T.getkey o) < 0

/-- The objects that are still to come. -/
def pending (T : Terms Key Obj) (d : Side) (lastkey : Option Key) (t : BinaryTree (Cell Obj)) :
    List Obj :=
  (dirObjs d t).filter (isPending T d lastkey)

theorem isPending_some {key : Key} :
    isPending T d (some key) o = true ↔ Later T d key (T.getkey o) :=
  decide_eq_true_iff

theorem pending_none (d : Side) (t : BinaryTree (Cell Obj)) :
    pending T d none t = dirObjs d t :=
  List.filter_eq_self.2 fun _ _ => rfl

theorem pending_some (key : Key) (t : BinaryTree (Cell Obj)) :
    pending T d (some key) t = objsOf (beyond T d key t) := by
  rw [pending, beyond, dirObjs, objsOf, objsOf, List.filter_map]
  rfl

theorem mem_pending : o ∈ pending T d lastkey t ↔
    o ∈ objects t ∧ isPending T d lastkey o = true := by
  rw [pending, List.mem_filter, mem_dirObjs]

theorem pending_pairwise (hasc : Ascending T (objects t)) (lastkey : Option Key) :
    (pending T d lastkey t).Pairwise fun o o' => Later T d (T.getkey o) (T.getkey o') :=
  (dirObjs_pairwise hasc d).filter _

/-- Where what follows an element of the filter is in it too, the filter is a suffix. -/
theorem exists_append_filter {α : Type} {p : α → Bool} {l : List α}
    (h : l.Pairwise fun a b => p a = true → p b = true) : ∃ before, l = before ++ l.filter p := by
  induction l with
  | nil => exact ⟨[], rfl⟩
  | cons a l ih =>
    obtain ⟨hhead, htail⟩ := List.pairwise_cons.1 h
    cases hp : p a with
    | true =>
      refine ⟨[], ?_⟩
      rw [List.filter_cons_of_pos hp, List.filter_eq_self.2 fun b hb => hhead b hb hp]
      rfl
    | false =>
      obtain ⟨before, hl⟩ := ih htail
      refine ⟨a :: before, ?_⟩
      rw [List.filter_cons_of_neg (by simp [hp]), List.cons_append, ← hl]

/-- What is to come are the last objects of the direction. -/
theorem exists_append_pending (hasc : Ascending T (objects t)) (lastkey : Option Key) :
    ∃ before, dirObjs d t = before ++ pending T d lastkey t := by
  apply exists_append_filter
  refine (dirObjs_pairwise hasc d).imp fun {o o'} hlater hpending => ?_
  cases lastkey with
  | none => rfl
  | some key => exact isPending_some.2 ((isPending_some.1 hpending).trans hlater)

/-! ## Traversals as folds -/

/-- The objects one after the other, until `step` says that it is enough. -/
def visitAll (step : S → Obj → S × Bool) : S → List Obj → S
  | sc, [] => sc
  | sc, o :: rest => if (step sc o).2 then visitAll step (step sc o).1 rest else (step sc o).1

/-- The function looks at the object of the node, and the table stays as it is. -/
def ReadsOnly (doit : S → DbTableTree Obj → Addr → Option (S × DbTableTree Obj × Bool))
    (step : S → Obj → S × Bool) : Prop :=
  ∀ sc tb this n, tb.heap this = some n →
    doit sc tb this = some ((step sc n.dbterm).1, tb, (step sc n.dbterm).2)

theorem traverseLoop_visitAll (hreads : ReadsOnly doit step) (sc : S) {next : Option Addr}
    {turns : ℕ} (h : Inv T tb t) (hroom : t.height ≤ stackNeed) (hc : Cursor t tb.staticStack)
    (hobjs : dirObjs d t = before ++ rest) (hnext : HeadAt tb next rest)
    (hturns : rest.length ≤ turns) :
    ∃ stack, traverseLoop T d doit turns sc tb next =
      some (visitAll step sc rest, tb.setStaticStack stack) ∧ Cursor t stack := by
  induction rest generalizing sc tb next turns before with
  | nil =>
    obtain rfl : next = none := hnext
    exact ⟨tb.staticStack, by cases turns <;> rfl, hc⟩
  | cons o rest ih =>
    obtain ⟨this, n, rfl, hthis, rfl⟩ := hnext
    obtain ⟨turns, rfl⟩ : ∃ m, turns = m + 1 :=
      Nat.exists_eq_succ_of_ne_zero (Nat.ne_zero_of_lt hturns)
    obtain ⟨next, stack, hfind, hc', hnext'⟩ := findNeighbour_headAt h.linked h.linked
      h.ascending hroom hc d (T.getkey n.dbterm)
    rw [beyond_getkey h.ascending hobjs] at hnext'
    have hthis' : (tb.setStaticStack stack).heap this = some n := hthis
    rw [traverseLoop, hthis]
    simp only [Option.bind_eq_bind, Option.bind_some, hfind, hreads _ _ _ _ hthis', visitAll]
    cases (step sc n.dbterm).2 with
    | false => exact ⟨stack, rfl, hc'⟩
    | true =>
      have hobjs' : dirObjs d t = (before ++ [n.dbterm]) ++ rest := by
        rw [hobjs, List.append_assoc]
        rfl
      exact ih _ (h.setStaticStack stack) hc' hobjs' hnext' (Nat.le_of_succ_le_succ hturns)

/-- **A traversal that only reads** is a fold over what is still to come. -/
theorem traverse_visitAll (hreads : ReadsOnly doit step) (sc : S) (h : Inv T tb t)
    (hroom : t.height ≤ stackNeed) (hc : Cursor t tb.staticStack) (d : Side)
    (lastkey : Option Key) :
    ∃ stack, tb.traverse T d lastkey doit sc =
      some (visitAll step sc (pending T d lastkey t), tb.setStaticStack stack) ∧
      Cursor t stack := by
  obtain ⟨before, hobjs⟩ := exists_append_pending (d := d) h.ascending lastkey
  have hturns : (pending T d lastkey t).length ≤ tb.nitems := by
    have hlen := congrArg List.length hobjs
    rw [length_dirObjs, ← h.nitems_eq, List.length_append] at hlen
    omega
  have hstart : ∃ next stack, tb.traverseStart T d lastkey =
      some (next, tb.setStaticStack stack) ∧ Cursor t stack ∧
        HeadAt tb next (pending T d lastkey t) := by
    cases lastkey with
    | none =>
      rw [pending_none]
      exact traverseStart_none h hroom d
    | some key =>
      obtain ⟨next, stack, hfind, hc', hnext⟩ := findNeighbour_headAt h.linked h.linked
        h.ascending hroom hc d key
      refine ⟨next, stack, ?_, hc', ?_⟩
      · rw [traverseStart, hfind]
        rfl
      · rw [pending_some]
        exact hnext
  obtain ⟨next, stack, hrun, hc', hnext⟩ := hstart
  obtain ⟨stack', hloop, hc''⟩ := traverseLoop_visitAll hreads sc
    (h.setStaticStack stack) hroom hc' hobjs hnext hturns
  refine ⟨stack', ?_, hc''⟩
  rw [DbTableTree.traverse, hrun]
  exact hloop

end PonBeam.EtsTree
