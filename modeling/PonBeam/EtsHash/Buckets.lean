import PonBeam.EtsHash.Resize
import PonBeam.Lib.Grouped

/-!
# The terms of a key

In a bucket the terms of a key stand together. An operation on the key replaces them by others
and leaves the terms before and after them alone; where its loop stops early, it stops behind
them.
-/

namespace PonBeam.EtsHash

section

variable {Key Obj : Type} {T : Terms Key Obj} {key : Key} {hval : ℕ}
  {g g' pre post : List (HashDbTerm Obj)} {status : TableType} {fixed : Bool} {ix : ℕ}
  {fixdel : List FixedDeletion} {obj : Obj}

/-- The objects of the live terms, oldest first. -/
def objsOf (g : List (HashDbTerm Obj)) : List Obj := ((g.filter live).map (·.dbterm)).reverse

theorem mem_objsOf : obj ∈ objsOf g ↔ ∃ p ∈ g, live p ∧ p.dbterm = obj := by
  simp [objsOf, and_assoc]

theorem objsOf_cons_live {p : HashDbTerm Obj} (h : p.pseudoDeleted = false) :
    objsOf (p :: g) = objsOf g ++ [p.dbterm] := by
  simp [objsOf, live, h]

theorem objsOf_cons_dead {p : HashDbTerm Obj} (h : p.pseudoDeleted = true) :
    objsOf (p :: g) = objsOf g := by
  simp [objsOf, live, h]

/-- The order of two terms in a bucket: a `bag` does not have a live term behind one with the
same object. -/
def After (T : Terms Key Obj) (status : TableType) (p q : HashDbTerm Obj) : Prop :=
  match status with
  | .set => T.getkey p.dbterm ≠ T.getkey q.dbterm
  | .bag => p.dbterm = q.dbterm → q.pseudoDeleted = true
  | .duplicateBag => True

theorem after_of_key_ne {p q : HashDbTerm Obj} (h : T.getkey p.dbterm ≠ T.getkey q.dbterm) :
    After T status p q := by
  cases status with
  | set => exact h
  | bag => exact fun heq => absurd (congrArg T.getkey heq) h
  | duplicateBag => trivial

/-- Some terms are marked as deleted, some are removed. -/
inductive Weaken : List (HashDbTerm Obj) → List (HashDbTerm Obj) → Prop where
  | nil : Weaken [] []
  | keep {l l' : List (HashDbTerm Obj)} (p : HashDbTerm Obj) (h : Weaken l l') :
    Weaken (p :: l) (p :: l')
  | mark {l l' : List (HashDbTerm Obj)} (p : HashDbTerm Obj) (h : Weaken l l') :
    Weaken (p :: l) ({ p with pseudoDeleted := true } :: l')
  | drop {l l' : List (HashDbTerm Obj)} (p : HashDbTerm Obj) (h : Weaken l l') :
    Weaken (p :: l) l'

theorem Weaken.refl (g : List (HashDbTerm Obj)) : Weaken g g := by
  induction g with
  | nil => exact .nil
  | cons p ps ih => exact .keep p ih

theorem Weaken.mem (h : Weaken g g') {p : HashDbTerm Obj} (hp : p ∈ g') :
    ∃ q ∈ g, p.dbterm = q.dbterm ∧ p.hvalue = q.hvalue ∧
      (q.pseudoDeleted = true → p.pseudoDeleted = true) := by
  induction h with
  | nil => exact absurd hp List.not_mem_nil
  | keep q _ ih =>
    rcases List.mem_cons.1 hp with rfl | hp
    · exact ⟨p, List.mem_cons_self, rfl, rfl, id⟩
    · obtain ⟨r, hr, hpr⟩ := ih hp
      exact ⟨r, List.mem_cons_of_mem q hr, hpr⟩
  | mark q _ ih =>
    rcases List.mem_cons.1 hp with rfl | hp
    · exact ⟨q, List.mem_cons_self, rfl, rfl, fun _ => rfl⟩
    · obtain ⟨r, hr, hpr⟩ := ih hp
      exact ⟨r, List.mem_cons_of_mem q hr, hpr⟩
  | drop q _ ih =>
    obtain ⟨r, hr, hpr⟩ := ih hp
    exact ⟨r, List.mem_cons_of_mem q hr, hpr⟩

theorem After.of_weaker {p q p' q' : HashDbTerm Obj} (h : After T status p q)
    (hp : p'.dbterm = p.dbterm) (hq : q'.dbterm = q.dbterm)
    (hdead : q.pseudoDeleted = true → q'.pseudoDeleted = true) : After T status p' q' := by
  cases status with
  | set =>
    simp only [After] at h ⊢
    rwa [hp, hq]
  | bag =>
    intro heq
    exact hdead (h (by rw [← hp, ← hq, heq]))
  | duplicateBag => trivial

theorem Weaken.pairwise (h : Weaken g g') (hg : g.Pairwise (After T status)) :
    g'.Pairwise (After T status) := by
  induction h with
  | nil => exact List.Pairwise.nil
  | keep p hw ih | mark p hw ih =>
    obtain ⟨hp, hps⟩ := List.pairwise_cons.1 hg
    refine List.pairwise_cons.2 ⟨fun q hq => ?_, ih hps⟩
    obtain ⟨r, hr, hterm, -, hdead⟩ := hw.mem hq
    exact (hp r hr).of_weaker rfl hterm hdead
  | drop p hw ih => exact ih (List.pairwise_cons.1 hg).2

/-- No object comes alive. -/
theorem Weaken.length_objsOf_le (h : Weaken g g') : (objsOf g').length ≤ (objsOf g).length := by
  have hfilter : ∀ l : List (HashDbTerm Obj), (objsOf l).length = (l.filter live).length := by
    intro l
    simp [objsOf]
  rw [hfilter, hfilter]
  induction h with
  | nil => exact le_rfl
  | keep p _ ih =>
    cases hp : p.pseudoDeleted <;> simpa [live, hp] using ih
  | mark p _ ih =>
    cases hp : p.pseudoDeleted <;> simp [live, hp] <;> omega
  | drop p _ ih =>
    simp only [List.filter_cons]
    split <;> simp <;> omega

/-- What a deletion does to the terms of a key: terms are marked only in a fixed table, with the
bucket remembered. Before the `first` one of a fixed table is deleted, one of them will stay. -/
structure Deleted (fixed first : Bool) (ix : ℕ) (fixdel fixdel' : List FixedDeletion)
    (g g' : List (HashDbTerm Obj)) : Prop where
  weaken : Weaken g g'
  nonempty : first = true → g ≠ [] → g' ≠ []
  remembered : ∀ d ∈ fixdel, d ∈ fixdel'
  noted : ∀ p ∈ g', p.pseudoDeleted = true →
    p ∈ g ∨ fixed = true ∧ { slot := ix, all := false } ∈ fixdel'

variable {first : Bool}

theorem Deleted.refl (fixed first : Bool) (ix : ℕ) (fixdel : List FixedDeletion)
    (g : List (HashDbTerm Obj)) : Deleted fixed first ix fixdel fixdel g g :=
  ⟨.refl g, fun _ h => h, fun _ => id, fun _ hp _ => Or.inl hp⟩

variable {fixdel' : List FixedDeletion}

theorem Deleted.keep (h : Deleted fixed first ix fixdel fixdel' g g') (first' : Bool)
    (x : HashDbTerm Obj) : Deleted fixed first' ix fixdel fixdel' (x :: g) (x :: g') := by
  refine ⟨.keep x h.weaken, fun _ _ => List.cons_ne_nil x g', h.remembered, fun p hp hpd => ?_⟩
  rcases List.mem_cons.1 hp with rfl | hp
  · exact Or.inl List.mem_cons_self
  · exact (h.noted p hp hpd).imp_left (List.mem_cons_of_mem x)

theorem Deleted.mark (h : Deleted true first ix (addFixedDeletion fixdel ix) fixdel' g g')
    (first' : Bool) (x : HashDbTerm Obj) :
    Deleted true first' ix fixdel fixdel' (x :: g) ({ x with pseudoDeleted := true } :: g') :=
  ⟨.mark x h.weaken, fun _ _ => List.cons_ne_nil _ g',
    fun d hd => h.remembered d (List.mem_cons_of_mem _ hd),
    fun _ _ _ => Or.inr ⟨rfl, h.remembered _ List.mem_cons_self⟩⟩

theorem Deleted.drop (h : Deleted fixed first ix fixdel fixdel' g g') (x : HashDbTerm Obj) :
    Deleted fixed false ix fixdel fixdel' (x :: g) g' := by
  refine ⟨.drop x h.weaken, (fun hf => nomatch hf), h.remembered, fun p hp hpd => ?_⟩
  exact (h.noted p hp hpd).imp_left (List.mem_cons_of_mem x)

variable [DecidableEq Key]

theorem hasLiveKey_eq (b : HashDbTerm Obj) :
    hasLiveKey T b key hval = (live b && hasKey T b key hval) := by
  simp only [hasLiveKey, hasKey, live]
  cases b.pseudoDeleted <;> simp

theorem hasKey_iff (b : HashDbTerm Obj) :
    hasKey T b key hval = true ↔ b.hvalue = hval ∧ T.getkey b.dbterm = key := by
  simp only [hasKey]
  split_ifs with h
  · exact ⟨(fun hf => nomatch hf), fun hb => absurd hb.1 h⟩
  · rw [decide_eq_true_iff]
    exact ⟨fun hk => ⟨not_not.1 h, hk.symm⟩, fun hb => hb.2.symm⟩

/-! ## The terms around -/

theorem takeWhile_before (hpre : ∀ x ∈ pre, hasKey T x key hval = false)
    (hg : ∀ x ∈ g, hasKey T x key hval = true) (hnil : g = [] → post = []) :
    (pre ++ (g ++ post)).takeWhile (!hasKey T · key hval) = pre ∧
      (pre ++ (g ++ post)).dropWhile (!hasKey T · key hval) = g ++ post := by
  have hpos : ∀ x ∈ pre, (!hasKey T x key hval) = true := fun x hx => by rw [hpre x hx]; rfl
  rw [List.takeWhile_append_of_pos hpos, List.dropWhile_append_of_pos hpos]
  cases g with
  | nil => simp [hnil rfl]
  | cons x xs => simp [hg x List.mem_cons_self]

theorem takeWhile_group (hg : ∀ x ∈ g, hasKey T x key hval = true)
    (hpost : ∀ x ∈ post, hasKey T x key hval = false) :
    (g ++ post).takeWhile (hasKey T · key hval) = g := by
  rw [List.takeWhile_append_of_pos hg]
  cases post with
  | nil => simp
  | cons x xs => simp [hpost x List.mem_cons_self]

/-- A `set` has one term of a key. -/
theorem set_group {b : HashDbTerm Obj} {bs : List (HashDbTerm Obj)}
    (hg : ∀ x ∈ b :: bs, hasKey T x key hval = true)
    (horder : (b :: bs).Pairwise (After T .set)) : bs = [] := by
  cases bs with
  | nil => rfl
  | cons c cs =>
    have hb := ((hasKey_iff b).1 (hg b List.mem_cons_self)).2
    have hc := ((hasKey_iff c).1 (hg c (by simp))).2
    exact absurd (hb.trans hc.symm) ((List.pairwise_cons.1 horder).1 c List.mem_cons_self)

theorem any_live_iff : g.any (!·.pseudoDeleted) = true ↔ objsOf g ≠ [] := by
  simp [objsOf, live, List.filter_eq_nil_iff]

/-! ## `db_erase_hash` -/

/-- The terms before those of the key. -/
theorem eraseLoop_before (hpre : ∀ x ∈ pre, hasKey T x key hval = false)
    (l : List (HashDbTerm Obj)) : eraseLoop T fixed ix key hval (pre ++ l) 0 fixdel =
      (pre ++ (eraseLoop T fixed ix key hval l 0 fixdel).1,
        (eraseLoop T fixed ix key hval l 0 fixdel).2) := by
  induction pre with
  | nil => rfl
  | cons x xs ih =>
    have hx : hasLiveKey T x key hval = false := by
      rw [hasLiveKey_eq, hpre x List.mem_cons_self, Bool.and_false]
    rw [List.cons_append, eraseLoop, hx]
    simp [ih fun y hy => hpre y (List.mem_cons_of_mem x hy)]

/-- The terms after them: the loop may stop or not. -/
theorem eraseLoop_after (hpost : ∀ x ∈ post, hasKey T x key hval = false) (diff : ℤ) :
    eraseLoop T fixed ix key hval post diff fixdel = (post, diff, fixdel) := by
  induction post with
  | nil => rfl
  | cons x xs ih =>
    have hx : hasLiveKey T x key hval = false := by
      rw [hasLiveKey_eq, hpost x List.mem_cons_self, Bool.and_false]
    rw [eraseLoop, hx]
    simp [ih fun y hy => hpost y (List.mem_cons_of_mem x hy)]

/-- **`db_erase_hash`** on the terms of its key, `deleted` live ones being before them. -/
theorem eraseLoop_group (fixed : Bool) (ix : ℕ) (fixdel : List FixedDeletion)
    (hg : ∀ x ∈ g, hasKey T x key hval = true)
    (hpost : ∀ x ∈ post, hasKey T x key hval = false) (deleted : ℕ) : ∃ g' fixdel',
    eraseLoop T fixed ix key hval (g ++ post) (wrapInt (-deleted)) fixdel =
      (g' ++ post, wrapInt (-deleted - (objsOf g).length), fixdel') ∧
    Deleted fixed (fixed && deleted = 0) ix fixdel fixdel' g g' ∧ objsOf g' = [] := by
  induction g generalizing deleted fixdel with
  | nil =>
    refine ⟨[], fixdel, ?_, .refl fixed _ ix fixdel [], rfl⟩
    simp [eraseLoop_after hpost, objsOf]
  | cons x xs ih =>
    have hx : hasLiveKey T x key hval = live x := by
      rw [hasLiveKey_eq, hg x List.mem_cons_self, Bool.and_true]
    have hxs := fun y hy => hg y (List.mem_cons_of_mem x hy)
    rw [List.cons_append, eraseLoop, hx]
    cases hdead : x.pseudoDeleted with
    | true =>
      obtain ⟨g', fixdel', heq, hdel, hobjs⟩ := ih fixdel hxs deleted
      refine ⟨x :: g', fixdel', ?_, hdel.keep _ x, ?_⟩
      · simp [live, hdead, heq, objsOf_cons_dead hdead]
      · rw [objsOf_cons_dead hdead, hobjs]
    | false =>
      have hnext : wrapInt (wrapInt (-deleted) - 1) = wrapInt (-((deleted + 1 : ℕ) : ℤ)) := by
        rw [wrapInt_pred]
        congr 1
        omega
      have hlen : -(deleted : ℤ) - (objsOf (x :: xs)).length =
          -((deleted + 1 : ℕ) : ℤ) - (objsOf xs).length := by
        rw [objsOf_cons_live hdead, List.length_append, List.length_singleton]
        omega
      rw [hlen]
      simp only [live, hdead, Bool.not_false, if_true, hnext]
      split_ifs with hmark
      · -- the first deletion, and again each time that the counter comes round to -1
        obtain ⟨-, rfl⟩ := hmark
        obtain ⟨g', fixdel', heq, hdel, hobjs⟩ :=
          ih (addFixedDeletion fixdel ix) hxs (deleted + 1)
        refine ⟨{ x with pseudoDeleted := true } :: g', fixdel', ?_, hdel.mark _ x, ?_⟩
        · rw [heq]
          rfl
        · rw [objsOf_cons_dead rfl, hobjs]
      · obtain ⟨g', fixdel', heq, hdel, hobjs⟩ := ih fixdel hxs (deleted + 1)
        have hfirst : (fixed && decide (deleted = 0)) = false := by
          by_contra hne
          obtain ⟨hfixed, hzero⟩ := (Bool.and_eq_true ..).mp (Bool.not_eq_false _ ▸ hne)
          obtain rfl := of_decide_eq_true hzero
          exact hmark ⟨rfl, hfixed⟩
        rw [hfirst]
        exact ⟨g', fixdel', heq, hdel.drop x, hobjs⟩

/-! ## `db_erase_object_hash` -/

variable [DecidableEq Obj]

theorem eraseObjectLoop_before (hpre : ∀ x ∈ pre, hasKey T x key hval = false)
    (l : List (HashDbTerm Obj)) :
    eraseObjectLoop T status fixed ix obj key hval (pre ++ l) 0 0 fixdel =
      (pre ++ (eraseObjectLoop T status fixed ix obj key hval l 0 0 fixdel).1,
        (eraseObjectLoop T status fixed ix obj key hval l 0 0 fixdel).2) := by
  induction pre with
  | nil => rfl
  | cons x xs ih =>
    have hx : hasLiveKey T x key hval = false := by
      rw [hasLiveKey_eq, hpre x List.mem_cons_self, Bool.and_false]
    rw [List.cons_append, eraseObjectLoop, hx]
    simp [ih fun y hy => hpre y (List.mem_cons_of_mem x hy)]

theorem eraseObjectLoop_after (hpost : ∀ x ∈ post, hasKey T x key hval = false)
    (nkeys diff : ℤ) : eraseObjectLoop T status fixed ix obj key hval post nkeys diff fixdel =
      (post, diff, fixdel) := by
  induction post with
  | nil => rfl
  | cons x xs ih =>
    have hx : hasLiveKey T x key hval = false := by
      rw [hasLiveKey_eq, hpost x List.mem_cons_self, Bool.and_false]
    rw [eraseObjectLoop, hx]
    simp [ih fun y hy => hpost y (List.mem_cons_of_mem x hy)]

/-- What is left of the objects: all equal ones go from a `duplicate_bag`, else the last. -/
def withoutObj (status : TableType) (obj : Obj) (objs : List Obj) : List Obj :=
  if status = .duplicateBag then objs.filter (· ≠ obj) else (objs.reverse.erase obj).reverse

theorem withoutObj_nil (status : TableType) (obj : Obj) : withoutObj status obj [] = [] := by
  simp [withoutObj]

theorem withoutObj_other {o : Obj} (ho : o ≠ obj) (objs : List Obj) :
    withoutObj status obj (objs ++ [o]) = withoutObj status obj objs ++ [o] := by
  unfold withoutObj
  split_ifs
  · simp [ho]
  · simp [ho]

theorem withoutObj_same (hs : status ≠ .duplicateBag) (objs : List Obj) :
    withoutObj status obj (objs ++ [obj]) = objs := by
  simp [withoutObj, hs]

theorem withoutObj_every (objs : List Obj) :
    withoutObj .duplicateBag obj (objs ++ [obj]) = withoutObj .duplicateBag obj objs := by
  simp [withoutObj]

/-- **`db_erase_object_hash`** on the terms of its key, `nkeys` live ones being before them. -/
theorem eraseObjectLoop_group (status : TableType) (fixed : Bool) (ix : ℕ)
    (fixdel : List FixedDeletion) (obj : Obj) (hg : ∀ x ∈ g, hasKey T x key hval = true)
    (hpost : ∀ x ∈ post, hasKey T x key hval = false) (nkeys : ℕ) (diff : ℤ) : ∃ g' fixdel',
    eraseObjectLoop T status fixed ix obj key hval (g ++ post) (wrapInt nkeys) (wrapInt diff)
        fixdel =
      (g' ++ post, wrapInt (diff + (objsOf g').length - (objsOf g).length), fixdel') ∧
    Deleted fixed (fixed && nkeys = 0) ix fixdel fixdel' g g' ∧
    objsOf g' = withoutObj status obj (objsOf g) := by
  induction g generalizing nkeys diff fixdel with
  | nil =>
    refine ⟨[], fixdel, ?_, .refl fixed _ ix fixdel [], (withoutObj_nil status obj).symm⟩
    simp [eraseObjectLoop_after hpost]
  | cons x xs ih =>
    have hx : hasLiveKey T x key hval = live x := by
      rw [hasLiveKey_eq, hg x List.mem_cons_self, Bool.and_true]
    have hxs := fun y hy => hg y (List.mem_cons_of_mem x hy)
    rw [List.cons_append, eraseObjectLoop, hx]
    cases hdead : x.pseudoDeleted with
    | true =>
      obtain ⟨g', fixdel', heq, hdel, hobjs⟩ := ih fixdel hxs nkeys diff
      refine ⟨x :: g', fixdel', ?_, hdel.keep _ x, ?_⟩
      · simp [live, hdead, heq, objsOf_cons_dead hdead]
      · rw [objsOf_cons_dead hdead, objsOf_cons_dead hdead, hobjs]
    | false =>
      have hnext : wrapInt (wrapInt nkeys + 1) = wrapInt ((nkeys + 1 : ℕ) : ℤ) := by
        rw [wrapInt_succ]
        push_cast
        rfl
      have hobjs : objsOf (x :: xs) = objsOf xs ++ [x.dbterm] := objsOf_cons_live hdead
      simp only [live, hdead, Bool.not_false, if_true, hnext, wrapInt_pred, hobjs,
        List.length_append, List.length_singleton]
      by_cases hobj : obj = x.dbterm
      · subst hobj
        rw [if_pos rfl]
        split_ifs with hmark hdup hdup
        · -- the first one with the key, or the one at which the count of keys is 1 again
          obtain ⟨-, rfl⟩ := hmark
          subst hdup
          obtain ⟨g', fixdel', heq, hdel, hobjs'⟩ :=
            ih (addFixedDeletion fixdel ix) hxs (nkeys + 1) (diff - 1)
          refine ⟨{ x with pseudoDeleted := true } :: g', fixdel', ?_, hdel.mark _ x, ?_⟩
          · have hdiff : diff - 1 + (objsOf g').length - (objsOf xs).length =
                diff + (objsOf g').length - ((objsOf xs).length + 1 : ℕ) := by omega
            rw [heq, objsOf_cons_dead rfl, hdiff]
            rfl
          · rw [objsOf_cons_dead rfl, hobjs', withoutObj_every]
        · obtain ⟨-, rfl⟩ := hmark
          refine ⟨{ x with pseudoDeleted := true } :: xs, addFixedDeletion fixdel ix, ?_,
            (Deleted.refl true false ix _ xs).mark _ x, ?_⟩
          · have hdiff : diff - 1 =
                diff + (objsOf xs).length - ((objsOf xs).length + 1 : ℕ) := by omega
            rw [objsOf_cons_dead rfl, ← hdiff]
            rfl
          · rw [objsOf_cons_dead rfl, withoutObj_same hdup]
        all_goals
          have hfirst : (fixed && decide (nkeys = 0)) = false := by
            by_contra hne
            obtain ⟨hfixed, hzero⟩ := (Bool.and_eq_true ..).mp (Bool.not_eq_false _ ▸ hne)
            obtain rfl := of_decide_eq_true hzero
            exact hmark ⟨rfl, hfixed⟩
          rw [hfirst]
        · subst hdup
          obtain ⟨g', fixdel', heq, hdel, hobjs'⟩ := ih fixdel hxs (nkeys + 1) (diff - 1)
          refine ⟨g', fixdel', ?_, hdel.drop x, ?_⟩
          · have hdiff : diff - 1 + (objsOf g').length - (objsOf xs).length =
                diff + (objsOf g').length - ((objsOf xs).length + 1 : ℕ) := by omega
            rw [heq, hdiff]
          · rw [hobjs', withoutObj_every]
        · refine ⟨xs, fixdel, ?_, (Deleted.refl fixed false ix fixdel xs).drop x, ?_⟩
          · have hdiff : diff - 1 =
                diff + (objsOf xs).length - ((objsOf xs).length + 1 : ℕ) := by omega
            rw [hdiff]
          · rw [withoutObj_same hdup]
      · rw [if_neg hobj]
        obtain ⟨g', fixdel', heq, hdel, hobjs'⟩ := ih fixdel hxs (nkeys + 1) diff
        refine ⟨x :: g', fixdel', ?_, hdel.keep _ x, ?_⟩
        · have hdiff : diff + (objsOf g').length - (objsOf xs).length =
              diff + ((objsOf g').length + 1 : ℕ) - ((objsOf xs).length + 1 : ℕ) := by omega
          rw [heq, objsOf_cons_live hdead, List.length_append, List.length_singleton, hdiff]
          rfl
        · rw [objsOf_cons_live hdead, hobjs', withoutObj_other (Ne.symm hobj)]

/-! ## `db_put_hash` -/

/-- The object is not there. -/
theorem findObject_none (hg : ∀ x ∈ g, hasKey T x key hval = true)
    (h : findObject T obj key hval (g ++ post) = none) : ∀ x ∈ g, x.dbterm ≠ obj := by
  induction g with
  | nil => exact fun x hx => absurd hx List.not_mem_nil
  | cons y ys ih =>
    rw [List.cons_append, findObject, if_pos (hg y List.mem_cons_self)] at h
    split_ifs at h with hobj
    intro x hx
    rcases List.mem_cons.1 hx with rfl | hx
    · exact Ne.symm hobj
    · exact ih (fun z hz => hg z (List.mem_cons_of_mem y hz)) (Option.map_eq_none_iff.1 h) x hx

/-- The first term with the object. -/
theorem findObject_some {before after : List (HashDbTerm Obj)} {q : HashDbTerm Obj}
    (hg : ∀ x ∈ g, hasKey T x key hval = true) (hpost : ∀ x ∈ post, hasKey T x key hval = false)
    (h : findObject T obj key hval (g ++ post) = some (before, q, after)) :
    ∃ rest, g = before ++ q :: rest ∧ after = rest ++ post ∧ q.dbterm = obj ∧
      ∀ x ∈ before, x.dbterm ≠ obj := by
  induction g generalizing before with
  | nil =>
    cases post with
    | nil => exact nomatch h
    | cons x xs =>
      rw [List.nil_append, findObject, hpost x List.mem_cons_self] at h
      exact nomatch h
  | cons y ys ih =>
    rw [List.cons_append, findObject, if_pos (hg y List.mem_cons_self)] at h
    split_ifs at h with hobj
    · cases h
      exact ⟨ys, rfl, rfl, hobj.symm, fun x hx => absurd hx List.not_mem_nil⟩
    · obtain ⟨⟨before', q', after'⟩, hfound, heq⟩ := Option.map_eq_some_iff.1 h
      cases heq
      obtain ⟨rest, hys, hafter, hq, hbefore⟩ :=
        ih (fun z hz => hg z (List.mem_cons_of_mem y hz)) hfound
      refine ⟨rest, by rw [hys]; rfl, hafter, hq, fun x hx => ?_⟩
      rcases List.mem_cons.1 hx with rfl | hx
      · exact Ne.symm hobj
      · exact hbefore x hx

/-- The objects of a key after an insertion. -/
def putObjs (status : TableType) (obj : Obj) (objs : List Obj) : List Obj :=
  match status with
  | .set => [obj]
  | .bag => if obj ∈ objs then objs else objs ++ [obj]
  | .duplicateBag => objs ++ [obj]

/-- What an insertion makes of the terms of its key. -/
structure Puts (T : Terms Key Obj) (status : TableType) (obj : Obj) (key : Key) (hval : ℕ)
    (keyClashFail : Bool) (g g' : List (HashDbTerm Obj)) (ret : DbError) (added : ℤ) : Prop where
  fails : keyClashFail = true ∧ objsOf g ≠ [] → ret = .badkey ∧ added = 0 ∧ g' = g
  succeeds : ¬ (keyClashFail = true ∧ objsOf g ≠ []) → ret = .none ∧
    objsOf g' = putObjs status obj (objsOf g)
  counted : added = (objsOf g').length - (objsOf g).length
  key : ∀ x ∈ g', hasKey T x key hval = true
  order : g'.Pairwise (After T status)
  nonempty : g' ≠ []
  dead : ∀ p ∈ g', p.pseudoDeleted = true → p ∈ g

/-- The term that is linked in at `Lnew`. -/
def newTerm (obj : Obj) (hval : ℕ) : HashDbTerm Obj :=
  { dbterm := obj, hvalue := hval, pseudoDeleted := false }

variable {keyClashFail : Bool}

/-- A new term in front of the others. -/
theorem puts_new (hobj : T.getkey obj = key) (hg : ∀ x ∈ g, hasKey T x key hval = true)
    (horder : g.Pairwise (After T status)) (hclash : ¬ (keyClashFail = true ∧ objsOf g ≠ []))
    (hafter : ∀ x ∈ g, After T status (newTerm obj hval) x)
    (hobjs : putObjs status obj (objsOf g) = objsOf g ++ [obj]) :
    Puts T status obj key hval keyClashFail g (newTerm obj hval :: g) .none 1 := by
  have hcons : objsOf (newTerm obj hval :: g) = objsOf g ++ [obj] := objsOf_cons_live rfl
  refine ⟨fun h => absurd h hclash, fun _ => ⟨rfl, hcons.trans hobjs.symm⟩, ?_, ?_,
    List.pairwise_cons.2 ⟨hafter, horder⟩, List.cons_ne_nil _ _, ?_⟩
  · rw [hcons, List.length_append]
    simp
  · intro x hx
    rcases List.mem_cons.1 hx with rfl | hx
    · exact (hasKey_iff _).2 ⟨rfl, hobj⟩
    · exact hg x hx
  · intro x hx hdead
    rcases List.mem_cons.1 hx with rfl | hx
    · exact nomatch hdead
    · exact hx

/-- Nothing changes. -/
theorem puts_same {ret : DbError} (hg : ∀ x ∈ g, hasKey T x key hval = true)
    (horder : g.Pairwise (After T status)) (hne : g ≠ [])
    (hfails : keyClashFail = true ∧ objsOf g ≠ [] → ret = .badkey)
    (hsucceeds : ¬ (keyClashFail = true ∧ objsOf g ≠ []) → ret = .none ∧
      objsOf g = putObjs status obj (objsOf g)) :
    Puts T status obj key hval keyClashFail g g ret 0 :=
  ⟨fun h => ⟨hfails h, rfl, rfl⟩, hsucceeds, (sub_self _).symm, hg, horder, hne, fun _ hp _ => hp⟩

/-- What `putAtKey` returns, what `INC_NITEMS` counts, and the bucket. -/
def PutAt.outcome (q : HashDbTerm Obj) (rest : List (HashDbTerm Obj)) :
    PutAt Obj → DbError × ℤ × List (HashDbTerm Obj)
  | .new _ => (.none, 1, q :: rest)
  | .done ret added _ rest' => (ret, added, rest')

/-- **`db_put_hash`** at the terms of its key. -/
theorem putAtKey_spec {b : HashDbTerm Obj} {bs : List (HashDbTerm Obj)}
    (hobj : T.getkey obj = key) (hg : ∀ x ∈ b :: bs, hasKey T x key hval = true)
    (hpost : ∀ x ∈ post, hasKey T x key hval = false)
    (horder : (b :: bs).Pairwise (After T status)) : ∃ g' ret added,
    (putAtKey T status obj key hval keyClashFail b (bs ++ post)).outcome (newTerm obj hval)
      (b :: (bs ++ post)) = (ret, added, g' ++ post) ∧
    Puts T status obj key hval keyClashFail (b :: bs) g' ret added := by
  have htake : (b :: (bs ++ post)).takeWhile (hasKey T · key hval) = b :: bs :=
    takeWhile_group hg hpost
  have hne : b :: bs ≠ [] := List.cons_ne_nil b bs
  cases status with
  | set =>
    obtain rfl := set_group hg horder
    have hb := (hasKey_iff b).1 (hg b List.mem_cons_self)
    -- the term stays, with the new object
    have hkey : ∀ x ∈ [{ b with dbterm := obj, pseudoDeleted := false }],
        hasKey T x key hval = true := by
      rintro x hx
      rw [List.mem_singleton.1 hx]
      exact (hasKey_iff _).2 ⟨hb.1, hobj⟩
    have hlive : ∀ x ∈ [{ b with dbterm := obj, pseudoDeleted := false }],
        x.pseudoDeleted = true → x ∈ [b] := by
      rintro x hx hdead
      rw [List.mem_singleton.1 hx] at hdead
      exact nomatch hdead
    cases hdead : b.pseudoDeleted with
    | true =>
      have hobjs : objsOf [b] = [] := objsOf_cons_dead hdead
      refine ⟨[{ b with dbterm := obj, pseudoDeleted := false }], .none, 1, ?_,
        fun h => absurd hobjs h.2, fun _ => ⟨rfl, rfl⟩, ?_, hkey, List.pairwise_singleton _ _,
        List.cons_ne_nil _ _, hlive⟩
      · simp [putAtKey, hdead, PutAt.outcome]
      · rw [hobjs]
        rfl
    | false =>
      have hobjs : objsOf [b] = [b.dbterm] := objsOf_cons_live hdead
      cases keyClashFail with
      | true =>
        refine ⟨[b], .badkey, 0, ?_, puts_same hg horder hne (fun _ => rfl) fun h => ?_⟩
        · simp [putAtKey, hdead, PutAt.outcome]
        · exact absurd ⟨rfl, by rw [hobjs]; exact List.cons_ne_nil _ _⟩ h
      | false =>
        refine ⟨[{ b with dbterm := obj, pseudoDeleted := false }], .none, 0, ?_,
          (fun h => nomatch h.1), fun _ => ⟨rfl, rfl⟩, ?_, hkey, List.pairwise_singleton _ _,
          List.cons_ne_nil _ _, hlive⟩
        · simp [putAtKey, hdead, PutAt.outcome]
        · rw [hobjs]
          rfl
  | bag =>
    cases keyClashFail with
    | true =>
      by_cases hany : objsOf (b :: bs) ≠ []
      · refine ⟨b :: bs, .badkey, 0, ?_, puts_same hg horder hne (fun _ => rfl) fun h => ?_⟩
        · simp only [putAtKey, htake, any_live_iff.2 hany, if_true, PutAt.outcome]
          rfl
        · exact absurd ⟨rfl, hany⟩ h
      · have hnone : (b :: bs).any (!·.pseudoDeleted) = false := by
          rw [← Bool.not_eq_true, any_live_iff]
          exact hany
        have hobjs : objsOf (b :: bs) = [] := not_not.1 hany
        refine ⟨newTerm obj hval :: b :: bs, .none, 1, ?_, puts_new hobj hg horder
          (fun h => hany h.2) (fun x hx _ => ?_) ?_⟩
        · simp only [putAtKey, htake, hnone, if_true, Bool.false_eq_true, if_false, PutAt.outcome]
          rfl
        · simpa using (List.any_eq_false.1 hnone) x hx
        · simp [hobjs, putObjs]
    | false =>
      have hclash : ¬ (false = true ∧ objsOf (b :: bs) ≠ []) := fun h => nomatch h.1
      cases hfind : findObject T obj key hval (b :: bs ++ post) with
      | none =>
        have hnot := findObject_none hg hfind
        refine ⟨newTerm obj hval :: b :: bs, .none, 1, ?_, puts_new hobj hg horder hclash
          (fun x hx heq => absurd heq.symm (hnot x hx)) ?_⟩
        · rw [List.cons_append] at hfind
          simp only [putAtKey, hfind, Bool.false_eq_true, if_false, PutAt.outcome]
          rfl
        · refine if_neg fun hmem => ?_
          obtain ⟨p, hp, -, hpo⟩ := mem_objsOf.1 hmem
          exact hnot p hp hpo
      | some found =>
        obtain ⟨before, q, after⟩ := found
        obtain ⟨rest, hsplit, rfl, hq, hbefore⟩ := findObject_some hg hpost hfind
        rw [List.cons_append] at hfind
        have hmem : q ∈ b :: bs := by
          rw [hsplit]
          simp
        cases hdead : q.pseudoDeleted with
        | true =>
          -- revived, in front of the others
          have hperm : ∀ x ∈ before ++ rest, x ∈ b :: bs := by
            rw [hsplit]
            intro x hx
            rcases List.mem_append.1 hx with hx | hx
            · exact List.mem_append_left _ hx
            · exact List.mem_append_right _ (List.mem_cons_of_mem q hx)
          have hobjs : objsOf (b :: bs) = objsOf (before ++ rest) := by
            rw [hsplit]
            simp [objsOf, live, hdead]
          rw [hsplit] at horder
          have hsub : (before ++ rest).Sublist (before ++ q :: rest) :=
            (List.sublist_cons_self q rest).append_left before
          have hq' := (List.pairwise_cons.1 (List.pairwise_append.1 horder).2.1).1
          have hnot : obj ∉ objsOf (b :: bs) := by
            rw [hobjs, mem_objsOf]
            rintro ⟨p, hp, hlive, hpo⟩
            rcases List.mem_append.1 hp with hp | hp
            · exact hbefore p hp hpo
            · simp [live, hq' p hp (hq.trans hpo.symm)] at hlive
          have hcons : objsOf ({ q with pseudoDeleted := false } :: (before ++ rest)) =
              objsOf (b :: bs) ++ [obj] := by
            rw [objsOf_cons_live rfl, hobjs, hq]
          refine ⟨{ q with pseudoDeleted := false } :: (before ++ rest), .none, 1, ?_,
            (fun h => nomatch h.1), fun _ => ⟨rfl, ?_⟩, ?_, ?_, ?_, List.cons_ne_nil _ _, ?_⟩
          · simp [putAtKey, hfind, hdead, PutAt.outcome]
          · rw [hcons]
            exact (if_neg hnot).symm
          · rw [hcons, List.length_append]
            simp
          · intro x hx
            rcases List.mem_cons.1 hx with rfl | hx
            · exact (hasKey_iff _).2 ((hasKey_iff q).1 (hg q hmem))
            · exact hg x (hperm x hx)
          · refine List.pairwise_cons.2 ⟨fun x hx heq => ?_, horder.sublist hsub⟩
            rcases List.mem_append.1 hx with hx | hx
            · exact absurd (heq.symm.trans hq) (hbefore x hx)
            · exact hq' x hx heq
          · intro x hx hxd
            rcases List.mem_cons.1 hx with rfl | hx
            · exact nomatch hxd
            · exact hperm x hx
        | false =>
          refine ⟨b :: bs, .none, 0, ?_, puts_same hg horder hne (fun h => nomatch h.1)
            fun _ => ⟨rfl, ?_⟩⟩
          · simp [putAtKey, hfind, hdead, PutAt.outcome]
          · have hin : obj ∈ objsOf (b :: bs) :=
              mem_objsOf.2 ⟨q, hmem, by simp [live, hdead], hq⟩
            exact (if_pos hin).symm
  | duplicateBag =>
    by_cases hfails : keyClashFail = true ∧ objsOf (b :: bs) ≠ []
    · obtain ⟨rfl, hany⟩ := hfails
      refine ⟨b :: bs, .badkey, 0, ?_, puts_same hg horder hne (fun _ => rfl) fun h => ?_⟩
      · simp only [putAtKey, htake, any_live_iff.2 hany, if_true, PutAt.outcome]
        rfl
      · exact absurd ⟨rfl, hany⟩ h
    · refine ⟨newTerm obj hval :: b :: bs, .none, 1, ?_, puts_new hobj hg horder hfails
        (fun _ _ => trivial) rfl⟩
      simp only [putAtKey, htake, any_live_iff]
      split_ifs with h1 h2
      · exact absurd ⟨h1, h2⟩ hfails
      · rfl
      · rfl

end

end PonBeam.EtsHash
