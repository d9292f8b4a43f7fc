import PonBeam.EtsHash.Contents
import Mathlib.Algebra.Order.Group.Multiset
import Mathlib.Data.List.TakeWhile

/-!
# `set`, `bag` and `duplicate_bag`

A hash table is a collection of objects: one for each key, distinct ones, or any. It answers as
the collection does, whatever the fixations and however it grows and shrinks.
-/

namespace PonBeam.EtsHash

section

variable {Key Obj : Type} {T : Terms Key Obj} {status : TableType}
  {objs : List Obj} {tb tb' : DbTableHash Obj}

/-! ## Collections -/

/-- Objects in the order of their insertion. -/
abbrev Collection (Obj : Type) : Type := List Obj

namespace Collection

/-- One object for each key, or distinct objects. -/
def Valid (T : Terms Key Obj) (status : TableType) (objs : Collection Obj) : Prop :=
  match status with
  | .set => objs.Pairwise fun o o' => T.getkey o ≠ T.getkey o'
  | .bag => objs.Nodup
  | .duplicateBag => True

theorem Valid.filter (h : Valid T status objs) (f : Obj → Bool) : Valid T status (objs.filter f) := by
  cases status with
  | set => exact List.Pairwise.sublist List.filter_sublist h
  | bag => exact List.Nodup.filter f h
  | duplicateBag => trivial

variable [DecidableEq Obj]

/-- Deleting the last one of equal objects deletes them all, if there is one at most. -/
theorem Valid.withoutObj_eq {obj : Obj} (h : Valid T status objs) :
    withoutObj status obj objs = objs.filter (· ≠ obj) := by
  unfold withoutObj
  split_ifs with hdup
  · rfl
  · have hnodup : objs.Nodup := by
      cases status with
      | set => exact h.imp fun hne heq => hne (congrArg T.getkey heq)
      | bag => exact h
      | duplicateBag => exact absurd rfl hdup
    rw [(List.nodup_reverse.2 hnodup).erase_eq_filter, ← List.filter_reverse, List.reverse_reverse]
    refine List.filter_congr fun o _ => ?_
    by_cases ho : o = obj <;> simp [ho]

variable [DecidableEq Key]

/-- One more object. -/
def add (T : Terms Key Obj) (status : TableType) (objs : Collection Obj) (obj : Obj) :
    Collection Obj :=
  match status with
  | .set => notOfKey T (T.getkey obj) objs ++ [obj]
  | .bag => if obj ∈ objs then objs else objs ++ [obj]
  | .duplicateBag => objs ++ [obj]

/-- An insertion. -/
def put (T : Terms Key Obj) (status : TableType) (objs : Collection Obj) (obj : Obj)
    (keyClashFail : Bool) : DbError × Collection Obj :=
  if keyClashFail = true ∧ ofKey T (T.getkey obj) objs ≠ [] then (.badkey, objs)
  else (.none, add T status objs obj)

/-- One operation. -/
def step (T : Terms Key Obj) (status : TableType) (objs : Collection Obj) : Op Key Obj → Answer Obj × Collection Obj
  | .put obj keyClashFail =>
    let r := put T status objs obj keyClashFail
    (.put r.1, r.2)
  | .get key => (.got (ofKey T key objs), objs)
  | .member key => (.member (decide (ofKey T key objs ≠ [])), objs)
  | .erase key => (.ok, notOfKey T key objs)
  | .eraseObject obj => (.ok, objs.filter (· ≠ obj))
  | .fix | .unfix => (.ok, objs)

/-- A sequence of operations. -/
def run (T : Terms Key Obj) (status : TableType) (objs : Collection Obj) :
    List (Op Key Obj) → List (Answer Obj) × Collection Obj
  | [] => ([], objs)
  | op :: ops =>
    let first := step T status objs op
    let rest := run T status first.2 ops
    (first.1 :: rest.1, rest.2)

/-- No operation deletes more than `2 ^ 31` objects at once. -/
def FewDeleted (T : Terms Key Obj) (status : TableType) : Collection Obj → List (Op Key Obj) → Prop
  | _, [] => True
  | objs, op :: ops =>
    objs.length ≤ (step T status objs op).2.length + 2147483648 ∧
      FewDeleted T status (step T status objs op).2 ops

theorem Valid.add (h : Valid T status objs) (obj : Obj) : Valid T status (add T status objs obj) := by
  cases status with
  | set =>
    refine List.pairwise_append.2 ⟨h.filter _, List.pairwise_singleton _ _, fun o ho o' ho' => ?_⟩
    rw [List.mem_singleton.1 ho']
    exact of_decide_eq_true (List.mem_filter.1 ho).2
  | bag =>
    by_cases hmem : obj ∈ objs
    · rwa [Collection.add, if_pos hmem]
    · rw [Collection.add, if_neg hmem]
      refine List.nodup_append.2 ⟨h, List.nodup_singleton obj, fun o ho o' ho' heq => ?_⟩
      rw [List.mem_singleton.1 ho'] at heq
      exact hmem (heq ▸ ho)
  | duplicateBag => trivial

theorem Valid.put (h : Valid T status objs) (obj : Obj) (keyClashFail : Bool) :
    Valid T status (put T status objs obj keyClashFail).2 := by
  unfold Collection.put
  split_ifs
  · exact h
  · exact h.add obj

theorem Valid.step (h : Valid T status objs) (op : Op Key Obj) :
    Valid T status (step T status objs op).2 := by
  cases op with
  | put obj keyClashFail => exact h.put obj keyClashFail
  | get key | member key | fix | unfix => exact h
  | erase key => exact h.filter _
  | eraseObject obj => exact h.filter _

theorem add_other (obj : Obj) : notOfKey T (T.getkey obj) (add T status objs obj) =
    notOfKey T (T.getkey obj) objs := by
  cases status with
  | set => simp [add, notOfKey]
  | bag =>
    unfold add
    split_ifs
    · rfl
    · simp [notOfKey]
  | duplicateBag => simp [add, notOfKey]

theorem add_same (obj : Obj) : ofKey T (T.getkey obj) (add T status objs obj) =
    putObjs status obj (ofKey T (T.getkey obj) objs) := by
  cases status with
  | set => simp [add, ofKey, notOfKey, putObjs]
  | bag =>
    have hmem : obj ∈ ofKey T (T.getkey obj) objs ↔ obj ∈ objs := by simp [ofKey]
    simp only [add, putObjs, hmem]
    split_ifs
    · rfl
    · simp [ofKey]
  | duplicateBag => simp [add, ofKey, putObjs]

end Collection

/-! ## Looking up -/

theorem buildTermList_eq (ptrs : List (HashDbTerm Obj)) : buildTermList ptrs = objsOf ptrs := by
  have hfold : ∀ list : List Obj, ptrs.foldl (fun list ptr =>
      if ptr.pseudoDeleted then list else ptr.dbterm :: list) list = objsOf ptrs ++ list := by
    induction ptrs with
    | nil => exact fun _ => rfl
    | cons p ps ih =>
      intro list
      rw [List.foldl_cons, ih]
      cases hp : p.pseudoDeleted with
      | true => rw [objsOf_cons_dead hp, if_pos rfl]
      | false => simp [objsOf_cons_live hp]
  rw [buildTermList, hfold, List.append_nil]

variable [DecidableEq Key] {key : Key}

/-- From the first live term on. -/
theorem dropWhile_live {hval : ℕ} {g post : List (HashDbTerm Obj)}
    (hg : ∀ x ∈ g, hasKey T x key hval = true) (hpost : ∀ x ∈ post, hasKey T x key hval = false) :
    (g ++ post).dropWhile (!hasLiveKey T · key hval) = [] ∧ objsOf g = [] ∨
    ∃ b rest, (g ++ post).dropWhile (!hasLiveKey T · key hval) = b :: (rest ++ post) ∧
      (b :: rest).Sublist g ∧ objsOf (b :: rest) = objsOf g := by
  induction g with
  | nil =>
    refine Or.inl ⟨List.dropWhile_eq_nil_iff.2 fun x hx => ?_, rfl⟩
    rw [hasLiveKey_eq, hpost x hx, Bool.and_false]
    rfl
  | cons x xs ih =>
    have hx : hasLiveKey T x key hval = live x := by
      rw [hasLiveKey_eq, hg x List.mem_cons_self, Bool.and_true]
    cases hdead : x.pseudoDeleted with
    | true =>
      have hdrop : (x :: xs ++ post).dropWhile (!hasLiveKey T · key hval) =
          (xs ++ post).dropWhile (!hasLiveKey T · key hval) := by
        simp [hx, live, hdead]
      rw [hdrop, objsOf_cons_dead hdead]
      refine (ih fun y hy => hg y (List.mem_cons_of_mem x hy)).imp_right ?_
      rintro ⟨b, rest, heq, hsub, hobjs⟩
      exact ⟨b, rest, heq, hsub.trans (List.sublist_cons_self x xs), hobjs⟩
    | false =>
      refine Or.inr ⟨x, xs, ?_, List.Sublist.refl _, rfl⟩
      simp [hx, live, hdead]

theorem dbGetHash_eq (h : Inv T tb objs) (key : Key) : dbGetHash T tb key = ofKey T key objs := by
  obtain ⟨pre, g, post, ha, hobjs⟩ := h.around key
  have hpre : ∀ x ∈ pre, (!hasLiveKey T x key (T.makeHash key)) = true := by
    intro x hx
    rw [hasLiveKey_eq, ha.before x hx, Bool.and_false]
    rfl
  unfold dbGetHash
  simp only [ha.bucket_eq, List.dropWhile_append_of_pos hpre]
  rw [← hobjs]
  rcases dropWhile_live ha.terms ha.after with ⟨heq, hnone⟩ | ⟨b, rest, heq, hsub, hsame⟩
  · rw [heq, hnone]
  · have hrest : ∀ x ∈ b :: rest, hasKey T x key (T.makeHash key) = true := fun x hx =>
      ha.terms x (hsub.subset hx)
    have hgroup : b :: (rest ++ post).takeWhile (hasKey T · key (T.makeHash key)) = b :: rest := by
      rw [takeWhile_group (fun x hx => hrest x (List.mem_cons_of_mem b hx)) ha.after]
    have horder := ha.order.sublist hsub
    rw [heq, ← hsame]
    cases hstatus : tb.status with
    | set =>
      rw [hstatus] at horder
      rw [set_group hrest horder]
      simp only [getTermList, hstatus, buildTermList_eq]
    | bag | duplicateBag => simp only [getTermList, hstatus, buildTermList_eq, hgroup]

theorem dbMemberHash_eq (h : Inv T tb objs) (key : Key) :
    dbMemberHash T tb key = decide (ofKey T key objs ≠ []) := by
  obtain ⟨pre, g, post, ha, hobjs⟩ := h.around key
  have hiff : (tb.bucket (tb.hashToIx (T.makeHash key))).any
      (hasLiveKey T · key (T.makeHash key)) = true ↔ g.any (!·.pseudoDeleted) = true := by
    rw [ha.bucket_eq, List.any_eq_true, List.any_eq_true]
    simp only [hasLiveKey_eq, live, Bool.and_eq_true]
    constructor
    · rintro ⟨x, hx, hlive, hkey⟩
      refine ⟨x, ?_, hlive⟩
      rcases List.mem_append.1 hx with hx | hx
      · exact absurd hkey (by simp [ha.before x hx])
      · rcases List.mem_append.1 hx with hx | hx
        · exact hx
        · exact absurd hkey (by simp [ha.after x hx])
    · rintro ⟨x, hx, hlive⟩
      exact ⟨x, by simp [hx], hlive, ha.terms x hx⟩
  rw [← hobjs, Bool.eq_iff_iff, decide_eq_true_iff, ← any_live_iff]
  exact hiff

/-! ## Deleting -/

theorem addNitems_zero (tb : DbTableHash Obj) (hval : ℕ) : tb.addNitems hval 0 = tb := by
  simp [DbTableHash.addNitems]

/-- An operation on a key: the terms of the key are others. In a fixed table some stay. -/
structure Regroups (T : Terms Key Obj) (key : Key) (tb tb' : DbTableHash Obj) : Prop where
  same : SameLayout tb tb'
  status_eq : tb'.status = tb.status
  fixCount_eq : tb'.fixCount = tb.fixCount
  terms : ∃ pre g g' post, Around T tb key pre g post ∧
    tb'.bucket =
      Function.update tb.bucket (tb.hashToIx (T.makeHash key)) (pre ++ (g' ++ post)) ∧
    (∀ x ∈ g', hasKey T x key (T.makeHash key) = true) ∧
    (tb.fixCount ≠ 0 → g ≠ [] → g' ≠ [])

/-- After the loop of a deletion. -/
theorem finishErase_spec (h : Inv T tb objs) {objs' : List Obj} {pre g g' post : List (HashDbTerm Obj)}
    {fixdel : List FixedDeletion} {r : List (HashDbTerm Obj) × ℤ × List FixedDeletion}
    (ha : Around T tb key pre g post) (hobjs : objsOf g = ofKey T key objs)
    (hdel : Deleted tb.isFixed tb.isFixed (tb.hashToIx (T.makeHash key)) tb.fixdel fixdel g g')
    (hother : notOfKey T key objs' = notOfKey T key objs) (hsame : ofKey T key objs' = objsOf g')
    (hr : r = (pre ++ (g' ++ post), wrapInt ((objsOf g').length - (objsOf g).length), fixdel)) :
    ∃ tb', Regroups T key tb tb' ∧ Inv T tb' objs' ∧
    tb'.nitems = tb.nitems + wrapInt (objs'.length - objs.length) ∧
    (finishErase tb (tb.hashToIx (T.makeHash key)) (T.makeHash key) r = tb' ∨
      tb.fixCount = 0 ∧ ∃ nitems, 0 ≤ nitems ∧
        finishErase tb (tb.hashToIx (T.makeHash key)) (T.makeHash key) r = tb'.shrink nitems) := by
  subst hr
  have hkey : ∀ x ∈ g', hasKey T x key (T.makeHash key) = true := by
    intro x hx
    obtain ⟨y, hy, hterm, hval, -⟩ := hdel.weaken.mem hx
    rw [hasKey_iff, hterm, hval, ← hasKey_iff]
    exact ha.terms y hy
  have hinv : Inv T (DbTableHash.addNitems { tb with
      bucket := Function.update tb.bucket (tb.hashToIx (T.makeHash key)) (pre ++ (g' ++ post))
      fixdel := fixdel } (T.makeHash key)
        (wrapInt ((objsOf g').length - (objsOf g).length))) objs' := by
    refine h.replace ha hkey (hdel.weaken.pairwise ha.order) hdel.remembered (fun p hp hpd => ?_)
      hother hsame ⟨rfl, rfl, rfl, rfl, rfl, rfl, rfl⟩ rfl rfl rfl ?_
    · refine (hdel.noted p hp hpd).imp_right fun hfix => ⟨?_, hfix.2⟩
      simpa [DbTableHash.isFixed] using hfix.1
    · refine Counted.addNitems ?_ hother ?_
      · exact ⟨h.counted.le_nitems, h.counted.le_lockNitems⟩
      · have hle := hdel.weaken.length_objsOf_le
        rw [hsame, ← hobjs]
        exact le_wrapInt (by omega)
  have hnitems : ((objsOf g').length : ℤ) - (objsOf g).length = objs'.length - objs.length := by
    rw [length_eq_add (T := T) key objs, length_eq_add (T := T) key objs', hother, hsame, hobjs]
    push_cast
    omega
  have hregroups : Regroups T key tb (DbTableHash.addNitems { tb with
      bucket := Function.update tb.bucket (tb.hashToIx (T.makeHash key)) (pre ++ (g' ++ post))
      fixdel := fixdel } (T.makeHash key)
        (wrapInt ((objsOf g').length - (objsOf g).length))) :=
    ⟨⟨rfl, rfl, rfl, rfl, rfl, rfl, rfl⟩, rfl, rfl, pre, g, g', post, ha, rfl, hkey,
      fun hfix => hdel.nonempty (by simpa [DbTableHash.isFixed] using hfix)⟩
  refine ⟨_, hregroups, hinv, hnitems ▸ rfl, ?_⟩
  simp only [finishErase]
  split_ifs with hdiff
  · rw [DbTableHash.tryShrink]
    split_ifs with hshrink
    · refine Or.inr ⟨?_, _, hinv.counted.nitemsEstimate_nonneg _, rfl⟩
      simpa [DbTableHash.isFixed, DbTableHash.addNitems] using hshrink.2
    · exact Or.inl rfl
  · left
    rw [not_not.1 hdiff, addNitems_zero]

theorem dbEraseHash_spec (h : Inv T tb objs) (key : Key) : ∃ tb', Regroups T key tb tb' ∧
    Inv T tb' (notOfKey T key objs) ∧
    tb'.nitems = tb.nitems + wrapInt ((notOfKey T key objs).length - objs.length) ∧
    (dbEraseHash T tb key = tb' ∨
      tb.fixCount = 0 ∧ ∃ nitems, 0 ≤ nitems ∧ dbEraseHash T tb key = tb'.shrink nitems) := by
  obtain ⟨pre, g, post, ha, hobjs⟩ := h.around key
  obtain ⟨g', fixdel, hloop, hdel, hnone⟩ := eraseLoop_group tb.isFixed
    (tb.hashToIx (T.makeHash key)) tb.fixdel ha.terms ha.after 0
  have hstart : wrapInt (-((0 : ℕ) : ℤ)) = 0 := rfl
  rw [hstart] at hloop
  refine finishErase_spec h ha hobjs (by simpa using hdel) ?_ ?_ ?_
  · simp [notOfKey]
  · rw [hnone]
    simp [ofKey, notOfKey]
  · rw [ha.bucket_eq, eraseLoop_before ha.before, hloop, hnone]
    simp

/-- A table after a deletion, shrunk or not. -/
theorem Regroups.erased {tb'' : DbTableHash Obj} (hre : Regroups T key tb tb') (hinv : Inv T tb' objs)
    (htable : tb'' = tb' ∨ tb.fixCount = 0 ∧ ∃ nitems, 0 ≤ nitems ∧ tb'' = tb'.shrink nitems) :
    Inv T tb'' objs ∧ tb''.status = tb.status ∧ tb''.nlocks = tb.nlocks ∧
      tb''.nitems = tb'.nitems := by
  rcases htable with rfl | ⟨hfix, nitems, hpos, rfl⟩
  · exact ⟨hinv, hre.status_eq, hre.same.nlocks, rfl⟩
  · have hfix' : tb'.fixCount = 0 := hre.fixCount_eq.trans hfix
    have hsame := shrink_same hinv.laid hfix' hpos
    exact ⟨hinv.shrink hfix' hpos, hsame.status.trans hre.status_eq,
      hsame.nlocks.trans hre.same.nlocks, hsame.nitems⟩

/-! ## Fixations -/

/-- The table with some of its buckets purged. -/
structure Purged (slots : List ℕ) (tb tb' : DbTableHash Obj) : Prop where
  layout : SameLayout tb tb'
  same : SameTable tb tb'
  bucket_eq : ∀ i < tb.nactive, tb'.bucket i =
    if i ∈ slots then (tb.bucket i).filter live else tb.bucket i

omit [DecidableEq Key] in
theorem purged_purgeSlot (slot : ℕ) (tb : DbTableHash Obj) : Purged [slot] tb (purgeSlot tb slot) := by
  unfold purgeSlot
  split_ifs with hslot
  · refine ⟨⟨rfl, rfl, rfl, rfl, rfl, rfl, rfl⟩, ⟨rfl, rfl, rfl, rfl, rfl, rfl, rfl⟩, fun i hi => ?_⟩
    by_cases his : i = slot
    · rw [if_pos (List.mem_singleton.2 his), his]
      exact Function.update_self ..
    · rw [if_neg (mt List.mem_singleton.1 his)]
      exact Function.update_of_ne his ..
  · refine ⟨⟨rfl, rfl, rfl, rfl, rfl, rfl, rfl⟩, ⟨rfl, rfl, rfl, rfl, rfl, rfl, rfl⟩, fun i hi => ?_⟩
    rw [if_neg]
    rintro his
    exact hslot (List.mem_singleton.1 his ▸ hi)

omit [DecidableEq Key] in
theorem purged_foldl (slots : List ℕ) (tb : DbTableHash Obj) :
    Purged slots tb (slots.foldl purgeSlot tb) := by
  induction slots generalizing tb with
  | nil =>
    exact ⟨⟨rfl, rfl, rfl, rfl, rfl, rfl, rfl⟩, ⟨rfl, rfl, rfl, rfl, rfl, rfl, rfl⟩, fun _ _ => rfl⟩
  | cons slot slots ih =>
    have hfirst := purged_purgeSlot slot tb
    have hrest := ih (purgeSlot tb slot)
    refine ⟨hfirst.layout.trans hrest.layout, hfirst.same.trans hrest.same, fun i hi => ?_⟩
    rw [List.foldl_cons, hrest.bucket_eq i (hfirst.layout.nactive ▸ hi), hfirst.bucket_eq i hi]
    have hlive : ((tb.bucket i).filter live).filter live = (tb.bucket i).filter live := by
      rw [List.filter_filter]
      exact List.filter_congr fun p _ => Bool.and_self _
    by_cases his : i = slot
    · subst his
      simp [hlive]
    · simp [his]

/-- Terms that were deleted are removed from their buckets. -/
theorem Inv.purge (h : Inv T tb objs) (hlayout : SameLayout tb tb') (hstatus : tb'.status = tb.status)
    (hcounted : Counted T tb' objs)
    (hbucket : ∀ i < tb.nactive, tb'.bucket i = tb.bucket i ∨
      tb'.bucket i = (tb.bucket i).filter live)
    (hremembered : ∀ i < tb.nactive, ∀ p ∈ tb'.bucket i, p.pseudoDeleted = true →
      tb'.fixCount ≠ 0 ∧ { slot := i, all := false } ∈ tb'.fixdel) : Inv T tb' objs := by
  have hsub : ∀ i < tb.nactive, ∀ p ∈ tb'.bucket i, p ∈ tb.bucket i := by
    intro i hi p hp
    rcases hbucket i hi with heq | heq
    · rwa [heq] at hp
    · rw [heq] at hp
      exact (List.mem_filter.1 hp).1
  refine ⟨⟨hlayout.shape h.laid.shape, fun i hi p hp => ?_⟩, fun i hi => ?_, ?_, hcounted,
    fun key => ?_⟩
  · rw [hlayout.nactive] at hi
    rw [hlayout.hashToIx_eq]
    exact h.laid.placed i hi p (hsub i hi p hp)
  · rw [hlayout.nactive] at hi
    rw [hstatus]
    rcases hbucket i hi with heq | heq
    · rw [heq]
      exact h.bucketOk i hi
    · rw [heq]
      exact (h.bucketOk i hi).filter live
  · rw [hlayout.nactive]
    exact hremembered
  · rw [← h.objects_eq, DbTableHash.objects, DbTableHash.objects, hlayout.hashToIx_eq]
    rcases hbucket _ (h.laid.shape.mask.hashToIx_lt (T.makeHash key)) with heq | heq
    · rw [heq]
    · rw [heq, objsOf, objsOf, List.filter_filter, List.filter_filter, List.filter_filter]
      congr 2
      refine List.filter_congr fun p _ => ?_
      cases live p <;> simp

theorem fixTable_inv (h : Inv T tb objs) : Inv T (fixTable tb) objs := by
  refine h.purge ⟨rfl, rfl, rfl, rfl, rfl, rfl, rfl⟩ rfl
    ⟨h.counted.le_nitems, h.counted.le_lockNitems⟩ (fun _ _ => Or.inl rfl) fun i hi p hp hpd => ?_
  exact ⟨Nat.succ_ne_zero _, (h.remembered i hi p hp hpd).2⟩

omit [DecidableEq Key] in
theorem unfixTable_same (tb : DbTableHash Obj) :
    (unfixTable tb).status = tb.status ∧ (unfixTable tb).nlocks = tb.nlocks ∧
      (unfixTable tb).nitems = tb.nitems := by
  simp only [unfixTable, dbUnfixTableHash]
  split_ifs
  · exact ⟨rfl, rfl, rfl⟩
  · have hpurged := purged_foldl (tb.fixdel.flatMap FixedDeletion.slots)
      { tb with fixCount := tb.fixCount - 1 }
    exact ⟨hpurged.same.status, hpurged.same.nlocks, hpurged.same.nitems⟩
  · exact ⟨rfl, rfl, rfl⟩
  · exact ⟨rfl, rfl, rfl⟩

/-- **The last fixation ends** with the deleted terms removed. -/
theorem unfixTable_inv (h : Inv T tb objs) : Inv T (unfixTable tb) objs := by
  by_cases hfixed : tb.isFixed = true
  · have hcounted : Counted T { tb with fixCount := tb.fixCount - 1 } objs :=
      ⟨h.counted.le_nitems, h.counted.le_lockNitems⟩
    rw [unfixTable, if_pos hfixed]
    by_cases hmore : DbTableHash.isFixed { tb with fixCount := tb.fixCount - 1 } = true
    · have hnot : ¬ (¬ DbTableHash.isFixed { tb with fixCount := tb.fixCount - 1 } = true ∧
          tb.fixdel ≠ []) := fun hn => hn.1 hmore
      simp only [if_neg hnot]
      refine h.purge ⟨rfl, rfl, rfl, rfl, rfl, rfl, rfl⟩ rfl hcounted (fun _ _ => Or.inl rfl)
        fun i hi p hp hpd => ⟨?_, (h.remembered i hi p hp hpd).2⟩
      simpa [DbTableHash.isFixed] using hmore
    · by_cases hnil : tb.fixdel = []
      · have hnot : ¬ (¬ DbTableHash.isFixed { tb with fixCount := tb.fixCount - 1 } = true ∧
            tb.fixdel ≠ []) := fun hn => hn.2 hnil
        simp only [if_neg hnot]
        refine h.purge ⟨rfl, rfl, rfl, rfl, rfl, rfl, rfl⟩ rfl hcounted (fun _ _ => Or.inl rfl)
          fun i hi p hp hpd => ?_
        have hmem := (h.remembered i hi p hp hpd).2
        rw [hnil] at hmem
        exact absurd hmem List.not_mem_nil
      · simp only [if_pos (And.intro hmore hnil), dbUnfixTableHash, if_neg hmore]
        have hpurged := purged_foldl (tb.fixdel.flatMap FixedDeletion.slots)
          { tb with fixCount := tb.fixCount - 1 }
        generalize (tb.fixdel.flatMap FixedDeletion.slots).foldl purgeSlot
          { tb with fixCount := tb.fixCount - 1 } = tb' at hpurged ⊢
        obtain ⟨⟨hl1, hl2, hl3, hl4, hl5, hl6, hl7⟩, hsame, hbucket⟩ := hpurged
        refine h.purge ⟨hl1, hl2, hl3, hl4, hl5, hl6, hl7⟩ hsame.status
          ⟨hsame.nitems.symm ▸ h.counted.le_nitems, fun hdec j => ?_⟩ (fun i hi => ?_)
          fun i hi p hp hpd => ?_
        · rw [hsame.lockNitems]
          exact h.counted.le_lockNitems (hsame.isDecentralized.symm.trans hdec) j
        · by_cases hslot : i ∈ tb.fixdel.flatMap FixedDeletion.slots
          · exact Or.inr ((hbucket i hi).trans (if_pos hslot))
          · exact Or.inl ((hbucket i hi).trans (if_neg hslot))
        · -- its bucket is in the list
          have hslot : p ∈ tb.bucket i → i ∈ tb.fixdel.flatMap FixedDeletion.slots := fun hp =>
            List.mem_flatMap.2 ⟨_, (h.remembered i hi p hp hpd).2, List.mem_singleton.2 rfl⟩
          have heq := hbucket i hi
          by_cases hmem : i ∈ tb.fixdel.flatMap FixedDeletion.slots
          · rw [if_pos hmem] at heq
            have hlive := (List.mem_filter.1 (heq ▸ hp)).2
            simp [live, hpd] at hlive
          · rw [if_neg hmem] at heq
            exact absurd (hslot (heq ▸ hp)) hmem
  · rwa [unfixTable, if_neg hfixed]

variable [DecidableEq Obj]

theorem dbEraseObjectHash_spec (h : Inv T tb objs) (hvalid : Collection.Valid T tb.status objs)
    (obj : Obj) : ∃ tb', Regroups T (T.getkey obj) tb tb' ∧ Inv T tb' (objs.filter (· ≠ obj)) ∧
    tb'.nitems = tb.nitems + wrapInt ((objs.filter (· ≠ obj)).length - objs.length) ∧
    (dbEraseObjectHash T tb obj = tb' ∨
      tb.fixCount = 0 ∧ ∃ nitems, 0 ≤ nitems ∧ dbEraseObjectHash T tb obj = tb'.shrink nitems) := by
  obtain ⟨pre, g, post, ha, hobjs⟩ := h.around (T.getkey obj)
  obtain ⟨g', fixdel, hloop, hdel, hwithout⟩ := eraseObjectLoop_group tb.status tb.isFixed
    (tb.hashToIx (T.makeHash (T.getkey obj))) tb.fixdel obj ha.terms ha.after 0 0
  have hstart : wrapInt 0 = 0 := rfl
  rw [Nat.cast_zero, hstart, zero_add] at hloop
  refine finishErase_spec h ha hobjs (by simpa using hdel) ?_ ?_ ?_
  · rw [notOfKey, notOfKey, List.filter_filter]
    refine List.filter_congr fun o _ => ?_
    by_cases ho : o = obj
    · simp [ho]
    · simp [ho]
  · rw [hwithout, hobjs, ofKey, ofKey, (hvalid.filter _).withoutObj_eq, List.filter_filter,
      List.filter_filter]
    exact List.filter_congr fun o _ => Bool.and_comm _ _
  · rw [ha.bucket_eq, eraseObjectLoop_before ha.before, hloop]

/-! ## Inserting -/

/-- What `db_put_hash` finds at the key, whether there are terms of it or not. -/
theorem puts_at {obj : Obj} (keyClashFail : Bool) {g post : List (HashDbTerm Obj)}
    (hobj : T.getkey obj = key) (hg : ∀ x ∈ g, hasKey T x key (T.makeHash key) = true)
    (hpost : ∀ x ∈ post, hasKey T x key (T.makeHash key) = false)
    (horder : g.Pairwise (After T status)) (hnil : g = [] → post = []) : ∃ g' ret added,
    (putPlace T status obj key (T.makeHash key) keyClashFail (g ++ post)).outcome
      (newTerm obj (T.makeHash key)) (g ++ post) = (ret, added, g' ++ post) ∧
    Puts T status obj key (T.makeHash key) keyClashFail g g' ret added := by
  cases g with
  | nil =>
    rw [hnil rfl]
    refine ⟨[newTerm obj (T.makeHash key)], .none, 1, rfl, puts_new hobj hg horder
      (fun h => h.2 rfl) (fun x hx => absurd hx List.not_mem_nil) ?_⟩
    cases status <;> rfl
  | cons b bs => exact putAtKey_spec hobj hg hpost horder

theorem dbPutHash_spec (h : Inv T tb objs) (obj : Obj) (keyClashFail : Bool) : ∃ tb',
    Regroups T (T.getkey obj) tb tb' ∧
    Inv T tb' (Collection.put T tb.status objs obj keyClashFail).2 ∧
    tb'.nitems = tb.nitems +
      ((Collection.put T tb.status objs obj keyClashFail).2.length - objs.length) ∧
    (dbPutHash T tb obj keyClashFail).1 = (Collection.put T tb.status objs obj keyClashFail).1 ∧
    ((dbPutHash T tb obj keyClashFail).2.2 = tb' ∨
      tb.fixCount = 0 ∧ ∃ nitems, (dbPutHash T tb obj keyClashFail).2.2 = tb'.grow nitems) ∧
    ((dbPutHash T tb obj keyClashFail).1 = .badkey →
      (dbPutHash T tb obj keyClashFail).2.2 = tb) := by
  obtain ⟨key, hkey⟩ : ∃ key, T.getkey obj = key := ⟨_, rfl⟩
  obtain ⟨pre, g, post, ha, hobjs⟩ := h.around key
  obtain ⟨htake, hdrop⟩ := takeWhile_before ha.before ha.terms ha.nil
  obtain ⟨g', ret, added, hout, hputs⟩ :=
    puts_at keyClashFail hkey ha.terms ha.after ha.order ha.nil
  -- what the collection does
  obtain ⟨hret, hother, hsame, hbad⟩ :
      ret = (Collection.put T tb.status objs obj keyClashFail).1 ∧
      notOfKey T key (Collection.put T tb.status objs obj keyClashFail).2 = notOfKey T key objs ∧
      ofKey T key (Collection.put T tb.status objs obj keyClashFail).2 = objsOf g' ∧
      (ret = .badkey → added = 0 ∧ g' = g) := by
    by_cases hfail : keyClashFail = true ∧ objsOf g ≠ []
    · obtain ⟨rfl, rfl, rfl⟩ := hputs.fails hfail
      rw [Collection.put, hkey, ← hobjs, if_pos hfail]
      exact ⟨rfl, rfl, hobjs.symm, fun _ => ⟨rfl, rfl⟩⟩
    · obtain ⟨rfl, hadd⟩ := hputs.succeeds hfail
      rw [Collection.put, hkey, ← hobjs, if_neg hfail, hadd, hobjs, ← hkey]
      exact ⟨rfl, Collection.add_other obj, Collection.add_same obj, (fun hf => by cases hf)⟩
  have hinv : Inv T (DbTableHash.addNitems { tb with
      bucket := Function.update tb.bucket (tb.hashToIx (T.makeHash key)) (pre ++ (g' ++ post)) }
      (T.makeHash key) added) (Collection.put T tb.status objs obj keyClashFail).2 := by
    refine h.replace ha hputs.key hputs.order (fun _ => id)
      (fun p hp hpd => Or.inl (hputs.dead p hp hpd)) hother hsame
      ⟨rfl, rfl, rfl, rfl, rfl, rfl, rfl⟩ rfl rfl rfl ?_
    refine Counted.addNitems ?_ hother ?_
    · exact ⟨h.counted.le_nitems, h.counted.le_lockNitems⟩
    · rw [hsame, ← hobjs, hputs.counted]
  have hnitems : tb.nitems + added = tb.nitems +
      ((Collection.put T tb.status objs obj keyClashFail).2.length - objs.length) := by
    rw [length_eq_add (T := T) key objs, length_eq_add (T := T) key
      (Collection.put T tb.status objs obj keyClashFail).2, hother, hsame, ← hobjs, hputs.counted]
    push_cast
    omega
  have hregroups : Regroups T key tb (DbTableHash.addNitems { tb with
      bucket := Function.update tb.bucket (tb.hashToIx (T.makeHash key)) (pre ++ (g' ++ post)) }
      (T.makeHash key) added) :=
    ⟨⟨rfl, rfl, rfl, rfl, rfl, rfl, rfl⟩, rfl, rfl, pre, g, g', post, ha, rfl, hputs.key,
      fun _ _ => hputs.nonempty⟩
  refine ⟨_, hkey.symm ▸ hregroups, hinv, hnitems, ?_⟩
  have heq : dbPutHash T tb obj keyClashFail = finishPut tb obj (T.makeHash key)
      (tb.hashToIx (T.makeHash key)) pre (g ++ post)
      (putPlace T tb.status obj key (T.makeHash key) keyClashFail (g ++ post)) := by
    simp only [dbPutHash, hkey, ha.bucket_eq, htake, hdrop]
  rw [heq]
  generalize putPlace T tb.status obj key (T.makeHash key) keyClashFail (g ++ post) = place at hout ⊢
  cases place with
  | new reds =>
    obtain ⟨rfl, hrest⟩ := Prod.mk.inj hout
    obtain ⟨rfl, hterms⟩ := Prod.mk.inj hrest
    refine ⟨hret, ?_, (fun hf => by cases hf)⟩
    rw [← hterms, finishPut]
    split_ifs with hgrow
    · refine Or.inr ⟨?_, _, rfl⟩
      simpa [DbTableHash.isFixed, DbTableHash.incNitems, DbTableHash.addNitems] using hgrow.2
    · exact Or.inl rfl
  | done ret' added' reds rest =>
    obtain ⟨rfl, hrest⟩ := Prod.mk.inj hout
    obtain ⟨rfl, rfl⟩ := Prod.mk.inj hrest
    have hadd : ∀ tb : DbTableHash Obj, (if added' = 0 then tb else
        tb.addNitems (T.makeHash key) added') = tb.addNitems (T.makeHash key) added' := by
      intro tb
      split_ifs with h0
      · rw [h0, addNitems_zero]
      · rfl
    simp only [finishPut, hadd]
    refine ⟨hret, Or.inl trivial, fun hf => ?_⟩
    obtain ⟨h0, rfl⟩ := hbad hf
    rw [h0, addNitems_zero, ← ha.bucket_eq, Function.update_eq_self]

/-! ## Sequences of operations -/

omit [DecidableEq Key] [DecidableEq Obj] in
/-- A deletion of at most `2 ^ 31` objects leaves the item counter exact. -/
theorem exact_of_few {objs' : List Obj} (hold : tb.nitems = objs.length)
    (hle : objs'.length ≤ objs.length) (hfew : objs.length ≤ objs'.length + 2147483648)
    (hnitems : tb'.nitems = tb.nitems + wrapInt (objs'.length - objs.length)) :
    tb'.nitems = objs'.length := by
  rw [hnitems, wrapInt_of_nonpos (by omega) (by omega)]
  omega

/-- One operation, and what the item counter is after it if it was exact. -/
theorem step_refines (h : Inv T tb objs) (hvalid : Collection.Valid T tb.status objs)
    (op : Op Key Obj) : (tb.step T op).1 = (Collection.step T tb.status objs op).1 ∧
      Inv T (tb.step T op).2 (Collection.step T tb.status objs op).2 ∧
      (tb.step T op).2.status = tb.status ∧ (tb.step T op).2.nlocks = tb.nlocks ∧
      (tb.nitems = objs.length →
        objs.length ≤ (Collection.step T tb.status objs op).2.length + 2147483648 →
        (tb.step T op).2.nitems = (Collection.step T tb.status objs op).2.length) := by
  cases op with
  | put obj keyClashFail =>
    obtain ⟨tb', hre, hinv, hnitems, hret, htable, -⟩ := dbPutHash_spec h obj keyClashFail
    refine ⟨congrArg Answer.put hret, ?_⟩
    simp only [DbTableHash.step, Collection.step]
    rcases htable with heq | ⟨hfix, nitems, heq⟩
    · rw [heq]
      exact ⟨hinv, hre.status_eq, hre.same.nlocks, fun hold _ => by omega⟩
    · have hfix' : tb'.fixCount = 0 := hre.fixCount_eq.trans hfix
      have hsame := grow_same hinv.laid hfix' nitems
      rw [heq]
      refine ⟨hinv.grow hfix' nitems, hsame.status.trans hre.status_eq,
        hsame.nlocks.trans hre.same.nlocks, fun hold _ => ?_⟩
      rw [hsame.nitems]
      omega
  | get key => exact ⟨congrArg Answer.got (dbGetHash_eq h key), h, rfl, rfl, fun hold _ => hold⟩
  | member key =>
    exact ⟨congrArg Answer.member (dbMemberHash_eq h key), h, rfl, rfl, fun hold _ => hold⟩
  | erase key =>
    obtain ⟨tb', hre, hinv, hnitems, htable⟩ := dbEraseHash_spec h key
    obtain ⟨hinv', hstatus, hnlocks, hsame⟩ := hre.erased hinv htable
    refine ⟨rfl, hinv', hstatus, hnlocks, fun hold hfew => ?_⟩
    exact exact_of_few hold (List.length_filter_le ..) hfew (hsame.trans hnitems)
  | eraseObject obj =>
    obtain ⟨tb', hre, hinv, hnitems, htable⟩ := dbEraseObjectHash_spec h hvalid obj
    obtain ⟨hinv', hstatus, hnlocks, hsame⟩ := hre.erased hinv htable
    refine ⟨rfl, hinv', hstatus, hnlocks, fun hold hfew => ?_⟩
    exact exact_of_few hold (List.length_filter_le ..) hfew (hsame.trans hnitems)
  | fix => exact ⟨rfl, fixTable_inv h, rfl, rfl, fun hold _ => hold⟩
  | unfix =>
    obtain ⟨hstatus, hnlocks, hnitems⟩ := unfixTable_same tb
    exact ⟨rfl, unfixTable_inv h, hstatus, hnlocks, fun hold _ => hnitems.trans hold⟩

theorem run_refines (h : Inv T tb objs) (hvalid : Collection.Valid T tb.status objs)
    (ops : List (Op Key Obj)) : (tb.run T ops).1 = (Collection.run T tb.status objs ops).1 ∧
      Inv T (tb.run T ops).2 (Collection.run T tb.status objs ops).2 ∧
      Collection.Valid T tb.status (Collection.run T tb.status objs ops).2 ∧
      (tb.run T ops).2.status = tb.status ∧ (tb.run T ops).2.nlocks = tb.nlocks ∧
      (tb.nitems = objs.length → Collection.FewDeleted T tb.status objs ops →
        (tb.run T ops).2.nitems = (Collection.run T tb.status objs ops).2.length) := by
  induction ops generalizing tb objs with
  | nil => exact ⟨rfl, h, hvalid, rfl, rfl, fun hold _ => hold⟩
  | cons op ops ih =>
    obtain ⟨hanswer, hinv, hstatus, hnlocks, hnitems⟩ := step_refines h hvalid op
    obtain ⟨hrest, hinv', hvalid', hstatus', hnlocks', hnitems'⟩ :=
      ih hinv (hstatus ▸ hvalid.step op)
    rw [hstatus] at hrest hinv' hvalid' hnitems'
    simp only [DbTableHash.run, Collection.run]
    rw [hanswer, hrest]
    exact ⟨rfl, hinv', hvalid', hstatus'.trans hstatus, hnlocks'.trans hnlocks,
      fun hold hfew => hnitems' (hnitems hold hfew.1) hfew.2⟩

/-- **The live terms** are the objects. -/
theorem Inv.liveTerms_eq (h : Inv T tb objs) : tb.liveTerms.map (·.dbterm) = objs := by
  ext obj
  have hix := h.laid.shape.mask.hashToIx_lt (T.makeHash (T.getkey obj))
  have hother : ∀ i ∈ Finset.range tb.nactive, i ≠ tb.hashToIx (T.makeHash (T.getkey obj)) →
      Multiset.count obj (((tb.bucket i).filter live).map (·.dbterm) : List Obj) = 0 := by
    intro i hi hne
    rw [Multiset.coe_count, List.count_eq_zero]
    intro hmem
    obtain ⟨p, hp, rfl⟩ := List.mem_map.1 hmem
    have hi' := Finset.mem_range.1 hi
    have hpi := (List.mem_filter.1 hp).1
    rw [← h.laid.placed i hi' p hpi, (h.bucketOk i hi').hashed p hpi] at hne
    exact hne rfl
  have hkey : ∀ l : List Obj, l.count obj = (l.filter (T.getkey · = T.getkey obj)).count obj :=
    fun l => (List.count_filter (by simp)).symm
  rw [DbTableHash.liveTerms, ← Multiset.coe_mapAddMonoidHom, map_sum, Multiset.count_sum']
  simp only [Multiset.coe_mapAddMonoidHom, Multiset.map_coe]
  rw [Finset.sum_eq_single_of_mem _ (Finset.mem_range.2 hix) hother, Multiset.coe_count,
    Multiset.coe_count, hkey objs]
  have hobjects := h.objects_eq (T.getkey obj)
  rw [ofKey] at hobjects
  rw [← hobjects, DbTableHash.objects, objsOf, List.count_reverse, hkey, List.filter_map,
    List.filter_filter, List.filter_filter]
  congr 2
  exact List.filter_congr fun p _ => Bool.and_comm _ _

/-- What a table is for. -/
structure Refines (T : Terms Key Obj) (tb : DbTableHash Obj) (objs : Collection Obj) : Prop where
  valid : Collection.Valid T tb.status objs
  live : tb.liveTerms.map (·.dbterm) = objs
  lookup : ∀ key, dbGetHash T tb key = objs.filter (T.getkey · = key)
  member : ∀ key, dbMemberHash T tb key = true ↔ ∃ o ∈ objs, T.getkey o = key
  insertNew : ∀ obj, ((dbPutHash T tb obj true).1 = .badkey ↔ ∃ o ∈ objs, T.getkey o = T.getkey obj) ∧
    ((dbPutHash T tb obj true).1 = .badkey → (dbPutHash T tb obj true).2.2 = tb)
  unfixed : tb.fixCount = 0 → ∀ i < tb.nactive, ∀ p ∈ tb.bucket i, p.pseudoDeleted = false

theorem Inv.refines (h : Inv T tb objs) (hvalid : Collection.Valid T tb.status objs) :
    Refines T tb objs := by
  have hof : ∀ key, ofKey T key objs ≠ [] ↔ ∃ o ∈ objs, T.getkey o = key := by
    intro key
    simp [ofKey, List.filter_eq_nil_iff]
  refine ⟨hvalid, h.liveTerms_eq, dbGetHash_eq h, fun key => ?_, fun obj => ?_,
    fun hfix i hi p hp => ?_⟩
  · rw [dbMemberHash_eq h, decide_eq_true_iff, hof]
  · obtain ⟨-, -, -, -, hret, -, hsame⟩ := dbPutHash_spec h obj true
    refine ⟨?_, hsame⟩
    rw [hret, Collection.put, ← hof]
    split_ifs with hfail
    · exact ⟨fun _ => hfail.2, fun _ => rfl⟩
    · exact ⟨(fun hf => by cases hf), fun hne => absurd ⟨rfl, hne⟩ hfail⟩
  · by_contra hpd
    exact (h.remembered i hi p hp (Bool.not_eq_false _ ▸ hpd)).1 hfix

/-- There are as many live terms as objects. -/
theorem Inv.card_liveTerms (h : Inv T tb objs) : tb.liveTerms.card = objs.length := by
  rw [← Multiset.card_map (·.dbterm) tb.liveTerms, h.liveTerms_eq, Multiset.coe_card]

omit [DecidableEq Obj] in
theorem create_inv {isDecentralized : Bool} {nlocks : ℕ}
    (htb : DbTableHash.create status isDecentralized nlocks = tb) : Inv T tb [] := by
  have hfresh := (create_fresh htb).1
  refine ⟨(create_laid htb).1, fun i _ => ?_, fun i _ p hp => ?_,
    ⟨hfresh.nitems_eq.ge, fun _ j => (hfresh.lockNitems_eq j).ge⟩, fun key => ?_⟩
  · rw [hfresh.empty]
    exact BucketOk.nil
  · rw [hfresh.empty] at hp
    exact absurd hp List.not_mem_nil
  · rw [DbTableHash.objects, hfresh.empty]
    rfl

/-- A table that was created, and operations on it. -/
theorem run_create (T : Terms Key Obj) (status : TableType) (isDecentralized : Bool) (nlocks : ℕ)
    (ops : List (Op Key Obj)) {tb : DbTableHash Obj}
    (htb : DbTableHash.create status isDecentralized nlocks = tb) :
    (tb.run T ops).1 = (Collection.run T status [] ops).1 ∧
    Inv T (tb.run T ops).2 (Collection.run T status [] ops).2 ∧
    Collection.Valid T (tb.run T ops).2.status (Collection.run T status [] ops).2 ∧
    (tb.run T ops).2.nlocks = nlocks ∧
    (Collection.FewDeleted T status [] ops →
      (tb.run T ops).2.nitems = (Collection.run T status [] ops).2.length) := by
  have hfresh := (create_fresh htb).1
  have hvalid : Collection.Valid T status ([] : List Obj) := by
    cases status with
    | set => exact List.Pairwise.nil
    | bag => exact List.nodup_nil
    | duplicateBag => trivial
  have hrun := run_refines (create_inv htb) (hfresh.status_eq.symm ▸ hvalid) ops
  rw [hfresh.status_eq, hfresh.nlocks_eq] at hrun
  obtain ⟨hanswers, hinv, hvalid', hstatus, hnlocks, hnitems⟩ := hrun
  exact ⟨hanswers, hinv, hstatus.symm ▸ hvalid', hnlocks, hnitems hfresh.nitems_eq⟩

/-- **Hash tables refine their collections.** The item counter is exact as long as no single
deletion took more than `2 ^ 31` objects. -/
theorem hashTable_refines (T : Terms Key Obj) (status : TableType) (isDecentralized : Bool)
    (locking : DbTableHash.Locking) (ops : List (Op Key Obj)) :
    ((DbTableHash.create status isDecentralized locking.nlocks).run T ops).1 =
      (Collection.run T status [] ops).1 ∧
    Refines T ((DbTableHash.create status isDecentralized locking.nlocks).run T ops).2
      (Collection.run T status [] ops).2 ∧
    (Collection.FewDeleted T status [] ops →
      ((DbTableHash.create status isDecentralized locking.nlocks).run T ops).2.nitems =
        ((DbTableHash.create status isDecentralized locking.nlocks).run T ops).2.liveTerms.card) := by
  obtain ⟨hanswers, hinv, hvalid, -, hnitems⟩ :=
    run_create T status isDecentralized locking.nlocks ops rfl
  refine ⟨hanswers, hinv.refines hvalid, fun hfew => ?_⟩
  rw [hnitems hfew, hinv.card_liveTerms]

/-- In a `duplicate_bag` two objects of three are deleted while the table is fixed, and the
deleted ones are gone after it: no deletion is a large one. -/
theorem threeObjects_refines :
    Refines ⟨Prod.fst, id⟩
      ((DbTableHash.create .duplicateBag false 1).run (⟨Prod.fst, id⟩ : Terms ℕ (ℕ × ℕ))
        [.put (1, 10) false, .put (1, 10) false, .put (2, 20) false, .fix, .erase 1, .unfix]).2
      [(2, 20)] ∧
    ((DbTableHash.create .duplicateBag false 1).run (⟨Prod.fst, id⟩ : Terms ℕ (ℕ × ℕ))
        [.put (1, 10) false, .put (1, 10) false, .put (2, 20) false, .fix, .erase 1, .unfix]).2.nitems
      = 1 := by
  obtain ⟨-, hrefines, hnitems⟩ := hashTable_refines (⟨Prod.fst, id⟩ : Terms ℕ (ℕ × ℕ))
    .duplicateBag false .none
    [.put (1, 10) false, .put (1, 10) false, .put (2, 20) false, .fix, .erase 1, .unfix]
  have hfew : Collection.FewDeleted (⟨Prod.fst, id⟩ : Terms ℕ (ℕ × ℕ)) .duplicateBag []
      [.put (1, 10) false, .put (1, 10) false, .put (2, 20) false, .fix, .erase 1, .unfix] := by
    refine ⟨?_, ?_, ?_, ?_, ?_, ?_, trivial⟩ <;> exact Nat.le_add_left_of_le (by decide)
  refine ⟨hrefines, (hnitems hfew).trans ?_⟩
  rw [← Multiset.card_map (·.dbterm), hrefines.live]
  rfl

/-! ## A large deletion -/

theorem DbTableHash.run_append (T : Terms Key Obj) (tb : DbTableHash Obj)
    (ops ops' : List (Op Key Obj)) : (tb.run T (ops ++ ops')).2 = ((tb.run T ops).2.run T ops').2 := by
  induction ops generalizing tb with
  | nil => rfl
  | cons op ops ih => exact ih (tb.step T op).2

/-- The same object over and over. -/
theorem Collection.run_replicate (T : Terms Key Obj) (obj : Obj) (n : ℕ) (objs : Collection Obj) :
    (Collection.run T .duplicateBag objs (List.replicate n (.put obj false))).2 =
        objs ++ List.replicate n obj ∧
      Collection.FewDeleted T .duplicateBag objs (List.replicate n (.put obj false)) := by
  induction n generalizing objs with
  | zero => exact ⟨(List.append_nil objs).symm, trivial⟩
  | succ n ih =>
    have hput : (Collection.step T .duplicateBag objs (.put obj false)).2 = objs ++ [obj] := rfl
    obtain ⟨hrun, hfew⟩ := ih (objs ++ [obj])
    rw [List.replicate_succ, List.replicate_succ]
    refine ⟨?_, ?_, hput ▸ hfew⟩
    · refine hrun.trans ?_
      rw [List.append_assoc, List.singleton_append]
    · rw [hput, List.length_append]
      omega

/-- After the deletion of all of them the counter has what the `int` makes of their number. -/
theorem run_erase_replicate (T : Terms Key Obj) (obj : Obj) (n : ℕ) :
    ∃ tb, ((DbTableHash.create .duplicateBag false 1).run T
        (List.replicate n (.put obj false) ++ [.erase (T.getkey obj)])).2 = tb ∧
      tb.liveTerms.card = 0 ∧ tb.nitems = n + wrapInt (-n) := by
  obtain ⟨-, hinv, -, -, hnitems⟩ := run_create T .duplicateBag false 1
    (List.replicate n (.put obj false)) rfl
  obtain ⟨hrun, hfew⟩ := Collection.run_replicate T obj n ([] : Collection Obj)
  specialize hnitems hfew
  rw [hrun, List.nil_append] at hinv hnitems
  rw [List.length_replicate] at hnitems
  obtain ⟨tb', hre, hinv', hcount, htable⟩ := dbEraseHash_spec hinv (T.getkey obj)
  obtain ⟨hinv'', -, -, hsame⟩ := hre.erased hinv' htable
  have hnone : notOfKey T (T.getkey obj) (List.replicate n obj) = [] := by
    simp [notOfKey]
  rw [hnone] at hinv'' hcount
  refine ⟨_, rfl, ?_, ?_⟩
  · rw [DbTableHash.run_append]
    exact hinv''.card_liveTerms
  · rw [DbTableHash.run_append]
    refine hsame.trans (hcount.trans ?_)
    rw [hnitems, List.length_replicate, List.length_nil, Nat.cast_zero, zero_sub]

/-- `2 ^ 31 + 1` objects of one key of a `duplicate_bag` are deleted: the table is empty, and
its item counter says `2 ^ 32`. -/
theorem largeDeletion_miscounted :
    ∃ tb, ((DbTableHash.create .duplicateBag false 1).run (⟨id, id⟩ : Terms ℕ ℕ)
        (List.replicate 2147483649 (.put 0 false) ++ [.erase 0])).2 = tb ∧
      tb.liveTerms.card = 0 ∧ tb.nitems = 4294967296 := by
  have hcount : ((2147483649 : ℕ) : ℤ) + wrapInt (-(2147483649 : ℕ)) = 4294967296 := rfl
  obtain ⟨tb, hrun, hcard, hnitems⟩ :=
    run_erase_replicate (⟨id, id⟩ : Terms ℕ ℕ) 0 2147483649
  exact ⟨tb, hrun, hcard, hnitems.trans hcount⟩

end

end PonBeam.EtsHash
