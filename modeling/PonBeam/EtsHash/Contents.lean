import PonBeam.EtsHash.Buckets
import Mathlib.Tactic.Positivity

/-!
# What is in a hash table

`Inv T tb objs` says that the live terms of the table `tb` are the objects `objs`. It is kept by
a change to the terms of one key, and by growing and shrinking.
-/

namespace PonBeam.EtsHash

section

variable {Key Obj : Type} {T : Terms Key Obj} {status : TableType}
  {l l' pre g g' post : List (HashDbTerm Obj)} {objs objs' : List Obj} {tb tb' : DbTableHash Obj}

/-- The key of a term. -/
def termKey (T : Terms Key Obj) (p : HashDbTerm Obj) : Key := T.getkey p.dbterm

/-! ## Buckets -/

/-- The terms of a bucket. -/
structure BucketOk (T : Terms Key Obj) (status : TableType) (l : List (HashDbTerm Obj)) : Prop where
  hashed : ∀ p ∈ l, p.hvalue = T.makeHash (termKey T p)
  grouped : Grouped (termKey T) l
  order : l.Pairwise (After T status)

theorem BucketOk.nil : BucketOk T status [] :=
  ⟨fun _ hp => absurd hp List.not_mem_nil, Grouped.nil, List.Pairwise.nil⟩

theorem BucketOk.filter (h : BucketOk T status l) (f : HashDbTerm Obj → Bool) :
    BucketOk T status (l.filter f) :=
  ⟨fun p hp => h.hashed p (List.mem_filter.1 hp).1, h.grouped.filter f,
    h.order.sublist List.filter_sublist⟩

theorem BucketOk.append (h : BucketOk T status l) (h' : BucketOk T status l')
    (hkey : ∀ p ∈ l, ∀ q ∈ l', termKey T p ≠ termKey T q) : BucketOk T status (l ++ l') := by
  refine ⟨fun p hp => ?_, h.grouped.append h'.grouped hkey, ?_⟩
  · exact (List.mem_append.1 hp).elim (h.hashed p) (h'.hashed p)
  · exact List.pairwise_append.2
      ⟨h.order, h'.order, fun p hp q hq => after_of_key_ne (hkey p hp q hq)⟩

/-- The item counters are not below the numbers they count, whatever the deletions that made
them wrap. -/
structure Counted (T : Terms Key Obj) (tb : DbTableHash Obj) (objs : List Obj) : Prop where
  le_nitems : (objs.length : ℤ) ≤ tb.nitems
  le_lockNitems : tb.isDecentralized = true → ∀ j,
    (objs.countP fun o => T.makeHash (T.getkey o) % nlocksWithItemCounters = j : ℤ) ≤
      tb.lockNitems j

theorem Counted.nitemsEstimate_nonneg (h : Counted T tb objs) (hval : ℕ) :
    0 ≤ tb.nitemsEstimate hval := by
  unfold DbTableHash.nitemsEstimate
  split_ifs with hdec
  · have hlock := h.le_lockNitems hdec (hval % nlocksWithItemCounters)
    have hpos : 0 ≤ tb.lockNitems (hval % nlocksWithItemCounters) :=
      (Int.natCast_nonneg _).trans hlock
    positivity
  · exact (Int.natCast_nonneg _).trans h.le_nitems

variable [DecidableEq Key]

/-- The terms of a key in a bucket, which can be replaced. -/
theorem BucketOk.around (h : BucketOk T status l) (key : Key) : ∃ pre g post,
    l = pre ++ (g ++ post) ∧ (∀ x ∈ pre, hasKey T x key (T.makeHash key) = false) ∧
    (∀ x ∈ g, hasKey T x key (T.makeHash key) = true) ∧
    (∀ x ∈ post, hasKey T x key (T.makeHash key) = false) ∧ (g = [] → post = []) ∧
    g.Pairwise (After T status) ∧
    ∀ g', (∀ x ∈ g', hasKey T x key (T.makeHash key) = true) → g'.Pairwise (After T status) →
      BucketOk T status (pre ++ (g' ++ post)) := by
  obtain ⟨pre, g, post, rfl, hpre, hg, hpost, hnil, hnew⟩ := h.grouped.around key
  have hno : ∀ x, termKey T x ≠ key → hasKey T x key (T.makeHash key) = false := by
    intro x hx
    rw [← Bool.not_eq_true, hasKey_iff]
    exact fun hk => hx hk.2
  obtain ⟨hord, hordpost, hcross⟩ := List.pairwise_append.1 h.order
  obtain ⟨hordpre, hordg, -⟩ := List.pairwise_append.1 hord
  refine ⟨pre, g, post, List.append_assoc .., fun x hx => hno x (hpre x hx), fun x hx => ?_,
    fun x hx => hno x (hpost x hx), hnil, hordg, fun g' hg' hord' => ?_⟩
  · rw [hasKey_iff, ← hg x hx]
    exact ⟨h.hashed x (by simp [hx]), rfl⟩
  · have hkey' : ∀ x ∈ g', termKey T x = key := fun x hx => ((hasKey_iff x).1 (hg' x hx)).2
    rw [← List.append_assoc]
    refine ⟨fun p hp => ?_, hnew g' hkey', ?_⟩
    · rcases List.mem_append.1 hp with hp | hp
      · rcases List.mem_append.1 hp with hp | hp
        · exact h.hashed p (by simp [hp])
        · rw [hkey' p hp]
          exact ((hasKey_iff p).1 (hg' p hp)).1
      · exact h.hashed p (by simp [hp])
    · refine List.pairwise_append.2 ⟨List.pairwise_append.2 ⟨hordpre, hord', ?_⟩, hordpost, ?_⟩
      · intro p hp q hq
        exact after_of_key_ne fun heq => hpre p hp (heq.trans (hkey' q hq))
      · intro p hp q hq
        rcases List.mem_append.1 hp with hp | hp
        · exact hcross p (List.mem_append_left _ hp) q hq
        · exact after_of_key_ne fun heq => hpost q hq (heq.symm.trans (hkey' p hp))

/-! ## Counters -/

/-- The objects of a key. -/
def ofKey (T : Terms Key Obj) (key : Key) (objs : List Obj) : List Obj :=
  objs.filter (T.getkey · = key)

/-- The objects of other keys. -/
def notOfKey (T : Terms Key Obj) (key : Key) (objs : List Obj) : List Obj :=
  objs.filter (T.getkey · ≠ key)

theorem countP_eq_add (f : Obj → Bool) (key : Key) (objs : List Obj) :
    objs.countP f = (ofKey T key objs).countP f + (notOfKey T key objs).countP f := by
  rw [← List.countP_append]
  refine (List.Perm.countP_eq f ?_).symm
  have hperm := List.filter_append_perm (fun o => decide (T.getkey o = key)) objs
  simpa [ofKey, notOfKey] using hperm

theorem countP_ofKey (f : ℕ → Bool) (key : Key) (objs : List Obj) :
    (ofKey T key objs).countP (fun o => f (T.makeHash (T.getkey o))) =
      if f (T.makeHash key) then (ofKey T key objs).length else 0 := by
  split_ifs with hf
  · refine List.countP_eq_length.2 fun o ho => ?_
    rw [of_decide_eq_true (List.mem_filter.1 ho).2]
    exact hf
  · refine List.countP_eq_zero.2 fun o ho => ?_
    rw [of_decide_eq_true (List.mem_filter.1 ho).2]
    exact hf

theorem length_eq_add (key : Key) (objs : List Obj) :
    objs.length = (ofKey T key objs).length + (notOfKey T key objs).length := by
  have h := countP_eq_add (T := T) (fun _ => true) key objs
  simpa using h

/-- The objects of one key change. -/
theorem Counted.addNitems (h : Counted T tb objs) {key : Key}
    (hother : notOfKey T key objs' = notOfKey T key objs) {added : ℤ}
    (hadded : ((ofKey T key objs').length : ℤ) - (ofKey T key objs).length ≤ added) :
    Counted T (tb.addNitems (T.makeHash key) added) objs' := by
  constructor
  · have hold := h.le_nitems
    rw [length_eq_add (T := T) key objs] at hold
    rw [length_eq_add (T := T) key objs', hother]
    simp only [DbTableHash.addNitems]
    push_cast at hold ⊢
    omega
  · intro hdec j
    simp only [DbTableHash.addNitems] at hdec ⊢
    rw [if_pos hdec, countP_eq_add (T := T) _ key objs', hother]
    have hold := h.le_lockNitems hdec j
    rw [countP_eq_add (T := T) _ key objs] at hold
    rw [countP_ofKey (fun x => decide (x % nlocksWithItemCounters = j))] at hold ⊢
    by_cases hj : j = T.makeHash key % nlocksWithItemCounters
    · subst hj
      rw [Function.update_self]
      simp only [decide_true, if_true] at hold ⊢
      push_cast at hold ⊢
      omega
    · rw [Function.update_of_ne hj]
      simpa [Ne.symm hj] using hold

/-! ## The invariant -/

/-- The live objects of a key. -/
def DbTableHash.objects (T : Terms Key Obj) (tb : DbTableHash Obj) (key : Key) : List Obj :=
  objsOf ((tb.bucket (tb.hashToIx (T.makeHash key))).filter (termKey T · = key))

/-- The objects of a table. -/
structure Inv (T : Terms Key Obj) (tb : DbTableHash Obj) (objs : List Obj) : Prop where
  laid : Laid tb
  bucketOk : ∀ i < tb.nactive, BucketOk T tb.status (tb.bucket i)
  remembered : ∀ i < tb.nactive, ∀ p ∈ tb.bucket i, p.pseudoDeleted = true →
    tb.fixCount ≠ 0 ∧ { slot := i, all := false } ∈ tb.fixdel
  counted : Counted T tb objs
  objects_eq : ∀ key, tb.objects T key = ofKey T key objs

/-- The terms of a key in their bucket. -/
structure Around (T : Terms Key Obj) (tb : DbTableHash Obj) (key : Key)
    (pre g post : List (HashDbTerm Obj)) : Prop where
  bucket_eq : tb.bucket (tb.hashToIx (T.makeHash key)) = pre ++ (g ++ post)
  before : ∀ x ∈ pre, hasKey T x key (T.makeHash key) = false
  terms : ∀ x ∈ g, hasKey T x key (T.makeHash key) = true
  after : ∀ x ∈ post, hasKey T x key (T.makeHash key) = false
  nil : g = [] → post = []
  order : g.Pairwise (After T tb.status)
  replace : ∀ g', (∀ x ∈ g', hasKey T x key (T.makeHash key) = true) →
    g'.Pairwise (After T tb.status) → BucketOk T tb.status (pre ++ (g' ++ post))

/-- What is found when the terms of the key are `g'`. -/
theorem Around.filter_eq {key : Key} (ha : Around T tb key pre g post)
    (hg' : ∀ x ∈ g', hasKey T x key (T.makeHash key) = true)
    (hok : BucketOk T status (pre ++ (g' ++ post))) :
    (pre ++ (g' ++ post)).filter (termKey T · = key) = g' := by
  have hiff : ∀ x ∈ pre ++ (g' ++ post),
      hasKey T x key (T.makeHash key) = decide (termKey T x = key) := by
    intro x hx
    rw [Bool.eq_iff_iff, hasKey_iff, decide_eq_true_iff]
    refine ⟨And.right, fun hk => ⟨?_, hk⟩⟩
    rw [hok.hashed x hx, hk]
  rw [← List.filter_congr hiff, List.filter_append, List.filter_append,
    List.filter_eq_nil_iff.2 fun x hx => by simp [ha.before x hx],
    List.filter_eq_self.2 hg', List.filter_eq_nil_iff.2 fun x hx => by simp [ha.after x hx],
    List.append_nil, List.nil_append]

theorem Inv.around (h : Inv T tb objs) (key : Key) : ∃ pre g post,
    Around T tb key pre g post ∧ objsOf g = ofKey T key objs := by
  have hok := h.bucketOk _ (h.laid.shape.mask.hashToIx_lt (T.makeHash key))
  obtain ⟨pre, g, post, hbucket, hpre, hg, hpost, hnil, horder, hnew⟩ := hok.around key
  have ha : Around T tb key pre g post := ⟨hbucket, hpre, hg, hpost, hnil, horder, hnew⟩
  refine ⟨pre, g, post, ha, ?_⟩
  rw [← h.objects_eq, DbTableHash.objects, hbucket, ha.filter_eq hg (hbucket ▸ hok)]

/-- The objects of another key. -/
theorem ofKey_of_notOfKey {key key' : Key} (hne : key' ≠ key)
    (h : notOfKey T key objs' = notOfKey T key objs) : ofKey T key' objs' = ofKey T key' objs := by
  have hsub : ∀ os : List Obj, ofKey T key' os = (notOfKey T key os).filter (T.getkey · = key') := by
    intro os
    rw [ofKey, notOfKey, List.filter_filter]
    refine List.filter_congr fun o _ => ?_
    by_cases ho : T.getkey o = key'
    · simp [ho, hne]
    · simp [ho]
  rw [hsub, hsub, h]

/-- **The terms of one key** are replaced, with their bucket remembered if there are deleted
ones among them. -/
theorem Inv.replace (h : Inv T tb objs) {key : Key} (ha : Around T tb key pre g post)
    (hg' : ∀ x ∈ g', hasKey T x key (T.makeHash key) = true)
    (horder : g'.Pairwise (After T tb.status))
    (hfixdel : ∀ d ∈ tb.fixdel, d ∈ tb'.fixdel)
    (hdead : ∀ p ∈ g', p.pseudoDeleted = true → p ∈ g ∨ tb.fixCount ≠ 0 ∧
      { slot := tb.hashToIx (T.makeHash key), all := false } ∈ tb'.fixdel)
    (hother : notOfKey T key objs' = notOfKey T key objs) (hkey : ofKey T key objs' = objsOf g')
    (hsame : SameLayout tb tb') (hstatus : tb'.status = tb.status)
    (hfixCount : tb'.fixCount = tb.fixCount)
    (hbucket' : tb'.bucket = Function.update tb.bucket (tb.hashToIx (T.makeHash key))
      (pre ++ (g' ++ post)))
    (hcounted : Counted T tb' objs') : Inv T tb' objs' := by
  have hok := ha.replace g' hg' horder
  have hbucket := ha.bucket_eq
  refine ⟨h.laid.update hsame hbucket' fun p hp => ?_, fun i hi => ?_, fun i hi p hp hpd => ?_,
    hcounted, fun key' => ?_⟩
  · rcases List.mem_append.1 hp with hp | hp
    · exact Or.inl (by rw [hbucket]; exact List.mem_append_left _ hp)
    · rcases List.mem_append.1 hp with hp | hp
      · exact Or.inr (by rw [((hasKey_iff p).1 (hg' p hp)).1])
      · exact Or.inl (by simp [hbucket, hp])
  · rw [hsame.nactive] at hi
    rw [hstatus, hbucket']
    by_cases hi' : i = tb.hashToIx (T.makeHash key)
    · rw [hi', Function.update_self]
      exact hok
    · rw [Function.update_of_ne hi']
      exact h.bucketOk i hi
  · rw [hsame.nactive] at hi
    rw [hfixCount]
    have hold : p ∈ tb.bucket i → tb.fixCount ≠ 0 ∧ { slot := i, all := false } ∈ tb'.fixdel := fun hp =>
      (h.remembered i hi p hp hpd).imp_right (hfixdel _)
    rw [hbucket'] at hp
    by_cases hi' : i = tb.hashToIx (T.makeHash key)
    · subst hi'
      rw [Function.update_self] at hp
      rw [hbucket] at hold
      rcases List.mem_append.1 hp with hp | hp
      · exact hold (List.mem_append_left _ hp)
      · rcases List.mem_append.1 hp with hp | hp
        · exact (hdead p hp hpd).elim (fun hp => hold (by simp [hp])) id
        · exact hold (by simp [hp])
    · rw [Function.update_of_ne hi'] at hp
      exact hold hp
  · by_cases hk : key' = key
    · subst hk
      rw [DbTableHash.objects, hsame.hashToIx_eq, hbucket', Function.update_self,
        ha.filter_eq hg' hok, hkey]
    · -- the terms of the other key are not among those replaced
      have hnone : ∀ {os : List (HashDbTerm Obj)},
          (∀ x ∈ os, hasKey T x key (T.makeHash key) = true) →
          os.filter (termKey T · = key') = [] := by
        intro os hos
        refine List.filter_eq_nil_iff.2 fun x hx => ?_
        have hxk : termKey T x = key := ((hasKey_iff x).1 (hos x hx)).2
        simp [hxk, Ne.symm hk]
      rw [ofKey_of_notOfKey hk hother, ← h.objects_eq key', DbTableHash.objects,
        DbTableHash.objects, hsame.hashToIx_eq, hbucket']
      by_cases hix' : tb.hashToIx (T.makeHash key') = tb.hashToIx (T.makeHash key)
      · rw [hix', Function.update_self, hbucket]
        simp only [List.filter_append, hnone ha.terms, hnone hg']
      · rw [Function.update_of_ne hix']

/-! ## Growing and shrinking -/

theorem objects_chain {key : Key}
    (hok : BucketOk T status (tb.bucket (tb.hashToIx (T.makeHash key)))) :
    tb.objects T key = objsOf ((tb.chain (T.makeHash key)).filter (termKey T · = key)) := by
  unfold DbTableHash.objects DbTableHash.chain objsOf
  rw [List.filter_filter, List.filter_filter, List.filter_filter]
  congr 2
  refine List.filter_congr fun p hp => ?_
  by_cases hk : termKey T p = key
  · have hv : p.hvalue = T.makeHash key := by rw [hok.hashed p hp, hk]
    simp [hk, hv]
  · simp [hk]

/-- The terms are in other buckets of a table that is not fixed. -/
theorem Inv.rehash (h : Inv T tb objs) (hfix : tb.fixCount = 0) (hsame : SameTable tb tb')
    (hlaid : Laid tb') (hok : ∀ i < tb'.nactive, BucketOk T tb.status (tb'.bucket i))
    (hmem : ∀ i < tb'.nactive, ∀ p ∈ tb'.bucket i, ∃ j < tb.nactive, p ∈ tb.bucket j)
    (hchain : ∀ hval, tb'.chain hval = tb.chain hval) : Inv T tb' objs := by
  refine ⟨hlaid, hsame.status ▸ hok, fun i hi p hp hpd => ?_, ?_, fun key => ?_⟩
  · obtain ⟨j, hj, hpj⟩ := hmem i hi p hp
    exact absurd hfix (h.remembered j hj p hpj hpd).1
  · refine ⟨hsame.nitems.symm ▸ h.counted.le_nitems, fun hdec j => ?_⟩
    rw [hsame.isDecentralized] at hdec
    rw [hsame.lockNitems]
    exact h.counted.le_lockNitems hdec j
  · rw [← h.objects_eq key, objects_chain (hok _ (hlaid.shape.mask.hashToIx_lt _)), hchain,
      objects_chain (h.bucketOk _ (h.laid.shape.mask.hashToIx_lt _))]

theorem GrowStep.inv (hstep : GrowStep tb tb') (h : Inv T tb objs) (hfix : tb.fixCount = 0) :
    Inv T tb' objs := by
  obtain ⟨hlaid, hs, hlaid'⟩ := hstep
  have hsplit := hlaid.shape.mask.splitIx_lt
  have hbucket : ∀ i < tb'.nactive, ∃ j < tb.nactive, ∃ f, tb'.bucket i = (tb.bucket j).filter f := by
    intro i hi
    rw [hs.nactive] at hi
    by_cases hnew : i = tb.nactive
    · rw [hnew]
      exact ⟨tb.splitIx, hsplit, _, hs.moved⟩
    · by_cases hi' : i = tb.splitIx
      · rw [hi']
        exact ⟨tb.splitIx, hsplit, _, hs.stayed⟩
      · refine ⟨i, by omega, fun _ => true, ?_⟩
        rw [hs.other i (by omega) hi', List.filter_true]
  refine h.rehash hfix hs.same hlaid' (fun i hi => ?_) (fun i hi p hp => ?_)
    (hs.chain_eq hlaid hlaid'.shape)
  · obtain ⟨j, hj, f, heq⟩ := hbucket i hi
    rw [heq]
    exact (h.bucketOk j hj).filter f
  · obtain ⟨j, hj, f, heq⟩ := hbucket i hi
    rw [heq] at hp
    exact ⟨j, hj, (List.mem_filter.1 hp).1⟩

theorem ShrinkStep.inv (hstep : ShrinkStep tb tb') (h : Inv T tb objs) (hfix : tb.fixCount = 0) :
    Inv T tb' objs := by
  obtain ⟨hlaid, hj, hlaid'⟩ := hstep
  have hsplit := hlaid'.shape.mask.splitIx_lt
  have hn := hj.nactive
  refine h.rehash hfix hj.same hlaid' (fun i hi => ?_) (fun i hi p hp => ?_)
    (hj.chain_eq hlaid hlaid'.shape)
  · by_cases hi' : i = tb'.splitIx
    · rw [hi', hj.joined]
      refine ((h.bucketOk _ (by omega)).filter live).append (h.bucketOk _ (by omega)) ?_
      -- equal keys have the same hash value, and are in the same bucket
      intro p hp q hq hkey
      have hpb := (List.mem_filter.1 hp).1
      have hp' := hlaid.placed _ (by omega) p hpb
      have hq' := hlaid.placed _ (by omega) q hq
      rw [(h.bucketOk _ (by omega)).hashed p hpb, hkey,
        ← (h.bucketOk _ (by omega)).hashed q hq, hq'] at hp'
      omega
    · rw [hj.other i hi hi']
      exact h.bucketOk i (by omega)
  · by_cases hi' : i = tb'.splitIx
    · rw [hi', hj.joined] at hp
      rcases List.mem_append.1 hp with hp | hp
      · exact ⟨tb'.nactive, by omega, (List.mem_filter.1 hp).1⟩
      · exact ⟨tb'.splitIx, by omega, hp⟩
    · rw [hj.other i hi hi'] at hp
      exact ⟨i, by omega, hp⟩

theorem Inv.grow (h : Inv T tb objs) (hfix : tb.fixCount = 0) (nitems : ℤ) :
    Inv T (tb.grow nitems) objs := by
  have hsteps := (growLoop_steps 5 nitems h.laid hfix).1
  suffices hinv : ∀ tb', Relation.ReflTransGen GrowStep tb tb' → Inv T tb' objs ∧ tb'.fixCount = 0 from
    (hinv _ hsteps).1
  intro tb' hsteps'
  induction hsteps' with
  | refl => exact ⟨h, hfix⟩
  | tail _ hstep ih => exact ⟨hstep.inv ih.1 ih.2, hstep.2.1.same.fixCount.trans ih.2⟩

theorem Inv.shrink (h : Inv T tb objs) (hfix : tb.fixCount = 0) {nitems : ℤ} (hpos : 0 ≤ nitems) :
    Inv T (tb.shrink nitems) objs := by
  have hsteps := (shrinkLoop_steps 5 hpos h.laid hfix).1
  suffices hinv : ∀ tb', Relation.ReflTransGen ShrinkStep tb tb' →
      Inv T tb' objs ∧ tb'.fixCount = 0 from (hinv _ hsteps).1
  intro tb' hsteps'
  induction hsteps' with
  | refl => exact ⟨h, hfix⟩
  | tail _ hstep ih => exact ⟨hstep.inv ih.1 ih.2, hstep.2.1.same.fixCount.trans ih.2⟩

end

end PonBeam.EtsHash
