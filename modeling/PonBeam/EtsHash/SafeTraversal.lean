import PonBeam.EtsHash.Slots
import PonBeam.Lib.KeyOrder

/-!
# Traversals of a fixed table

The keys of a table are in an order: that of the buckets, and in a bucket that of the chain. As
long as a table is fixed, no key leaves this order and no two keys change places, so that a
traversal is always at one of them, has been given keys before it, and will be given the live
ones behind it.
-/

namespace PonBeam.EtsHash

section

variable {Key Obj : Type} {T : Terms Key Obj} {tb tb' : DbTableHash Obj} {ix i fuel : ℕ}
  {l next : List (HashDbTerm Obj)} {b : HashDbTerm Obj} {objs : List Obj} {key : Key}

/-! ## The terms in order -/

/-- The terms that `next_live` goes through from a position on. -/
def remaining (tb : DbTableHash Obj) (ix : ℕ) (list : List (HashDbTerm Obj)) :
    List (HashDbTerm Obj) :=
  list ++ (slotsAfter tb tb.slotFuel ix).flatMap tb.bucket

/-- All terms. -/
def walk (tb : DbTableHash Obj) : List (HashDbTerm Obj) := remaining tb 0 (tb.bucket 0)

/-- No live term. -/
def AllDead (l : List (HashDbTerm Obj)) : Prop := ∀ p ∈ l, p.pseudoDeleted = true

theorem AllDead.append {l' : List (HashDbTerm Obj)} (h : AllDead l) (h' : AllDead l') :
    AllDead (l ++ l') := fun p hp => (List.mem_append.1 hp).elim (h p) (h' p)

theorem dropWhile_dead_nil (h : l.dropWhile (·.pseudoDeleted) = []) : AllDead l :=
  List.dropWhile_eq_nil_iff.1 h

theorem dropWhile_dead_cons (h : l.dropWhile (·.pseudoDeleted) = b :: next) :
    ∃ d, l = d ++ b :: next ∧ AllDead d ∧ b.pseudoDeleted = false := by
  induction l with
  | nil => exact nomatch h
  | cons x xs ih =>
    cases hx : x.pseudoDeleted with
    | true =>
      rw [List.dropWhile_cons_of_pos hx] at h
      obtain ⟨d, rfl, hd, hb⟩ := ih h
      refine ⟨x :: d, rfl, fun p hp => ?_, hb⟩
      rcases List.mem_cons.1 hp with rfl | hp
      · exact hx
      · exact hd p hp
    | false =>
      rw [List.dropWhile_cons_of_neg (by simp [hx])] at h
      cases h
      exact ⟨[], rfl, fun p hp => absurd hp List.not_mem_nil, hx⟩

/-- Where `next_live` goes. -/
def Finds (tb : DbTableHash Obj) (l : List (HashDbTerm Obj)) : Option (Position Obj) → Prop
  | none => AllDead l
  | some (i, b, next) => i < tb.nactive ∧ b.pseudoDeleted = false ∧
    ∃ d, AllDead d ∧ l = d ++ b :: remaining tb i next

theorem Finds.prepend {l' : List (HashDbTerm Obj)} {r : Option (Position Obj)}
    (h : Finds tb l r) (hdead : AllDead l') : Finds tb (l' ++ l) r := by
  cases r with
  | none => exact hdead.append h
  | some pos =>
    obtain ⟨hi, hb, d, hd, rfl⟩ := h
    exact ⟨hi, hb, l' ++ d, hdead.append hd, (List.append_assoc ..).symm⟩

theorem nextLiveSlot_finds (h : Locks tb) (hi : i < tb.nactive)
    (hfuel : tb.slotFuel ≤ fuel + slotPos tb i) :
    Finds tb ((slotsAfter tb tb.slotFuel i).flatMap tb.bucket) (nextLiveSlot tb fuel i) := by
  rw [← slotsAfter_fuel h hi hfuel (Nat.le_add_right ..)]
  induction fuel generalizing i with
  | zero =>
    have hpos := slotPos_lt h hi
    omega
  | succ fuel ih =>
    rw [slotsAfter, nextLiveSlot]
    split_ifs with hne
    · exact fun p hp => absurd hp List.not_mem_nil
    · have hpos := slotPos_nextSlot h hi hne
      have hnext := nextSlot_lt h i
      rw [List.flatMap_cons]
      cases hdrop : (tb.bucket (tb.nextSlot i)).dropWhile (·.pseudoDeleted) with
      | nil => exact (ih hnext (by omega)).prepend (dropWhile_dead_nil hdrop)
      | cons b next =>
        obtain ⟨d, hbucket, hd, hb⟩ := dropWhile_dead_cons hdrop
        refine ⟨hnext, hb, d, hd, ?_⟩
        rw [hbucket, remaining, List.append_assoc, List.cons_append,
          slotsAfter_fuel h hnext (by omega) (Nat.le_add_right ..)]

/-- **`next_live`** -/
theorem nextLive_finds (h : Locks tb) (hi : i < tb.nactive) (list : List (HashDbTerm Obj)) :
    Finds tb (remaining tb i list) (nextLive tb i list) := by
  unfold nextLive
  cases hdrop : list.dropWhile (·.pseudoDeleted) with
  | nil =>
    exact (nextLiveSlot_finds h hi (Nat.le_add_right tb.slotFuel _)).prepend
      (dropWhile_dead_nil hdrop)
  | cons b next =>
    obtain ⟨d, rfl, hd, hb⟩ := dropWhile_dead_cons hdrop
    refine ⟨hi, hb, d, hd, ?_⟩
    rw [remaining, remaining, List.append_assoc, List.cons_append]

/-! ## All buckets -/

theorem walk_eq (tb : DbTableHash Obj) : walk tb = (slots tb).flatMap tb.bucket := rfl

theorem slotsAfter_same (hs : SameLayout tb tb') (fuel i : ℕ) :
    slotsAfter tb' fuel i = slotsAfter tb fuel i := by
  have hnext : ∀ i, tb'.nextSlot i = tb.nextSlot i := by
    intro i
    simp only [DbTableHash.nextSlot, hs.nlocks, hs.nactive]
  induction fuel generalizing i with
  | zero => rfl
  | succ fuel ih => rw [slotsAfter, slotsAfter, hnext, ih]

theorem slots_same (hs : SameLayout tb tb') : slots tb' = slots tb := by
  rw [slots, slots, slotsAfter_same hs, DbTableHash.slotFuel, DbTableHash.slotFuel, hs.nlocks,
    hs.nactive]

theorem mem_walk (h : Locks tb) {p : HashDbTerm Obj} :
    p ∈ walk tb ↔ ∃ i < tb.nactive, p ∈ tb.bucket i := by
  rw [walk_eq, List.mem_flatMap]
  simp only [mem_slots h]

/-- A key with a live object. -/
def HasLive (T : Terms Key Obj) (tb : DbTableHash Obj) (key : Key) : Prop :=
  ∃ i < tb.nactive, ∃ p ∈ tb.bucket i, p.pseudoDeleted = false ∧ T.getkey p.dbterm = key

theorem HasLive.walk (hl : Locks tb) (h : HasLive T tb key) :
    ∃ p ∈ walk tb, p.pseudoDeleted = false ∧ termKey T p = key := by
  obtain ⟨i, hi, p, hp, hlive, hkey⟩ := h
  exact ⟨p, (mem_walk hl).2 ⟨i, hi, hp⟩, hlive, hkey⟩

variable [DecidableEq Key]

/-- Terms of different buckets. -/
theorem Inv.key_ne (h : Inv T tb objs) {j : ℕ} (hi : i < tb.nactive) (hj : j < tb.nactive)
    (hne : i ≠ j) {p q : HashDbTerm Obj} (hp : p ∈ tb.bucket i) (hq : q ∈ tb.bucket j) :
    termKey T p ≠ termKey T q := by
  intro heq
  have hp' := h.laid.placed i hi p hp
  have hq' := h.laid.placed j hj q hq
  rw [(h.bucketOk i hi).hashed p hp, heq, ← (h.bucketOk j hj).hashed q hq, hq'] at hp'
  exact hne hp'.symm

theorem Inv.walk_grouped (h : Inv T tb objs) (hl : Locks tb) : Grouped (termKey T) (walk tb) := by
  suffices hgrouped : ∀ is : List ℕ, (∀ i ∈ is, i < tb.nactive) → is.Nodup →
      Grouped (termKey T) (is.flatMap tb.bucket) from
    hgrouped _ (fun i hi => (mem_slots hl).1 hi) (slots_nodup hl)
  intro is
  induction is with
  | nil => exact fun _ _ => Grouped.nil
  | cons i is ih =>
    intro hlt hnodup
    have hi := hlt i List.mem_cons_self
    obtain ⟨hnot, hnodup⟩ := List.nodup_cons.1 hnodup
    refine (h.bucketOk i hi).grouped.append (ih (fun j hj => hlt j (List.mem_cons_of_mem i hj)) hnodup)
      fun p hp q hq => ?_
    obtain ⟨j, hj, hqj⟩ := List.mem_flatMap.1 hq
    refine h.key_ne hi (hlt j (List.mem_cons_of_mem i hj)) (fun heq => hnot ?_) hp hqj
    exact heq ▸ hj

/-- The terms before and after those of a key. -/
theorem Inv.walk_around (h : Inv T tb objs) (hl : Locks tb) {pre g post : List (HashDbTerm Obj)}
    (ha : Around T tb key pre g post) : ∃ front,
    walk tb = front ++ (g ++ remaining tb (tb.hashToIx (T.makeHash key)) post) ∧
    (∀ x ∈ front, termKey T x ≠ key) ∧
    (∀ x ∈ remaining tb (tb.hashToIx (T.makeHash key)) post, termKey T x ≠ key) ∧
    ∀ tb' g', SameLayout tb tb' →
      tb'.bucket = Function.update tb.bucket (tb.hashToIx (T.makeHash key)) (pre ++ (g' ++ post)) →
      walk tb' = front ++ (g' ++ remaining tb (tb.hashToIx (T.makeHash key)) post) := by
  have hix := h.laid.shape.mask.hashToIx_lt (T.makeHash key)
  generalize hkix : tb.hashToIx (T.makeHash key) = ix at hix
  obtain ⟨before, hslots⟩ := slots_split hl hix
  have hnodup := slots_nodup hl
  rw [hslots] at hnodup
  obtain ⟨-, hafter, hdisj⟩ := List.nodup_append.1 hnodup
  have hbefore : ix ∉ before := fun hmem => hdisj ix hmem ix List.mem_cons_self rfl
  have hrest : ix ∉ slotsAfter tb tb.slotFuel ix := (List.nodup_cons.1 hafter).1
  have hlt : ∀ j ∈ slots tb, j < tb.nactive := fun j hj => (mem_slots hl).1 hj
  have hbucket := ha.bucket_eq
  rw [hkix] at hbucket
  -- a term of the key is in its bucket, and there among `g`
  have hother : ∀ j ∈ slots tb, j ≠ ix → ∀ x ∈ tb.bucket j, termKey T x ≠ key := by
    rintro j hj hne x hx rfl
    have hxj := h.laid.placed j (hlt j hj) x hx
    rw [(h.bucketOk j (hlt j hj)).hashed x hx, hkix] at hxj
    exact hne hxj.symm
  have hsame : ∀ x ∈ tb.bucket ix, hasKey T x key (T.makeHash key) = false → termKey T x ≠ key := by
    rintro x hx hno rfl
    rw [← Bool.not_eq_true, hasKey_iff] at hno
    exact hno ⟨(h.bucketOk ix hix).hashed x hx, rfl⟩
  refine ⟨before.flatMap tb.bucket ++ pre, ?_, fun x hx => ?_, fun x hx => ?_, fun tb' g' hs hb => ?_⟩
  · rw [walk_eq, hslots, List.flatMap_append, List.flatMap_cons, hbucket, remaining]
    simp only [List.append_assoc]
  · rcases List.mem_append.1 hx with hx | hx
    · obtain ⟨j, hj, hxj⟩ := List.mem_flatMap.1 hx
      exact hother j (hslots ▸ List.mem_append_left _ hj) (fun heq => hbefore (heq ▸ hj)) x hxj
    · exact hsame x (hbucket ▸ List.mem_append_left _ hx) (ha.before x hx)
  · rcases List.mem_append.1 hx with hx | hx
    · exact hsame x (by simp [hbucket, hx]) (ha.after x hx)
    · obtain ⟨j, hj, hxj⟩ := List.mem_flatMap.1 hx
      exact hother j (by rw [hslots]; simp [hj]) (fun heq => hrest (heq ▸ hj)) x hxj
  · have hbucket' : ∀ js : List ℕ, ix ∉ js → js.flatMap tb'.bucket = js.flatMap tb.bucket := by
      intro js hjs
      refine List.flatMap_congr fun j hj => ?_
      rw [hb, Function.update_of_ne fun heq : j = ix => hjs (heq ▸ hj)]
    rw [walk_eq, slots_same hs, hslots, List.flatMap_append, List.flatMap_cons,
      hbucket' before hbefore, hbucket' _ hrest, hb, Function.update_self, remaining]
    simp only [List.append_assoc]

/-! ## The keys in order -/

/-- The keys of a table, deleted ones included. -/
def keys (T : Terms Key Obj) (tb : DbTableHash Obj) : List Key := keyOrder (termKey T) (walk tb)

theorem HasLive.mem_keys (hl : Locks tb) (h : HasLive T tb key) : key ∈ keys T tb := by
  obtain ⟨p, hp, -, hkey⟩ := h.walk hl
  exact mem_keyOrder.2 ⟨p, hp, hkey⟩

/-- The next key among `ks`: those before it are all deleted. -/
def NextKey (T : Terms Key Obj) (tb : DbTableHash Obj) (ks : List Key) : Option Key → Prop
  | none => ∀ k ∈ ks, ¬ HasLive T tb k
  | some k' => ∃ d rest, ks = d ++ k' :: rest ∧ ∀ k ∈ d, ¬ HasLive T tb k

theorem Finds.nextKey {front : List (HashDbTerm Obj)} {r : Option (Position Obj)} (hl : Locks tb)
    (hgrouped : Grouped (termKey T) (walk tb)) (hwalk : walk tb = front ++ l)
    (hfront : ∀ x ∈ front, ∀ y ∈ l, termKey T x ≠ termKey T y) (h : Finds tb l r) :
    NextKey T tb (keyOrder (termKey T) l) (r.map fun pos => T.getkey pos.2.1.dbterm) := by
  have hlive : ∀ k ∈ keyOrder (termKey T) l, HasLive T tb k →
      ∃ p ∈ l, p.pseudoDeleted = false ∧ termKey T p = k := by
    intro k hk hlive
    obtain ⟨p, hp, hpl, hpk⟩ := hlive.walk hl
    rw [hwalk] at hp
    rcases List.mem_append.1 hp with hp | hp
    · obtain ⟨y, hy, hyk⟩ := mem_keyOrder.1 hk
      exact absurd (hpk.trans hyk.symm) (hfront p hp y hy)
    · exact ⟨p, hp, hpl, hpk⟩
  cases r with
  | none =>
    intro k hk hkl
    obtain ⟨p, hp, hpl, -⟩ := hlive k hk hkl
    rw [h p hp] at hpl
    exact nomatch hpl
  | some pos =>
    obtain ⟨i, b, next⟩ := pos
    obtain ⟨-, -, d, hd, rfl⟩ := h
    rw [hwalk] at hgrouped
    obtain ⟨before, after, heq, hbefore⟩ := hgrouped.keyOrder_eq
    refine ⟨before, after, heq, fun k hk hkl => ?_⟩
    obtain ⟨p, hp, hpl, rfl⟩ := hlive k (heq ▸ List.mem_append_left _ hk) hkl
    rw [hd p (hbefore p hp hk)] at hpl
    exact nomatch hpl

/-- **`db_first_hash`** -/
theorem dbFirstHash_nextKey (h : Inv T tb objs) (hl : Locks tb) :
    NextKey T tb (keys T tb) (dbFirstHash T tb) := by
  have hfinds := nextLive_finds hl (Nat.lt_of_lt_of_le hl.pos hl.le) (tb.bucket 0)
  exact hfinds.nextKey hl (h.walk_grouped hl) (List.nil_append (walk tb)).symm
    fun x hx => absurd hx List.not_mem_nil

/-- The terms of a `bag` are skipped. -/
theorem skipKey_eq (hl : Locks tb) (hix : ix < tb.nactive) {hval : ℕ}
    {g post : List (HashDbTerm Obj)} (hg : ∀ x ∈ g, hasKey T x key hval = true)
    (hrest : ∀ x ∈ remaining tb ix post, hasKey T x key hval = false) (hfuel : g.length ≤ fuel) :
    skipKey T tb key hval fuel (nextLive tb ix (g ++ post)) = nextLive tb ix post := by
  induction g generalizing fuel with
  | nil =>
    have hfinds := nextLive_finds hl hix post
    rw [List.nil_append]
    cases hr : nextLive tb ix post with
    | none => cases fuel <;> rfl
    | some pos =>
      obtain ⟨i, b, next⟩ := pos
      rw [hr] at hfinds
      obtain ⟨-, -, d, -, heq⟩ := hfinds
      have hb : hasKey T b key hval = false := hrest b (by simp [heq])
      cases fuel with
      | zero => rfl
      | succ fuel => rw [skipKey, hb]; rfl
  | cons x xs ih =>
    have hxs := fun y hy => hg y (List.mem_cons_of_mem x hy)
    rw [List.length_cons] at hfuel
    cases hx : x.pseudoDeleted with
    | true =>
      have hskip : nextLive tb ix (x :: xs ++ post) = nextLive tb ix (xs ++ post) := by
        simp [nextLive, hx]
      rw [hskip]
      exact ih hxs (by omega)
    | false =>
      obtain ⟨m, rfl⟩ := Nat.exists_eq_succ_of_ne_zero (show fuel ≠ 0 by omega)
      have hhere : nextLive tb ix (x :: xs ++ post) = some (ix, x, xs ++ post) := by
        simp [nextLive, hx]
      rw [hhere, skipKey, if_pos (hg x List.mem_cons_self)]
      exact ih hxs (by omega)

theorem length_le_nterms (hix : ix < tb.nactive) : (tb.bucket ix).length ≤ tb.nterms :=
  List.le_sum_of_mem (List.mem_map.2 ⟨ix, List.mem_range.2 hix, rfl⟩)

/-- **`db_next_hash`** on a key of the table -/
theorem dbNextHash_nextKey (h : Inv T tb objs) (hl : Locks tb) (hkey : key ∈ keys T tb) :
    ∃ r before after, dbNextHash T tb key = .ok r ∧ keys T tb = before ++ key :: after ∧
      NextKey T tb after r := by
  have hix := h.laid.shape.mask.hashToIx_lt (T.makeHash key)
  obtain ⟨pre, g, post, ha, -⟩ := h.around key
  obtain ⟨front, hwalk, hfront, hrest, -⟩ := h.walk_around hl ha
  have hgrouped := h.walk_grouped hl
  have hgkey : ∀ x ∈ g, termKey T x = key := fun x hx => ((hasKey_iff x).1 (ha.terms x hx)).2
  have hne : g ≠ [] := by
    rintro rfl
    obtain ⟨x, hx, hxk⟩ := mem_keyOrder.1 hkey
    rw [hwalk, List.nil_append] at hx
    exact (List.mem_append.1 hx).elim (fun hx => hfront x hx hxk) fun hx => hrest x hx hxk
  have hnokey : ∀ x ∈ remaining tb (tb.hashToIx (T.makeHash key)) post,
      hasKey T x key (T.makeHash key) = false := by
    intro x hx
    rw [← Bool.not_eq_true, hasKey_iff]
    exact fun hk => hrest x hx hk.2
  obtain ⟨b, bs, rfl⟩ := List.exists_cons_of_ne_nil hne
  have hdrop : (pre ++ b :: (bs ++ post)).dropWhile (!hasKey T · key (T.makeHash key)) =
      b :: (bs ++ post) := (takeWhile_before ha.before ha.terms ha.nil).2
  -- the other terms of the key are passed over
  have hskip : behindKey T tb key (T.makeHash key)
      (nextLive tb (tb.hashToIx (T.makeHash key)) (bs ++ post)) =
      nextLive tb (tb.hashToIx (T.makeHash key)) post := by
    have hfuel : bs.length ≤ tb.nterms := by
      refine Nat.le_trans ?_ (length_le_nterms hix)
      rw [ha.bucket_eq]
      simp
      omega
    have hbag := skipKey_eq hl hix (fun x hx => ha.terms x (List.mem_cons_of_mem b hx)) hnokey hfuel
    unfold behindKey
    cases hstatus : tb.status with
    | set =>
      have horder := ha.order
      rw [hstatus] at horder
      rw [set_group ha.terms horder]
      rfl
    | bag | duplicateBag => exact hbag
  refine ⟨_, keyOrder (termKey T) front, _, ?_, ?_, (nextLive_finds hl hix post).nextKey hl hgrouped
    (hwalk.trans (List.append_assoc ..).symm) fun x hx y hy => ?_⟩
  · simp only [dbNextHash, ha.bucket_eq, List.cons_append]
    rw [hdrop]
    simp only [hskip]
  · rw [keys, hwalk]
    exact Grouped.keyOrder_around (hwalk ▸ hgrouped) hfront hgkey hrest hne
  · rcases List.mem_append.1 hx with hx | hx
    · intro hxy
      rw [hwalk] at hgrouped
      have hbx : termKey T b = termKey T x := by
        refine Grouped.between ?_ hx (List.mem_append_right bs hy) hxy
        exact hgrouped
      exact hfront x hx (hbx.symm.trans (hgkey b List.mem_cons_self))
    · rw [hgkey x hx]
      exact (hrest y hy).symm

/-! ## Updates -/

/-- A key may be new, but none is lost. -/
theorem Regroups.keys (hre : Regroups T key tb tb') (h : Inv T tb objs) {objs' : List Obj}
    (h' : Inv T tb' objs') (hl : Locks tb) (hfix : tb.fixCount ≠ 0) :
    keys T tb' = keys T tb ∨
      ∃ front back, keys T tb = front ++ back ∧ keys T tb' = front ++ key :: back := by
  obtain ⟨pre, g, g', post, ha, hbucket, hg', hstay⟩ := hre.terms
  obtain ⟨front, hwalk, hfront, hrest, hwalk'⟩ := h.walk_around hl ha
  have hl' : Locks tb' := ⟨hre.same.nlocks ▸ hl.pow, hre.same.nlocks ▸ hre.same.nactive ▸ hl.le⟩
  have hnew := hwalk' tb' g' hre.same hbucket
  have hkey' : ∀ x ∈ g', termKey T x = key := fun x hx => ((hasKey_iff x).1 (hg' x hx)).2
  have hkey : ∀ x ∈ g, termKey T x = key := fun x hx => ((hasKey_iff x).1 (ha.terms x hx)).2
  unfold EtsHash.keys
  by_cases hnil : g = []
  · subst hnil
    by_cases hnil' : g' = []
    · left
      rw [hnew, hwalk, hnil']
    · right
      have horder := Grouped.keyOrder_around (hnew ▸ h'.walk_grouped hl') hfront hkey' hrest hnil'
      have hnodup := nodup_keyOrder (termKey T) (walk tb')
      rw [hnew, horder] at hnodup
      refine ⟨_, _, ?_, hnew ▸ horder⟩
      rw [hwalk, List.nil_append, keyOrder_append]
      congr 1
      refine List.filter_eq_self.2 fun k hk => decide_eq_true fun hmem => ?_
      obtain ⟨x, hx, hxk⟩ := List.mem_map.1 hmem
      exact (List.nodup_append.1 hnodup).2.2 k (mem_keyOrder.2 ⟨x, hx, hxk⟩) k
        (List.mem_cons_of_mem _ hk) rfl
  · left
    rw [hnew, hwalk]
    exact keyOrder_replace hkey hkey' hnil (hstay hfix hnil)

variable [DecidableEq Obj]

/-- An operation on a fixed table. -/
theorem update_spec (h : Inv T tb objs) (hvalid : Collection.Valid T tb.status objs)
    (hfix : tb.fixCount ≠ 0) (u : Update Key Obj) : ∃ objs',
    Regroups T (u.key T) tb (tb.step T u.op).2 ∧ Inv T (tb.step T u.op).2 objs' ∧
    Collection.Valid T (tb.step T u.op).2.status objs' := by
  obtain ⟨-, hinv, hstatus, -⟩ := step_refines h hvalid u.op
  refine ⟨_, ?_, hinv, hstatus ▸ hvalid.step u.op⟩
  cases u with
  | put obj keyClashFail =>
    obtain ⟨tb', hre, -, -, -, htable, -⟩ := dbPutHash_spec h obj keyClashFail
    rcases htable with rfl | ⟨h0, -⟩
    · exact hre
    · exact absurd h0 hfix
  | erase key =>
    obtain ⟨tb', hre, -, -, htable⟩ := dbEraseHash_spec h key
    rcases htable with rfl | ⟨h0, -⟩
    · exact hre
    · exact absurd h0 hfix
  | eraseObject obj =>
    obtain ⟨tb', hre, -, -, htable⟩ := dbEraseObjectHash_spec h hvalid obj
    rcases htable with rfl | ⟨h0, -⟩
    · exact hre
    · exact absurd h0 hfix

/-! ## Traversals -/

/-- A traversal of a fixed table, with the keys in `stays` live from its beginning on. -/
structure Underway (T : Terms Key Obj) (stays : Key → Prop) (s : Traversal Key Obj) : Prop where
  table : ∃ objs, Inv T s.tb objs ∧ Collection.Valid T s.tb.status objs
  locks : Locks s.tb
  fixed : s.tb.fixCount ≠ 0
  nodup : s.returned.Nodup
  place : match s.cursor with
    | .start => s.returned = []
    | .at key => ∃ before after, keys T s.tb = before ++ key :: after ∧
      (∀ k ∈ s.returned, k = key ∨ k ∈ before) ∧ ∀ k, stays k → k ∈ s.returned ∨ k ∈ after
    | .eot => ∀ k, stays k → k ∈ s.returned
    | .badkey => False

variable {stays stays' : Key → Prop} {s : Traversal Key Obj}

theorem Underway.update (h : Underway T stays s) (hmono : ∀ k, stays' k → stays k)
    (u : Update Key Obj) : Underway T stays' (s.step T (.update u)) := by
  obtain ⟨⟨objs, hinv, hvalid⟩, hlocks, hfix, hnodup, hplace⟩ := h
  obtain ⟨objs', hre, hinv', hvalid'⟩ := update_spec hinv hvalid hfix u
  have hlocks' : Locks (s.tb.step T u.op).2 :=
    ⟨hre.same.nlocks ▸ hlocks.pow, hre.same.nlocks ▸ hre.same.nactive ▸ hlocks.le⟩
  refine ⟨⟨objs', hinv', hvalid'⟩, hlocks', hre.fixCount_eq ▸ hfix, hnodup, ?_⟩
  cases hcursor : s.cursor with
  | start =>
    rw [hcursor] at hplace
    simpa [Traversal.step, hcursor] using hplace
  | «at» key =>
    rw [hcursor] at hplace
    obtain ⟨before, after, heq, hreturned, hstays⟩ := hplace
    simp only [Traversal.step, hcursor]
    rcases hre.keys hinv hinv' hlocks hfix with hsame | ⟨front, back, hold, hnew⟩
    · exact ⟨before, after, hsame.trans heq, hreturned, fun k hk => hstays k (hmono k hk)⟩
    · -- the new key is before or after the one the traversal is at
      rw [heq] at hold
      rw [hnew]
      rcases List.append_eq_append_iff.1 hold with ⟨c, rfl, hc⟩ | ⟨c, rfl, rfl⟩
      · cases c with
        | nil =>
          refine ⟨before ++ [u.key T], after, ?_, fun k hk => ?_, fun k hk => hstays k (hmono k hk)⟩
          · rw [List.nil_append] at hc
            simp [← hc]
          · exact (hreturned k hk).imp_right (List.mem_append_left _)
        | cons d ds =>
          cases hc
          refine ⟨before, ds ++ u.key T :: back, by simp, hreturned, fun k hk => ?_⟩
          refine (hstays k (hmono k hk)).imp_right fun hk => ?_
          rcases List.mem_append.1 hk with hk | hk
          · exact List.mem_append_left _ hk
          · exact List.mem_append_right _ (List.mem_cons_of_mem _ hk)
      · refine ⟨front ++ u.key T :: c, after, by simp, fun k hk => ?_,
          fun k hk => hstays k (hmono k hk)⟩
        refine (hreturned k hk).imp_right fun hk => ?_
        rcases List.mem_append.1 hk with hk | hk
        · exact List.mem_append_left _ hk
        · exact List.mem_append_right _ (List.mem_cons_of_mem _ hk)
  | eot =>
    rw [hcursor] at hplace
    simp only [Traversal.step, hcursor]
    exact fun k hk => hplace k (hmono k hk)
  | badkey =>
    rw [hcursor] at hplace
    exact absurd hplace id

omit [DecidableEq Obj] in
/-- The next key is given. -/
theorem Underway.go {r : Option Key} {ks : List Key} (h : Underway T stays s) (before : List Key)
    (hkeys : keys T s.tb = before ++ ks) (hreturned : ∀ k ∈ s.returned, k ∈ before)
    (hstays : ∀ k, stays' k → HasLive T s.tb k ∧ (k ∈ s.returned ∨ k ∈ ks))
    (hnext : NextKey T s.tb ks r) : Underway T stays' (s.go r) := by
  obtain ⟨htable, hlocks, hfix, hnodup, -⟩ := h
  cases r with
  | none =>
    refine ⟨htable, hlocks, hfix, hnodup, fun k hk => ?_⟩
    obtain ⟨hlive, hin⟩ := hstays k hk
    exact hin.elim id fun hin => absurd hlive (hnext k hin)
  | some k' =>
    obtain ⟨d, rest, rfl, hd⟩ := hnext
    have hnot : k' ∉ s.returned := by
      intro hmem
      have hkeys' := nodup_keyOrder (termKey T) (walk s.tb)
      rw [← keys, hkeys] at hkeys'
      exact (List.nodup_append.1 hkeys').2.2 k' (hreturned k' hmem) k' (by simp) rfl
    refine ⟨htable, hlocks, hfix, ?_, before ++ d, rest, ?_, fun k hk => ?_, fun k hk => ?_⟩
    · refine List.nodup_append.2 ⟨hnodup, List.nodup_singleton k', fun k hk k'' hk'' heq => ?_⟩
      rw [List.mem_singleton.1 hk''] at heq
      exact hnot (heq ▸ hk)
    · exact hkeys.trans (List.append_assoc ..).symm
    · rcases List.mem_append.1 hk with hk | hk
      · exact Or.inr (List.mem_append_left d (hreturned k hk))
      · exact Or.inl (List.mem_singleton.1 hk)
    · obtain ⟨hlive, hin⟩ := hstays k hk
      rcases hin with hin | hin
      · exact Or.inl (List.mem_append_left _ hin)
      · rcases List.mem_append.1 hin with hin | hin
        · exact absurd hlive (hd k hin)
        · rcases List.mem_cons.1 hin with rfl | hin
          · exact Or.inl (List.mem_append_right _ List.mem_cons_self)
          · exact Or.inr hin

theorem Underway.advance (h : Underway T stays s)
    (hmono : ∀ k, stays' k → stays k ∧ HasLive T s.tb k) : Underway T stays' (s.step T .next) := by
  obtain ⟨objs, hinv, -⟩ := h.table
  have hplace := h.place
  cases hcursor : s.cursor with
  | start =>
    rw [hcursor] at hplace
    simp only [Traversal.step, hcursor]
    refine h.go [] rfl (fun k hk => ?_) (fun k hk => ?_)
      (dbFirstHash_nextKey hinv h.locks)
    · rw [hplace] at hk
      exact absurd hk List.not_mem_nil
    · exact ⟨(hmono k hk).2, Or.inr ((hmono k hk).2.mem_keys h.locks)⟩
  | «at» key =>
    rw [hcursor] at hplace
    obtain ⟨before, after, heq, hreturned, hstays⟩ := hplace
    have hmem : key ∈ keys T s.tb := by
      rw [heq]
      simp
    obtain ⟨r, before', after', hr, heq', hnext⟩ := dbNextHash_nextKey hinv h.locks hmem
    have hnodup := nodup_keyOrder (termKey T) (walk s.tb)
    rw [← keys, heq] at hnodup
    -- the key is there once
    obtain ⟨rfl, -, rfl⟩ : before = before' ∧ key = key ∧ after = after' := by
      refine (List.append_cons_inj_of_notMem ?_ ?_).1 (heq.symm.trans heq')
      · intro hmem
        exact (List.nodup_append.1 hnodup).2.2 key hmem key List.mem_cons_self rfl
      · exact (List.nodup_cons.1 (List.nodup_append.1 hnodup).2.1).1
    simp only [Traversal.step, hcursor, hr]
    refine h.go (before ++ [key]) ?_ (fun k hk => ?_) (fun k hk => ?_) hnext
    · rw [heq]
      simp
    · rcases hreturned k hk with rfl | hk
      · simp
      · exact List.mem_append_left _ hk
    · exact ⟨(hmono k hk).2, hstays k (hmono k hk).1⟩
  | eot =>
    obtain ⟨htable, hlocks, hfix, hnodup, -⟩ := h
    rw [hcursor] at hplace
    simp only [Traversal.step, hcursor]
    refine ⟨htable, hlocks, hfix, hnodup, ?_⟩
    rw [hcursor]
    exact fun k hk => hplace k (hmono k hk).1
  | badkey =>
    rw [hcursor] at hplace
    exact absurd hplace id

theorem Locking.nlocks_pow (locking : DbTableHash.Locking) : ∃ a, locking.nlocks = 2 ^ a := by
  cases locking with
  | none => exact ⟨0, rfl⟩
  | auto => exact ⟨6, rfl⟩
  | fixed nlocks =>
    simp only [DbTableHash.Locking.nlocks]
    rcases max_choice (2 ^ Nat.log2 (if nlocks = 0 then 64 else nlocks)) nlocksWithItemCounters
      with hmax | hmax
    · exact ⟨_, hmax⟩
    · exact ⟨6, hmax⟩

/-- The keys that have a live object at every moment of a traversal. -/
def LiveThroughout (T : Terms Key Obj) (s : Traversal Key Obj) (events : List (Event Key Obj))
    (key : Key) : Prop :=
  ∀ pre, pre <+: events → HasLive T (s.run T pre).tb key

theorem run_underway (h : ∀ stays, Underway T stays s) (events : List (Event Key Obj)) :
    Underway T (LiveThroughout T s events) (s.run T events) := by
  induction events using List.reverseRecOn with
  | nil => exact h _
  | append_singleton events event ih =>
    have hmono : ∀ k, LiveThroughout T s (events ++ [event]) k →
        LiveThroughout T s events k ∧ HasLive T (s.run T events).tb k := by
      intro k hk
      exact ⟨fun pre hpre => hk pre (hpre.trans (List.prefix_append ..)),
        hk events (List.prefix_append ..)⟩
    have hrun : s.run T (events ++ [event]) = (s.run T events).step T event := by
      simp [Traversal.run]
    rw [hrun]
    cases event with
    | update u => exact ih.update (fun k hk => (hmono k hk).1) u
    | next => exact ih.advance hmono

/-- **Safe traversal**: while a table is fixed, whatever happens to it, no key is returned twice,
no returned key is refused, and at the end every key that stayed was returned. -/
theorem safe_traversal (T : Terms Key Obj) (status : TableType) (isDecentralized : Bool)
    (locking : DbTableHash.Locking) (ops : List (Op Key Obj)) {tb : DbTableHash Obj}
    (htb : ((DbTableHash.create status isDecentralized locking.nlocks).run T ops).2 = tb)
    (hfixed : tb.fixCount ≠ 0) (events : List (Event Key Obj)) :
    let start : Traversal Key Obj := { tb := tb, cursor := .start, returned := [] }
    (start.run T events).returned.Nodup ∧ (start.run T events).cursor ≠ .badkey ∧
      ((start.run T events).cursor = .eot →
        ∀ key, LiveThroughout T start events key → key ∈ (start.run T events).returned) := by
  intro start
  obtain ⟨-, hinv, hvalid, hnlocks, -⟩ :=
    run_create T status isDecentralized locking.nlocks ops rfl
  rw [htb] at hinv hvalid hnlocks
  have hlocks : Locks tb := ⟨hnlocks ▸ Locking.nlocks_pow locking, hinv.laid.shape.locks⟩
  have hstart : ∀ stays, Underway T stays start := fun stays =>
    ⟨⟨_, hinv, hvalid⟩, hlocks, hfixed, List.nodup_nil, rfl⟩
  obtain ⟨-, -, -, hnodup, hplace⟩ := run_underway hstart events
  refine ⟨hnodup, fun hcursor => ?_, fun hcursor => ?_⟩
  · rw [hcursor] at hplace
    exact hplace
  · rw [hcursor] at hplace
    exact hplace

/-- The key that was returned is deleted before the next one is asked for. -/
theorem deletedKey_traversal : (Traversal.run ⟨id, id⟩
    { tb := ((DbTableHash.create .bag false 1).run ⟨id, id⟩ ([.fix] : List (Op ℕ ℕ))).2
      cursor := .start
      returned := [] }
    [.update (.put 5 false), .next, .update (.erase 5), .next]).cursor ≠ .badkey :=
  (safe_traversal ⟨id, id⟩ .bag false .none [.fix] rfl (Nat.succ_ne_zero 0) _).2.1

end

end PonBeam.EtsHash
