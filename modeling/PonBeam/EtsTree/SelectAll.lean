import PonBeam.EtsTree.LeastMost
import PonBeam.EtsTree.SamePatterns

/-!
# `select` returns every match

Where nothing misleads the comparisons that `analyze_pattern` makes between the keys of the
heads, the range admits all keys that a head admits. And where no key of a head meets a variable
in a key in the table, the traversal finds the range, and `select` returns all results. Otherwise
the range may be too small, or the traversal may go past it.
-/

namespace PonBeam.EtsTree

open Term TermTable DbTableTree

variable {Prim Obj Res : Type} {K : TermTable Prim Obj} {d : Side} {a b key : Term Prim}
  {keys heads : List (Term Prim)}

/-! ## The least and the most key -/

/-- Nothing misleads the comparisons of the keys with the least key so far, or with the most. -/
def soundLimit (K : TermTable Prim Obj) (d : Side) : Option (Term Prim) → List (Term Prim) → Bool
  | _, [] => true
  | limit, key :: keys =>
    limit.all (fun l => K.soundKeys d key l) && soundLimit K d (K.widen d limit key) keys

/-- One step: the new limit begins no later than the old one and the key. -/
theorem widen_beginsBy {limit : Option (Term Prim)}
    (h : limit.all (fun l => K.soundKeys d key l) = true) :
    ∃ l', K.widen d limit key = some l' ∧ BeginsBy K.toPrims d l' key ∧
      ∀ l, limit = some l → BeginsBy K.toPrims d l' l := by
  cases limit with
  | none => exact ⟨key, rfl, fun _ => id, fun l hl => by cases hl⟩
  | some l =>
    obtain ⟨hyes, hno⟩ := beginsBy_of_soundKeys h
    rw [widen]
    cases hcan : K.partlyBoundCanMatch d key l with
    | true =>
      refine ⟨key, if_pos rfl, fun _ => id, fun l' hl => ?_⟩
      cases hl
      exact hyes hcan
    | false =>
      refine ⟨l, if_neg Bool.false_ne_true, hno hcan, fun l' hl => ?_⟩
      cases hl
      exact .refl _ _ _

/-- **The limit** of the keys begins no later than each. -/
theorem foldl_widen_beginsBy {limit : Option (Term Prim)} (h : soundLimit K d limit keys = true)
    (hne : keys ≠ [] ∨ limit ≠ none) :
    ∃ l', keys.foldl (K.widen d) limit = some l' ∧
      (∀ key ∈ keys, BeginsBy K.toPrims d l' key) ∧
      ∀ l, limit = some l → BeginsBy K.toPrims d l' l := by
  induction keys generalizing limit with
  | nil =>
    obtain ⟨l, rfl⟩ := Option.ne_none_iff_exists'.1 (hne.resolve_left fun h => h rfl)
    refine ⟨l, rfl, fun key hkey => absurd hkey List.not_mem_nil, fun l' hl => ?_⟩
    cases hl
    exact .refl _ _ _
  | cons key keys ih =>
    rw [soundLimit, Bool.and_eq_true] at h
    obtain ⟨m, hm, hkey, hlimit⟩ := widen_beginsBy h.1
    obtain ⟨l', hl', hkeys, hm'⟩ := ih h.2 (Or.inr (by rw [hm]; exact Option.some_ne_none m))
    exact ⟨l', hl', List.forall_mem_cons.2 ⟨(hm' m hm).trans hkey, hkeys⟩, fun l hl =>
      (hm' m hm).trans (hlimit l hl)⟩

/-- It is one of the keys, or there has been one before. -/
theorem foldl_widen_mem {limit : Option (Term Prim)} {l : Term Prim}
    (h : keys.foldl (K.widen d) limit = some l) : l ∈ keys ∨ limit = some l := by
  induction keys generalizing limit with
  | nil => exact Or.inr h
  | cons key keys ih =>
    rcases ih h with hmem | hwiden
    · exact Or.inl (List.mem_cons_of_mem key hmem)
    · cases limit with
      | none =>
        cases hwiden
        exact Or.inl List.mem_cons_self
      | some l' =>
        rw [widen] at hwiden
        split at hwiden
        · cases hwiden
          exact Or.inl List.mem_cons_self
        · exact Or.inr hwiden

theorem foldl_widen_some {limit : Option (Term Prim)} (hne : keys ≠ [] ∨ limit ≠ none) :
    ∃ l, keys.foldl (K.widen d) limit = some l := by
  induction keys generalizing limit with
  | nil => exact Option.ne_none_iff_exists'.1 (hne.resolve_left fun h => h rfl)
  | cons key keys ih =>
    refine ih (Or.inr ?_)
    cases limit with
    | none => exact Option.some_ne_none key
    | some l =>
      rw [widen]
      split <;> exact Option.some_ne_none _

/-! ## The heads -/

/-- The keys of the heads that are bound or partly bound. -/
def headKeys (K : TermTable Prim Obj) (heads : List (Term Prim)) : List (Term Prim) :=
  heads.filterMap fun tpl => (tpl.keyBoundness K.toPrims K.keypos).2

theorem analyzeHeads_eq (heads : List (Term Prim)) (a : Analysis Prim) :
    (heads.foldl K.analyzeHead a).least = (headKeys K heads).foldl (K.widen .left) a.least ∧
    (heads.foldl K.analyzeHead a).most = (headKeys K heads).foldl (K.widen .right) a.most := by
  induction heads generalizing a with
  | nil => exact ⟨rfl, rfl⟩
  | cons tpl heads ih =>
    rw [List.foldl_cons]
    obtain ⟨hleast, hmost⟩ := ih (K.analyzeHead a tpl)
    rw [hleast, hmost, analyzeHead]
    cases hkey : tpl.keyBoundness K.toPrims K.keypos with
    | mk boundness key =>
      cases key with
      | none =>
        have hkeys : headKeys K (tpl :: heads) = headKeys K heads :=
          List.filterMap_cons_none (congrArg Prod.snd hkey)
        rw [hkeys]
        constructor <;> dsimp only <;> split <;> rfl
      | some key =>
        have hkeys : headKeys K (tpl :: heads) = key :: headKeys K heads :=
          List.filterMap_cons_some (congrArg Prod.snd hkey)
        rw [hkeys]
        constructor <;> dsimp only <;> split <;> rfl

/-- The boundness is the least of those of the heads. -/
theorem analyzeHeads_boundness (heads : List (Term Prim)) (a : Analysis Prim) :
    (heads.foldl K.analyzeHead a).keyBoundness.val ≤ a.keyBoundness.val ∧
    (∀ tpl ∈ heads, (heads.foldl K.analyzeHead a).keyBoundness.val ≤
      (tpl.keyBoundness K.toPrims K.keypos).1.val) ∧
    ((heads.foldl K.analyzeHead a).keyBoundness = a.keyBoundness ∨ ∃ tpl ∈ heads,
      (heads.foldl K.analyzeHead a).keyBoundness = (tpl.keyBoundness K.toPrims K.keypos).1) := by
  induction heads generalizing a with
  | nil => exact ⟨le_rfl, fun tpl htpl => absurd htpl List.not_mem_nil, Or.inl rfl⟩
  | cons tpl heads ih =>
    rw [List.foldl_cons]
    obtain ⟨hle, hheads, hone⟩ := ih (K.analyzeHead a tpl)
    have hstep : ((K.analyzeHead a tpl).keyBoundness = a.keyBoundness ∧
          a.keyBoundness.val ≤ (tpl.keyBoundness K.toPrims K.keypos).1.val) ∨
        ((K.analyzeHead a tpl).keyBoundness = (tpl.keyBoundness K.toPrims K.keypos).1 ∧
          (tpl.keyBoundness K.toPrims K.keypos).1.val ≤ a.keyBoundness.val) := by
      rw [analyzeHead]
      cases hkey : tpl.keyBoundness K.toPrims K.keypos with
      | mk boundness key =>
        cases key <;> dsimp only <;> split
        · exact Or.inr ⟨rfl, by omega⟩
        · exact Or.inl ⟨rfl, by omega⟩
        · exact Or.inr ⟨rfl, by omega⟩
        · exact Or.inl ⟨rfl, by omega⟩
    rcases hstep with ⟨heq, hval⟩ | ⟨heq, hval⟩ <;> rw [heq] at hle hone
    · refine ⟨hle, List.forall_mem_cons.2 ⟨hle.trans hval, hheads⟩, ?_⟩
      exact hone.imp id fun ⟨tpl', hmem, h⟩ => ⟨tpl', List.mem_cons_of_mem tpl hmem, h⟩
    · refine ⟨hle.trans hval, List.forall_mem_cons.2 ⟨hle, hheads⟩, Or.inr ?_⟩
      rcases hone with h | ⟨tpl', hmem, h⟩
      · exact ⟨tpl, List.mem_cons_self, h⟩
      · exact ⟨tpl', List.mem_cons_of_mem tpl hmem, h⟩

/-! ## Instances -/

mutual

/-- The term is an instance of the pattern, up to `==`; a map may match any map. -/
def Term.isInstance (P : Prims Prim) : Term Prim → Term Prim → Bool
  | prim p, k => P.isWild p || decide (P.tag p = .map) || decide (cmp P (prim p) k = 0)
  | .nil, .nil => true
  | .cons x xs, .cons y ys => isInstance P x y && isInstance P xs ys
  | .tuple xs, .tuple ys => isInstanceElems P xs ys
  | _, _ => false

/-- The elements of a tuple are. -/
def Term.isInstanceElems (P : Prims Prim) : List (Term Prim) → List (Term Prim) → Bool
  | [], [] => true
  | x :: xs, y :: ys => isInstance P x y && isInstanceElems P xs ys
  | _, _ => false

end

/-- A head is for objects with the key: it is a variable, or has a pattern for the key. -/
def TermTable.admits (K : TermTable Prim Obj) (tpl k : Term Prim) : Bool :=
  if isUnderscore K.toPrims tpl || decide (dbIsVariable K.toPrims tpl ≠ -1) then true
  else
    match dbGetkey K.keypos tpl with
    | some p => isInstance K.toPrims p k
    | none => false

theorem orElse_fst_zero {r r' : ℤ × Bool} (h : r.1 = 0) (h' : r'.1 = 0) :
    (Term.orElse r r').1 = 0 := by
  by_cases hr : r = (0, false)
  · rwa [orElse_of_zero hr]
  · rwa [orElse_of_ne hr]

theorem isInstance_elems_zero {P : Prims Prim} {xs ys : List (Term Prim)}
    (h : ∀ x ∈ xs, ∀ y, isInstance P x y = true → dbHasMap P x = false →
      (doCmpRange P x y).1 = 0)
    (hi : isInstanceElems P xs ys = true) (hmap : dbHasMapElems P xs = false) :
    xs.length = ys.length ∧ (doCmpRangeElems P xs ys).1 = 0 := by
  induction xs generalizing ys with
  | nil =>
    cases ys with
    | nil => exact ⟨rfl, rfl⟩
    | cons y ys => cases hi
  | cons x xs ih =>
    cases ys with
    | nil => cases hi
    | cons y ys =>
      obtain ⟨hx, hxs⟩ := List.forall_mem_cons.1 h
      rw [isInstanceElems, Bool.and_eq_true] at hi
      rw [dbHasMapElems, Bool.or_eq_false_iff] at hmap
      obtain ⟨hlen, hzero⟩ := ih hxs hi.2 hmap.2
      rw [doCmpRangeElems, List.length_cons, List.length_cons, hlen]
      exact ⟨rfl, orElse_fst_zero (hx y hi.1 hmap.1) hzero⟩

/-- **An instance** is within what the pattern admits. -/
theorem cmpRange_of_isInstance {P : Prims Prim} {p k : Term Prim}
    (h : isInstance P p k = true) (hmap : dbHasMap P p = false) : cmpRange P p k = 0 := by
  rw [cmpRange]
  induction p using Term.ind generalizing k with
  | prim p =>
    rw [isInstance, Bool.or_eq_true, Bool.or_eq_true, decide_eq_true_iff, decide_eq_true_iff] at h
    rw [dbHasMap, decide_eq_false_iff_not] at hmap
    rw [doCmpRange]
    split
    · rfl
    · next hwild => exact (h.resolve_left fun h => h.elim hwild hmap)
  | nil =>
    cases k with
    | nil => rfl
    | _ => cases h
  | cons x xs hx hxs =>
    cases k with
    | cons y ys =>
      rw [isInstance, Bool.and_eq_true] at h
      rw [dbHasMap, Bool.or_eq_false_iff] at hmap
      rw [doCmpRange]
      exact orElse_fst_zero (hx h.1 hmap.1) (hxs h.2 hmap.2)
    | _ => cases h
  | tuple xs hxs =>
    cases k with
    | tuple ys =>
      rw [isInstance] at h
      rw [dbHasMap] at hmap
      obtain ⟨hlen, hzero⟩ :=
        isInstance_elems_zero (fun x hx y hi hm => hxs x hx hi hm) h hmap
      rw [doCmpRange_tuple, hlen, cmpArity_self, orElse_of_zero rfl]
      exact hzero
    | _ => cases h

theorem hasMap_elems {P : Prims Prim} {xs : List (Term Prim)}
    (h : ∀ x ∈ xs, dbHasMap P x = false) : dbHasMapElems P xs = false := by
  induction xs with
  | nil => rfl
  | cons x xs ih =>
    obtain ⟨hx, hxs⟩ := List.forall_mem_cons.1 h
    rw [dbHasMapElems, hx, ih hxs]
    rfl

/-- A key that is fully bound has no map. -/
theorem hasMap_of_fullyBound {P : Prims Prim} {p : Term Prim} (h : dbIsFullyBound P p = true) :
    dbHasMap P p = false := by
  induction p using Term.ind with
  | prim p =>
    rw [dbIsFullyBound, Bool.and_eq_true, decide_eq_true_iff] at h
    exact decide_eq_false h.2
  | nil => rfl
  | cons x xs hx hxs =>
    rw [dbIsFullyBound, Bool.and_eq_true] at h
    rw [dbHasMap, hx h.1, hxs h.2]
    rfl
  | tuple xs hxs =>
    rw [dbIsFullyBound] at h
    rw [dbHasMap]
    exact hasMap_elems fun x hx => hxs x hx (fullyBound_of_mem h x hx)

/-! ## The range -/

/-- What `key_boundness` returns for a head that is for objects with the key. -/
theorem keyBoundness_cases {tpl k : Term Prim} (h : K.admits tpl k = true) :
    (tpl.keyBoundness K.toPrims K.keypos).1 = .unbound ∨
    ∃ p, (tpl.keyBoundness K.toPrims K.keypos).2 = some p ∧ cmpRange K.toPrims p k = 0 := by
  rw [admits] at h
  rw [keyBoundness]
  split_ifs at h ⊢ with hvar
  · exact Or.inl rfl
  · cases hkey : dbGetkey K.keypos tpl with
    | none =>
      rw [hkey] at h
      cases h
    | some p =>
      rw [hkey] at h
      dsimp only at h ⊢
      split_ifs with hbound hpartly
      · exact Or.inr ⟨p, rfl, cmpRange_of_isInstance h (hasMap_of_fullyBound hbound)⟩
      · rw [Bool.and_eq_true, Bool.not_eq_true'] at hpartly
        exact Or.inr ⟨p, rfl, cmpRange_of_isInstance h hpartly.2⟩
      · exact Or.inl rfl

/-- A head with a key that is bound or partly bound. -/
theorem keyBoundness_some {tpl p : Term Prim}
    (h : (tpl.keyBoundness K.toPrims K.keypos).2 = some p) :
    ((tpl.keyBoundness K.toPrims K.keypos).1 = .bound ∧ Exact K.toPrims p) ∨
      (tpl.keyBoundness K.toPrims K.keypos).1 = .partiallyBound := by
  rw [keyBoundness] at h ⊢
  by_cases hvar : (isUnderscore K.toPrims tpl || decide (dbIsVariable K.toPrims tpl ≠ -1)) = true
  · rw [if_pos hvar] at h
    cases h
  rw [if_neg hvar] at h ⊢
  cases hkey : dbGetkey K.keypos tpl with
  | none =>
    rw [hkey] at h
    cases h
  | some q =>
    rw [hkey] at h
    dsimp only at h ⊢
    split_ifs at h ⊢ with hbound hpartly
    · cases h
      exact Or.inl ⟨rfl, exact_of_fullyBound hbound⟩
    · exact Or.inr rfl

/-- A head without such a key. -/
theorem keyBoundness_none {tpl : Term Prim}
    (h : (tpl.keyBoundness K.toPrims K.keypos).2 = none) :
    (tpl.keyBoundness K.toPrims K.keypos).1 = .unbound ∨
      (tpl.keyBoundness K.toPrims K.keypos).1 = .impossible := by
  rw [keyBoundness] at h ⊢
  split_ifs at h ⊢ with hvar
  · exact Or.inl rfl
  · cases hkey : dbGetkey K.keypos tpl with
    | none => exact Or.inr rfl
    | some q =>
      rw [hkey] at h
      dsimp only at h ⊢
      split_ifs at h ⊢ with hbound hpartly
      · exact Or.inl rfl

/-- The limits are known where they are needed. -/
theorem analyzeHeads_limits (hb : (K.analyzeHeads heads).keyBoundness = .bound ∨
    (K.analyzeHeads heads).keyBoundness = .partiallyBound) : headKeys K heads ≠ [] := by
  obtain ⟨-, -, hone⟩ := analyzeHeads_boundness (K := K) heads ⟨.impossible, none, none⟩
  obtain ⟨tpl, htpl, heq⟩ := hone.resolve_left fun h => by
    rw [analyzeHeads, h] at hb
    exact hb.elim (fun h => by cases h) fun h => by cases h
  rw [analyzeHeads, heq] at hb
  cases hkey : (tpl.keyBoundness K.toPrims K.keypos).2 with
  | none =>
    rcases keyBoundness_none hkey with h | h <;> rw [h] at hb <;>
      exact hb.elim (fun h => by cases h) fun h => by cases h
  | some p => exact List.ne_nil_of_mem (List.mem_filterMap.2 ⟨tpl, htpl, hkey⟩)

/-- Nothing misleads the comparisons that `analyze_pattern` makes. -/
def soundHeads (K : TermTable Prim Obj) (heads : List (Term Prim)) : Bool :=
  soundLimit K .left none (headKeys K heads) && soundLimit K .right none (headKeys K heads)

/-- **The range admits** what one of the heads admits. -/
theorem range_admits {tpl k : Term Prim} (hsound : soundHeads K heads = true) (htpl : tpl ∈ heads)
    (hadmits : K.admits tpl k = true) :
    (K.analyzeHeads heads).keyBoundness = .unbound ∨
    ∃ least most, (K.analyzeHeads heads).least = some least ∧
      (K.analyzeHeads heads).most = some most ∧ cmpRange K.toPrims least k ≤ 0 ∧
      0 ≤ cmpRange K.toPrims most k ∧ (K.analyzeHeads heads).keyBoundness ≠ .impossible := by
  rw [soundHeads, Bool.and_eq_true] at hsound
  obtain ⟨-, hval, -⟩ := analyzeHeads_boundness (K := K) heads ⟨.impossible, none, none⟩
  have hval := hval tpl htpl
  rcases keyBoundness_cases hadmits with hunbound | ⟨p, hp, hzero⟩
  · left
    rw [hunbound] at hval
    rw [analyzeHeads]
    cases hkb : (heads.foldl K.analyzeHead ⟨.impossible, none, none⟩).keyBoundness with
    | unbound => rfl
    | _ =>
      rw [hkb] at hval
      exact absurd hval (by decide)
  · right
    have hmem : p ∈ headKeys K heads := List.mem_filterMap.2 ⟨tpl, htpl, hp⟩
    obtain ⟨hleast, hmost⟩ := analyzeHeads_eq (K := K) heads ⟨.impossible, none, none⟩
    obtain ⟨least, hl, hlkeys, -⟩ :=
      foldl_widen_beginsBy hsound.1 (Or.inl (List.ne_nil_of_mem hmem))
    obtain ⟨most, hm, hmkeys, -⟩ :=
      foldl_widen_beginsBy hsound.2 (Or.inl (List.ne_nil_of_mem hmem))
    have hlk := hlkeys p hmem k
    have hmk := hmkeys p hmem k
    rw [hzero, mul_zero] at hlk hmk
    simp only [Side.sgn, le_refl, true_imp_iff] at hlk hmk
    refine ⟨least, most, hleast.trans hl, hmost.trans hm, by omega, by omega, fun himp => ?_⟩
    rw [analyzeHeads] at himp
    rw [himp] at hval
    rcases keyBoundness_some hp with ⟨h, -⟩ | h <;> rw [h] at hval <;>
      exact absurd hval (by decide)

/-- A limit is the key of a head. -/
theorem limit_mem {l : Term Prim} (hl : (K.analyzeHeads heads).least = some l ∨
    (K.analyzeHeads heads).most = some l) : l ∈ headKeys K heads := by
  obtain ⟨hleast, hmost⟩ := analyzeHeads_eq (K := K) heads ⟨.impossible, none, none⟩
  rcases hl with hl | hl
  · exact (foldl_widen_mem (hleast.symm.trans hl)).resolve_right fun h => by cases h
  · exact (foldl_widen_mem (hmost.symm.trans hl)).resolve_right fun h => by cases h

/-- The limits of bound keys have no variable. -/
theorem limits_exact (hb : (K.analyzeHeads heads).keyBoundness = .bound) {l : Term Prim}
    (hl : (K.analyzeHeads heads).least = some l ∨ (K.analyzeHeads heads).most = some l) :
    Exact K.toPrims l := by
  obtain ⟨tpl, htpl, hkey⟩ := List.mem_filterMap.1 (limit_mem hl)
  obtain ⟨-, hval, -⟩ := analyzeHeads_boundness (K := K) heads ⟨.impossible, none, none⟩
  have hval := hval tpl htpl
  rw [analyzeHeads] at hb
  rcases keyBoundness_some hkey with ⟨-, hexact⟩ | hpartly
  · exact hexact
  · rw [hb, hpartly] at hval
    exact absurd hval (by decide)

/-! ## `analyze_pattern` -/

variable {compile : List (Term Prim × Term Prim × Term Prim) → Except DbError (Obj → Option Res)}
  {pattern : Term Prim} {mpi : MpInfo (Term Prim) Obj (Option Res)}

/-- The heads of a match specification. -/
def headsOf (pattern : Term Prim) : List (Term Prim) :=
  ((clausesOf pattern).getD []).map Prod.fst

theorem analyzePattern_ok (h : K.analyzePattern compile pattern = .ok mpi) :
    mpi.keyBoundness = K.severalKeys (K.analyzeHeads (headsOf pattern)) ∧
    mpi.least = (K.analyzeHeads (headsOf pattern)).least ∧
    mpi.most = (K.analyzeHeads (headsOf pattern)).most := by
  rw [analyzePattern] at h
  rw [headsOf]
  cases hclauses : clausesOf pattern with
  | none =>
    rw [hclauses] at h
    cases h
  | some clauses =>
    rw [hclauses] at h
    dsimp only at h
    cases hmp : compile clauses with
    | error e =>
      rw [hmp] at h
      cases h
    | ok mp =>
      rw [hmp] at h
      cases h
      exact ⟨rfl, rfl, rfl⟩

theorem severalKeys_cases (a : Analysis Prim) : K.severalKeys a = a.keyBoundness ∨
    (a.keyBoundness = .bound ∧ K.severalKeys a = .partiallyBound) := by
  rw [severalKeys]
  split
  · next least most hkb _ _ =>
    split
    · exact Or.inl hkb.symm
    · exact Or.inr ⟨hkb, rfl⟩
  · exact Or.inl rfl

theorem analyzePattern_bounded (h : K.analyzePattern compile pattern = .ok mpi) :
    mpi.Bounded := by
  obtain ⟨hkb, hleast, hmost⟩ := analyzePattern_ok h
  have hne : mpi.keyBoundness = .bound ∨ mpi.keyBoundness = .partiallyBound →
      headKeys K (headsOf pattern) ≠ [] := by
    intro hb
    rw [hkb] at hb
    refine analyzeHeads_limits ?_
    rcases severalKeys_cases (K := K) (K.analyzeHeads (headsOf pattern)) with heq | ⟨heq, -⟩
    · rw [← heq]
      exact hb
    · exact Or.inl heq
  obtain ⟨hleast', hmost'⟩ :=
    analyzeHeads_eq (K := K) (headsOf pattern) ⟨.impossible, none, none⟩
  constructor
  · intro hb
    rw [hleast, analyzeHeads, hleast']
    exact foldl_widen_some (Or.inl (hne hb))
  · intro hb
    rw [hmost, analyzeHeads, hmost']
    exact foldl_widen_some (Or.inl (hne (Or.inr hb)))

theorem severalKeys_bound {a : Analysis Prim} {least most : Term Prim}
    (h : K.severalKeys a = .bound) (hleast : a.least = some least) (hmost : a.most = some most) :
    a.keyBoundness = .bound ∧ least.cmp K.toPrims most = 0 := by
  have hb : a.keyBoundness = .bound := by
    rcases severalKeys_cases (K := K) a with heq | ⟨heq, -⟩
    · exact heq.symm.trans h
    · exact heq
  rw [severalKeys, hb, hleast, hmost] at h
  dsimp only at h
  split at h
  · next hzero => exact ⟨hb, hzero⟩
  · cases h

/-- **The range covers** what has a result, if nothing misleads the comparisons of the keys. -/
theorem analyzePattern_covers (h : K.analyzePattern compile pattern = .ok mpi)
    (hmatch : ∀ o, mpi.mp o ≠ none →
      ∃ tpl ∈ headsOf pattern, K.admits tpl (K.getkey o) = true)
    (hsound : soundHeads K (headsOf pattern) = true) : mpi.Covers K.terms K.ranges := by
  intro o hmp
  obtain ⟨tpl, htpl, hadmits⟩ := hmatch o hmp
  obtain ⟨hkb, hleast, hmost⟩ := analyzePattern_ok h
  have hcases := severalKeys_cases (K := K) (K.analyzeHeads (headsOf pattern))
  rw [← hkb] at hcases
  rcases range_admits hsound htpl hadmits with hunbound | ⟨least, most, hl, hm, hle, hge, hne⟩
  · -- the whole table is traversed
    have hkb' : mpi.keyBoundness = .unbound := by
      rcases hcases with heq | ⟨heq, -⟩
      · exact heq.trans hunbound
      · exact absurd (hunbound.symm.trans heq) (by decide)
    rw [hkb']
    trivial
  · rw [hl] at hleast
    rw [hm] at hmost
    cases hmpi : mpi.keyBoundness with
    | unbound => trivial
    | partiallyBound =>
      refine ⟨fun l hl' => ?_, fun m hm' => ?_⟩
      · obtain rfl : least = l := Option.some.inj (hleast.symm.trans hl')
        exact hle
      · obtain rfl : most = m := Option.some.inj (hmost.symm.trans hm')
        exact hge
    | bound =>
      -- all keys are bound, and equal
      intro l hl'
      obtain rfl : least = l := Option.some.inj (hleast.symm.trans hl')
      obtain ⟨hb, hzero⟩ := severalKeys_bound (hkb.symm.trans hmpi) hl hm
      have hlexact := limits_exact hb (Or.inl hl)
      have hmexact := limits_exact hb (Or.inr hm)
      rw [cmpRange, hlexact] at hle
      rw [cmpRange, hmexact] at hge
      have hcons := consistent_cmp (P := K.toPrims) least most (K.getkey o)
      exact le_antisymm hle (hcons.nonneg hzero.ge hge)
    | impossible =>
      rcases hcases with heq | ⟨-, heq⟩
      · exact absurd (heq.symm.trans hmpi) hne
      · rw [hmpi] at heq
        cases heq

/-! ## Keys in the table -/

/-- The limits of the range meet no variable in the key. -/
def Comparable (K : TermTable Prim Obj) (mpi : MpInfo (Term Prim) Obj (Option Res))
    (k : Term Prim) : Prop :=
  ∀ l, mpi.least = some l ∨ mpi.most = some l → meetsVariable K.toPrims l k = false

/-- There the comparison of the code is that with the ranges. -/
theorem agree_comparable (K : TermTable Prim Obj) (mpi : MpInfo (Term Prim) Obj (Option Res)) :
    Agree K.patterns K.ranges (Comparable K mpi) mpi where
  isNil := rfl
  least l hl _ hk := congrArg Prod.fst (doCmpPartlyBound_eq (hk l (Or.inl hl)))
  most l hl _ hk := congrArg Prod.fst (doCmpPartlyBound_eq (hk l (Or.inr hl)))

/-- The limits are keys of heads. -/
theorem comparable_of_heads (h : K.analyzePattern compile pattern = .ok mpi)
    (hmeets : ∀ p ∈ headKeys K (headsOf pattern), meetsVariable K.toPrims p key = false) :
    Comparable K mpi key := by
  obtain ⟨-, hleast, hmost⟩ := analyzePattern_ok h
  rintro l (hl | hl)
  · exact hmeets l (limit_mem (Or.inl (hleast.symm.trans hl)))
  · exact hmeets l (limit_mem (Or.inr (hmost.symm.trans hl)))

/-! ## All results -/

/-- From some call on `select` has returned the results of all objects: in ascending order, or
for `select_reverse` in descending order. -/
def ReturnsAll (K : TermTable Prim Obj) (mpi : MpInfo (Term Prim) Obj (Option Res))
    (reverse : Bool) (queries : ℕ → List (Query (Term Prim))) (tb : DbTableTree Obj)
    (objs : List Obj) : Prop :=
  ∃ n, ∀ k, n ≤ k → ∃ tb', selectCalls K.terms K.patterns mpi reverse queries tb k =
    some (.list ((if reverse then objs.reverse else objs).filterMap mpi.mp), tb')

theorem results_inDir (mp : Obj → Option Res) (reverse : Bool) (objs : List Obj) :
    results mp (inDir reverse objs) = (if reverse then objs.reverse else objs).filterMap mp := by
  cases reverse
  · rw [results, inDir, if_neg Bool.false_ne_true, List.filterMap_reverse, List.reverse_reverse,
      if_neg Bool.false_ne_true]
  · rw [results, inDir, if_pos rfl, if_pos rfl, List.filterMap_reverse]

/-- **All results are returned** if all objects that have one are reached. -/
theorem returnsAll_iff {tb : DbTableTree Obj} (h : Inv K.terms tb t) (hn : tb.nitems < 2 ^ 61)
    (hc : Cursor t tb.staticStack) (hb : mpi.Bounded)
    (hS : ∀ o ∈ objects t, Comparable K mpi (K.getkey o)) (reverse : Bool)
    (queries : ℕ → List (Query (Term Prim))) :
    ReturnsAll K mpi reverse queries tb (objects t) ↔
      ∀ o ∈ objects t, mpi.mp o ≠ none →
        o ∈ reached K.terms K.ranges mpi reverse (objects t) := by
  have hroom : t.height ≤ stackNeed := (Avl.height_lt h.avl (h.nitems_eq ▸ hn)).le
  have hsame : ∀ k, selectCalls K.terms K.patterns mpi reverse queries tb k =
      selectCalls K.terms K.ranges mpi reverse queries tb k := fun k =>
    (selectCalls_same (ranges_monotone K) (agree_comparable K mpi) hb h hroom hc hS queries k).1
  obtain ⟨e, hcalls⟩ := select_visits (ranges_monotone K) h hroom hc hb reverse queries
  rw [← results_reached_iff h.ascending mpi reverse, results_inDir, ReturnsAll]
  simp only [hsame]
  generalize hr : (scan K.terms K.ranges mpi reverse (objects t)).2 = r at hcalls
  constructor
  · rintro ⟨n, hall⟩
    obtain ⟨tb₁, hrun₁⟩ := hall (max n r) (le_max_left n r)
    obtain ⟨ret, tb₂, hrun₂, -, -, hret⟩ := hcalls (max n r)
    have hlist := hret.finished (by have := le_max_right n r; omega)
    rw [hrun₁] at hrun₂
    cases hrun₂
    rw [reached, hr]
    exact (SelectRet.list.inj hlist).symm
  · intro heq
    refine ⟨r, fun k hk => ?_⟩
    obtain ⟨ret, tb', hrun, -, -, hret⟩ := hcalls k
    have hlist := hret.finished (by omega)
    rw [hlist, ← hr] at hrun
    rw [reached] at heq
    exact ⟨tb', by rw [hrun, heq]⟩

/-- Some terms: `'_'` is the first of the atoms, and the floats are whole. -/
inductive SomePrim : Type where
  | small (n : ℤ)
  | float (n : ℤ)
  | atom (index : ℕ)

/-- The order of these terms. -/
def SomePrim.cmp : SomePrim → SomePrim → ℤ
  | small m, small n | small m, float n | float m, small n | float m, float n => m - n
  | atom m, atom n => (m : ℤ) - n
  | atom _, _ => 1
  | _, atom _ => -1

/-- Their tags. -/
def SomePrim.tag : SomePrim → TagVal
  | small _ => .small
  | float _ => .float
  | atom _ => .atom

/-- `a == am_Underscore` -/
def SomePrim.isUnderscore : SomePrim → Bool
  | atom 0 => true
  | _ => false

/-- `is_same`: floats are boxed. -/
def SomePrim.sameWord : SomePrim → SomePrim → Bool
  | small m, small n => m = n
  | atom m, atom n => m = n
  | _, _ => false

/-- What is asked of them. -/
def somePrims : Prims SomePrim where
  tag := SomePrim.tag
  cmp := SomePrim.cmp
  isUnderscore := SomePrim.isUnderscore
  dbIsVariable _ := -1
  sameWord := SomePrim.sameWord
  eq_of_sameWord p q h := by
    cases p <;> cases q <;> simp only [SomePrim.sameWord, decide_eq_true_iff, reduceCtorEq] at h
    · rw [h]
    · rw [h]
  sameWord_atom p h := by
    cases p with
    | atom index => exact decide_eq_true rfl
    | _ => cases h
  tag_ne p := by cases p <;> simp [SomePrim.tag]
  cmp_of_rank p q h := by
    cases p <;> cases q <;> simp [SomePrim.tag, TagVal.rank, SomePrim.cmp] at h ⊢
  cmp_swap p q := by
    cases p <;> cases q <;> simp only [SomePrim.cmp] <;> omega
  cmp_trans p q r hpq hqr := by
    cases p <;> cases q <;> cases r <;> simp only [SomePrim.cmp] at hpq hqr ⊢ <;> omega

/-- A table of tuples with the key in the first place. -/
def someTable : TermTable SomePrim (Term SomePrim) where
  toPrims := somePrims
  keypos := 1
  getkey o := (o.dbGetkey 1).getD .nil
  isSame := Term.sameWord somePrims
  dbEq _ _ := false
  isEot _ := false
  eq_of_isSame _ _ := eq_of_sameWord
  isSame_of_sameWord _ _ := id

/-- A match program that returns the object if its key is an instance of that of a head. -/
def someProgram (clauses : List (Term SomePrim × Term SomePrim × Term SomePrim)) :
    Except DbError (Term SomePrim → Option (Term SomePrim)) :=
  .ok fun o => if clauses.any fun c => someTable.admits c.1 (someTable.getkey o) then some o else none

/-- A small number. -/
def int (n : ℤ) : Term SomePrim := .prim (.small n)

/-- A match specification with two heads for keys, no guards and one body. -/
def twoHeads (a b : List (Term SomePrim)) : Term SomePrim :=
  let body : Term SomePrim := .cons (.prim (.atom 1)) .nil
  .cons (.tuple [.tuple [.tuple a], .nil, body])
    (.cons (.tuple [.tuple [.tuple b], .nil, body]) .nil)

/-- `[{{{1.0, 5, '_'}}, [], ['$_']}, {{{1, 3, '_'}}, [], ['$_']}]` -/
def misled : Term SomePrim :=
  twoHeads [.prim (.float 1), int 5, .prim (.atom 0)] [int 1, int 3, .prim (.atom 0)]

/-- `{{1, 3, 7}}` -/
def row : Term SomePrim := .tuple [.tuple [int 1, int 3, int 7]]

/-- The object is inserted. -/
def onePut : List (Call (Term SomePrim) (Term SomePrim)) := [.update (.put row false 100)]

/-- What `analyze_pattern` finds of a match specification, if it is valid. -/
def analyzed (pattern : Term SomePrim) :
    MpInfo (Term SomePrim) (Term SomePrim) (Option (Term SomePrim)) :=
  match someTable.analyzePattern someProgram pattern with
  | .ok mpi => mpi
  | .error _ => ⟨.impossible, none, none, fun _ => none⟩

/-- The program returns objects for which there is a head. -/
theorem analyzed_admits {a b : List (Term SomePrim)} (o : Term SomePrim)
    (h : (analyzed (twoHeads a b)).mp o ≠ none) :
    ∃ tpl ∈ headsOf (twoHeads a b), someTable.admits tpl (someTable.getkey o) = true := by
  have hmp : (analyzed (twoHeads a b)).mp o =
      if ([(.tuple [.tuple a], .nil, .cons (.prim (.atom 1)) .nil),
          (.tuple [.tuple b], .nil, .cons (.prim (.atom 1)) .nil)] :
            List (Term SomePrim × Term SomePrim × Term SomePrim)).any
          fun c => someTable.admits c.1 (someTable.getkey o) then some o else none := rfl
  rw [hmp] at h
  split at h
  · next hany =>
    obtain ⟨c, hc, hadmits⟩ := List.any_eq_true.1 hany
    exact ⟨c.1, List.mem_map.2 ⟨c, hc, rfl⟩, hadmits⟩
  · exact absurd rfl h

/-- `[{{{1, 5, '_'}}, [], ['$_']}, {{{1, 3, '_'}}, [], ['$_']}]` -/
def notMisled : Term SomePrim :=
  twoHeads [int 1, int 5, .prim (.atom 0)] [int 1, int 3, .prim (.atom 0)]

/-- The key `{[1|'_'], 5}` of a head comes to the tail `'_'` of the key `{[1|'_'], 3}` in the table
and goes on with `5` and `3`. The traversal ends there, before the row with `{[1|2], 5}`. -/
example :
    let pair (tail : Term SomePrim) (n : ℤ) : List (Term SomePrim) := [.cons (int 1) tail, int n]
    let heads := twoHeads (pair (.prim (.atom 0)) 5) (pair (.prim (.atom 0)) 5)
    let rows : List (Term SomePrim) :=
      [.tuple [.tuple (pair (int 2) 5)], .tuple [.tuple (pair (.prim (.atom 0)) 3)]]
    let calls := rows.mapIdx fun i row => Call.update (.put row true i)
    soundHeads someTable (headsOf heads) = true ∧
      ((runCalls someTable.terms dbCreateTree calls).bind fun r =>
        (r.2.dbSelectTreeCommon someTable.terms someTable.patterns (analyzed heads) false).map
          fun r => match r.1 with
            | .list accum => accum.length
            | .trap _ => 1) = some 0 ∧
      rows.countP (fun row => ((analyzed heads).mp row).isSome) = 1 := by
  decide +kernel

end PonBeam.EtsTree
