import PonBeam.Premise.Term

/-!
# The default match of a Premise (`pon_premise.c`)

`erts_pon_default_match` compares words: the two terms, or the elements of two tuples of one
arity where the pattern has no wildcard. Two words of one value differ when the value is kept
twice, which is what becomes of a list or a boxed term that is sent. So the answer is that of
`=:=` as long as what is compared is not a copy.
-/

namespace PonBeam.Premise

/-- The loop of `erts_pon_default_match` over the elements. -/
def matchElems : List Eterm → List Eterm → Bool
  | pe :: ptrP, te :: ptrT =>
    if pe = .nonValue then matchElems ptrP ptrT
    else if pe ≠ te then false
    else matchElems ptrP ptrT
  | _, _ => true

/-- `erts_pon_default_match` -/
def defaultMatch (heap : Heap) (pattern term : Eterm) : Bool :=
  if pattern = term then true
  else
    match heap.tupleVal pattern, heap.tupleVal term with
    | some ptrP, some ptrT =>
      if ptrP.length ≠ ptrT.length then false else matchElems ptrP ptrT
    | _, _ => false

/-- Equal terms, or tuples of one arity with equal elements where the pattern has no
wildcard. -/
def EqualUpToWildcards (heap : Heap) (pattern term : Eterm) : Prop :=
  ExactEq heap pattern term ∨
    ∃ ps ts, heap.tupleVal pattern = some ps ∧ heap.tupleVal term = some ts ∧
      ps.length = ts.length ∧ ∀ x ∈ ps.zip ts, x.1 ≠ .nonValue → ExactEq heap x.1 x.2

/-- The pairs of terms that are to be equal: the elements of two tuples of one arity, without
the wildcards, and otherwise the two terms. -/
def comparedPairs (heap : Heap) (pattern term : Eterm) : List (Eterm × Eterm) :=
  match heap.tupleVal pattern, heap.tupleVal term with
  | some ps, some ts =>
    if ps.length = ts.length then (ps.zip ts).filter fun x => x.1 ≠ .nonValue
    else [(pattern, term)]
  | _, _ => [(pattern, term)]

section

variable {heap : Heap} {pattern term : Eterm}

theorem zip_self (l : List Eterm) : l.zip l = l.map fun t => (t, t) := by
  rw [List.zip_eq_zipWith, List.zipWith_self]

theorem matchElems_iff (ps ts : List Eterm) :
    matchElems ps ts = true ↔ ∀ x ∈ ps.zip ts, x.1 ≠ .nonValue → x.1 = x.2 := by
  induction ps generalizing ts with
  | nil => simp [matchElems]
  | cons p ps ih =>
    cases ts with
    | nil => simp [matchElems]
    | cons t ts =>
      rw [matchElems, List.zip_cons_cons, List.forall_mem_cons]
      split
      · rename_i hp
        rw [ih]
        exact ⟨fun h => ⟨fun hne => absurd hp hne, h⟩, And.right⟩
      · rename_i hp
        split
        · rename_i hne
          exact iff_of_false Bool.false_ne_true fun h => hne (h.1 hp)
        · rename_i heq
          rw [ih]
          exact ⟨fun h => ⟨fun _ => of_not_not heq, h⟩, And.right⟩

/-- Two tuples of one arity, or anything else. -/
theorem comparedPairs_cases (heap : Heap) (pattern term : Eterm) :
    (∃ ps ts, heap.tupleVal pattern = some ps ∧ heap.tupleVal term = some ts ∧
      ps.length = ts.length ∧
      comparedPairs heap pattern term = (ps.zip ts).filter fun x => x.1 ≠ .nonValue) ∨
    ((∀ ps ts, heap.tupleVal pattern = some ps → heap.tupleVal term = some ts →
        ps.length ≠ ts.length) ∧
      comparedPairs heap pattern term = [(pattern, term)]) := by
  unfold comparedPairs
  cases hp : heap.tupleVal pattern with
  | none => exact .inr ⟨fun ps ts h => (nomatch h), rfl⟩
  | some ps =>
    cases ht : heap.tupleVal term with
    | none => exact .inr ⟨fun ps ts _ h => (nomatch h), rfl⟩
    | some ts =>
      by_cases hlen : ps.length = ts.length
      · exact .inl ⟨ps, ts, rfl, rfl, hlen, if_pos hlen⟩
      · refine .inr ⟨?_, if_neg hlen⟩
        rintro _ _ ⟨⟩ ⟨⟩
        exact hlen

/-- **The code** asks for the same words. -/
theorem defaultMatch_iff_words :
    defaultMatch heap pattern term = true ↔
      ∀ x ∈ comparedPairs heap pattern term, x.1 = x.2 := by
  unfold defaultMatch
  rcases comparedPairs_cases heap pattern term with ⟨ps, ts, hp, ht, hlen, hpairs⟩ | ⟨hne, hpairs⟩
  · rw [hpairs, hp, ht]
    simp only [List.mem_filter, decide_eq_true_eq, and_imp]
    rw [← matchElems_iff]
    split
    · rename_i heq
      -- the same tuple
      obtain rfl : ps = ts := by
        rw [heq, ht] at hp
        exact (Option.some.inj hp).symm
      refine iff_of_true rfl ((matchElems_iff ps ps).mpr fun x hx _ => ?_)
      rw [zip_self] at hx
      obtain ⟨y, -, rfl⟩ := List.mem_map.mp hx
      rfl
    · rw [if_neg (not_not.mpr hlen)]
  · rw [hpairs, List.forall_mem_singleton]
    split
    · rename_i heq
      exact iff_of_true rfl heq
    · rename_i heq
      refine iff_of_false ?_ heq
      split
      · rename_i ps ts hp ht
        rw [if_pos (hne ps ts hp ht)]
        exact Bool.false_ne_true
      · exact Bool.false_ne_true

/-- **The claim of its comment** asks for equal terms. -/
theorem equalUpToWildcards_iff :
    EqualUpToWildcards heap pattern term ↔
      ∀ x ∈ comparedPairs heap pattern term, ExactEq heap x.1 x.2 := by
  rcases comparedPairs_cases heap pattern term with ⟨ps, ts, hp, ht, hlen, hpairs⟩ | ⟨hne, hpairs⟩
  · rw [hpairs]
    simp only [List.mem_filter, decide_eq_true_eq, and_imp]
    constructor
    · rintro (heq | ⟨ps', ts', hp', ht', -, hall⟩)
      · exact fun x hx _ => ((exactEq_tuple hp ht).mp heq).2 x hx
      · obtain rfl := Option.some.inj (hp.symm.trans hp')
        obtain rfl := Option.some.inj (ht.symm.trans ht')
        exact hall
    · exact fun hall => .inr ⟨ps, ts, hp, ht, hlen, hall⟩
  · rw [hpairs, List.forall_mem_singleton]
    constructor
    · rintro (heq | ⟨ps, ts, hp, ht, hlen, -⟩)
      · exact heq
      · exact absurd hlen (hne ps ts hp ht)
    · exact .inl

/-- What a term is compared in are terms. -/
theorem isTerm_of_mem_comparedPairs (ht : IsTerm heap term) :
    ∀ x ∈ comparedPairs heap pattern term, IsTerm heap x.2 := by
  rcases comparedPairs_cases heap pattern term with ⟨ps, ts, -, hts, -, hpairs⟩ | ⟨-, hpairs⟩
  · rw [hpairs]
    intro x hx
    have hself := ((exactEq_tuple hts hts).mp ht.exactEq).2
    have hmem : x.2 ∈ ts := (List.of_mem_zip (List.mem_of_mem_filter hx)).2
    obtain ⟨v, hv, -⟩ := hself (x.2, x.2) (by
      rw [zip_self]
      exact List.mem_map_of_mem hmem)
    exact ⟨v, hv⟩
  · rw [hpairs, List.forall_mem_singleton]
    exact ht

/-- **When the answer is that of `=:=`**: something that is compared is not equal at all, or
nothing that is compared is a copy. -/
theorem defaultMatch_eq_iff (ht : IsTerm heap term) :
    (defaultMatch heap pattern term = true ↔ EqualUpToWildcards heap pattern term) ↔
      (∃ x ∈ comparedPairs heap pattern term, ¬ExactEq heap x.1 x.2) ∨
        ∀ x ∈ comparedPairs heap pattern term, ¬Copied heap x.1 x.2 := by
  rw [defaultMatch_iff_words, equalUpToWildcards_iff]
  constructor
  · intro hiff
    by_cases hall : ∀ x ∈ comparedPairs heap pattern term, ExactEq heap x.1 x.2
    · exact .inr fun x hx hcopied => hcopied.ne (hiff.mpr hall x hx)
    · push Not at hall
      exact .inl hall
  · intro hcond
    constructor
    · intro hsame x hx
      rw [hsame x hx]
      exact (isTerm_of_mem_comparedPairs ht x hx).exactEq
    · intro hall x hx
      rcases hcond with ⟨y, hy, hne⟩ | hcopied
      · exact absurd (hall y hy) hne
      · exact (hall x hx).eq_or_copied.resolve_right (hcopied x hx)

/-- The list `[a]` twice: once in the pattern, once in the message. -/
def copiedList : Heap where
  cell := fun _ => (makeSmall 1, nil)
  boxed := fun _ => .tuple []

theorem copiedList_reads (addr : ℕ) :
    Reads copiedList (.list addr) (.cons (.immed 31) (.immed 18446744073709551611)) :=
  .list (.immed 31) (.immed 18446744073709551611)

/-- They are equal, and do not match. -/
theorem copiedList_no_match :
    ¬∀ (heap : Heap) (pattern term : Eterm), IsTerm heap pattern → IsTerm heap term →
      (defaultMatch heap pattern term = true ↔ EqualUpToWildcards heap pattern term) := by
  intro h
  have hmatch := h copiedList (.list 0) (.list 16) ⟨_, copiedList_reads 0⟩ ⟨_, copiedList_reads 16⟩
  have hno : defaultMatch copiedList (.list 0) (.list 16) = false := by decide
  rw [hmatch.mpr (.inl ⟨_, copiedList_reads 0, copiedList_reads 16⟩)] at hno
  cases hno

/-- Two tuples that share the list `[1]`, the first with a wildcard. -/
def sharedList : Heap where
  cell := fun _ => (makeSmall 1, nil)
  boxed
    | 1 => .tuple [.nonValue, .list 0, makeSmall 2]
    | _ => .tuple [makeSmall 7, .list 0, makeSmall 2]

theorem sharedList_isTerm : IsTerm sharedList (.boxed 2) :=
  ⟨_, .tuple rfl (.cons (.immed _) (.cons (.list (.immed _) (.immed _)) (.cons (.immed _) .nil)))⟩

/-- They match as they should. -/
theorem sharedList_match :
    defaultMatch sharedList (.boxed 1) (.boxed 2) = true ↔
      EqualUpToWildcards sharedList (.boxed 1) (.boxed 2) := by
  refine (defaultMatch_eq_iff sharedList_isTerm).mpr (.inr fun x hx hcopied => ?_)
  -- the wildcard is not compared, and neither tuple has its own copy of the list
  have hpairs : comparedPairs sharedList (.boxed 1) (.boxed 2) =
      [(.list 0, .list 0), (makeSmall 2, makeSmall 2)] := by decide
  rw [hpairs] at hx
  rcases List.mem_pair.mp hx with rfl | rfl
  · exact hcopied.ne rfl
  · exact hcopied.ne rfl

end

end PonBeam.Premise
