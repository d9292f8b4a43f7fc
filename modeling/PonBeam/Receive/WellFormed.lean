import PonBeam.Receive.Rewrite

/-!
# What the transform leaves behind

`wf` is well-formed abstract code: one expression in every place, clauses with the number
of patterns their construct asks for, and neither patterns nor guards that receive.
`do_transform` owes well-formed code without a `receive` in it, with everything else as it
was. It delivers where each receive stands in a body that the walk comes to, has no
`after` part, and has no receive in its own clauses (`rewritableForm`). Elsewhere a list
is put in the place of an expression, or the receive is passed over: the walk does not go
into calls, operators, funs, `try` and blocks, and not into the clauses of a receive.
-/

namespace PonBeam.Receive

/-! ## Receives -/

mutual

/-- There is a `receive` in the expression, at any depth. -/
def hasReceive : Expr → Bool
  | .tuple _ es => hasReceives es
  | .cons _ h t => hasReceive h || hasReceive t
  | .match _ p e => hasReceive p || hasReceive e
  | .call _ f as => hasReceive f || hasReceives as
  | .remote _ m f => hasReceive m || hasReceive f
  | .case _ e cs => hasReceive e || clausesReceive cs
  | .if _ cs => clausesReceive cs
  | .receive _ _ => true
  | .receiveAfter _ _ _ _ => true
  | .other _ _ es cs => hasReceives es || clausesReceive cs
  | .integerOf _ e => hasReceive e
  | .seq es => hasReceives es
  | .bareRemote m f => hasReceive m || hasReceive f
  | _ => false

/-- There is a `receive` in one of the expressions. -/
def hasReceives : List Expr → Bool
  | [] => false
  | e :: es => hasReceive e || hasReceives es

/-- There is a `receive` in the guards. -/
def guardsReceive : List (List Expr) → Bool
  | [] => false
  | g :: gs => hasReceives g || guardsReceive gs

/-- There is a `receive` in the clause. -/
def clauseReceives : Clause → Bool
  | .mk _ pats guards body => hasReceives pats || guardsReceive guards || hasReceives body

/-- There is a `receive` in one of the clauses. -/
def clausesReceive : List Clause → Bool
  | [] => false
  | c :: cs => clauseReceives c || clausesReceive cs

end

/-! ## Well-formed code -/

mutual

/-- Well-formed expressions and patterns. -/
def wf : Expr → Bool
  | .tuple _ es => wfs es
  | .cons _ h t => wf h && wf t
  | .match _ p e => wf p && !hasReceive p && wf e
  | .call _ f as => wf f && wfs as
  | .remote _ m f => wf m && wf f
  | .case _ e cs => wf e && !cs.isEmpty && wfClauses (some 1) cs
  | .if _ cs => !cs.isEmpty && wfClauses (some 0) cs
  | .receive _ cs => !cs.isEmpty && wfClauses (some 1) cs
  | .receiveAfter _ cs a ab => wfClauses (some 1) cs && wf a && wfs ab && !ab.isEmpty
  | .other _ _ es cs => wfs es && wfClauses none cs
  | .integerOf _ _ => false
  | .seq _ => false
  | .bareRemote _ _ => false
  | .bareAtom _ => false
  | _ => true

/-- Each a well-formed expression. -/
def wfs : List Expr → Bool
  | [] => true
  | e :: es => wf e && wfs es

/-- Well-formed guards. -/
def wfGuards : List (List Expr) → Bool
  | [] => true
  | g :: gs => wfs g && wfGuards gs

/-- A well-formed clause, with `n` patterns if `n` is given. -/
def wfClause (n : Option ℕ) : Clause → Bool
  | .mk _ pats guards body =>
    n.all (· == pats.length) && wfs pats && !hasReceives pats && wfGuards guards &&
      !guardsReceive guards && wfs body && !body.isEmpty

/-- Each a well-formed clause. -/
def wfClauses (n : Option ℕ) : List Clause → Bool
  | [] => true
  | c :: cs => wfClause n c && wfClauses n cs

end

/-- Well-formed forms. -/
def wfForm : Form → Bool
  | .function _ _ arity cs => !cs.isEmpty && wfClauses (some arity) cs
  | _ => true

/-- There is a `receive` in the form. -/
def formReceives : Form → Bool
  | .function _ _ _ cs => clausesReceive cs
  | _ => false

/-! ## What is not a receive is kept -/

mutual

/-- `e'` is `e` with other things in the place of receives. -/
def Kept : Expr → Expr → Prop
  | .receive _ _, _ => True
  | .receiveAfter _ _ _ _, _ => True
  | .tuple l es, e' => ∃ es', e' = .tuple l es' ∧ KeptAll es es'
  | .cons l h t, e' => ∃ h' t', e' = .cons l h' t' ∧ Kept h h' ∧ Kept t t'
  | .match l p e, e' => ∃ p' x', e' = .match l p' x' ∧ Kept p p' ∧ Kept e x'
  | .case l e cs, e' => ∃ x' cs', e' = .case l x' cs' ∧ Kept e x' ∧ KeptClauses cs cs'
  | .if l cs, e' => ∃ cs', e' = .if l cs' ∧ KeptClauses cs cs'
  | e, e' => e' = e

/-- The same for each of the expressions. -/
def KeptAll : List Expr → List Expr → Prop
  | [], es' => es' = []
  | e :: es, es' => ∃ x' xs', es' = x' :: xs' ∧ Kept e x' ∧ KeptAll es xs'

/-- The same for a body, where a receive may become several expressions. -/
def KeptBody : List Expr → List Expr → Prop
  | [], es' => es' = []
  | .receive _ _ :: rest, es' => ∃ xs' rest', es' = xs' ++ rest' ∧ KeptBody rest rest'
  | .receiveAfter _ _ _ _ :: rest, es' => ∃ xs' rest', es' = xs' ++ rest' ∧ KeptBody rest rest'
  | e :: rest, es' => ∃ x' rest', es' = x' :: rest' ∧ Kept e x' ∧ KeptBody rest rest'

/-- The same for a clause. -/
def KeptClause : Clause → Clause → Prop
  | .mk l pats guards body, c' => ∃ body', c' = .mk l pats guards body' ∧ KeptBody body body'

/-- The same for each of the clauses. -/
def KeptClauses : List Clause → List Clause → Prop
  | [], cs' => cs' = []
  | c :: cs, cs' => ∃ x' xs', cs' = x' :: xs' ∧ KeptClause c x' ∧ KeptClauses cs xs'

end

/-- The same for forms. The transform adds `-compile({parse_transform, pon_compiler})` behind
`-module`. -/
def KeptForms : List Form → List Form → Prop
  | [], out => out = []
  | .attribute l "module" name :: rest, out =>
    ∃ rest', out = .attribute l "module" name ::
      .attribute l "compile" (.tuple [.atom "parse_transform", .atom "pon_compiler"]) :: rest' ∧
        KeptForms rest rest'
  | .function l n a cs :: rest, out =>
    ∃ cs' rest', out = .function l n a cs' :: rest' ∧ KeptClauses cs cs' ∧ KeptForms rest rest'
  | form :: rest, out => ∃ rest', out = form :: rest' ∧ KeptForms rest rest'

mutual

/-- What contains no receive is unchanged. -/
theorem Kept.eq {e e' : Expr} (hk : Kept e e') (h : hasReceive e = false) : e' = e := by
  cases e with
  | receive l cs => exact nomatch h
  | receiveAfter l cs a ab => exact nomatch h
  | tuple l es =>
    simp only [Kept] at hk
    obtain ⟨es', rfl, hes⟩ := hk
    rw [hes.eq h]
  | cons l hd tl =>
    simp only [Kept] at hk
    obtain ⟨h', t', rfl, hh, ht⟩ := hk
    simp only [hasReceive, Bool.or_eq_false_iff] at h
    rw [hh.eq h.1, ht.eq h.2]
  | «match» l p x =>
    simp only [Kept] at hk
    obtain ⟨p', x', rfl, hp, hx⟩ := hk
    simp only [hasReceive, Bool.or_eq_false_iff] at h
    rw [hp.eq h.1, hx.eq h.2]
  | case l x cs =>
    simp only [Kept] at hk
    obtain ⟨x', cs', rfl, hx, hcs⟩ := hk
    simp only [hasReceive, Bool.or_eq_false_iff] at h
    rw [hx.eq h.1, hcs.eq h.2]
  | «if» l cs =>
    simp only [Kept] at hk
    obtain ⟨cs', rfl, hcs⟩ := hk
    rw [hcs.eq h]
  | _ =>
    simp only [Kept] at hk
    exact hk

theorem KeptAll.eq {es es' : List Expr} (hk : KeptAll es es') (h : hasReceives es = false) :
    es' = es := by
  cases es with
  | nil =>
    simp only [KeptAll] at hk
    exact hk
  | cons e es =>
    simp only [KeptAll] at hk
    obtain ⟨x', xs', rfl, hx, hxs⟩ := hk
    simp only [hasReceives, Bool.or_eq_false_iff] at h
    rw [hx.eq h.1, hxs.eq h.2]

theorem KeptBody.eq {es es' : List Expr} (hk : KeptBody es es') (h : hasReceives es = false) :
    es' = es := by
  cases es with
  | nil =>
    simp only [KeptBody] at hk
    exact hk
  | cons e es =>
    simp only [hasReceives, Bool.or_eq_false_iff] at h
    have hcons : ∃ x' rest', es' = x' :: rest' ∧ Kept e x' ∧ KeptBody es rest' := by
      cases e with
      | receive l cs => exact nomatch h.1
      | receiveAfter l cs a ab => exact nomatch h.1
      | _ =>
        simp only [KeptBody] at hk
        exact hk
    obtain ⟨x', rest', rfl, hx, hrest⟩ := hcons
    rw [hx.eq h.1, hrest.eq h.2]

theorem KeptClause.eq {c c' : Clause} (hk : KeptClause c c') (h : clauseReceives c = false) :
    c' = c := by
  obtain ⟨l, pats, guards, body⟩ := c
  simp only [KeptClause] at hk
  obtain ⟨body', rfl, hb⟩ := hk
  simp only [clauseReceives, Bool.or_eq_false_iff] at h
  rw [hb.eq h.2]

theorem KeptClauses.eq {cs cs' : List Clause} (hk : KeptClauses cs cs')
    (h : clausesReceive cs = false) : cs' = cs := by
  cases cs with
  | nil =>
    simp only [KeptClauses] at hk
    exact hk
  | cons c cs =>
    simp only [KeptClauses] at hk
    obtain ⟨x', xs', rfl, hx, hxs⟩ := hk
    simp only [clausesReceive, Bool.or_eq_false_iff] at h
    rw [hx.eq h.1, hxs.eq h.2]

end

/-! ## What the walk can deal with -/

mutual

/-- The walk leaves well-formed code without a receive. -/
def rewritable : Expr → Bool
  | .tuple _ es => rewritables es
  | .cons _ h t => rewritable h && rewritable t
  | .match _ _ e => rewritable e
  | .case _ e cs => rewritable e && rewritableClauses cs
  | .if _ cs => rewritableClauses cs
  | e => !hasReceive e

/-- The same for each of the expressions. -/
def rewritables : List Expr → Bool
  | [] => true
  | e :: es => rewritable e && rewritables es

/-- The same for a body. Here a receive may stand, without `after` and without a receive in
its clauses. -/
def rewritableBody : List Expr → Bool
  | [] => true
  | .receive _ cs :: rest => !clausesReceive cs && rewritableBody rest
  | .receiveAfter _ _ _ _ :: _ => false
  | e :: rest => rewritable e && rewritableBody rest

/-- The same for a clause. -/
def rewritableClause : Clause → Bool
  | .mk _ _ _ body => rewritableBody body

/-- The same for each of the clauses. -/
def rewritableClauses : List Clause → Bool
  | [] => true
  | c :: cs => rewritableClause c && rewritableClauses cs

end

/-- The same for a form. -/
def rewritableForm : Form → Bool
  | .function _ _ _ cs => rewritableClauses cs
  | _ => true

/-- What the transform owes: well-formed forms, no receive, and the rest as it was. -/
def TransformOk (forms : List Form) : Prop :=
  ∃ out, doTransform forms = some out ∧ (∀ f ∈ out, wfForm f = true) ∧
    (∀ f ∈ out, formReceives f = false) ∧ KeptForms forms out

/-! ## The code put in the place of a receive -/

mutual

theorem patToTerm_clean (e : Expr) :
    wf (patToTerm e) = true ∧ hasReceive (patToTerm e) = false := by
  cases e <;> simp only [patToTerm, wf, hasReceive, and_self]
  case tuple l es => exact patsToTerms_clean es
  case cons l h t =>
    obtain ⟨hh, hh'⟩ := patToTerm_clean h
    obtain ⟨ht, ht'⟩ := patToTerm_clean t
    simp [hh, hh', ht, ht']
  case «match» l p q => exact patToTerm_clean p

theorem patsToTerms_clean (es : List Expr) :
    wfs (patsToTerms es) = true ∧ hasReceives (patsToTerms es) = false := by
  cases es with
  | nil => exact ⟨rfl, rfl⟩
  | cons e es =>
    obtain ⟨he, he'⟩ := patToTerm_clean e
    obtain ⟨hes, hes'⟩ := patsToTerms_clean es
    simp [patsToTerms, wfs, hasReceives, he, he', hes, hes']

end

theorem onePattern_of_wf {cs : List Clause} (h : wfClauses (some 1) cs = true) :
    OnePattern cs := by
  induction cs with
  | nil => exact fun c hc => absurd hc List.not_mem_nil
  | cons c cs ih =>
    simp only [wfClauses, Bool.and_eq_true] at h
    intro d hd
    rcases List.mem_cons.mp hd with rfl | hd
    · obtain ⟨l, pats, guards, body⟩ := d
      simp only [wfClause, Bool.and_eq_true, Option.all_some, beq_iff_eq] at h
      obtain ⟨pat, rfl⟩ := List.length_eq_one_iff.mp h.1.1.1.1.1.1.1.symm
      rfl
    · exact ih h.2 d hd

theorem buildPremiseList_clean {cs : List Clause} (h : OnePattern cs) :
    ∃ e, buildPremiseList cs = some e ∧ wf e = true ∧ hasReceive e = false := by
  induction cs with
  | nil => exact ⟨.nil 0, rfl, rfl, rfl⟩
  | cons c cs ih =>
    obtain ⟨e, hb, hwf, hrec⟩ := ih fun c hc => h c (List.mem_cons_of_mem _ hc)
    obtain ⟨es, hes, rfl⟩ := Option.map_eq_some_iff.mp hb
    obtain ⟨hp, hp'⟩ := patToTerm_clean c.pat
    refine ⟨.cons 0 (.tuple 0 [patToTerm c.pat, .atom 0 "true", .integer 0 0]) (listToAst es),
      ?_, ?_, ?_⟩
    · simp only [buildPremiseList, List.mapM_cons, premiseOf_eq (h c (List.mem_cons_self ..)), hes]
      rfl
    · simp [wf, wfs, hp, hwf]
    · simp [hasReceive, hasReceives, hp', hrec]

/-- A list of well-formed expressions without a receive. -/
def Clean (es : List Expr) : Prop := wfs es = true ∧ hasReceives es = false

/-- Without `after` the code is as good as the clauses. -/
theorem buildPonReceive_none {cs : List Clause} (hne : cs.isEmpty = false)
    (h : wfClauses (some 1) cs = true) :
    ∃ es, buildPonReceive cs none = some es ∧ es ≠ [] ∧
      (Clean es ↔ clausesReceive cs = false) := by
  obtain ⟨e, hb, hwf, hrec⟩ := buildPremiseList_clean (onePattern_of_wf h)
  refine ⟨_, by simp only [buildPonReceive, hb]; rfl, by simp, ?_⟩
  simp [Clean, wfs, wf, hasReceives, hasReceive, runtimeCall, buildDispatch, msgVar, hwf, hrec,
    hne, h]

/-- With `after` it is never well-formed. -/
theorem buildPonReceive_some {cs : List Clause} (h : wfClauses (some 1) cs = true) (a : Expr)
    (ab : List Expr) :
    ∃ es, buildPonReceive cs (some (a, ab)) = some es ∧ es ≠ [] ∧ ¬ Clean es := by
  obtain ⟨e, hb, -, -⟩ := buildPremiseList_clean (onePattern_of_wf h)
  refine ⟨_, by simp only [buildPonReceive, hb]; rfl, by simp, ?_⟩
  simp [Clean, wfs, wf, runtimeCall]

theorem clean_append (es es' : List Expr) : Clean (es ++ es') ↔ Clean es ∧ Clean es' := by
  induction es with
  | nil => simp [Clean, wfs, hasReceives]
  | cons e es ih =>
    simp only [Clean, List.cons_append, wfs, hasReceives, Bool.and_eq_true, Bool.or_eq_false_iff]
      at ih ⊢
    constructor
    · rintro ⟨⟨h₁, h₂⟩, h₃, h₄⟩
      obtain ⟨⟨h₅, h₆⟩, h₇⟩ := ih.mp ⟨h₂, h₄⟩
      exact ⟨⟨⟨h₁, h₅⟩, h₃, h₆⟩, h₇⟩
    · rintro ⟨⟨⟨h₁, h₂⟩, h₃, h₄⟩, h₅⟩
      obtain ⟨h₆, h₇⟩ := ih.mpr ⟨⟨h₂, h₄⟩, h₅⟩
      exact ⟨⟨h₁, h₆⟩, h₃, h₇⟩

/-! ## The walk -/

/-- A well-formed expression without a receive. -/
def CleanExpr (e : Expr) : Prop := wf e = true ∧ hasReceive e = false

/-- Well-formed clauses without a receive. -/
def CleanClauses (n : Option ℕ) (cs : List Clause) : Prop :=
  wfClauses n cs = true ∧ clausesReceive cs = false

theorem clean_cons (e : Expr) (es : List Expr) : Clean (e :: es) ↔ CleanExpr e ∧ Clean es := by
  simp only [Clean, CleanExpr, wfs, hasReceives, Bool.and_eq_true, Bool.or_eq_false_iff]
  exact and_and_and_comm

theorem cleanExpr_cons (l : ℕ) (h t : Expr) :
    CleanExpr (.cons l h t) ↔ CleanExpr h ∧ CleanExpr t := by
  simp only [CleanExpr, wf, hasReceive, Bool.and_eq_true, Bool.or_eq_false_iff]
  exact and_and_and_comm

theorem cleanExpr_match (l : ℕ) (p e : Expr) :
    CleanExpr (.match l p e) ↔ CleanExpr p ∧ CleanExpr e := by
  simp only [CleanExpr, wf, hasReceive, Bool.and_eq_true, Bool.or_eq_false_iff, Bool.not_eq_true']
  constructor
  · rintro ⟨⟨⟨h₁, h₂⟩, h₃⟩, -, h₄⟩
    exact ⟨⟨h₁, h₂⟩, h₃, h₄⟩
  · rintro ⟨⟨h₁, h₂⟩, h₃, h₄⟩
    exact ⟨⟨⟨h₁, h₂⟩, h₃⟩, h₂, h₄⟩

theorem cleanExpr_case (l : ℕ) (e : Expr) {cs : List Clause} (hne : cs.isEmpty = false) :
    CleanExpr (.case l e cs) ↔ CleanExpr e ∧ CleanClauses (some 1) cs := by
  simp only [CleanExpr, CleanClauses, wf, hasReceive, hne, Bool.not_false, Bool.and_true,
    Bool.and_eq_true, Bool.or_eq_false_iff]
  exact and_and_and_comm

theorem cleanExpr_if (l : ℕ) {cs : List Clause} (hne : cs.isEmpty = false) :
    CleanExpr (.if l cs) ↔ CleanClauses (some 0) cs := by
  simp only [CleanExpr, CleanClauses, wf, hasReceive, hne, Bool.not_false, Bool.true_and]

theorem cleanClauses_cons (n : Option ℕ) (c : Clause) (cs : List Clause) :
    CleanClauses n (c :: cs) ↔
      (wfClause n c = true ∧ clauseReceives c = false) ∧ CleanClauses n cs := by
  simp only [CleanClauses, wfClauses, clausesReceive, Bool.and_eq_true, Bool.or_eq_false_iff]
  exact and_and_and_comm

/-- Another body for a well-formed clause. -/
theorem cleanClause_body {n : Option ℕ} {l : ℕ} {pats : List Expr} {guards : List (List Expr)}
    {body body' : List Expr} (h : wfClause n (.mk l pats guards body) = true)
    (hne : body'.isEmpty = body.isEmpty) :
    wfClause n (.mk l pats guards body') = true ∧ clauseReceives (.mk l pats guards body') = false ↔
      Clean body' := by
  simp only [wfClause, Bool.and_eq_true, Bool.not_eq_true'] at h
  obtain ⟨⟨⟨⟨⟨⟨h₁, h₂⟩, h₃⟩, h₄⟩, h₅⟩, -⟩, h₆⟩ := h
  simp only [wfClause, clauseReceives, Clean, h₁, h₂, h₃, h₄, h₅, hne, h₆, Bool.not_false,
    Bool.and_true, Bool.true_and, Bool.false_or]

/-- An expression the walk does not go into. -/
theorem passed_over {e : Expr} (h : wf e = true) (hw : walkExpr e = some e)
    (hr : rewritable e = !hasReceive e) (hk : Kept e e) :
    ∃ e', walkExpr e = some e' ∧ (CleanExpr e' ↔ rewritable e = true) ∧ Kept e e' := by
  refine ⟨e, hw, ?_, hk⟩
  rw [hr, Bool.not_eq_true', CleanExpr]
  exact and_iff_right h

/-- The expression itself is a `receive`. -/
def isReceive : Expr → Bool
  | .receive _ _ => true
  | .receiveAfter _ _ _ _ => true
  | _ => false

/-- A body that starts with something else. -/
theorem body_cons {e : Expr} (h : isReceive e = false) (rest : List Expr) :
    transformBody (e :: rest) = (do return (← walkExpr e) :: (← transformBody rest)) ∧
      rewritableBody (e :: rest) = (rewritable e && rewritableBody rest) ∧
      ∀ es', KeptBody (e :: rest) es' ↔
        ∃ x' rest', es' = x' :: rest' ∧ Kept e x' ∧ KeptBody rest rest' := by
  cases e with
  | receive l cs => exact nomatch h
  | receiveAfter l cs a ab => exact nomatch h
  | _ =>
    exact ⟨by simp only [transformBody], by simp only [rewritableBody],
      fun es' => by simp only [KeptBody]⟩

/-- A list is not an expression. -/
theorem not_cleanExpr_seq (es : List Expr) : ¬ CleanExpr (.seq es) := by
  rintro ⟨h, -⟩
  exact nomatch h

mutual

/-- The walk has a result for well-formed code, and a good one exactly where it is
`rewritable`. -/
theorem walkExpr_spec (e : Expr) (h : wf e = true) :
    ∃ e', walkExpr e = some e' ∧ (CleanExpr e' ↔ rewritable e = true) ∧ Kept e e' := by
  cases e with
  | tuple l es =>
    obtain ⟨es', hw, hc, hk⟩ := walkExprs_spec es h
    exact ⟨.tuple l es', by simp [walkExpr, hw], hc, by simp only [Kept]; exact ⟨es', rfl, hk⟩⟩
  | cons l hd tl =>
    simp only [wf, Bool.and_eq_true] at h
    obtain ⟨h', hwh, hch, hkh⟩ := walkExpr_spec hd h.1
    obtain ⟨t', hwt, hct, hkt⟩ := walkExpr_spec tl h.2
    refine ⟨.cons l h' t', by simp [walkExpr, hwh, hwt], ?_, ?_⟩
    · rw [cleanExpr_cons, hch, hct, rewritable, Bool.and_eq_true]
    · simp only [Kept]
      exact ⟨h', t', rfl, hkh, hkt⟩
  | «match» l p x =>
    simp only [wf, Bool.and_eq_true, Bool.not_eq_true'] at h
    obtain ⟨p', hwp, -, hkp⟩ := walkExpr_spec p h.1.1
    obtain ⟨x', hwx, hcx, hkx⟩ := walkExpr_spec x h.2
    have hp : p' = p := hkp.eq h.1.2
    subst hp
    refine ⟨.match l p' x', by simp [walkExpr, hwp, hwx], ?_, ?_⟩
    · rw [cleanExpr_match, hcx, rewritable]
      exact and_iff_right ⟨h.1.1, h.1.2⟩
    · simp only [Kept]
      exact ⟨p', x', rfl, hkp, hkx⟩
  | case l x cs =>
    simp only [wf, Bool.and_eq_true, Bool.not_eq_true'] at h
    obtain ⟨x', hwx, hcx, hkx⟩ := walkExpr_spec x h.1.1
    obtain ⟨cs', hwcs, hccs, hkcs, hne⟩ := transformClauses_spec (some 1) cs h.2
    refine ⟨.case l x' cs', by simp [walkExpr, hwx, hwcs], ?_, ?_⟩
    · rw [cleanExpr_case l x' (hne.trans h.1.2), hcx, hccs, rewritable, Bool.and_eq_true]
    · simp only [Kept]
      exact ⟨x', cs', rfl, hkx, hkcs⟩
  | «if» l cs =>
    simp only [wf, Bool.and_eq_true, Bool.not_eq_true'] at h
    obtain ⟨cs', hwcs, hccs, hkcs, hne⟩ := transformClauses_spec (some 0) cs h.2
    refine ⟨.if l cs', by simp [walkExpr, hwcs], ?_, ?_⟩
    · rw [cleanExpr_if l (hne.trans h.1), hccs, rewritable]
    · simp only [Kept]
      exact ⟨cs', rfl, hkcs⟩
  | receive l cs =>
    simp only [wf, Bool.and_eq_true, Bool.not_eq_true'] at h
    obtain ⟨es, hes, -, -⟩ := buildPonReceive_none h.1 h.2
    refine ⟨.seq es, by simp [walkExpr, hes], ?_, by simp only [Kept]⟩
    exact iff_of_false (not_cleanExpr_seq es) (by simp [rewritable, hasReceive])
  | receiveAfter l cs a ab =>
    simp only [wf, Bool.and_eq_true, Bool.not_eq_true'] at h
    obtain ⟨es, hes, -, -⟩ := buildPonReceive_some h.1.1.1 a ab
    refine ⟨.seq es, by simp [walkExpr, hes], ?_, by simp only [Kept]⟩
    exact iff_of_false (not_cleanExpr_seq es) (by simp [rewritable, hasReceive])
  | call l f as =>
    -- the two clauses for calls ask for tuples that are not abstract code
    have hw : walkExpr (.call l f as) = some (.call l f as) := by
      cases f with
      | bareRemote m g => exact nomatch h
      | bareAtom g => exact nomatch h
      | _ => simp only [walkExpr]
    exact passed_over h hw (by simp only [rewritable]) (by simp only [Kept])
  | integerOf l x => exact nomatch h
  | seq es => exact nomatch h
  | bareRemote m f => exact nomatch h
  | bareAtom f => exact nomatch h
  | _ =>
    exact passed_over h (by simp only [walkExpr]) (by simp only [rewritable]) (by simp only [Kept])

theorem walkExprs_spec (es : List Expr) (h : wfs es = true) :
    ∃ es', walkExprs es = some es' ∧ (Clean es' ↔ rewritables es = true) ∧ KeptAll es es' := by
  cases es with
  | nil => exact ⟨[], by simp only [walkExprs], by simp [Clean, wfs, hasReceives, rewritables],
      by simp only [KeptAll]⟩
  | cons e es =>
    simp only [wfs, Bool.and_eq_true] at h
    obtain ⟨e', hwe, hce, hke⟩ := walkExpr_spec e h.1
    obtain ⟨es', hwes, hces, hkes⟩ := walkExprs_spec es h.2
    refine ⟨e' :: es', by simp [walkExprs, hwe, hwes], ?_, ?_⟩
    · rw [clean_cons, hce, hces, rewritables, Bool.and_eq_true]
    · simp only [KeptAll]
      exact ⟨e', es', rfl, hke, hkes⟩

theorem transformBody_spec (body : List Expr) (h : wfs body = true) :
    ∃ body', transformBody body = some body' ∧ (Clean body' ↔ rewritableBody body = true) ∧
      KeptBody body body' ∧ body'.isEmpty = body.isEmpty := by
  cases body with
  | nil => exact ⟨[], by simp only [transformBody],
      by simp [Clean, wfs, hasReceives, rewritableBody], by simp only [KeptBody], rfl⟩
  | cons e rest =>
    simp only [wfs, Bool.and_eq_true] at h
    obtain ⟨rest', hwr, hcr, hkr, -⟩ := transformBody_spec rest h.2
    cases hrec : isReceive e with
    | false =>
      obtain ⟨e', hwe, hce, hke⟩ := walkExpr_spec e h.1
      obtain ⟨hw, hr, hk⟩ := body_cons hrec rest
      refine ⟨e' :: rest', ?_, ?_, ?_, rfl⟩
      · rw [hw, hwe, hwr]
        rfl
      · rw [clean_cons, hce, hcr, hr, Bool.and_eq_true]
      · rw [hk]
        exact ⟨e', rest', rfl, hke, hkr⟩
    | true =>
      cases e with
      | receive l cs =>
        simp only [wf, Bool.and_eq_true, Bool.not_eq_true'] at h
        obtain ⟨es, hes, hne, hces⟩ := buildPonReceive_none h.1.1 h.1.2
        refine ⟨es ++ rest', by simp [transformBody, hes, hwr], ?_, ?_, by simp [hne]⟩
        · rw [clean_append, hces, hcr, rewritableBody, Bool.and_eq_true, Bool.not_eq_true']
        · simp only [KeptBody]
          exact ⟨es, rest', rfl, hkr⟩
      | receiveAfter l cs a ab =>
        simp only [wf, Bool.and_eq_true, Bool.not_eq_true'] at h
        obtain ⟨es, hes, hne, hces⟩ := buildPonReceive_some h.1.1.1.1 a ab
        refine ⟨es ++ rest', by simp [transformBody, hes, hwr], ?_, ?_, by simp [hne]⟩
        · rw [clean_append, rewritableBody]
          exact iff_of_false (fun hc => hces hc.1) Bool.false_ne_true
        · simp only [KeptBody]
          exact ⟨es, rest', rfl, hkr⟩
      | _ => exact nomatch hrec

theorem transformClause_spec (n : Option ℕ) (c : Clause) (h : wfClause n c = true) :
    ∃ c', transformClause c = some c' ∧
      (wfClause n c' = true ∧ clauseReceives c' = false ↔ rewritableClause c = true) ∧
      KeptClause c c' := by
  obtain ⟨l, pats, guards, body⟩ := c
  have hbody : wfs body = true := by
    simp only [wfClause, Bool.and_eq_true] at h
    exact h.1.2
  obtain ⟨body', hw, hc, hk, hne⟩ := transformBody_spec body hbody
  refine ⟨.mk l pats guards body', by simp [transformClause, hw], ?_, ?_⟩
  · rw [cleanClause_body h hne, hc, rewritableClause]
  · simp only [KeptClause]
    exact ⟨body', rfl, hk⟩

theorem transformClauses_spec (n : Option ℕ) (cs : List Clause) (h : wfClauses n cs = true) :
    ∃ cs', transformClauses cs = some cs' ∧
      (CleanClauses n cs' ↔ rewritableClauses cs = true) ∧ KeptClauses cs cs' ∧
      cs'.isEmpty = cs.isEmpty := by
  cases cs with
  | nil => exact ⟨[], by simp only [transformClauses],
      by simp [CleanClauses, wfClauses, clausesReceive, rewritableClauses],
      by simp only [KeptClauses], rfl⟩
  | cons c cs =>
    simp only [wfClauses, Bool.and_eq_true] at h
    obtain ⟨c', hwc, hcc, hkc⟩ := transformClause_spec n c h.1
    obtain ⟨cs', hwcs, hccs, hkcs, -⟩ := transformClauses_spec n cs h.2
    refine ⟨c' :: cs', by simp [transformClauses, hwc, hwcs], ?_, ?_, rfl⟩
    · rw [cleanClauses_cons, hcc, hccs, rewritableClauses, Bool.and_eq_true]
    · simp only [KeptClauses]
      exact ⟨c', cs', rfl, hkc, hkcs⟩

end

/-! ## Forms -/

theorem doTransform_spec (forms : List Form) (h : ∀ f ∈ forms, wfForm f = true) :
    ∃ out, doTransform forms = some out ∧
      ((∀ f ∈ out, wfForm f = true ∧ formReceives f = false) ↔
        ∀ f ∈ forms, rewritableForm f = true) ∧ KeptForms forms out := by
  induction forms with
  | nil => exact ⟨[], rfl, by simp, rfl⟩
  | cons f forms ih =>
    obtain ⟨out, hw, hc, hk⟩ := ih fun f hf => h f (List.mem_cons_of_mem _ hf)
    have hf := h f (List.mem_cons_self ..)
    cases f with
    | «attribute» l name value =>
      by_cases hname : name = "module"
      · subst hname
        refine ⟨_, by simp only [doTransform, hw]; rfl, ?_, ?_⟩
        · rw [List.forall_mem_cons, List.forall_mem_cons, List.forall_mem_cons, hc]
          simp [wfForm, formReceives, rewritableForm]
        · simp only [KeptForms]
          exact ⟨out, rfl, hk⟩
      · refine ⟨.attribute l name value :: out, by simp [doTransform, hname, hw], ?_, ?_⟩
        · rw [List.forall_mem_cons, List.forall_mem_cons, hc]
          simp [wfForm, formReceives, rewritableForm]
        · simp [KeptForms, hname, hk]
    | function l n a cs =>
      simp only [wfForm, Bool.and_eq_true, Bool.not_eq_true'] at hf
      obtain ⟨cs', hwcs, hccs, hkcs, hne⟩ := transformClauses_spec (some a) cs hf.2
      refine ⟨.function l n a cs' :: out, by simp [doTransform, hwcs, hw], ?_, ?_⟩
      · rw [List.forall_mem_cons, List.forall_mem_cons, hc, rewritableForm, ← hccs]
        refine and_congr_left fun _ => ?_
        simp only [wfForm, formReceives, CleanClauses, hne, hf.1, Bool.not_false, Bool.true_and]
      · simp only [KeptForms]
        exact ⟨cs', out, rfl, hkcs, hk⟩
    | other kind =>
      refine ⟨.other kind :: out, by simp [doTransform, hw], ?_, ?_⟩
      · rw [List.forall_mem_cons, List.forall_mem_cons, hc]
        simp [wfForm, formReceives, rewritableForm]
      · simp only [KeptForms]
        exact ⟨out, rfl, hk⟩

/-- **What `do_transform` produces, exactly when it is right.** -/
theorem transform_ok_iff (forms : List Form) (h : ∀ f ∈ forms, wfForm f = true) :
    TransformOk forms ↔ ∀ f ∈ forms, rewritableForm f = true := by
  obtain ⟨out, hw, hc, hk⟩ := doTransform_spec forms h
  rw [← hc]
  constructor
  · rintro ⟨out', hout, hwf, hrec, -⟩
    obtain rfl := Option.some.inj (hw.symm.trans hout)
    exact fun f hf => ⟨hwf f hf, hrec f hf⟩
  · intro hclean
    exact ⟨out, hw, fun f hf => (hclean f hf).1, fun f hf => (hclean f hf).2, hk⟩

/-- `-module(m).  f() -> receive {ping, X} -> ok end.` -/
theorem receive_in_body_ok :
    TransformOk [.attribute 1 "module" (.atom "m"),
      .function 2 "f" 0 [.mk 2 [] [] [.receive 2 pingClauses]]] :=
  (transform_ok_iff _ (by decide)).mpr (by decide)

/-- `f() -> Y = receive {ping, X} -> ok end.` -/
def boundReceive : Form :=
  .function 2 "f" 0 [.mk 2 [] [] [.match 2 (.var 2 "Y") (.receive 2 pingClauses)]]

/-- `f() -> g(receive {ping, X} -> ok end).` -/
def passedReceive : Form :=
  .function 2 "f" 0 [.mk 2 [] [] [.call 2 (.atom 2 "g") [.receive 2 pingClauses]]]

/-- Both are well-formed. The first becomes a match with a list of four expressions on its
right; in the second the receive stays. -/
theorem receive_elsewhere_not_ok :
    (wfForm boundReceive = true ∧ ¬ TransformOk [boundReceive]) ∧
      wfForm passedReceive = true ∧ ¬ TransformOk [passedReceive] := by
  refine ⟨⟨rfl, ?_⟩, rfl, ?_⟩
  · rintro ⟨out, hout, hwf, -⟩
    cases hout
    exact nomatch hwf _ (List.mem_cons_self ..)
  · rintro ⟨out, hout, -, hrec, -⟩
    cases hout
    exact nomatch hrec _ (List.mem_cons_self ..)

end PonBeam.Receive
