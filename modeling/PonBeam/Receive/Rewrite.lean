import PonBeam.Receive.Semantics
import PonBeam.Receive.Loss

/-!
# The rewritten receive against the stock one

`ponReceive_eq` runs the generated sequence symbolically: register, take a message,
dispatch, unregister. `SameOutcome` is what the transform owes the program it
rewrites, and `ponReceive_same_iff` says exactly when it delivers: nothing is ever
delivered, or the oldest message is one that the premises accept and that a clause
takes, with a body that answers `ok` or does not answer.
-/

namespace PonBeam.Receive

/-! ## The registered premises -/

/-- The value of `pat_to_term(P)`. -/
def patTerm (e : Expr) : Term := (literal (patToTerm e)).getD .nil

mutual

theorem literal_patToTerm_isSome (e : Expr) : (literal (patToTerm e)).isSome := by
  cases e <;> simp only [patToTerm, literal, Option.isSome_some]
  case tuple l es =>
    rw [Option.isSome_map]
    exact literals_patsToTerms_isSome es
  case cons l h t =>
    obtain ⟨v, hv⟩ := Option.isSome_iff_exists.mp (literal_patToTerm_isSome h)
    rw [hv, Option.bind_some, Option.isSome_map]
    exact literal_patToTerm_isSome t
  case «match» l p q => exact literal_patToTerm_isSome p

theorem literals_patsToTerms_isSome (es : List Expr) : (literals (patsToTerms es)).isSome := by
  cases es with
  | nil => simp only [patsToTerms, literals, Option.isSome_some]
  | cons e es =>
    obtain ⟨v, hv⟩ := Option.isSome_iff_exists.mp (literal_patToTerm_isSome e)
    simp only [patsToTerms, literals]
    rw [hv, Option.bind_some, Option.isSome_map]
    exact literals_patsToTerms_isSome es

end

theorem literal_patToTerm (e : Expr) : literal (patToTerm e) = some (patTerm e) := by
  obtain ⟨v, hv⟩ := Option.isSome_iff_exists.mp (literal_patToTerm_isSome e)
  rw [patTerm, hv, Option.getD_some]

/-- The pattern of a `receive` clause. -/
def Clause.pat (c : Clause) : Expr := c.pats.headD (.nil 0)

/-- The clauses of a `receive` have one pattern each. -/
def OnePattern (clauses : List Clause) : Prop := ∀ c ∈ clauses, c.pats = [c.pat]

/-- The value of the premise of a clause, `{Pat, true, 0}`. -/
def premiseTerm (c : Clause) : Term := .tuple [patTerm c.pat, .atom "true", .int 0]

/-- The dictionary entry once the premises of `clauses` are registered. -/
def registered (clauses : List Clause) (dict : Dict) : Dict :=
  registerPremises (clauses.map premiseTerm) dict

theorem premiseOf_eq {c : Clause} (h : c.pats = [c.pat]) :
    premiseOf c = some (.tuple 0 [patToTerm c.pat, .atom 0 "true", .integer 0 0]) := by
  obtain ⟨l, pats, gs, body⟩ := c
  change pats = [Clause.pat (.mk l pats gs body)] at h
  rw [h]
  rfl

/-- The premise list is built, and its value is the list of the premises. -/
theorem buildPremiseList_eq {clauses : List Clause} (h : OnePattern clauses) :
    ∃ e, buildPremiseList clauses = some e ∧
      (literal e).bind listElems = some (clauses.map premiseTerm) := by
  induction clauses with
  | nil => exact ⟨.nil 0, rfl, rfl⟩
  | cons c clauses ih =>
    obtain ⟨e, hb, hv⟩ := ih fun c hc => h c (List.mem_cons_of_mem _ hc)
    obtain ⟨es, hes, rfl⟩ := Option.map_eq_some_iff.mp hb
    refine ⟨.cons 0 (.tuple 0 [patToTerm c.pat, .atom 0 "true", .integer 0 0]) (listToAst es),
      ?_, ?_⟩
    · simp only [buildPremiseList, List.mapM_cons, premiseOf_eq (h c (List.mem_cons_self ..)), hes]
      rfl
    · obtain ⟨t, ht, hl⟩ := Option.bind_eq_some_iff.mp hv
      simp only [literal, literals, literal_patToTerm, ht, Option.bind_some, Option.map_some,
        listElems, hl, List.map_cons]
      rfl

/-- The premise list is built only where every clause has one pattern. -/
theorem onePattern_of_build {clauses : List Clause} {after : Option (Expr × List Expr)}
    {es : List Expr} (h : buildPonReceive clauses after = some es) : OnePattern clauses := by
  cases hb : buildPremiseList clauses with
  | none => simp [buildPonReceive, hb] at h
  | some e =>
    clear h
    induction clauses generalizing e with
    | nil => exact fun c hc => absurd hc List.not_mem_nil
    | cons c clauses ih =>
      obtain ⟨ps, hps, -⟩ := Option.map_eq_some_iff.mp hb
      simp only [List.mapM_cons, Option.pure_def, Option.bind_eq_bind, Option.bind_eq_some_iff]
        at hps
      obtain ⟨pr, hpr, prs, hprs, -⟩ := hps
      intro d hd
      rcases List.mem_cons.mp hd with rfl | hd
      · obtain ⟨l, _ | ⟨pat, _ | _⟩, gs, body⟩ := d
        · exact nomatch hpr
        · rfl
        · exact nomatch hpr
      · exact ih (listToAst prs) (by rw [buildPremiseList, hprs, Option.map_some]) d hd

/-! ## Running the generated code -/

/-- `PonMsg = Msg` succeeds: `PonMsg` is unbound, or bound to that very message. -/
def PonMsgFree (env : Env) (msg : Term) : Prop :=
  env "PonMsg" = none ∨ env "PonMsg" = some msg

instance (env : Env) (msg : Term) : Decidable (PonMsgFree env msg) :=
  inferInstanceAs (Decidable (_ ∨ _))

/-- What the generated code does with the message it took. -/
def dispatched (S : Sem) (clauses : List Clause) (env : Env) (dict : Dict) (msg : Term)
    (mailbox : List Term) : Outcome :=
  if PonMsgFree env msg then
    match selectClause S 0 clauses (env.bind "PonMsg" msg) msg with
    | none => .raises (.tuple [.atom "case_clause", msg]) mailbox
    | some c => .ran ⟨c, msg, mailbox⟩ ((S.body c.body c.env dict mailbox).map fun _ => okTerm)
  else .raises (.tuple [.atom "badmatch", msg]) mailbox

/-- Either it fails, or it starts a clause body on the message it took. -/
theorem dispatched_cases (S : Sem) (clauses : List Clause) (env : Env) (dict : Dict) (msg : Term)
    (mailbox : List Term) :
    (∃ reason, dispatched S clauses env dict msg mailbox = .raises reason mailbox) ∨
    ∃ c v, dispatched S clauses env dict msg mailbox = .ran ⟨c, msg, mailbox⟩ v := by
  unfold dispatched
  split
  · split
    · exact Or.inl ⟨_, rfl⟩
    · exact Or.inr ⟨_, _, rfl⟩
  · exact Or.inl ⟨_, rfl⟩

theorem bind_self (env : Env) (x : String) (v : Term) : env.bind x v x = some v := if_pos rfl

theorem bind_of_eq {env : Env} {x : String} {v : Term} (h : env x = some v) :
    env.bind x v = env := by
  funext y
  unfold Env.bind
  split
  · rename_i hy
    rw [hy, h]
  · rfl

/-- The dispatching `case`, the clean-up behind it, and what they show. -/
theorem exec_dispatch (S : Sem) (clauses : List Clause) (p : Proc) {msg : Term}
    (hp : p.env "PonMsg" = some msg) :
    (execSeq S [buildDispatch clauses, runtimeCall "unregister_premises" []] p).outcome =
      match selectClause S 0 clauses p.env msg with
      | none => .raises (.tuple [.atom "case_clause", msg]) p.mailbox
      | some c => .ran ⟨c, msg, p.mailbox⟩
          ((S.body c.body c.env p.dict p.mailbox).map fun _ => okTerm) := by
  simp only [execSeq, buildDispatch, msgVar, exec, hp]
  cases selectClause S 0 clauses p.env msg with
  | none => rfl
  | some c =>
    cases hb : S.body c.body c.env p.dict p.mailbox with
    | none =>
      simp only [hb]
      rfl
    | some w =>
      simp only [hb]
      rfl

theorem execSeq_cons (S : Sem) (e e' : Expr) (es : List Expr) (p : Proc) :
    execSeq S (e :: e' :: es) p =
      match exec S e p with
      | .value _ p => execSeq S (e' :: es) p
      | r => r := rfl

/-- `PonMsg = pon_runtime:receive_msg()`. -/
theorem exec_recv (S : Sem) (env : Env) (dict : Dict) (delivered : List Term) :
    exec S (.match 0 msgVar (runtimeCall "receive_msg" [])) ⟨env, dict, delivered, none⟩ =
      match receiveMsg dict delivered with
      | .waits mailbox => .waits ⟨env, dict, mailbox, none⟩
      | .value msg mailbox =>
        if PonMsgFree env msg then .value msg ⟨env.bind "PonMsg" msg, dict, mailbox, none⟩
        else .raises (.tuple [.atom "badmatch", msg]) ⟨env, dict, mailbox, none⟩ := by
  simp only [msgVar, runtimeCall, exec, execRuntime]
  cases receiveMsg dict delivered with
  | waits mailbox => rfl
  | value msg mailbox =>
    dsimp only
    cases hx : env "PonMsg" with
    | none =>
      have hfree : PonMsgFree env msg := Or.inl hx
      rw [if_pos hfree]
    | some w =>
      dsimp only
      by_cases hw : w = msg
      · subst hw
        have hfree : PonMsgFree env w := Or.inr hx
        rw [if_pos rfl, if_pos hfree, bind_of_eq hx]
      · have hfree : ¬ PonMsgFree env msg := by
          unfold PonMsgFree
          rw [hx]
          simp [hw]
        rw [if_neg hw, if_neg hfree]

/-- **The generated sequence, run.** -/
theorem ponReceive_eq (S : Sem) {clauses : List Clause} (h : OnePattern clauses) (env : Env)
    (dict : Dict) (delivered : List Term) :
    ponReceive S clauses env dict delivered =
      some (match receiveMsg (registered clauses dict) delivered with
        | .waits mailbox => .waits mailbox
        | .value msg mailbox =>
          dispatched S clauses env (registered clauses dict) msg mailbox) := by
  obtain ⟨e, hb, hv⟩ := buildPremiseList_eq h
  simp only [ponReceive, buildPonReceive, hb, Option.map_some, Option.some.injEq]
  have hreg : exec S (runtimeCall "register_premises" [e]) ⟨env, dict, delivered, none⟩ =
      .value okTerm ⟨env, registered clauses dict, delivered, none⟩ := by
    simp only [runtimeCall, exec, execRuntime, hv]
    rfl
  rw [execSeq_cons, hreg]
  dsimp only
  rw [execSeq_cons, exec_recv]
  cases receiveMsg (registered clauses dict) delivered with
  | waits mailbox => rfl
  | value msg mailbox =>
    dsimp only
    unfold dispatched
    by_cases hfree : PonMsgFree env msg
    · rw [if_pos hfree, if_pos hfree]
      exact exec_dispatch S clauses ⟨env.bind "PonMsg" msg, _, mailbox, none⟩
        (bind_self env "PonMsg" msg)
    · rw [if_neg hfree, if_neg hfree]
      rfl

/-! ## The comparison -/

/-- The same bindings, up to a `PonMsg` the program does not know of. -/
def SameBindings (stock pon : Env) : Prop :=
  (∀ x, x ≠ "PonMsg" → pon x = stock x) ∧ ∀ v, stock "PonMsg" = some v → pon "PonMsg" = some v

/-- What the transform owes the program: the same clause body with the same bindings on
the same message, the same value and the same mailbox. -/
def SameOutcome : Outcome → Outcome → Prop
  | .waits mailbox, .waits mailbox' => mailbox' = mailbox
  | .ran s v, .ran s' v' =>
    s'.chosen.clause = s.chosen.clause ∧ SameBindings s.chosen.env s'.chosen.env ∧
      s'.msg = s.msg ∧ s'.mailbox = s.mailbox ∧ v' = v
  | _, _ => False

/-- The rewritten receive behaves as the stock one on the delivered messages. -/
def Preserves (S : Sem) (clauses : List Clause) (env : Env) (dict : Dict)
    (delivered : List Term) : Prop :=
  ∃ o, ponReceive S clauses env dict delivered = some o ∧
    SameOutcome (stockReceive S clauses env dict delivered) o

theorem stockScan_spec (S : Sem) (clauses : List Clause) (env : Env) (dict : Dict)
    (delivered : List Term) : ∀ skipped,
    (∃ before msg after c, delivered = before ++ msg :: after ∧
      selectClause S 0 clauses env msg = some c ∧
      stockScan S clauses env dict skipped delivered =
        .ran ⟨c, msg, skipped ++ before ++ after⟩
          (S.body c.body c.env dict (skipped ++ before ++ after))) ∨
    stockScan S clauses env dict skipped delivered = .waits (skipped ++ delivered) := by
  induction delivered with
  | nil => exact fun skipped => Or.inr (by simp [stockScan])
  | cons m delivered ih =>
    intro skipped
    cases hsel : selectClause S 0 clauses env m with
    | some c =>
      refine Or.inl ⟨[], m, delivered, c, rfl, hsel, ?_⟩
      simp only [stockScan, hsel, List.append_nil]
    | none =>
      have hstep : stockScan S clauses env dict skipped (m :: delivered) =
          stockScan S clauses env dict (skipped ++ [m]) delivered := by
        simp only [stockScan, hsel]
      rw [hstep]
      rcases ih (skipped ++ [m]) with ⟨before, msg, after, c, rfl, hc, hrun⟩ | hrun
      · exact Or.inl ⟨m :: before, msg, after, c, rfl, hc, by simpa using hrun⟩
      · exact Or.inr (by simpa using hrun)

/-- The oldest message `msg`, with `rest` behind it, is one the transform gets right: the
premises accept it, some clause takes it, the same one with the same bindings whether
`PonMsg` is bound to the message by then or not, and the body of that clause answers `ok`
or does not answer. -/
def Handled (S : Sem) (clauses : List Clause) (env : Env) (dict : Dict) (msg : Term)
    (rest : List Term) : Prop :=
  Accepts ((registered clauses dict).getD []) msg ∧ PonMsgFree env msg ∧
    ∃ c c', selectClause S 0 clauses env msg = some c ∧
      selectClause S 0 clauses (env.bind "PonMsg" msg) msg = some c' ∧
      c'.clause = c.clause ∧ SameBindings c.env c'.env ∧
      (S.body c.body c.env dict rest = some okTerm ∧
          (S.body c'.body c'.env (registered clauses dict) rest).isSome ∨
        S.body c.body c.env dict rest = none ∧
          S.body c'.body c'.env (registered clauses dict) rest = none)

theorem map_const_ok_iff {v w : Option Term} :
    (v.map fun _ => okTerm) = w ↔ w = some okTerm ∧ v.isSome ∨ w = none ∧ v = none := by
  cases v <;> simp [eq_comm]

/-- What `Handled` asks for once the message has been taken. -/
def Taken (S : Sem) (clauses : List Clause) (env : Env) (dict : Dict) (msg : Term)
    (rest : List Term) : Prop :=
  PonMsgFree env msg ∧
    ∃ c c', selectClause S 0 clauses env msg = some c ∧
      selectClause S 0 clauses (env.bind "PonMsg" msg) msg = some c' ∧
      c'.clause = c.clause ∧ SameBindings c.env c'.env ∧
      (S.body c.body c.env dict rest = some okTerm ∧
          (S.body c'.body c'.env (registered clauses dict) rest).isSome ∨
        S.body c.body c.env dict rest = none ∧
          S.body c'.body c'.env (registered clauses dict) rest = none)

theorem handled_iff {S : Sem} {clauses : List Clause} {env : Env} {dict : Dict} {msg : Term}
    {rest : List Term} :
    Handled S clauses env dict msg rest ↔
      Accepts ((registered clauses dict).getD []) msg ∧ Taken S clauses env dict msg rest :=
  Iff.rfl

/-- The message the generated code took is handled as the stock receive would. -/
theorem same_dispatched {S : Sem} {clauses : List Clause} {env : Env} {dict : Dict} {msg : Term}
    {rest : List Term} {c : Chosen} (hc : selectClause S 0 clauses env msg = some c) :
    SameOutcome (.ran ⟨c, msg, rest⟩ (S.body c.body c.env dict rest))
      (dispatched S clauses env (registered clauses dict) msg rest) ↔
    Taken S clauses env dict msg rest := by
  unfold dispatched Taken
  by_cases hfree : PonMsgFree env msg
  · rw [if_pos hfree]
    cases hc' : selectClause S 0 clauses (env.bind "PonMsg" msg) msg with
    | none => simp [SameOutcome]
    | some c' =>
      simp only [SameOutcome, map_const_ok_iff, true_and]
      constructor
      · rintro ⟨h₁, h₂, h₃⟩
        exact ⟨hfree, c, c', hc, rfl, h₁, h₂, h₃⟩
      · rintro ⟨-, d, d', hd, hd', h₁, h₂, h₃⟩
        obtain rfl := Option.some.inj (hc.symm.trans hd)
        obtain rfl := Option.some.inj hd'
        exact ⟨h₁, h₂, h₃⟩
  · rw [if_neg hfree]
    simp [SameOutcome, hfree]

/-- **The rewrite, exactly when it is faithful.** The rewritten receive does what the stock
one does exactly when no message is ever delivered, or when the oldest one is `Handled`. -/
theorem preserves_iff (S : Sem) {clauses : List Clause} (h : OnePattern clauses) (env : Env)
    (dict : Dict) (delivered : List Term) :
    Preserves S clauses env dict delivered ↔
      delivered = [] ∨ ∃ msg rest, delivered = msg :: rest ∧
        Handled S clauses env dict msg rest := by
  unfold Preserves
  rw [ponReceive_eq S h]
  simp only [Option.some.injEq, exists_eq_left']
  constructor
  · intro hsame
    rw [receiveMsg_dict] at hsame
    have hstock := stockScan_spec S clauses env dict delivered []
    rw [show stockScan S clauses env dict [] delivered = stockReceive S clauses env dict delivered
      from rfl] at hstock
    rcases receiveMsg_spec ((registered clauses dict).getD []) delivered with
      ⟨dropped, msg, rest, hdel, -, hacc, hrun⟩ | ⟨-, hrun⟩
    · rw [hrun] at hsame
      dsimp only at hsame
      have hcases := dispatched_cases S clauses env (registered clauses dict) msg rest
      rcases hstock with ⟨before, m, after, c, hdel', hc, hs⟩ | hs
      · -- one message is gone from the stock mailbox, so only one may be gone here
        rw [hs] at hsame
        have hmsg : msg = m ∧ rest = before ++ after := by
          rcases hcases with ⟨_, hd⟩ | ⟨_, _, hd⟩
          · rw [hd] at hsame
            exact hsame.elim
          · rw [hd] at hsame
            exact ⟨hsame.2.2.1, hsame.2.2.2.1⟩
        obtain ⟨rfl, hrest⟩ := hmsg
        have hnil : dropped = [] := by
          have hlen := congrArg List.length (hdel.symm.trans hdel')
          have hlen' := congrArg List.length hrest
          simp only [List.length_append, List.length_cons] at hlen hlen'
          exact List.length_eq_zero_iff.mp (by omega)
        subst hnil
        subst hrest
        exact Or.inr ⟨msg, before ++ after, hdel,
          handled_iff.mpr ⟨hacc, (same_dispatched hc).mp hsame⟩⟩
      · rw [hs] at hsame
        rcases hcases with ⟨_, hd⟩ | ⟨_, _, hd⟩ <;>
        · rw [hd] at hsame
          exact hsame.elim
    · rw [hrun] at hsame
      rcases hstock with ⟨before, m, after, c, -, -, hs⟩ | hs
      · rw [hs] at hsame
        exact hsame.elim
      · rw [hs] at hsame
        exact Or.inl hsame.symm
  · rintro (rfl | ⟨msg, rest, rfl, hh⟩)
    · rfl
    · obtain ⟨hacc, htaken⟩ := handled_iff.mp hh
      obtain ⟨-, c, c', hc, -⟩ := id htaken
      have hrun : receiveMsg (registered clauses dict) (msg :: rest) = .value msg rest :=
        receiveMsgLoop_accept hacc rest
      have hs : stockReceive S clauses env dict (msg :: rest) =
          .ran ⟨c, msg, rest⟩ (S.body c.body c.env dict rest) := by
        simp only [stockReceive, stockScan, hc, List.nil_append]
      rw [hrun, hs]
      exact (same_dispatched hc).mpr htaken

/-! ## Two small programs -/

/-- Bodies that are literals, and nothing else of the language. -/
def literalSem : Sem where
  otherPat _ _ _ := none
  guard _ _ := true
  body es _ _ _ := es.getLast?.bind literal

/-- `receive {ping, X} -> ok end` -/
def pingClauses : List Clause :=
  [.mk 1 [.tuple 1 [.atom 1 "ping", .var 1 "X"]] [] [.atom 1 "ok"]]

/-- `receive ping -> ok end` -/
def atomClauses : List Clause := [.mk 1 [.atom 1 "ping"] [] [.atom 1 "ok"]]

/-- With `{ping, 1}` in front of the mailbox the first program is rewritten faithfully. -/
theorem ping_preserves :
    Preserves literalSem pingClauses (fun _ => none) none
      [.tuple [.atom "ping", .int 1], .atom "pong"] := by
  have hone : OnePattern pingClauses := by
    intro c hc
    obtain rfl := List.mem_singleton.mp hc
    rfl
  refine (preserves_iff literalSem hone _ _ _).mpr (Or.inr ⟨_, _, rfl, Or.inr (by decide),
    Or.inl rfl, _, _, rfl, rfl, rfl, ⟨fun x hx => ?_, fun v hv => ?_⟩, Or.inl ⟨rfl, rfl⟩⟩)
  · simp [Env.bind, hx]
  · simp [Env.bind] at hv

/-- With `pong` and `ping` delivered in this order the second is not: a stock receive takes
`ping` and leaves `pong`, while the premise for `ping` accepts any message, so that `pong` is
taken and no clause is there for it. -/
theorem atom_not_preserved :
    ponReceive literalSem atomClauses (fun _ => none) none [.atom "pong", .atom "ping"] =
      some (.raises (.tuple [.atom "case_clause", .atom "pong"]) [.atom "ping"]) ∧
    ¬ Preserves literalSem atomClauses (fun _ => none) none [.atom "pong", .atom "ping"] := by
  have hrun : ponReceive literalSem atomClauses (fun _ => none) none
      [.atom "pong", .atom "ping"] =
        some (.raises (.tuple [.atom "case_clause", .atom "pong"]) [.atom "ping"]) := rfl
  refine ⟨hrun, ?_⟩
  rintro ⟨o, ho, hsame⟩
  obtain rfl := Option.some.inj (hrun.symm.trans ho)
  exact hsame

end PonBeam.Receive
