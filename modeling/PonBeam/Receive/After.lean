import PonBeam.Receive.Rewrite

/-!
# The rewritten `receive .. after`

For a receive with a timeout `build_pon_receive` emits
`receive_msg_timeout({integer, 0, AfterMs})`, where `AfterMs` is not a number but the
timeout expression in abstract format. The compiler takes the third component of an
`integer` node as the value it stands for, so that at run time the function gets that
tuple. `receive` looks at the timeout only once no message is left to look at: the
oldest message is taken if one is there already, whatever it is, and otherwise the
call fails with `timeout_value`. The `after` body is not in the generated code at all.

Messages come with the time of their arrival, counted from the start of the wait, as in
`receiveMsgTimeout`.
-/

namespace PonBeam.Receive

/-! ## Abstract format as a term -/

/-- A node: its tag, its line, and its parts. -/
def nodeTerm (tag : String) (line : ℕ) (parts : List Term) : Term :=
  .tuple (.atom tag :: .int line :: parts)

mutual

/-- An expression as the term the parse transform has in hand. -/
def Expr.term : Expr → Term
  | .atom l a => nodeTerm "atom" l [.atom a]
  | .integer l i => nodeTerm "integer" l [.int i]
  | .float l x => nodeTerm "float" l [.float x]
  | .char l c => nodeTerm "char" l [.int c]
  | .string l cs => nodeTerm "string" l [stringTerm cs]
  | .var l x => nodeTerm "var" l [.atom x]
  | .tuple l es => nodeTerm "tuple" l [exprsTerm es]
  | .cons l h t => nodeTerm "cons" l [h.term, t.term]
  | .nil l => nodeTerm "nil" l []
  | .match l p e => nodeTerm "match" l [p.term, e.term]
  | .call l f as => nodeTerm "call" l [f.term, exprsTerm as]
  | .remote l m f => nodeTerm "remote" l [m.term, f.term]
  | .case l e cs => nodeTerm "case" l [e.term, clausesTerm cs]
  | .if l cs => nodeTerm "if" l [clausesTerm cs]
  | .receive l cs => nodeTerm "receive" l [clausesTerm cs]
  | .receiveAfter l cs a ab => nodeTerm "receive" l [clausesTerm cs, a.term, exprsTerm ab]
  | .other l kind es cs => nodeTerm kind l [exprsTerm es, clausesTerm cs]
  | .integerOf l e => nodeTerm "integer" l [e.term]
  | .seq es => exprsTerm es
  | .bareRemote m f => .tuple [.atom "remote", m.term, f.term]
  | .bareAtom f => .tuple [.atom "atom", .atom f]

/-- A list of expressions as a term. -/
def exprsTerm : List Expr → Term
  | [] => .nil
  | e :: es => .cons e.term (exprsTerm es)

/-- A clause as a term. -/
def Clause.term : Clause → Term
  | .mk l pats guards body =>
    nodeTerm "clause" l [exprsTerm pats, guardsTerm guards, exprsTerm body]

/-- A guard sequence as a term. -/
def guardsTerm : List (List Expr) → Term
  | [] => .nil
  | g :: gs => .cons (exprsTerm g) (guardsTerm gs)

/-- A list of clauses as a term. -/
def clausesTerm : List Clause → Term
  | [] => .nil
  | c :: cs => .cons c.term (clausesTerm cs)

end

/-! ## Timeouts -/

/-- The timeout a term stands for: `infinity`, or an integer of at most 32 bits. -/
def timeoutOf : Term → Option Timeout
  | .atom a => if a = "infinity" then some .infinity else none
  | .int n => if 0 ≤ n ∧ n < 4294967296 then some (.ms n.toNat) else none
  | _ => none

/-- No abstract format is a timeout. -/
theorem timeoutOf_term (e : Expr) : timeoutOf e.term = none := by
  cases e with
  | seq es => cases es <;> rfl
  | _ => rfl

/-- A message that arrives at `t` is looked at: within the timeout, or, where the timeout
is no timeout, if it was there already. -/
def seenWithin (timeout : Option Timeout) (t : ℕ) : Bool :=
  match timeout with
  | some timeout => timeout.covers t
  | none => t = 0

/-- The messages alone. -/
def messages (arrivals : List (ℕ × Term)) : List Term := arrivals.map Prod.snd

/-- `timeout_value` -/
def timeoutValue : Term := .atom "timeout_value"

/-! ## The stock receive -/

/-- How a `receive .. after` ends. -/
inductive AfterOutcome : Type where
  /-- as a receive without `after` does -/
  | received (o : Outcome)
  /-- the time is up: the `after` body is evaluated, with every message still there -/
  | timedOut (value : Option Term) (mailbox : List Term)

/-- No more messages to look at. -/
def stockTimeout (S : Sem) (B : List Expr) (env : Env) (dict : Dict) (timeout : Option Timeout)
    (mailbox : List Term) : AfterOutcome :=
  match timeout with
  | none => .received (.raises timeoutValue mailbox)
  | some _ => .timedOut (S.body B env dict mailbox) mailbox

/-- The stock receive with a timeout, with the messages it has gone past. -/
def stockScanAfter (S : Sem) (clauses : List Clause) (B : List Expr) (env : Env) (dict : Dict)
    (timeout : Option Timeout) : List Term → List (ℕ × Term) → AfterOutcome
  | skipped, [] =>
    if timeout = some .infinity then .received (.waits skipped)
    else stockTimeout S B env dict timeout skipped
  | skipped, (t, msg) :: rest =>
    if seenWithin timeout t then
      match selectClause S 0 clauses env msg with
      | some c =>
        .received (.ran ⟨c, msg, skipped ++ messages rest⟩
          (S.body c.body c.env dict (skipped ++ messages rest)))
      | none => stockScanAfter S clauses B env dict timeout (skipped ++ [msg]) rest
    else stockTimeout S B env dict timeout (skipped ++ msg :: messages rest)

/-- `receive Clauses after T -> B end`, where `T` has the value `v`. -/
def stockReceiveAfter (S : Sem) (clauses : List Clause) (v : Term) (B : List Expr) (env : Env)
    (dict : Dict) (arrivals : List (ℕ × Term)) : AfterOutcome :=
  stockScanAfter S clauses B env dict (timeoutOf v) [] arrivals

/-! ## The generated code -/

/-- A process running generated code against arriving messages. -/
structure Timed where
  /-- its variables -/
  env : Env
  /-- its premises -/
  dict : Dict
  /-- the messages it has not taken -/
  arrivals : List (ℕ × Term)
  /-- the clause body it has started -/
  started : Option Started
  /-- the timeout that was asked for -/
  asked : Option Term

/-- The process without the clock. -/
def Timed.proc (p : Timed) : Proc := ⟨p.env, p.dict, messages p.arrivals, p.started⟩

/-- The process after an expression that does not look at the clock. Messages are taken
from the front. -/
def Timed.follow (p : Timed) (q : Proc) : Timed :=
  { p with
    env := q.env
    dict := q.dict
    arrivals := p.arrivals.drop (p.arrivals.length - q.mailbox.length)
    started := q.started }

/-- The value of an argument. An `integer` node stands for what it holds. -/
def argument : Expr → Option Term
  | .integerOf _ e => some e.term
  | e => literal e

/-- `receive_msg_timeout(v)`: the function itself where `v` is a timeout. -/
def callReceiveMsgTimeout (v : Term) (arrivals : List (ℕ × Term)) :
    Except Term (Received (ℕ × Term)) :=
  match timeoutOf v with
  | some timeout => .ok (receiveMsgTimeout timeout arrivals)
  | none =>
    match arrivals with
    | (0, msg) :: rest => .ok (.value msg rest)
    | _ => .error timeoutValue

/-- The process a result leaves behind. -/
def Result.proc? : Result → Option Proc
  | .value _ p => some p
  | .waits p => some p
  | .raises _ p => some p
  | .away p => some p
  | .stuck => none

/-- `X = pon_runtime:receive_msg_timeout(Arg)`. -/
def execTimeout (x : String) (arg : Expr) (p : Timed) : Result × Timed :=
  match argument arg with
  | none => (.stuck, p)
  | some v =>
    let p := { p with asked := some v }
    match callReceiveMsgTimeout v p.arrivals with
    | .error reason => (.raises reason p.proc, p)
    | .ok (.waits rest) =>
      let p := { p with arrivals := rest }
      (.waits p.proc, p)
    | .ok (.value msg rest) =>
      let p := { p with arrivals := rest }
      match p.env x with
      | none =>
        let p := { p with env := p.env.bind x msg }
        (.value msg p.proc, p)
      | some w =>
        if w = msg then (.value msg p.proc, p)
        else (.raises (.tuple [.atom "badmatch", msg]) p.proc, p)

/-- Execute one expression of the generated code. -/
def execTimed (S : Sem) : Expr → Timed → Result × Timed
  | .match _ (.var _ x) (.call _ (.remote _ (.atom _ "pon_runtime")
      (.atom _ "receive_msg_timeout")) [arg]), p => execTimeout x arg p
  | e, p =>
    let r := exec S e p.proc
    (r, (r.proc?.map p.follow).getD p)

/-- Execute a sequence; its value is that of the last expression. -/
def execTimedSeq (S : Sem) : List Expr → Timed → Result × Timed
  | [], p => (.stuck, p)
  | [e], p => execTimed S e p
  | e :: es, p =>
    match execTimed S e p with
    | (.value _ _, p) => execTimedSeq S es p
    | r => r

/-- The rewritten receive: the timeout it asks for, and how it ends. -/
def ponReceiveAfter (S : Sem) (clauses : List Clause) (T : Expr) (B : List Expr) (env : Env)
    (dict : Dict) (arrivals : List (ℕ × Term)) : Option (Option Term × Outcome) :=
  (buildPonReceive clauses (some (T, B))).map fun es =>
    let r := execTimedSeq S es ⟨env, dict, arrivals, none, none⟩
    (r.2.asked, r.1.outcome)

/-! ## Running it -/

theorem execTimedSeq_cons (S : Sem) (e e' : Expr) (es : List Expr) (p : Timed) :
    execTimedSeq S (e :: e' :: es) p =
      match execTimed S e p with
      | (.value _ _, p) => execTimedSeq S (e' :: es) p
      | r => r := rfl

theorem Timed.follow_proc {p : Timed} {q : Proc} (h : q.mailbox = messages p.arrivals) :
    (p.follow q).proc = q := by
  have hlen : p.arrivals.length - q.mailbox.length = 0 := by simp [h, messages]
  simp only [Timed.follow, Timed.proc, hlen, List.drop_zero, ← h]

/-- The dispatching `case` takes no message. -/
theorem exec_dispatch_mailbox {S : Sem} {clauses : List Clause} {q q' : Proc} {w : Term}
    (h : exec S (buildDispatch clauses) q = .value w q') : q'.mailbox = q.mailbox := by
  simp only [buildDispatch, msgVar, exec] at h
  split at h
  · cases h
  · split at h
    · cases h
    · split at h
      · cases h
        rfl
      · cases h

/-- Dispatch and clean-up do not look at the clock. -/
theorem execTimedSeq_dispatch (S : Sem) (clauses : List Clause) (p : Timed) :
    (execTimedSeq S [buildDispatch clauses, runtimeCall "unregister_premises" []] p).1 =
        execSeq S [buildDispatch clauses, runtimeCall "unregister_premises" []] p.proc ∧
      (execTimedSeq S [buildDispatch clauses, runtimeCall "unregister_premises" []] p).2.asked =
        p.asked := by
  have hd : execTimed S (buildDispatch clauses) p =
      (exec S (buildDispatch clauses) p.proc,
        ((exec S (buildDispatch clauses) p.proc).proc?.map p.follow).getD p) := rfl
  rw [execTimedSeq_cons, execSeq_cons, hd]
  cases hr : exec S (buildDispatch clauses) p.proc with
  | value w q =>
    have hq : (p.follow q).proc = q := Timed.follow_proc (exec_dispatch_mailbox hr)
    refine ⟨?_, rfl⟩
    change exec S (runtimeCall "unregister_premises" []) (p.follow q).proc = _
    rw [hq]
    rfl
  | waits q => exact ⟨rfl, rfl⟩
  | raises reason q => exact ⟨rfl, rfl⟩
  | away q => exact ⟨rfl, rfl⟩
  | stuck => exact ⟨rfl, rfl⟩

/-- The message the generated call answers with: the oldest one, if it is there already. -/
def waiting : List (ℕ × Term) → Option (Term × List (ℕ × Term))
  | (0, msg) :: rest => some (msg, rest)
  | _ => none

theorem callReceiveMsgTimeout_term (T : Expr) (arrivals : List (ℕ × Term)) :
    callReceiveMsgTimeout T.term arrivals =
      match waiting arrivals with
      | some (msg, rest) => .ok (.value msg rest)
      | none => .error timeoutValue := by
  rcases arrivals with _ | ⟨⟨_ | t, msg⟩, rest⟩ <;>
    simp only [callReceiveMsgTimeout, timeoutOf_term, waiting]

/-- `PonMsg = pon_runtime:receive_msg_timeout({integer, 0, T})`. -/
theorem execTimed_recv (S : Sem) (T : Expr) (env : Env) (dict : Dict)
    (arrivals : List (ℕ × Term)) :
    execTimed S (.match 0 msgVar (runtimeCall "receive_msg_timeout" [.integerOf 0 T]))
        ⟨env, dict, arrivals, none, none⟩ =
      match waiting arrivals with
      | some (msg, rest) =>
        if PonMsgFree env msg then
          (.value msg ⟨env.bind "PonMsg" msg, dict, messages rest, none⟩,
            ⟨env.bind "PonMsg" msg, dict, rest, none, some T.term⟩)
        else
          (.raises (.tuple [.atom "badmatch", msg]) ⟨env, dict, messages rest, none⟩,
            ⟨env, dict, rest, none, some T.term⟩)
      | none =>
        (.raises timeoutValue ⟨env, dict, messages arrivals, none⟩,
          ⟨env, dict, arrivals, none, some T.term⟩) := by
  change execTimeout "PonMsg" (.integerOf 0 T) ⟨env, dict, arrivals, none, none⟩ = _
  simp only [execTimeout, argument, callReceiveMsgTimeout_term]
  cases waiting arrivals with
  | none => rfl
  | some w =>
    obtain ⟨msg, rest⟩ := w
    dsimp only
    cases hx : env "PonMsg" with
    | none =>
      have hfree : PonMsgFree env msg := Or.inl hx
      rw [if_pos hfree]
      rfl
    | some w =>
      dsimp only
      by_cases hw : w = msg
      · subst hw
        have hfree : PonMsgFree env w := Or.inr hx
        rw [if_pos rfl, if_pos hfree, bind_of_eq hx]
        rfl
      · have hfree : ¬ PonMsgFree env msg := by
          rintro (h | h)
          · exact nomatch hx.symm.trans h
          · exact hw (Option.some.inj (hx.symm.trans h))
        rw [if_neg hw, if_neg hfree]
        rfl

/-- **The generated sequence, run.** It asks for the abstract format of the timeout. The
oldest message is dispatched if it is there already, and otherwise the call fails. -/
theorem ponReceiveAfter_eq (S : Sem) {clauses : List Clause} (h : OnePattern clauses) (T : Expr)
    (B : List Expr) (env : Env) (dict : Dict) (arrivals : List (ℕ × Term)) :
    ponReceiveAfter S clauses T B env dict arrivals =
      some (some T.term,
        match waiting arrivals with
        | some (msg, rest) =>
          dispatched S clauses env (registered clauses dict) msg (messages rest)
        | none => .raises timeoutValue (messages arrivals)) := by
  obtain ⟨e, hb, hv⟩ := buildPremiseList_eq h
  simp only [ponReceiveAfter, buildPonReceive, hb, Option.map_some, Option.some.injEq]
  have hexec : exec S (runtimeCall "register_premises" [e])
      ⟨env, dict, messages arrivals, none⟩ =
      .value okTerm ⟨env, registered clauses dict, messages arrivals, none⟩ := by
    simp only [runtimeCall, exec, execRuntime, hv]
    rfl
  have hreg : execTimed S (runtimeCall "register_premises" [e])
      ⟨env, dict, arrivals, none, none⟩ =
      (.value okTerm ⟨env, registered clauses dict, messages arrivals, none⟩,
        ⟨env, registered clauses dict, arrivals, none, none⟩) := by
    change (exec S (runtimeCall "register_premises" [e]) ⟨env, dict, messages arrivals, none⟩,
      ((exec S (runtimeCall "register_premises" [e])
        ⟨env, dict, messages arrivals, none⟩).proc?.map _).getD _) = _
    rw [hexec]
    simp [Result.proc?, Timed.follow, messages]
  rw [execTimedSeq_cons, hreg]
  dsimp only
  rw [execTimedSeq_cons, execTimed_recv]
  cases waiting arrivals with
  | none => rfl
  | some w =>
    obtain ⟨msg, rest⟩ := w
    dsimp only
    unfold dispatched
    by_cases hfree : PonMsgFree env msg
    · rw [if_pos hfree, if_pos hfree]
      obtain ⟨hrun, hasked⟩ := execTimedSeq_dispatch S clauses
        ⟨env.bind "PonMsg" msg, registered clauses dict, rest, none, some T.term⟩
      dsimp only
      rw [hrun, hasked]
      refine congrArg (Prod.mk _) ?_
      exact exec_dispatch S clauses ⟨env.bind "PonMsg" msg, _, messages rest, none⟩
        (bind_self env "PonMsg" msg)
    · rw [if_neg hfree, if_neg hfree]
      rfl

/-! ## The comparison -/

/-- What the transform owes the program. The generated code has no `after` body, so where
that is due nothing will do. -/
def SameAfter : AfterOutcome → Outcome → Prop
  | .received o, o' => SameOutcome o o'
  | .timedOut _ _, _ => False

/-- The rewritten receive asks for the value of `T`, and does what the stock receive does. -/
def PreservesAfter (S : Sem) (clauses : List Clause) (T : Expr) (B : List Expr) (env : Env)
    (dict : Dict) (arrivals : List (ℕ × Term)) : Prop :=
  ∃ v o, S.body [T] env dict (messages arrivals) = some v ∧
    ponReceiveAfter S clauses T B env dict arrivals = some (some v, o) ∧
    SameAfter (stockReceiveAfter S clauses v B env dict arrivals) o

theorem not_sameAfter_raises {a : AfterOutcome} {reason : Term} {mailbox : List Term} :
    ¬ SameAfter a (.raises reason mailbox) := by
  rcases a with o | _
  · cases o <;> exact id
  · exact id

/-- The timeout asked for is the abstract format of `T`, whatever `T` is. -/
theorem asked_eq {S : Sem} {clauses : List Clause} {T : Expr} {B : List Expr} {env : Env}
    {dict : Dict} {arrivals : List (ℕ × Term)} {asked : Option Term} {o : Outcome}
    (h : ponReceiveAfter S clauses T B env dict arrivals = some (asked, o)) :
    asked = some T.term := by
  obtain ⟨es, hes, -⟩ := Option.map_eq_some_iff.mp h
  rw [ponReceiveAfter_eq S (onePattern_of_build hes)] at h
  cases h
  rfl

/-- **No receive with a timeout is rewritten faithfully.** `T` is an expression that has a
timeout for its value. -/
theorem after_never_preserved (S : Sem) (clauses : List Clause) (T : Expr) (B : List Expr)
    (env : Env) (dict : Dict) (arrivals : List (ℕ × Term)) (v : Term) (timeout : Timeout)
    (hv : S.body [T] env dict (messages arrivals) = some v)
    (htimeout : timeoutOf v = some timeout) :
    ¬ PreservesAfter S clauses T B env dict arrivals := by
  rintro ⟨w, o, hw, hrun, -⟩
  obtain rfl : v = w := Option.some.inj (hv.symm.trans hw)
  have hterm : v = T.term := Option.some.inj (asked_eq hrun)
  rw [hterm, timeoutOf_term] at htimeout
  exact nomatch htimeout

/-- `receive {ping, X} -> ok after 10 -> done end`, with nothing in the mailbox and `{ping, 1}`
after 3 ms. -/
theorem ping_after_not_preserved :
    ¬ PreservesAfter literalSem pingClauses (.integer 1 10) [.atom 1 "done"] (fun _ => none) none
      [(3, .tuple [.atom "ping", .int 1])] :=
  after_never_preserved literalSem pingClauses (.integer 1 10) [.atom 1 "done"] (fun _ => none)
    none [(3, .tuple [.atom "ping", .int 1])] (.int 10) (.ms 10) rfl rfl

/-- The same program, and no message for the whole 10 ms: the stock receive yields `done`,
while the generated code asks for the timeout `{integer, 1, 10}` and fails. -/
theorem ping_after_fails :
    literalSem.body [.integer 1 10] (fun _ => none) none [] = some (.int 10) ∧
    stockReceiveAfter literalSem pingClauses (.int 10) [.atom 1 "done"] (fun _ => none) none [] =
      .timedOut (some (.atom "done")) [] ∧
    ponReceiveAfter literalSem pingClauses (.integer 1 10) [.atom 1 "done"] (fun _ => none) none
      [] = some (some (.tuple [.atom "integer", .int 1, .int 10]), .raises timeoutValue []) ∧
    ¬ PreservesAfter literalSem pingClauses (.integer 1 10) [.atom 1 "done"] (fun _ => none) none
      [] := by
  have hrun : ponReceiveAfter literalSem pingClauses (.integer 1 10) [.atom 1 "done"]
      (fun _ => none) none [] =
        some (some (.tuple [.atom "integer", .int 1, .int 10]), .raises timeoutValue []) := rfl
  refine ⟨rfl, rfl, hrun, ?_⟩
  rintro ⟨v, o, -, ho, hsame⟩
  obtain ⟨-, rfl⟩ := Prod.mk.inj (Option.some.inj (hrun.symm.trans ho))
  exact not_sameAfter_raises hsame

end PonBeam.Receive
