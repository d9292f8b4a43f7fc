import PonBeam.Receive.Compiler

/-!
# What a `receive` means, before and after the transform

The stock meaning of a `receive` without `after` (`stockReceive`): the oldest message
that some clause takes, in the order of the clauses, and the body of that clause. And
an interpreter for the four expressions `build_pon_receive` puts in its place
(`execSeq`), which calls the functions of `pon_runtime`.

Patterns built from literals, variables, tuples, lists and aliases are matched here.
The rest of the language is a parameter (`Sem`): the other patterns (maps, binaries,
records), guard expressions, and what a clause body goes on to do from the bindings,
the process dictionary and the mailbox it starts with.
-/

namespace PonBeam.Receive

/-- Variable bindings. -/
abbrev Env : Type := String → Option Term

/-- One more binding. -/
def Env.bind (env : Env) (x : String) (v : Term) : Env := fun y => if y = x then some v else env y

/-- The meaning of what is not modelled: patterns of other shapes, guards, and clause
bodies. A body has no value when it raises or never returns. -/
structure Sem where
  /-- patterns of other shapes -/
  otherPat : Expr → Env → Term → Option Env
  /-- a guard sequence -/
  guard : List (List Expr) → Env → Bool
  /-- a clause body -/
  body : List Expr → Env → Dict → List Term → Option Term

/-! ## Patterns and clauses -/

/-- A string is a list of integers. -/
def stringTerm : List ℕ → Term
  | [] => .nil
  | c :: cs => .cons (.int c) (stringTerm cs)

mutual

/-- Match a pattern: the bindings afterwards. A bound variable has to agree. -/
def matchPat (S : Sem) : Expr → Env → Term → Option Env
  | .atom _ a, env, v => if v = .atom a then some env else none
  | .integer _ i, env, v => if v = .int i then some env else none
  | .float _ x, env, v => if v = .float x then some env else none
  | .char _ c, env, v => if v = .int c then some env else none
  | .string _ cs, env, v => if v = stringTerm cs then some env else none
  | .var _ x, env, v =>
    if x = "_" then some env
    else
      match env x with
      | none => some (env.bind x v)
      | some w => if w = v then some env else none
  | .tuple _ es, env, .tuple vs => matchPats S es env vs
  | .tuple _ _, _, _ => none
  | .cons _ h t, env, .cons v w => (matchPat S h env v).bind fun env => matchPat S t env w
  | .cons _ _ _, _, _ => none
  | .nil _, env, v => if v = .nil then some env else none
  | .match _ p q, env, v => (matchPat S p env v).bind fun env => matchPat S q env v
  | e, env, v => S.otherPat e env v

/-- Match the elements of a tuple. -/
def matchPats (S : Sem) : List Expr → Env → List Term → Option Env
  | [], env, [] => some env
  | e :: es, env, v :: vs => (matchPat S e env v).bind fun env => matchPats S es env vs
  | _, _, _ => none

end

/-- A clause that was chosen: its number, the bindings, and its body. -/
structure Chosen where
  /-- the number of the clause -/
  clause : ℕ
  /-- the bindings its body starts with -/
  env : Env
  /-- its body -/
  body : List Expr

/-- The first clause, counted from `i`, whose pattern matches and whose guard holds. -/
def selectClause (S : Sem) : ℕ → List Clause → Env → Term → Option Chosen
  | _, [], _, _ => none
  | i, .mk _ [pat] guards body :: rest, env, msg =>
    match matchPat S pat env msg with
    | none => selectClause S (i + 1) rest env msg
    | some env' =>
      if guards.isEmpty || S.guard guards env' then some ⟨i, env', body⟩
      else selectClause S (i + 1) rest env msg
  | i, _ :: rest, env, msg => selectClause S (i + 1) rest env msg

/-! ## The stock receive -/

/-- A clause body as it was started. -/
structure Started where
  /-- the clause and its bindings -/
  chosen : Chosen
  /-- the message it was chosen for -/
  msg : Term
  /-- the mailbox at that point -/
  mailbox : List Term

/-- How a `receive` ends. -/
inductive Outcome : Type where
  /-- it waits for ever -/
  | waits (mailbox : List Term)
  /-- it fails before a clause body is started -/
  | raises (reason : Term) (mailbox : List Term)
  /-- a clause body is started; the value of the whole, if there is one -/
  | ran (started : Started) (value : Option Term)
  /-- not code the interpreter knows -/
  | stuck

/-- The stock receive, with the messages it has gone past. -/
def stockScan (S : Sem) (clauses : List Clause) (env : Env) (dict : Dict) :
    List Term → List Term → Outcome
  | skipped, [] => .waits skipped
  | skipped, msg :: rest =>
    match selectClause S 0 clauses env msg with
    | some c =>
      .ran ⟨c, msg, skipped ++ rest⟩ (S.body c.body c.env dict (skipped ++ rest))
    | none => stockScan S clauses env dict (skipped ++ [msg]) rest

/-- `receive Clauses end` over the delivered messages. -/
def stockReceive (S : Sem) (clauses : List Clause) (env : Env) (dict : Dict)
    (delivered : List Term) : Outcome :=
  stockScan S clauses env dict [] delivered

/-! ## The generated code -/

/-- A process running generated code. -/
structure Proc where
  /-- its variables -/
  env : Env
  /-- its premises -/
  dict : Dict
  /-- the messages it has not taken -/
  mailbox : List Term
  /-- the clause body it has started -/
  started : Option Started

/-- How an expression of the generated code ends. -/
inductive Result : Type where
  /-- with a value -/
  | value (v : Term) (p : Proc)
  /-- waiting for a message that never comes -/
  | waits (p : Proc)
  /-- with an exception -/
  | raises (reason : Term) (p : Proc)
  /-- in a clause body that does not return -/
  | away (p : Proc)
  /-- not code the interpreter knows -/
  | stuck

mutual

/-- The value of a literal expression. -/
def literal : Expr → Option Term
  | .atom _ a => some (.atom a)
  | .integer _ i => some (.int i)
  | .float _ x => some (.float x)
  | .char _ c => some (.int c)
  | .string _ cs => some (stringTerm cs)
  | .nil _ => some .nil
  | .cons _ h t => (literal h).bind fun v => (literal t).map (.cons v)
  | .tuple _ es => (literals es).map .tuple
  | _ => none

/-- The values of a list of literal expressions. -/
def literals : List Expr → Option (List Term)
  | [] => some []
  | e :: es => (literal e).bind fun v => (literals es).map (v :: ·)

end

/-- The elements of a proper list. -/
def listElems : Term → Option (List Term)
  | .nil => some []
  | .cons h t => (listElems t).map (h :: ·)
  | _ => none

/-- `ok` -/
def okTerm : Term := .atom "ok"

/-- A call of a function of `pon_runtime`. -/
def execRuntime (f : String) (args : List Expr) (p : Proc) : Result :=
  match f, args with
  | "register_premises", [arg] =>
    match (literal arg).bind listElems with
    | some patterns => .value okTerm { p with dict := registerPremises patterns p.dict }
    | none => .stuck
  | "receive_msg", [] =>
    match receiveMsg p.dict p.mailbox with
    | .value v mailbox => .value v { p with mailbox := mailbox }
    | .waits mailbox => .waits { p with mailbox := mailbox }
  | "unregister_premises", [] =>
    .value okTerm { p with dict := unregisterPremises p.dict }
  | _, _ => .stuck

/-- Execute one expression of the generated code. -/
def exec (S : Sem) : Expr → Proc → Result
  | .call _ (.remote _ (.atom _ "pon_runtime") (.atom _ f)) args, p => execRuntime f args p
  | .match _ (.var _ x) e, p =>
    match exec S e p with
    | .value v p =>
      match p.env x with
      | none => .value v { p with env := p.env.bind x v }
      | some w =>
        if w = v then .value v p else .raises (.tuple [.atom "badmatch", v]) p
    | r => r
  | .case _ (.var _ x) clauses, p =>
    match p.env x with
    | none => .stuck
    | some v =>
      match selectClause S 0 clauses p.env v with
      | none => .raises (.tuple [.atom "case_clause", v]) p
      | some c =>
        let p' := { p with env := c.env, started := some ⟨c, v, p.mailbox⟩ }
        match S.body c.body c.env p.dict p.mailbox with
        | some w => .value w p'
        | none => .away p'
  | _, _ => .stuck

/-- Execute a sequence; its value is that of the last expression. -/
def execSeq (S : Sem) : List Expr → Proc → Result
  | [], _ => .stuck
  | [e], p => exec S e p
  | e :: es, p =>
    match exec S e p with
    | .value _ p => execSeq S es p
    | r => r

/-- What a run of the generated code shows. -/
def Result.outcome : Result → Outcome
  | .value v p =>
    match p.started with
    | some s => .ran s (some v)
    | none => .stuck
  | .waits p => .waits p.mailbox
  | .raises reason p => .raises reason p.mailbox
  | .away p =>
    match p.started with
    | some s => .ran s none
    | none => .stuck
  | .stuck => .stuck

/-- The rewritten receive over the delivered messages. -/
def ponReceive (S : Sem) (clauses : List Clause) (env : Env) (dict : Dict)
    (delivered : List Term) : Option Outcome :=
  (buildPonReceive clauses none).map fun es => (execSeq S es ⟨env, dict, delivered, none⟩).outcome

end PonBeam.Receive
