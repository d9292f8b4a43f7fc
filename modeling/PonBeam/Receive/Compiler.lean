import PonBeam.Receive.Runtime

/-!
# The parse transform (`pon_compiler.erl`)

Erlang's abstract format as an inductive type, and every function of the transform
over it. The transform sometimes builds what is not abstract code, and its clauses
sometimes ask for tuples the format does not have; four constructors at the end of
`Expr` stand for these, so that nothing has to be left out. A clause of a `receive`
with other than one pattern makes `build_premise_list` fail (`function_clause`),
which is `none`.
-/

namespace PonBeam.Receive

mutual

/-- An expression or pattern in abstract format, with its line. -/
inductive Expr : Type where
  /-- `{atom, L, A}` -/
  | atom (line : ℕ) (name : String)
  /-- `{integer, L, I}` -/
  | integer (line : ℕ) (value : ℤ)
  /-- `{float, L, F}` -/
  | float (line : ℕ) (bits : ℕ)
  /-- `{char, L, C}` -/
  | char (line : ℕ) (code : ℕ)
  /-- `{string, L, S}` -/
  | string (line : ℕ) (codes : List ℕ)
  /-- `{var, L, V}` -/
  | var (line : ℕ) (name : String)
  /-- `{tuple, L, Es}` -/
  | tuple (line : ℕ) (es : List Expr)
  /-- `{cons, L, H, T}` -/
  | cons (line : ℕ) (hd tl : Expr)
  /-- `{nil, L}` -/
  | nil (line : ℕ)
  /-- `{match, L, P, E}` -/
  | «match» (line : ℕ) (pat e : Expr)
  /-- `{call, L, F, As}` -/
  | call (line : ℕ) (f : Expr) (args : List Expr)
  /-- `{remote, L, M, F}` -/
  | remote (line : ℕ) (m f : Expr)
  /-- `{'case', L, E, Cs}` -/
  | case (line : ℕ) (e : Expr) (clauses : List Clause)
  /-- `{'if', L, Cs}` -/
  | «if» (line : ℕ) (clauses : List Clause)
  /-- `{'receive', L, Cs}` -/
  | receive (line : ℕ) (clauses : List Clause)
  /-- `{'receive', L, Cs, After, AfterBody}` -/
  | receiveAfter (line : ℕ) (clauses : List Clause) (after : Expr) (afterBody : List Expr)
  /-- any other expression, with its parts: operators, funs, `try`, blocks, maps .. -/
  | other (line : ℕ) (kind : String) (subs : List Expr) (clauses : List Clause)
  /-- not abstract code: `{integer, L, E}` with an expression for a value -/
  | integerOf (line : ℕ) (e : Expr)
  /-- not abstract code: a list where one expression belongs -/
  | seq (es : List Expr)
  /-- not abstract code: `{remote, M, F}`, without a line -/
  | bareRemote (m f : Expr)
  /-- not abstract code: `{atom, F}`, without a line -/
  | bareAtom (name : String)

/-- `{clause, L, Pats, Guards, Body}` -/
inductive Clause : Type where
  /-- the four parts -/
  | mk (line : ℕ) (pats : List Expr) (guards : List (List Expr)) (body : List Expr)

end

/-- The patterns of a clause. -/
def Clause.pats : Clause → List Expr
  | .mk _ pats _ _ => pats

/-- A form of a module. -/
inductive Form : Type where
  /-- `{attribute, L, Name, Value}` -/
  | attribute (line : ℕ) (name : String) (value : Term)
  /-- `{function, L, Name, Arity, Cs}` -/
  | function (line : ℕ) (name : String) (arity : ℕ) (clauses : List Clause)
  /-- any other form -/
  | other (kind : String)

/-! ## Premises from patterns -/

mutual

/-- `pat_to_term`: a variable becomes the atom `'_'`, and whatever is neither a literal
atom or integer nor built from tuples and lists becomes `pon_complex`. -/
def patToTerm : Expr → Expr
  | .atom _ a => .atom 0 a
  | .integer _ i => .integer 0 i
  | .tuple _ es => .tuple 0 (patsToTerms es)
  | .cons _ h t => .cons 0 (patToTerm h) (patToTerm t)
  | .nil _ => .nil 0
  | .var _ _ => .atom 0 "_"
  | .match _ p _ => patToTerm p
  | _ => .atom 0 "pon_complex"

/-- `[pat_to_term(0, E) || E <- Es]` -/
def patsToTerms : List Expr → List Expr
  | [] => []
  | e :: es => patToTerm e :: patsToTerms es

end

/-- `list_to_ast`. -/
def listToAst : List Expr → Expr
  | [] => .nil 0
  | h :: t => .cons 0 h (listToAst t)

/-- The premise of one clause, `{Pat, true, 0}`. -/
def premiseOf : Clause → Option Expr
  | .mk _ [pat] _ _ => some (.tuple 0 [patToTerm pat, .atom 0 "true", .integer 0 0])
  | _ => none

/-- `build_premise_list`. -/
def buildPremiseList (clauses : List Clause) : Option Expr :=
  (clauses.mapM premiseOf).map listToAst

/-! ## The generated code -/

/-- `{call, 0, {remote, 0, {atom, 0, pon_runtime}, {atom, 0, F}}, As}` -/
def runtimeCall (f : String) (args : List Expr) : Expr :=
  .call 0 (.remote 0 (.atom 0 "pon_runtime") (.atom 0 f)) args

/-- The variable `PonMsg`. -/
def msgVar : Expr := .var 0 "PonMsg"

/-- `build_dispatch`: the clauses themselves, as a `case` on the message. -/
def buildDispatch (clauses : List Clause) : Expr := .case 0 msgVar clauses

/-- `build_pon_receive`. -/
def buildPonReceive (clauses : List Clause) (after : Option (Expr × List Expr)) :
    Option (List Expr) :=
  match buildPremiseList clauses with
  | none => none
  | some premiseList =>
    let register := runtimeCall "register_premises" [premiseList]
    let recv := match after with
      | none => Expr.match 0 msgVar (runtimeCall "receive_msg" [])
      | some (afterMs, _afterBody) =>
        Expr.match 0 msgVar (runtimeCall "receive_msg_timeout" [.integerOf 0 afterMs])
    let dispatch := buildDispatch clauses
    let unreg := runtimeCall "unregister_premises" []
    some [register, recv, dispatch, unreg]

/-! ## The walk -/

mutual

/-- `walk_expr`. A `receive` here becomes a list, not an expression; the two `call`
clauses ask for tuples without a line. -/
def walkExpr : Expr → Option Expr
  | .call l (.bareRemote m f) as => do
    return .call l (.bareRemote (← walkExpr m) (← walkExpr f)) (← walkExprs as)
  | .call l (.bareAtom f) as => do return .call l (.bareAtom f) (← walkExprs as)
  | .tuple l es => do return .tuple l (← walkExprs es)
  | .cons l h t => do return .cons l (← walkExpr h) (← walkExpr t)
  | .match l p e => do return .match l (← walkExpr p) (← walkExpr e)
  | .case l e cs => do return .case l (← walkExpr e) (← transformClauses cs)
  | .if l cs => do return .if l (← transformClauses cs)
  | .receive _ cs => do return .seq (← buildPonReceive cs none)
  | .receiveAfter _ cs a ab => do return .seq (← buildPonReceive cs (some (a, ab)))
  | e => some e

/-- `[walk_expr(E) || E <- Es]` -/
def walkExprs : List Expr → Option (List Expr)
  | [] => some []
  | e :: es => do return (← walkExpr e) :: (← walkExprs es)

/-- `transform_body`. -/
def transformBody : List Expr → Option (List Expr)
  | [] => some []
  | .receive _ cs :: rest => do return (← buildPonReceive cs none) ++ (← transformBody rest)
  | .receiveAfter _ cs a ab :: rest => do
    return (← buildPonReceive cs (some (a, ab))) ++ (← transformBody rest)
  | h :: rest => do return (← walkExpr h) :: (← transformBody rest)

/-- `transform_clause`. -/
def transformClause : Clause → Option Clause
  | .mk l args gs body => do return .mk l args gs (← transformBody body)

/-- `transform_clauses`. -/
def transformClauses : List Clause → Option (List Clause)
  | [] => some []
  | c :: cs => do return (← transformClause c) :: (← transformClauses cs)

end

/-- `do_transform`. -/
def doTransform : List Form → Option (List Form)
  | [] => some []
  | .attribute line "module" name :: rest => do
    return .attribute line "module" name ::
      .attribute line "compile" (.tuple [.atom "parse_transform", .atom "pon_compiler"]) ::
      (← doTransform rest)
  | .function l n a cs :: rest => do
    return .function l n a (← transformClauses cs) :: (← doTransform rest)
  | form :: rest => do return form :: (← doTransform rest)

end PonBeam.Receive
