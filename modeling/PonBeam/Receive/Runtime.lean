import Mathlib.Data.Int.Notation
import Mathlib.Data.Nat.Notation
import Mathlib.Data.List.Basic

/-!
# The premise runtime (`pon_runtime.erl`)

Erlang terms, and the functions of `pon_runtime` over them. A process is what the
runtime sees of it: the list stored under `{pon_premises, Pid}` in its dictionary,
if any, and the messages delivered to it, oldest first. A blocking `receive` takes
the next message whether it is already in the mailbox or still to come, so the
delivered sequence holds both.
-/

namespace PonBeam.Receive

/-! ## Terms -/

/-- An Erlang term. Floats are their bit patterns; `other` stands for the terms the
runtime only ever compares (pids, references, funs, maps, binaries). -/
inductive Term : Type where
  /-- an atom -/
  | atom (name : String)
  /-- an integer -/
  | int (n : ℤ)
  /-- a float -/
  | float (bits : ℕ)
  /-- `[]` -/
  | nil
  /-- `[hd | tl]` -/
  | cons (hd tl : Term)
  /-- a tuple -/
  | tuple (elems : List Term)
  /-- anything else -/
  | other (tag : ℕ)
  deriving Repr

mutual

/-- `=:=` -/
def Term.beq : Term → Term → Bool
  | .atom a, .atom b => a == b
  | .int m, .int n => m == n
  | .float x, .float y => x == y
  | .nil, .nil => true
  | .cons h t, .cons h' t' => h.beq h' && t.beq t'
  | .tuple es, .tuple es' => Term.beqList es es'
  | .other i, .other j => i == j
  | _, _ => false

/-- `=:=` on the elements of two tuples -/
def Term.beqList : List Term → List Term → Bool
  | [], [] => true
  | a :: as, b :: bs => a.beq b && Term.beqList as bs
  | _, _ => false

end

mutual

theorem Term.beq_iff (a b : Term) : a.beq b = true ↔ a = b := by
  cases a <;> cases b <;> simp [Term.beq]
  case cons.cons h t h' t' => rw [Term.beq_iff h h', Term.beq_iff t t']
  case tuple.tuple es es' => rw [Term.beqList_iff es es']

theorem Term.beqList_iff (as bs : List Term) : Term.beqList as bs = true ↔ as = bs := by
  cases as <;> cases bs <;> simp [Term.beqList]
  case cons.cons a as b bs => rw [Term.beq_iff a b, Term.beqList_iff as bs]

end

instance : DecidableEq Term := fun a b => decidable_of_iff _ (Term.beq_iff a b)

/-! ## Premises -/

/-- A registered premise, `{Pattern, Idx}`. -/
abbrev Premise : Type := Term × Term

/-- The entry `{pon_premises, Pid}` of the process dictionary, or `undefined`. -/
abbrev Dict : Type := Option (List Premise)

/-- `match_pattern`: equal terms match; tuples of 0, 2, 3 and 4 elements and list cells
match part by part; an atom is a wildcard. -/
def matchPattern (pat term : Term) : Bool :=
  if pat = term then true
  else
    match pat, term with
    | .tuple [], .tuple [] => true
    | .tuple [patA, patB], .tuple [termA, termB] =>
      matchPattern patA termA && matchPattern patB termB
    | .tuple [patA, patB, patC], .tuple [termA, termB, termC] =>
      matchPattern patA termA && matchPattern patB termB && matchPattern patC termC
    | .tuple [patA, patB, patC, patD], .tuple [termA, termB, termC, termD] =>
      matchPattern patA termA && matchPattern patB termB && matchPattern patC termC &&
        matchPattern patD termD
    | .cons p₁ p₂, .cons t₁ t₂ => matchPattern p₁ t₁ && matchPattern p₂ t₂
    | .nil, .nil => true
    | .atom _, _ => true
    | .int _, _ => false
    | .float _, _ => false
    | pat, term => decide (pat = term)

theorem matchPattern_self (p : Term) : matchPattern p p = true := by
  rw [matchPattern.eq_def, if_pos rfl]

theorem matchPattern_atom (a : String) (v : Term) : matchPattern (.atom a) v = true := by
  rw [matchPattern]
  split
  · rfl
  · rfl

/-- `match_any`: the index of the first premise that matches. -/
def matchAny : List Premise → Term → Option Term
  | [], _ => none
  | (pat, idx) :: rest, msg => if matchPattern pat msg then some idx else matchAny rest msg

/-- `register_premise`: in front of what is stored already. -/
def registerPremise (pattern idx : Term) (dict : Dict) : Dict :=
  some ((pattern, idx) :: dict.getD [])

/-- `register_premises`: its generator keeps the `{Pat, Guard, Idx}` triples. -/
def registerPremises : List Term → Dict → Dict
  | [], dict => dict
  | .tuple [pat, _guard, idx] :: rest, dict => registerPremises rest (registerPremise pat idx dict)
  | _ :: rest, dict => registerPremises rest dict

/-- `unregister_premises`. -/
def unregisterPremises (_dict : Dict) : Dict := none

/-! ## Receiving -/

/-- How a call that takes messages from `μ`s ends: with a value and what is left to be
received, or waiting for a message that never comes. -/
inductive Received (μ : Type) : Type where
  /-- it returned -/
  | value (v : Term) (mailbox : List μ)
  /-- it waits -/
  | waits (mailbox : List μ)
  deriving DecidableEq, Repr

/-- `receive_msg_loop(Premises, Msg)`, with the messages still to be taken. -/
def receiveMsgLoop (premises : List Premise) : Term → List Term → Received Term
  | .atom "timeout", mailbox => .value (.atom "timeout") mailbox
  | msg, mailbox =>
    match matchAny premises msg with
    | some _ => .value msg mailbox
    | none =>
      match mailbox with
      | [] => .waits []
      | next :: mailbox => receiveMsgLoop premises next mailbox

/-- `receive_msg`. -/
def receiveMsg (dict : Dict) (mailbox : List Term) : Received Term :=
  match mailbox with
  | [] => .waits []
  | msg :: mailbox => receiveMsgLoop (dict.getD []) msg mailbox

/-- A timeout value of `receive .. after`. -/
inductive Timeout : Type where
  /-- wait for ever -/
  | infinity
  /-- milliseconds -/
  | ms (n : ℕ)
  deriving DecidableEq, Repr

/-- A message that arrives `t` milliseconds into the wait (0: it was there already) is
still seen. -/
def Timeout.covers : Timeout → ℕ → Bool
  | .infinity, _ => true
  | .ms n, t => decide (t ≤ n)

/-- `receive_msg_timeout`, over the messages in order of arrival, each with its time. -/
def receiveMsgTimeout (timeoutMs : Timeout) (arrivals : List (ℕ × Term)) :
    Received (ℕ × Term) :=
  match timeoutMs, arrivals with
  | .infinity, [] => .waits []
  | .ms _, [] => .value (.atom "timeout") []
  | timeoutMs, (t, msg) :: rest =>
    if timeoutMs.covers t then .value msg rest
    else .value (.atom "timeout") ((t, msg) :: rest)

end PonBeam.Receive
