import PonBeam.Lib.System
import PonBeam.Receive.Rewrite

/-!
# Whose premises are stored

A process that runs rewritten receives, as a system. What surrounds the generated code
decides when a receive is entered, which messages are delivered and when an exception
is raised and how far it goes; what the generated code does is executed expression by
expression. Receives nest through the clause bodies, which may call any function, while
an exception leaves the receives it goes through without their `unregister_premises`.

`register_premises` adds to what is stored and `unregister_premises` erases all of it, so
what is stored at any time are the premises of the receives registered since the last
`unregister_premises` (`pending`), finished or not.
-/

namespace PonBeam.Receive

/-! ## The machine -/

/-- A rewritten receive that has been entered. -/
structure Frame where
  /-- its clauses -/
  clauses : List Clause
  /-- the generated expressions not executed yet; the first one may be under way -/
  todo : List Expr

/-- A process. -/
structure Machine where
  /-- its premises -/
  dict : Dict
  /-- the messages it has not taken -/
  mailbox : List Term
  /-- the receives it is in, innermost first -/
  frames : List Frame
  /-- history: the receives registered since the last `unregister_premises` -/
  pending : List (List Clause)

/-- What may happen next. -/
inductive Event : Type where
  /-- a message is delivered -/
  | deliver (msg : Term)
  /-- a receive is entered -/
  | enter (clauses : List Clause) (after : Option (Expr × List Expr))
  /-- the innermost receive executes its next expression -/
  | advance
  /-- an exception leaves the `n` innermost receives -/
  | raise (n : ℕ)

/-- The innermost receive is in a clause body. -/
def Frame.inBody (f : Frame) : Bool :=
  match f.todo with
  | .case _ _ _ :: _ => true
  | _ => false

/-- The next expression is the call that receives. -/
def Frame.atReceive (f : Frame) : Bool :=
  match f.todo with
  | .match _ _ (.call _ (.remote _ (.atom _ "pon_runtime") (.atom _ f)) _) :: _ =>
    f == "receive_msg" || f == "receive_msg_timeout"
  | _ => false

/-- A call of a function of `pon_runtime`: the premises and the mailbox afterwards.
`receive_msg_timeout` takes the oldest message, whatever the premises. -/
def runRuntime (f : String) (args : List Expr) (dict : Dict) (mailbox : List Term) :
    Option (Dict × List Term) :=
  if f = "receive_msg_timeout" then mailbox.tail?.map (dict, ·)
  else
    match execRuntime f args ⟨fun _ => none, dict, mailbox, none⟩ with
    | .value _ p => some (p.dict, p.mailbox)
    | _ => none

/-- Execute an expression. A clause body has done what it does by the time the `case` is
over. -/
def runExpr : Expr → Dict → List Term → Option (Dict × List Term)
  | .match _ _ e, dict, mailbox => runExpr e dict mailbox
  | .call _ (.remote _ (.atom _ "pon_runtime") (.atom _ f)) args, dict, mailbox =>
    runRuntime f args dict mailbox
  | .case _ _ _, dict, mailbox => some (dict, mailbox)
  | _, _, _ => none

/-- The history after an expression of a receive with these clauses. -/
def runPending (clauses : List Clause) : Expr → List (List Clause) → List (List Clause)
  | .call _ (.remote _ (.atom _ "pon_runtime") (.atom _ "register_premises")) _, pending =>
    clauses :: pending
  | .call _ (.remote _ (.atom _ "pon_runtime") (.atom _ "unregister_premises")) _, _ => []
  | _, pending => pending

/-- One step. -/
def Machine.next (s : Machine) : Event → Option Machine
  | .deliver msg => some { s with mailbox := s.mailbox ++ [msg] }
  | .enter clauses after =>
    if s.frames.head?.all Frame.inBody then
      (buildPonReceive clauses after).map fun es =>
        { s with frames := ⟨clauses, es⟩ :: s.frames }
    else none
  | .advance =>
    match s.frames with
    | ⟨clauses, e :: es⟩ :: frames =>
      (runExpr e s.dict s.mailbox).map fun (dict, mailbox) =>
        ⟨dict, mailbox, if es.isEmpty then frames else ⟨clauses, es⟩ :: frames,
          runPending clauses e s.pending⟩
    | _ => none
  | .raise n =>
    if 0 < n ∧ n ≤ s.frames.length then some { s with frames := s.frames.drop n } else none

/-- Every run of every rewritten program. -/
def scopeSystem : System Machine Event where
  init s := s.dict = none ∧ s.frames = [] ∧ s.pending = []
  step s a s' := s.next a = some s'

/-! ## The generated expressions -/

/-- The premises of a receive. -/
def ownPremises (clauses : List Clause) : List Premise :=
  clauses.map fun c => (patTerm c.pat, .int 0)

/-- The premises that are stored. -/
def Machine.stored (s : Machine) : List Premise := s.dict.getD []

theorem registered_getD (clauses : List Clause) (dict : Dict) :
    (registered clauses dict).getD [] = (ownPremises clauses).reverse ++ dict.getD [] := by
  induction clauses generalizing dict with
  | nil => rfl
  | cons c clauses ih =>
    have hreg : registered (c :: clauses) dict =
        registered clauses (registerPremise (patTerm c.pat) (.int 0) dict) := rfl
    rw [hreg, ih]
    simp [ownPremises, registerPremise]

/-- The call that receives. -/
def IsReceive (e : Expr) : Prop :=
  ∃ f args, e = .match 0 msgVar (runtimeCall f args) ∧
    (f = "receive_msg" ∧ args = [] ∨ f = "receive_msg_timeout")

/-- `k` of the generated expressions have been executed. -/
def Frame.At (f : Frame) (k : ℕ) : Prop :=
  ∃ e recv, (literal e).bind listElems = some (f.clauses.map premiseTerm) ∧ IsReceive recv ∧
    f.todo = [runtimeCall "register_premises" [e], recv, buildDispatch f.clauses,
      runtimeCall "unregister_premises" []].drop k

theorem at_zero_of_build {clauses : List Clause} {after : Option (Expr × List Expr)}
    {es : List Expr} (h : buildPonReceive clauses after = some es) :
    Frame.At ⟨clauses, es⟩ 0 := by
  obtain ⟨e, hb, hv⟩ := buildPremiseList_eq (onePattern_of_build h)
  simp only [buildPonReceive, hb, Option.some.injEq] at h
  cases after with
  | none => exact ⟨e, _, hv, ⟨_, _, rfl, Or.inl ⟨rfl, rfl⟩⟩, h.symm⟩
  | some a => exact ⟨e, _, hv, ⟨_, _, rfl, Or.inr rfl⟩, h.symm⟩

theorem runExpr_register {clauses : List Clause} {e : Expr} (dict : Dict) (mailbox : List Term)
    (h : (literal e).bind listElems = some (clauses.map premiseTerm)) :
    runExpr (runtimeCall "register_premises" [e]) dict mailbox =
      some (registered clauses dict, mailbox) := by
  change runRuntime "register_premises" [e] dict mailbox = _
  rw [runRuntime, if_neg (by simp)]
  simp only [execRuntime, h]
  rfl

/-- Receiving takes messages and leaves the premises. -/
theorem runExpr_receive {recv : Expr} {dict dict' : Dict} {mailbox mailbox' : List Term}
    (hrecv : IsReceive recv) (h : runExpr recv dict mailbox = some (dict', mailbox')) :
    dict' = dict := by
  obtain ⟨f, args, rfl, ⟨rfl, rfl⟩ | rfl⟩ := hrecv
  · change runRuntime "receive_msg" [] dict mailbox = _ at h
    rw [runRuntime, if_neg (by simp)] at h
    simp only [execRuntime] at h
    cases hr : receiveMsg dict mailbox with
    | value v rest =>
      rw [hr] at h
      cases h
      rfl
    | waits rest =>
      rw [hr] at h
      cases h
  · change runRuntime "receive_msg_timeout" args dict mailbox = _ at h
    obtain ⟨rest, -, hrest⟩ := Option.map_eq_some_iff.mp h
    cases hrest
    rfl

theorem runExpr_unregister {dict dict' : Dict} {mailbox mailbox' : List Term}
    (h : runExpr (runtimeCall "unregister_premises" []) dict mailbox = some (dict', mailbox')) :
    dict' = none := by
  change runRuntime "unregister_premises" [] dict mailbox = _ at h
  rw [runRuntime, if_neg (by simp)] at h
  simp only [execRuntime] at h
  cases h
  rfl

/-! ## The invariant -/

/-- What is stored are the premises of the pending receives; all receives but the innermost
are in a clause body; and the innermost one, before it receives, has none but its own. -/
structure Scoped (s : Machine) : Prop where
  /-- what is stored -/
  stored_iff : ∀ p, p ∈ s.stored ↔ ∃ clauses ∈ s.pending, p ∈ ownPremises clauses
  /-- the outer receives -/
  outer : ∀ f ∈ s.frames.tail, f.At 2
  /-- the innermost receive -/
  inner : ∀ f ∈ s.frames.head?, ∃ k < 4, f.At k ∧
    (k = 0 → ∀ p ∈ s.stored, p ∈ ownPremises f.clauses) ∧
    (k = 1 → ∀ p, p ∈ s.stored ↔ p ∈ ownPremises f.clauses)

/-- The receive about to be entered has every pattern, as translated, that a pending receive
has. With no receive pending there is nothing to ask. -/
def NoForeign (s : Machine) : Event → Prop
  | .enter clauses _ =>
    ∀ pending ∈ s.pending, ∀ c ∈ pending, patTerm c.pat ∈ clauses.map fun c => patTerm c.pat
  | _ => True

/-- Back in the outer receives. -/
theorem Scoped.of_outer {s : Machine} {frames : List Frame}
    (hstored : ∀ p, p ∈ s.stored ↔ ∃ clauses ∈ s.pending, p ∈ ownPremises clauses)
    (hframes : s.frames = frames) (houter : ∀ f ∈ frames, f.At 2) : Scoped s := by
  refine ⟨hstored, ?_, ?_⟩
  · intro f hf
    rw [hframes] at hf
    exact houter f (List.mem_of_mem_tail hf)
  · intro f hf
    rw [hframes] at hf
    refine ⟨2, by decide, houter f (List.mem_of_mem_head? hf), ?_, ?_⟩ <;>
    · intro h
      exact nomatch h

theorem at_two_of_inBody {f : Frame} {k : ℕ} (hk : k < 4) (h : f.At k) (hbody : f.inBody) :
    f.At 2 := by
  obtain ⟨e, recv, he, ⟨_, _, rfl, hrecv⟩, htodo⟩ := h
  simp only [Frame.inBody, htodo] at hbody
  match k, hk with
  | 0, _ => exact nomatch hbody
  | 1, _ => exact nomatch hbody
  | 2, _ => exact ⟨e, _, he, ⟨_, _, rfl, hrecv⟩, htodo⟩
  | 3, _ => exact nomatch hbody

/-- A receive is entered: nothing is registered yet, and what is left over is its own. -/
theorem Scoped.enter {s : Machine} (h : Scoped s) {clauses : List Clause}
    {after : Option (Expr × List Expr)} {es : List Expr} (hok : NoForeign s (.enter clauses after))
    (hbody : s.frames.head?.all Frame.inBody) (hes : buildPonReceive clauses after = some es) :
    Scoped { s with frames := ⟨clauses, es⟩ :: s.frames } := by
  refine ⟨h.stored_iff, ?_, ?_⟩
  · intro f hf
    change f ∈ s.frames at hf
    have houter := h.outer
    have hinner := h.inner
    rcases hframes : s.frames with _ | ⟨g, frames⟩
    · rw [hframes] at hf
      exact absurd hf List.not_mem_nil
    · rw [hframes] at hf hbody houter hinner
      obtain ⟨k, hk, hat, -⟩ := hinner g rfl
      rcases List.mem_cons.mp hf with rfl | hf
      · exact at_two_of_inBody hk hat hbody
      · exact houter f hf
  · rintro f hf
    obtain rfl := Option.some.inj hf
    refine ⟨0, by decide, at_zero_of_build hes, ?_, ?_⟩
    · intro _ p hp
      obtain ⟨pending, hpending, hp⟩ := (h.stored_iff p).mp hp
      obtain ⟨c, hc, rfl⟩ := List.mem_map.mp hp
      obtain ⟨d, hd, hpat⟩ := List.mem_map.mp (hok pending hpending c hc)
      exact List.mem_map.mpr ⟨d, hd, by rw [← hpat]⟩
    · intro h
      exact nomatch h

theorem next_advance {s s' : Machine} {clauses : List Clause} {e : Expr} {es : List Expr}
    {frames : List Frame} (hframes : s.frames = ⟨clauses, e :: es⟩ :: frames)
    (hs : s.next .advance = some s') :
    ∃ dict mailbox, runExpr e s.dict s.mailbox = some (dict, mailbox) ∧
      s' = ⟨dict, mailbox, if es.isEmpty then frames else ⟨clauses, es⟩ :: frames,
        runPending clauses e s.pending⟩ := by
  simp only [Machine.next, hframes] at hs
  obtain ⟨⟨dict, mailbox⟩, hrun, rfl⟩ := Option.map_eq_some_iff.mp hs
  exact ⟨dict, mailbox, hrun, rfl⟩

/-- The innermost receive goes on behind an expression. -/
theorem Scoped.of_inner {s : Machine} {f : Frame} {frames : List Frame} (k : ℕ)
    (hstored : ∀ p, p ∈ s.stored ↔ ∃ clauses ∈ s.pending, p ∈ ownPremises clauses)
    (hframes : s.frames = f :: frames) (houter : ∀ f ∈ frames, f.At 2) (hk : k + 1 < 4)
    (hat : f.At (k + 1)) (hown : k = 0 → ∀ p, p ∈ s.stored ↔ p ∈ ownPremises f.clauses) :
    Scoped s := by
  refine ⟨hstored, ?_, ?_⟩
  · rw [hframes]
    exact houter
  · rw [hframes]
    rintro g hg
    obtain rfl := Option.some.inj hg
    refine ⟨k + 1, hk, hat, ?_, ?_⟩
    · intro h
      exact nomatch h
    · intro h
      exact hown (Nat.succ.inj h)

/-- The next generated expression: by how many of them have been executed. -/
theorem Scoped.advance {s s' : Machine} (h : Scoped s) (hs : s.next .advance = some s') :
    Scoped s' := by
  rcases hframes : s.frames with _ | ⟨⟨clauses, todo⟩, frames⟩
  · simp only [Machine.next, hframes] at hs
    exact nomatch hs
  have houter : ∀ f ∈ frames, f.At 2 := by
    intro f hf
    apply h.outer f
    rw [hframes]
    exact hf
  obtain ⟨k, hk, ⟨e, recv, he, hrecv, htodo⟩, hzero, hone⟩ := h.inner ⟨clauses, todo⟩
    (by rw [hframes]; rfl)
  dsimp only at he htodo hzero hone
  match k, hk with
  | 0, _ =>
    obtain ⟨dict, mailbox, hrun, rfl⟩ := next_advance (hframes.trans (by rw [htodo]; rfl)) hs
    rw [runExpr_register _ _ he] at hrun
    cases hrun
    have hstored : ∀ p, p ∈ (registered clauses s.dict).getD [] ↔
        p ∈ ownPremises clauses ∨ p ∈ s.stored := by
      intro p
      rw [registered_getD, List.mem_append, List.mem_reverse]
      rfl
    refine Scoped.of_inner 0 ?_ rfl houter (by decide) ⟨e, recv, he, hrecv, rfl⟩ ?_
    · intro p
      rw [Machine.stored, hstored, h.stored_iff]
      change _ ↔ ∃ cs ∈ clauses :: s.pending, p ∈ ownPremises cs
      rw [List.exists_mem_cons_iff]
    · intro _ p
      rw [Machine.stored, hstored]
      exact ⟨fun hp => hp.elim id (hzero rfl p), Or.inl⟩
  | 1, _ =>
    obtain ⟨dict, mailbox, hrun, rfl⟩ := next_advance (hframes.trans (by rw [htodo]; rfl)) hs
    obtain rfl := runExpr_receive hrecv hrun
    have hpending : runPending clauses recv s.pending = s.pending := by
      obtain ⟨_, _, rfl, -⟩ := hrecv
      rfl
    refine Scoped.of_inner 1 ?_ rfl houter (by decide) ⟨e, recv, he, hrecv, rfl⟩ ?_
    · rw [hpending]
      exact h.stored_iff
    · intro h
      exact nomatch h
  | 2, _ =>
    obtain ⟨dict, mailbox, hrun, rfl⟩ := next_advance (hframes.trans (by rw [htodo]; rfl)) hs
    cases hrun
    refine Scoped.of_inner 2 h.stored_iff rfl houter (by decide) ⟨e, recv, he, hrecv, rfl⟩ ?_
    intro h
    exact nomatch h
  | 3, _ =>
    obtain ⟨dict, mailbox, hrun, rfl⟩ := next_advance (hframes.trans (by rw [htodo]; rfl)) hs
    obtain rfl := runExpr_unregister hrun
    refine Scoped.of_outer ?_ rfl houter
    intro p
    change p ∈ [] ↔ ∃ cs ∈ [], p ∈ ownPremises cs
    simp

theorem Scoped.step {s s' : Machine} {a : Event} (h : Scoped s)
    (hs : (scopeSystem.restrict NoForeign).step s a s') : Scoped s' := by
  obtain ⟨hok, hs⟩ := hs
  cases a with
  | deliver msg =>
    cases hs
    exact ⟨h.stored_iff, h.outer, h.inner⟩
  | enter clauses after =>
    change (if s.frames.head?.all Frame.inBody then _ else _) = _ at hs
    split at hs
    · rename_i hbody
      obtain ⟨es, hes, rfl⟩ := Option.map_eq_some_iff.mp hs
      exact h.enter hok hbody hes
    · exact nomatch hs
  | advance => exact h.advance hs
  | raise n =>
    change (if 0 < n ∧ n ≤ s.frames.length then _ else _) = _ at hs
    split at hs
    · rename_i hn
      cases hs
      refine Scoped.of_outer h.stored_iff rfl ?_
      intro f hf
      apply h.outer f
      obtain ⟨m, rfl⟩ := Nat.exists_eq_succ_of_ne_zero (Nat.ne_of_gt hn.1)
      rw [← List.drop_one]
      apply List.mem_of_mem_drop (i := m)
      rw [List.drop_drop, Nat.add_comm]
      exact hf
    · exact nomatch hs

theorem scoped_of_reach {s : Machine} (h : (scopeSystem.restrict NoForeign).Reach s) :
    Scoped s := by
  refine h.invariant ?_ fun _ _ _ hs hstep => hs.step hstep
  rintro s ⟨hdict, hframes, hpending⟩
  refine Scoped.of_outer ?_ hframes (fun f hf => absurd hf List.not_mem_nil)
  intro p
  rw [Machine.stored, hdict, hpending]
  simp

/-- Which message is accepted depends only on which premises are stored. -/
theorem matchAny_isSome_iff (premises : List Premise) (msg : Term) :
    (matchAny premises msg).isSome ↔ ∃ p ∈ premises, matchPattern p.1 msg = true := by
  induction premises with
  | nil => simp [matchAny]
  | cons p premises ih =>
    obtain ⟨pat, idx⟩ := p
    rw [matchAny, List.exists_mem_cons_iff]
    by_cases hp : matchPattern pat msg = true
    · simp [hp]
    · rw [if_neg hp, ih]
      simp [hp]

/-- The innermost receive is at its call with the premises of its own clauses and no others,
so that it accepts a message on account of these alone. -/
def OwnPremisesOnly (s : Machine) (f : Frame) : Prop :=
  (∀ p, p ∈ s.stored ↔ p ∈ ownPremises f.clauses) ∧
    ∀ msg, Accepts s.stored msg ↔ Accepts (ownPremises f.clauses) msg

/-- **Premises are scoped as long as no receive is entered past foreign ones.** In every run in
which a receive is entered only while each pattern still registered is also one of its own, a
call of `receive_msg` or `receive_msg_timeout` finds the premises of its own receive. -/
theorem own_premises_at_receive {s : Machine} (h : (scopeSystem.restrict NoForeign).Reach s)
    {f : Frame} {frames : List Frame} (hframes : s.frames = f :: frames)
    (hcall : f.atReceive = true) : OwnPremisesOnly s f := by
  obtain ⟨k, hk, ⟨e, recv, -, hrecv, htodo⟩, -, hone⟩ := (scoped_of_reach h).inner f
    (by rw [hframes]; rfl)
  rw [Frame.atReceive, htodo] at hcall
  have hown : ∀ p, p ∈ s.stored ↔ p ∈ ownPremises f.clauses := by
    match k, hk with
    | 0, _ => exact nomatch hcall
    | 1, _ => exact hone rfl
    | 2, _ => exact nomatch hcall
    | 3, _ => exact nomatch hcall
  refine ⟨hown, ?_⟩
  intro msg
  rw [Accepts, Accepts, matchAny_isSome_iff, matchAny_isSome_iff]
  simp only [hown]

/-! ## Two receives one after the other -/

/-- `receive {N, X} -> .. end` -/
def numberClauses (n : ℤ) : List Clause :=
  [.mk 1 [.tuple 1 [.integer 1 n, .var 1 "X"]] [] [.atom 1 "ok"]]

/-- `{N, 0}` -/
def numberMsg (n : ℤ) : Term := .tuple [.int n, .int 0]

/-- A process that has not received yet. -/
def freshMachine : Machine := ⟨none, [], [], []⟩

theorem reach_next {s s' : Machine} (h : scopeSystem.Reach s) (a : Event)
    (hs : s.next a = some s') : scopeSystem.Reach s' := h.next hs

theorem reach_next_ok {s s' : Machine} (h : (scopeSystem.restrict NoForeign).Reach s) (a : Event)
    (hok : NoForeign s a) (hs : s.next a = some s') : (scopeSystem.restrict NoForeign).Reach s' :=
  h.next ⟨hok, hs⟩

/-- The second of two receives in sequence, at its call. -/
theorem second_receive_scoped :
    ∃ s f, (scopeSystem.restrict NoForeign).Reach s ∧ s.frames = [f] ∧
      f.clauses = numberClauses 2 ∧ f.atReceive = true ∧ OwnPremisesOnly s f := by
  have h₀ : (scopeSystem.restrict NoForeign).Reach freshMachine := .start ⟨rfl, rfl, rfl⟩
  have h₁ := reach_next_ok h₀ (.deliver (numberMsg 1)) trivial rfl
  have h₂ := reach_next_ok h₁ (.enter (numberClauses 1) none) (fun _ h => nomatch h) rfl
  have h₃ := reach_next_ok h₂ .advance trivial rfl
  have h₄ := reach_next_ok h₃ .advance trivial rfl
  have h₅ := reach_next_ok h₄ .advance trivial rfl
  have h₆ := reach_next_ok h₅ .advance trivial rfl
  have h₇ := reach_next_ok h₆ (.enter (numberClauses 2) none) (fun _ h => nomatch h) rfl
  have h₈ := reach_next_ok h₇ .advance trivial rfl
  exact ⟨_, _, h₈, rfl, rfl, rfl, own_premises_at_receive h₈ rfl rfl⟩

/-- The clause body of the first receive raises and the caller catches it: the second receive
accepts `{1, 0}` on account of the first, and has no clause for it. -/
theorem raised_body_leaves_premise :
    ∃ s f, scopeSystem.Reach s ∧ s.frames = [f] ∧ f.clauses = numberClauses 2 ∧
      f.atReceive = true ∧ ¬ OwnPremisesOnly s f ∧ Accepts s.stored (numberMsg 1) ∧
      ¬ Accepts (ownPremises f.clauses) (numberMsg 1) := by
  have h₀ : scopeSystem.Reach freshMachine := .start ⟨rfl, rfl, rfl⟩
  have h₁ := reach_next h₀ (.deliver (numberMsg 1)) rfl
  have h₂ := reach_next h₁ (.enter (numberClauses 1) none) rfl
  have h₃ := reach_next h₂ .advance rfl
  have h₄ := reach_next h₃ .advance rfl
  have h₅ := reach_next h₄ (.raise 1) rfl
  have h₆ := reach_next h₅ (.enter (numberClauses 2) none) rfl
  have h₇ := reach_next h₆ .advance rfl
  have hstored : Accepts [(.tuple [.int 2, .atom "_"], .int 0),
      (.tuple [.int 1, .atom "_"], .int 0)] (numberMsg 1) := by decide
  have hown : ¬ Accepts (ownPremises (numberClauses 2)) (numberMsg 1) := by decide
  refine ⟨_, _, h₇, rfl, rfl, rfl, ?_, hstored, hown⟩
  intro h
  exact hown ((h.2 (numberMsg 1)).mp hstored)

end PonBeam.Receive
