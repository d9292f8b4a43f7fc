import PonBeam.EtsTree.ChunkRuns

/-!
# Two comparisons that agree on a table

A `select` compares the limits of its range with the keys of objects in the table, and nothing
else. With a comparison that has the same results there it does the same, call by call: it has
the same limits in its continuations, and goes on in the same way.
-/

namespace PonBeam.EtsTree

open DbTableTree

/-! ## Calls with a postcondition -/

/-- The two calls do the same, and what they return has the property. -/
def Same {α : Type} (x y : Option α) (Q : α → Prop) : Prop :=
  x = y ∧ ∀ a, x = some a → Q a

namespace Same

variable {α β : Type} {x y : Option α} {f g : α → Option β} {Q : α → Prop} {R : β → Prop}

theorem some {a : α} (h : Q a) : Same (some a) (some a) Q :=
  ⟨rfl, fun _ heq => by cases heq; exact h⟩

theorem self (h : ∀ a, x = Option.some a → Q a) : Same x x Q := ⟨rfl, h⟩

/-- One call after the other. -/
theorem bind (h : Same x y Q) (hf : ∀ a, Q a → Same (f a) (g a) R) :
    Same (x.bind f) (y.bind g) R := by
  obtain ⟨rfl, hQ⟩ := h
  cases x with
  | none => exact ⟨rfl, fun _ heq => by cases heq⟩
  | some a => exact hf a (hQ a rfl)

/-- The same call first. -/
theorem step (hf : ∀ a, x = Option.some a → Same (f a) (g a) R) :
    Same (x.bind f) (x.bind g) R :=
  (self fun _ ha => ha : Same x x fun a => x = Option.some a).bind hf

end Same

variable {Key Obj Res : Type} {T : Terms Key Obj} {P P' : Patterns Key} {S : Key → Prop}
  {tb : DbTableTree Obj} {d : Side} {t : BinaryTree (Cell Obj)} {mp : Obj → Option Res}
  {e lastkey : Option Key} {mpi : MpInfo Key Obj (Option Res)} {reverse : Bool}

/-! ## Where the comparisons agree -/

/-- The keys of the objects in the table have the property. -/
def Stored (T : Terms Key Obj) (S : Key → Prop) (tb : DbTableTree Obj) : Prop :=
  ∀ this n, tb.heap this = some n → S (T.getkey n.dbterm)

/-- The results for a limit of the range are the same for these keys. -/
def AgreeFor (P P' : Patterns Key) (S : Key → Prop) (limit : Option Key) : Prop :=
  ∀ pb, limit = some pb → ∀ k, S k → P.cmpPartlyBound pb k = P'.cmpPartlyBound pb k

/-- They are the same for both limits. -/
structure Agree (P P' : Patterns Key) (S : Key → Prop) (mpi : MpInfo Key Obj (Option Res)) :
    Prop where
  isNil : P.isNil = P'.isNil
  least : AgreeFor P P' S mpi.least
  most : AgreeFor P P' S mpi.most

theorem AgreeFor.none : AgreeFor P P' S none := fun _ h => by cases h

theorem AgreeFor.atEnd_eq (h : AgreeFor P P' S e) (d : Side) {k : Key} (hk : S k) :
    P.atEnd d e k = P'.atEnd d e k := by
  cases e with
  | none => rfl
  | some e => rw [Patterns.atEnd, Patterns.atEnd, h e rfl k hk]

theorem AgreeFor.endCondition {stop : Key} (h : AgreeFor P P' S (some stop)) :
    AgreeFor P P' S (P.endCondition stop) := by
  intro pb hpb
  rw [Patterns.endCondition] at hpb
  split at hpb
  · cases hpb
  · cases hpb
    exact h stop rfl

theorem endCondition_congr (h : P.isNil = P'.isNil) (stop : Key) :
    P.endCondition stop = P'.endCondition stop := by
  rw [Patterns.endCondition, Patterns.endCondition, h]

/-- All nodes are in the tree. -/
theorem Inv.stored (h : Inv T tb t) (hS : ∀ o ∈ objects t, S (T.getkey o)) : Stored T S tb :=
  fun _ _ hthis => hS _ (h.mem_objects hthis)

theorem findFromPbLoop_congr (hstored : Stored T S tb) {pb : Key}
    (hagree : AgreeFor P P' S (some pb)) (room : ℕ) (this : Addr) (array : List Addr)
    (candidate : ℕ) : tb.findFromPbLoop T P d pb room this array candidate =
      tb.findFromPbLoop T P' d pb room this array candidate := by
  induction room generalizing this array candidate with
  | zero => rfl
  | succ room ih =>
    rw [DbTableTree.findFromPbLoop, DbTableTree.findFromPbLoop]
    cases hthis : tb.heap this with
    | none => rfl
    | some n =>
      simp only [Option.bind_eq_bind, Option.bind_some, hagree pb rfl _ (hstored this n hthis),
        ih]

theorem findFromPbKey_congr (hstored : Stored T S tb) {pb : Key}
    (hagree : AgreeFor P P' S (some pb)) :
    tb.findFromPbKey T P d pb = tb.findFromPbKey T P' d pb := by
  rw [findFromPbKey, findFromPbKey]
  simp only [findFromPbLoop_congr hstored hagree]

/-- **The start of a range** is the same node of the tree, or there is none. -/
theorem findFromPbKey_same (hmono : P'.Monotone T) (h : Inv T tb t) (hroom : t.height ≤ stackNeed)
    (hstored : Stored T S tb) {pb : Key} (hagree : AgreeFor P P' S (some pb)) (d : Side) :
    ∃ found tb', tb.findFromPbKey T P d pb = some (found, tb') ∧
      tb.findFromPbKey T P' d pb = some (found, tb') ∧ Stored T S tb' ∧
      ∀ this, found = some this → ∃ n, tb'.heap this = some n := by
  obtain ⟨stack, hfind, -⟩ := findFromPbKey_spec hmono h hroom d pb
  refine ⟨_, _, (findFromPbKey_congr hstored hagree).trans hfind, hfind, hstored, ?_⟩
  have hhead : HeadAt tb (addr? (pastCells T P' d pb t)) (objsOf (pastCells T P' d pb t)) :=
    headAt_objsOf h.linked fun c hc => (List.mem_filter.1 hc).1
  intro this hthis
  cases hcells : pastCells T P' d pb t with
  | nil =>
    rw [hcells] at hthis
    cases hthis
  | cons c cs =>
    rw [hthis, hcells] at hhead
    obtain ⟨a, n, ha, hn, -⟩ := hhead
    cases ha
    exact ⟨n, hn⟩

/-! ## Traversals -/

/-- **A traversal** does the same if the function that it calls for each node does. -/
theorem traverse_same {C : Type} {I : C → Prop}
    {doit doit' : C → DbTableTree Obj → Addr → Option (C × DbTableTree Obj × Bool)}
    (hdoit : ∀ sc tb this, I sc → Stored T S tb →
      Same (doit sc tb this) (doit' sc tb this) fun r => I r.1 ∧ Stored T S r.2.1)
    {sc : C} (hsc : I sc) (hstored : Stored T S tb) (d : Side) (lastkey : Option Key) :
    Same (tb.traverse T d lastkey doit sc) (tb.traverse T d lastkey doit' sc)
      fun r => I r.1 ∧ Stored T S r.2 := by
  have hloop : ∀ turns sc tb next, I sc → Stored T S tb →
      Same (traverseLoop T d doit turns sc tb next) (traverseLoop T d doit' turns sc tb next)
        fun r => I r.1 ∧ Stored T S r.2 := by
    intro turns
    induction turns with
    | zero =>
      intro sc tb next hsc hstored
      cases next with
      | none => exact .some ⟨hsc, hstored⟩
      | some this => exact .self fun _ heq => by cases heq
    | succ turns ih =>
      intro sc tb next hsc hstored
      cases next with
      | none => exact .some ⟨hsc, hstored⟩
      | some this =>
        refine Same.step fun n _ => ?_
        refine Same.step fun r _ => ?_
        refine Same.bind (hdoit sc (tb.setStaticStack r.2) this hsc hstored) fun r' hr' => ?_
        dsimp only
        split
        · exact ih _ _ _ hr'.1 hr'.2
        · exact .some hr'
  have hstart : Same (tb.traverseStart T d lastkey) (tb.traverseStart T d lastkey)
      fun r => Stored T S r.2 := by
    refine .self fun r hr => ?_
    cases lastkey with
    | some key =>
      obtain ⟨found, -, heq⟩ := Option.bind_eq_some_iff.1 hr
      cases heq
      exact hstored
    | none =>
      rw [traverseStart] at hr
      cases hroot : tb.root with
      | none =>
        simp only [hroot] at hr
        cases hr
        exact hstored
      | some root =>
        simp only [hroot] at hr
        obtain ⟨found, -, heq⟩ := Option.bind_eq_some_iff.1 hr
        cases heq
        exact hstored
  exact hstart.bind fun r hr => hloop _ _ _ _ hsc hr

/-! ## `select` -/

/-- What a traversal of `select` keeps. -/
structure AgreeContext (T : Terms Key Obj) (P P' : Patterns Key) (S : Key → Prop)
    (endCondition : Option Key) (lastobj : Option Obj) : Prop where
  endCondition : AgreeFor P P' S endCondition
  lastobj : ∀ o, lastobj = some o → S (T.getkey o)

theorem doitSelect_same (d : Side) (mp : Obj → Option Res) {sc : SelectContext Key Obj Res}
    {this : Addr} (hsc : AgreeContext T P P' S sc.endCondition sc.lastobj)
    (hstored : Stored T S tb) :
    Same (tb.doitSelect T P d mp sc this) (tb.doitSelect T P' d mp sc this)
      fun r => AgreeContext T P P' S r.1.endCondition r.1.lastobj ∧ Stored T S r.2.1 := by
  cases hthis : tb.heap this with
  | none =>
    rw [doitSelect, doitSelect, hthis]
    exact .self fun _ heq => by cases heq
  | some n =>
    have hkey := hstored this n hthis
    have hlast : ∀ o, some n.dbterm = some o → S (T.getkey o) := fun o ho => by
      cases ho
      exact hkey
    rw [doitSelect_eq hthis, doitSelect_eq hthis, hsc.endCondition.atEnd_eq d hkey]
    split
    · exact .some ⟨⟨hsc.endCondition, hlast⟩, hstored⟩
    · exact .some ⟨⟨hsc.endCondition, hlast⟩, hstored⟩

/-- The limit in a continuation. -/
def AgreeNext (P P' : Patterns Key) (S : Key → Prop) : SelectRet Key Obj Res → Prop
  | .list _ => True
  | .trap continuation => AgreeFor P P' S continuation.endCondition

theorem selectFrom_same (he : AgreeFor P P' S e) (hstored : Stored T S tb) :
    Same (selectFrom T P mp reverse lastkey e tb) (selectFrom T P' mp reverse lastkey e tb)
      fun r => AgreeNext P P' S r.1 := by
  have hstart : AgreeContext T P P' S e (none : Option Obj) := ⟨he, fun o ho => by cases ho⟩
  refine (traverse_same (I := fun sc : SelectContext Key Obj Res =>
    AgreeContext T P P' S sc.endCondition sc.lastobj)
    (fun _ _ _ hsc hstored => doitSelect_same (selectDir reverse) mp hsc hstored)
    hstart hstored (selectDir reverse) lastkey).bind fun r hr => ?_
  dsimp only
  split
  · exact .some trivial
  · refine Same.step fun o _ => ?_
    exact .some hr.1.endCondition

theorem dbSelectContinueTreeCommon_same {c : SelectContinuation Key Obj Res}
    (hc : AgreeFor P P' S c.endCondition) (hstored : Stored T S tb) :
    Same (tb.dbSelectContinueTreeCommon T P c) (tb.dbSelectContinueTreeCommon T P' c)
      fun r => AgreeNext P P' S r.1 := by
  have hstart : AgreeContext T P P' S none (none : Option Obj) := ⟨.none, fun o ho => by cases ho⟩
  refine (traverse_same (I := fun sc : SelectContext Key Obj Res =>
    AgreeContext T P P' S sc.endCondition sc.lastobj)
    (fun _ _ _ hsc hstored => doitSelect_same (selectDir c.reverse) c.mp hsc hstored)
    hstart hstored (selectDir c.reverse) (some c.lastkey)).bind fun r hr => ?_
  dsimp only
  split
  · exact .some trivial
  · refine Same.step fun o ho => ?_
    rw [hc.atEnd_eq _ (hr.1.lastobj o ho)]
    split
    · exact .some trivial
    · exact .some hc

/-- The limits of a range, from either end. -/
theorem Agree.limits (hagree : Agree P P' S mpi) (hb : mpi.Bounded)
    (hkey : mpi.keyBoundness = .partiallyBound) (reverse : Bool) : ∃ start stop,
    (if reverse then mpi.least else mpi.most) = some start ∧
    (if reverse then mpi.most else mpi.least) = some stop ∧
    AgreeFor P P' S (some start) ∧ AgreeFor P P' S (some stop) := by
  obtain ⟨least, hleast⟩ := hb.least (Or.inr hkey)
  obtain ⟨most, hmost⟩ := hb.most hkey
  obtain ⟨-, haleast, hamost⟩ := hagree
  rw [hleast] at haleast
  rw [hmost] at hamost
  cases reverse
  · exact ⟨most, least, hmost, hleast, hamost, haleast⟩
  · exact ⟨least, most, hleast, hmost, haleast, hamost⟩

/-- **The first call.** -/
theorem dbSelectTreeCommon_same (hmono : P'.Monotone T) (hagree : Agree P P' S mpi)
    (hb : mpi.Bounded) (h : Inv T tb t) (hroom : t.height ≤ stackNeed) (hstored : Stored T S tb) :
    Same (tb.dbSelectTreeCommon T P mpi reverse) (tb.dbSelectTreeCommon T P' mpi reverse)
      fun r => AgreeNext P P' S r.1 := by
  cases hkey : mpi.keyBoundness with
  | unbound =>
    rw [dbSelectTreeCommon_unbound hkey, dbSelectTreeCommon_unbound hkey]
    exact selectFrom_same .none hstored
  | partiallyBound =>
    obtain ⟨start, stop, hstart, hstop, hastart, hastop⟩ := hagree.limits hb hkey reverse
    obtain ⟨found, tb', hfind, hfind', hstored', hnode⟩ :=
      findFromPbKey_same hmono h hroom hstored hastart (selectDir reverse).other
    cases found with
    | none =>
      rw [dbSelectTreeCommon_partly_none hkey hstart hstop hfind,
        dbSelectTreeCommon_partly_none hkey hstart hstop hfind',
        ← endCondition_congr hagree.isNil]
      exact selectFrom_same hastop.endCondition hstored'
    | some this =>
      obtain ⟨n, hn⟩ := hnode this rfl
      rw [dbSelectTreeCommon_partly_some hkey hstart hstop hfind hn,
        dbSelectTreeCommon_partly_some hkey hstart hstop hfind' hn,
        ← endCondition_congr hagree.isNil]
      exact selectFrom_same hastop.endCondition hstored'
  | bound =>
    obtain ⟨least, hleast⟩ := hb.least (Or.inl hkey)
    rw [dbSelectTreeCommon, dbSelectTreeCommon, hkey, hleast]
    -- without an end condition there is no comparison with a pattern
    refine Same.step fun _ _ => Same.step fun found _ => ?_
    cases found with
    | none => exact .some trivial
    | some this =>
      refine Same.step fun r _ => ?_
      exact .some trivial
  | impossible =>
    rw [dbSelectTreeCommon, dbSelectTreeCommon, hkey]
    exact .some trivial

/-- **All calls**, with queries between them. -/
theorem selectCalls_same (hmono : P'.Monotone T) (hagree : Agree P P' S mpi) (hb : mpi.Bounded)
    (h : Inv T tb t) (hroom : t.height ≤ stackNeed) (hc : Cursor t tb.staticStack)
    (hS : ∀ o ∈ objects t, S (T.getkey o)) (queries : ℕ → List (Query Key)) (k : ℕ) :
    Same (selectCalls T P mpi reverse queries tb k) (selectCalls T P' mpi reverse queries tb k)
      fun r => AgreeNext P P' S r.1 := by
  obtain ⟨e, hvisits⟩ := select_visits hmono h hroom hc hb reverse queries
  induction k with
  | zero => exact dbSelectTreeCommon_same hmono hagree hb h hroom (h.stored hS)
  | succ k ih =>
    obtain ⟨ret, tb₁, hrun, hinv, hc₁, -⟩ := hvisits k
    have hrun' := ih.1.trans hrun
    have hret := ih.2 _ hrun'
    rw [selectCalls, selectCalls, hrun, hrun']
    cases ret with
    | list accum => exact .some trivial
    | trap c =>
      obtain ⟨tb₂, hqueries, hinv₂, -⟩ := runQueries_spec hinv hroom hc₁ (queries k)
      simp only [Option.bind_eq_bind, Option.bind_some, hqueries]
      exact dbSelectContinueTreeCommon_same hret (hinv₂.stored hS)

/-! ## `select` in chunks -/

theorem doitSelectChunk_same (d : Side) (mp : Obj → Option Res) {sc : ChunkContext Obj Key Res}
    {this : Addr} (hsc : AgreeContext T P P' S sc.endCondition sc.lastobj)
    (hstored : Stored T S tb) :
    Same (tb.doitSelectChunk T P d mp sc this) (tb.doitSelectChunk T P' d mp sc this)
      fun r => AgreeContext T P P' S r.1.endCondition r.1.lastobj ∧ Stored T S r.2.1 := by
  cases hthis : tb.heap this with
  | none =>
    rw [doitSelectChunk, doitSelectChunk, hthis]
    exact .self fun _ heq => by cases heq
  | some n =>
    have hkey := hstored this n hthis
    have hlast : ∀ o, some n.dbterm = some o → S (T.getkey o) := fun o ho => by
      cases ho
      exact hkey
    rw [doitSelectChunk_reads T P d mp sc tb this n hthis,
      doitSelectChunk_reads T P' d mp sc tb this n hthis, chunkStep, chunkStep,
      hsc.endCondition.atEnd_eq d hkey]
    split
    · exact .some ⟨⟨hsc.endCondition, hlast⟩, hstored⟩
    · exact .some ⟨⟨hsc.endCondition, hlast⟩, hstored⟩

/-- The limit in a continuation. -/
def AgreeRet (P P' : Patterns Key) (S : Key → Prop) : ChunkRet Key Obj Res → Prop
  | .tuple _ (some c) => AgreeFor P P' S c.endCondition
  | .trapReverse _ _ (some c) => AgreeFor P P' S c.endCondition
  | .trapSelect c => AgreeFor P P' S c.endCondition
  | _ => True

theorem agreeRet_chunkEnd (sc : ChunkContext Obj Key Res) (he : AgreeFor P P' S e)
    (mp : Obj → Option Res) (reverse : Bool) : AgreeRet P P' S (chunkEnd T sc e mp reverse) := by
  rw [chunkEnd]
  split
  · split <;> trivial
  · exact he

variable {chunkSize : ℕ}

theorem chunkFrom_same (he : AgreeFor P P' S e) (hstored : Stored T S tb) :
    Same (chunkFrom T P mp chunkSize reverse lastkey e tb)
      (chunkFrom T P' mp chunkSize reverse lastkey e tb) fun r => AgreeRet P P' S r.1 := by
  have hstart : AgreeContext T P P' S e (none : Option Obj) := ⟨he, fun o ho => by cases ho⟩
  refine (traverse_same (I := fun sc : ChunkContext Obj Key Res =>
    AgreeContext T P P' S sc.endCondition sc.lastobj)
    (fun _ _ _ hsc hstored => doitSelectChunk_same (chunkDir reverse) mp hsc hstored)
    hstart hstored (chunkDir reverse) lastkey).bind fun r hr => ?_
  dsimp only
  split
  · exact .some (agreeRet_chunkEnd _ hr.1.endCondition _ _)
  · refine Same.step fun o _ => ?_
    exact .some hr.1.endCondition

theorem dbSelectContinueChunk_same {c : ChunkContinuation Key Obj Res}
    (hc : AgreeFor P P' S c.endCondition) (hstored : Stored T S tb) :
    Same (tb.dbSelectContinueChunk T P c) (tb.dbSelectContinueChunk T P' c)
      fun r => AgreeRet P P' S r.1 := by
  have hstart : AgreeContext T P P' S none (none : Option Obj) := ⟨.none, fun o ho => by cases ho⟩
  refine (traverse_same (I := fun sc : ChunkContext Obj Key Res =>
    AgreeContext T P P' S sc.endCondition sc.lastobj)
    (fun _ _ _ hsc hstored => doitSelectChunk_same (chunkDir c.reverse) c.mp hsc hstored)
    hstart hstored (chunkDir c.reverse) (some c.lastkey)).bind fun r hr => ?_
  dsimp only
  split
  · exact .some (agreeRet_chunkEnd _ hc _ _)
  · refine Same.step fun o ho => ?_
    rw [hc.atEnd_eq _ (hr.1.lastobj o ho)]
    split
    · refine .some ?_
      dsimp only
      split <;> trivial
    · exact .some hc

/-- **The first call.** -/
theorem dbSelectChunkTreeCommon_same (hmono : P'.Monotone T) (hagree : Agree P P' S mpi)
    (hb : mpi.Bounded) (h : Inv T tb t) (hroom : t.height ≤ stackNeed) (hstored : Stored T S tb) :
    Same (tb.dbSelectChunkTreeCommon T P mpi chunkSize reverse)
      (tb.dbSelectChunkTreeCommon T P' mpi chunkSize reverse) fun r => AgreeRet P P' S r.1 := by
  cases hkey : mpi.keyBoundness with
  | unbound =>
    rw [dbSelectChunkTreeCommon_unbound hkey, dbSelectChunkTreeCommon_unbound hkey]
    exact chunkFrom_same .none hstored
  | partiallyBound =>
    obtain ⟨stop, start, hstop, hstart, hastop, hastart⟩ := hagree.limits hb hkey reverse
    obtain ⟨found, tb', hfind, hfind', hstored', hnode⟩ :=
      findFromPbKey_same hmono h hroom hstored hastart (chunkDir reverse).other
    cases found with
    | none =>
      rw [dbSelectChunkTreeCommon_partly_none hkey hstart hstop hfind,
        dbSelectChunkTreeCommon_partly_none hkey hstart hstop hfind',
        ← endCondition_congr hagree.isNil]
      exact chunkFrom_same hastop.endCondition hstored'
    | some this =>
      obtain ⟨n, hn⟩ := hnode this rfl
      rw [dbSelectChunkTreeCommon_partly_some hkey hstart hstop hfind hn,
        dbSelectChunkTreeCommon_partly_some hkey hstart hstop hfind' hn,
        ← endCondition_congr hagree.isNil]
      exact chunkFrom_same hastop.endCondition hstored'
  | bound =>
    obtain ⟨least, hleast⟩ := hb.least (Or.inl hkey)
    rw [dbSelectChunkTreeCommon, dbSelectChunkTreeCommon, hkey, hleast]
    refine Same.step fun _ _ => Same.step fun found _ => ?_
    cases found with
    | none => exact .some trivial
    | some this =>
      refine Same.step fun r _ => ?_
      simp only [Option.bind_eq_bind, Option.pure_def, Option.bind_some]
      split
      · exact .some trivial
      · exact .some trivial
  | impossible =>
    rw [dbSelectChunkTreeCommon, dbSelectChunkTreeCommon, hkey]
    exact .some trivial

/-! ## Sessions -/

variable {s : ChunkSession Key Obj Res} {log : List (List Obj)} {seen : List Obj}

/-- The limit in the continuation of a session. -/
def AgreePhase (P P' : Patterns Key) (S : Key → Prop) : ChunkPhase Key Obj Res → Prop
  | .select c => AgreeFor P P' S c.endCondition
  | .reverse _ _ (some c) => AgreeFor P P' S c.endCondition
  | _ => True

theorem agreePhase_returned {ret : ChunkRet Key Obj Res} (h : AgreeRet P P' S ret)
    (s : ChunkSession Key Obj Res) (tb : DbTableTree Obj) :
    AgreePhase P P' S (s.returned tb ret).phase := by
  cases ret with
  | eot => trivial
  | tuple results next => cases next <;> exact h
  | trapReverse list result next => cases next <;> exact h
  | trapSelect c => exact h

/-- **The next call** of a session. -/
theorem select_same (hmono : P'.Monotone T) (hagree : Agree P P' S mpi) (hb : mpi.Bounded)
    (h : Inv T s.tb t) (hroom : t.height ≤ stackNeed) (hS : ∀ o ∈ objects t, S (T.getkey o))
    (hphase : AgreePhase P P' S s.phase) :
    Same (s.select T P mpi chunkSize reverse) (s.select T P' mpi chunkSize reverse)
      fun s' => AgreePhase P P' S s'.phase := by
  rw [ChunkSession.select, ChunkSession.select]
  cases heq : s.phase with
  | start =>
    refine (dbSelectChunkTreeCommon_same hmono hagree hb h hroom (h.stored hS)).bind fun r hr => ?_
    exact .some (agreePhase_returned hr s r.2)
  | select c =>
    rw [heq] at hphase
    refine (dbSelectContinueChunk_same hphase (h.stored hS)).bind fun r hr => ?_
    exact .some (agreePhase_returned hr s r.2)
  | reverse list result next =>
    rw [heq] at hphase
    refine .some (agreePhase_returned ?_ s s.tb)
    rw [etsSelectReverse]
    cases next <;> split <;> exact hphase
  | eot =>
    refine .some ?_
    rw [heq]
    trivial

/-- The session goes on in the same way. -/
structure SameRun (T : Terms Key Obj) (P P' : Patterns Key) (mpi : MpInfo Key Obj (Option Res))
    (chunkSize : ℕ) (reverse : Bool) (s : ChunkSession Key Obj Res)
    (events : List (ChunkEvent Key Obj)) : Prop where
  fits : s.Fits T P mpi chunkSize reverse events ↔ s.Fits T P' mpi chunkSize reverse events
  run : s.Fits T P' mpi chunkSize reverse events →
    s.run T P mpi chunkSize reverse events = s.run T P' mpi chunkSize reverse events

theorem SameRun.cons {s₁ : ChunkSession Key Obj Res} {event : ChunkEvent Key Obj}
    {events : List (ChunkEvent Key Obj)} (hstep : s.step T P mpi chunkSize reverse event = some s₁)
    (hstep' : s.step T P' mpi chunkSize reverse event = some s₁)
    (h : SameRun T P P' mpi chunkSize reverse s₁ events) :
    SameRun T P P' mpi chunkSize reverse s (event :: events) := by
  constructor
  · simp only [ChunkSession.Fits, hstep, hstep', h.fits]
  · rintro ⟨-, -, hrest⟩
    rw [hstep'] at hrest
    rw [ChunkSession.run, ChunkSession.run, hstep, hstep']
    exact h.run hrest

/-- **A session** goes on in the same way, if the comparisons agree in each of its calls. -/
theorem run_same (hmono : P'.Monotone T) (hn : 0 < chunkSize) (hcovers : mpi.Covers T P')
    (hb : mpi.Bounded) (hagree : Agree P P' S mpi) {events : List (ChunkEvent Key Obj)}
    (h : Underway T P' mpi chunkSize reverse log s t seen) (hphase : AgreePhase P P' S s.phase)
    (hS : ∀ objs ∈ contentsAt T (objects t) events, ∀ o ∈ objs, S (T.getkey o)) :
    SameRun T P P' mpi chunkSize reverse s events := by
  induction events generalizing s t log seen with
  | nil => exact ⟨Iff.rfl, fun _ => rfl⟩
  | cons event events ih =>
    cases event with
    | call call =>
      by_cases hfits : s.tb.nitems < 2 ^ 61 ∧ call.Fits T s.tb
      · obtain ⟨reply, tb', t', hrun, hinv, hc, hmap⟩ :=
          call_spec h.inv h.cursor hfits.1 hfits.2
        have hstep : ∀ P : Patterns Key, s.step T P mpi chunkSize reverse (.call call) =
            some { s with tb := tb' } := fun P => by
          rw [ChunkSession.step, hrun]
          rfl
        rw [contentsAt, hmap] at hS
        have h₁ : Underway T P' mpi chunkSize reverse log { s with tb := tb' } t' seen :=
          ⟨hinv, hc, h.gathered, h.ok, h.chunks⟩
        exact .cons (hstep P) (hstep P') (ih h₁ hphase hS)
      · exact ⟨iff_of_false (fun h => hfits ⟨h.1, h.2.1⟩) fun h => hfits ⟨h.1, h.2.1⟩,
          fun h => absurd ⟨h.1, h.2.1⟩ hfits⟩
    | select =>
      by_cases hnum : s.tb.nitems < 2 ^ 61
      · have hroom : t.height ≤ stackNeed :=
          (Avl.height_lt h.inv.avl (h.inv.nitems_eq ▸ hnum)).le
        rw [contentsAt, List.forall_mem_cons] at hS
        obtain ⟨s₁, seen₁, hrun, h₁⟩ := select_underway hmono hn hcovers hb h hroom
        obtain ⟨heq, hphase₁⟩ := select_same hmono hagree hb h.inv hroom hS.1 hphase
        have hrun' := heq.trans hrun
        exact .cons hrun' hrun (ih h₁ (hphase₁ s₁ hrun') hS.2)
      · exact ⟨iff_of_false (fun h => hnum h.1) fun h => hnum h.1, fun h => absurd h.1 hnum⟩

end PonBeam.EtsTree
