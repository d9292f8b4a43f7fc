import PonBeam.EtsTree.ChunkCalls
import Mathlib.Data.List.Sort

/-!
# A `select` in chunks while the table changes

Between two calls of a `select` in chunks any process may update the table. The objects come in
the order of their keys, none is missed that is there all the time, and none is returned that has
not been there. Where there are no updates, the calls come to an end and the chunks together are
all results.
-/

namespace PonBeam.EtsTree

open DbTableTree

variable {Key Obj Res : Type} {T : Terms Key Obj} {P : Patterns Key} {tb : DbTableTree Obj}
  {d : Side} {t : BinaryTree (Cell Obj)} {mp : Obj → Option Res} {o : Obj}
  {e lastkey : Option Key} {seen : List Obj} {log : List (List Obj)}
  {mpi : MpInfo Key Obj (Option Res)} {chunkSize : ℕ} {reverse : Bool}
  {s : ChunkSession Key Obj Res} {c : ChunkContinuation Key Obj Res}

/-! ## The first call -/

variable {start stop : Key}

/-- Seen in the direction of the traversal. -/
theorem MpInfo.Covers.range (hcovers : mpi.Covers T P) (hb : mpi.keyBoundness = .partiallyBound)
    (hstart : (if reverse then mpi.most else mpi.least) = some start)
    (hstop : (if reverse then mpi.least else mpi.most) = some stop) (hmp : mpi.mp o ≠ none) :
    0 ≤ (chunkDir reverse).other.sgn * P.cmpPartlyBound start (T.getkey o) ∧
      0 ≤ (chunkDir reverse).sgn * P.cmpPartlyBound stop (T.getkey o) := by
  have hrange := hcovers o hmp
  rw [hb] at hrange
  obtain ⟨hleast, hmost⟩ := hrange
  cases reverse with
  | true =>
    have hstart' := hmost start hstart
    have hstop' := hleast stop hstop
    simp only [chunkDir, if_true, Side.other, Side.sgn]
    omega
  | false =>
    have hstart' := hleast start hstart
    have hstop' := hmost stop hstop
    simp only [chunkDir, Bool.false_eq_true, if_false, Side.other, Side.sgn]
    omega

/-- What is not later than a key past the pattern is past it too. -/
theorem past_of_not_later {o' : Obj} (hmono : P.Monotone T)
    (hpast : past T P d.other start o' = true) (h : ¬ Later T d (T.getkey o') (T.getkey o)) :
    past T P d.other start o = true := by
  rw [past, decide_eq_true_iff] at hpast ⊢
  cases d with
  | right =>
    rw [later_right] at h
    rw [Side.other, Side.sgn] at hpast ⊢
    have := hmono.pos start _ _ (Terms.cmp_nonneg_iff.1 (not_lt.1 h)) (by omega)
    omega
  | left =>
    rw [later_left] at h
    rw [Side.other, Side.sgn, one_mul] at hpast ⊢
    exact hmono.neg start _ _ (Terms.cmp_nonneg_iff.1 (not_lt.1 h)) hpast

theorem UpTo.nothing : UpTo T d mp log none [] :=
  ⟨fun _ ho => absurd ho List.not_mem_nil, fun _ _ _ => Or.inl rfl⟩

/-- A traversal may start at a key past the pattern that the range begins with. -/
theorem UpTo.of_past {o' : Obj} (hmono : P.Monotone T)
    (hpast : past T P d.other start o' = true)
    (hrange : ∀ o, mp o ≠ none → 0 ≤ d.other.sgn * P.cmpPartlyBound start (T.getkey o)) :
    UpTo T d mp log (some (T.getkey o')) [] := by
  refine ⟨fun _ ho => absurd ho List.not_mem_nil, fun o _ hmp => Or.inl (isPending_some.2 ?_)⟩
  by_contra hlater
  have h := past_of_not_later hmono hpast hlater
  rw [past, decide_eq_true_iff] at h
  exact absurd (hrange o hmp) (not_le.2 h)

theorem dbSelectChunkTreeCommon_unbound (hb : mpi.keyBoundness = .unbound) :
    tb.dbSelectChunkTreeCommon T P mpi chunkSize reverse =
      chunkFrom T P mpi.mp chunkSize reverse none none tb := by
  rw [dbSelectChunkTreeCommon, hb, chunkFrom]
  rfl

theorem dbSelectChunkTreeCommon_partly_none {tb' : DbTableTree Obj}
    (hb : mpi.keyBoundness = .partiallyBound)
    (hstart : (if reverse then mpi.most else mpi.least) = some start)
    (hstop : (if reverse then mpi.least else mpi.most) = some stop)
    (hfind : tb.findFromPbKey T P (chunkDir reverse).other start = some (none, tb')) :
    tb.dbSelectChunkTreeCommon T P mpi chunkSize reverse =
      chunkFrom T P mpi.mp chunkSize reverse none (P.endCondition stop) tb' := by
  rw [dbSelectChunkTreeCommon, hb, chunkFrom]
  cases reverse <;> simp only [if_true, if_false, Bool.false_eq_true] at hstart hstop <;>
    simp only [if_true, if_false, Bool.false_eq_true, hstart, hstop, hfind, Option.bind_eq_bind,
      Option.bind_some, Option.pure_def]

theorem dbSelectChunkTreeCommon_partly_some {tb' : DbTableTree Obj} {this : Addr}
    {n : TreeDbTerm Obj} (hb : mpi.keyBoundness = .partiallyBound)
    (hstart : (if reverse then mpi.most else mpi.least) = some start)
    (hstop : (if reverse then mpi.least else mpi.most) = some stop)
    (hfind : tb.findFromPbKey T P (chunkDir reverse).other start = some (some this, tb'))
    (hn : tb'.heap this = some n) :
    tb.dbSelectChunkTreeCommon T P mpi chunkSize reverse =
      chunkFrom T P mpi.mp chunkSize reverse (some (T.getkey n.dbterm)) (P.endCondition stop)
        tb' := by
  rw [dbSelectChunkTreeCommon, hb, chunkFrom]
  cases reverse <;> simp only [if_true, if_false, Bool.false_eq_true] at hstart hstop <;>
    simp only [if_true, if_false, Bool.false_eq_true, hstart, hstop, hfind, hn, Option.bind_eq_bind,
      Option.bind_some, Option.pure_def]

/-- **The first call**, for keys that are partly bound. -/
theorem dbSelectChunkTreeCommon_partly (hmono : P.Monotone T) (hn : 0 < chunkSize)
    (hcovers : mpi.Covers T P) (hb : mpi.keyBoundness = .partiallyBound)
    (hstart : (if reverse then mpi.most else mpi.least) = some start)
    (hstop : (if reverse then mpi.least else mpi.most) = some stop)
    (h : Underway T P mpi chunkSize reverse log s t []) (hroom : t.height ≤ stackNeed)
    (hphase : s.phase = .start) :
    CallOk T P mpi chunkSize reverse log s t []
      (s.tb.dbSelectChunkTreeCommon T P mpi chunkSize reverse) := by
  have hend : EndOk T P (chunkDir reverse) mpi.mp (P.endCondition stop) := fun o hmp =>
    atEnd_endCondition (hcovers.range hb hstart hstop hmp).2
  obtain ⟨stack, hfind, hc⟩ :=
    findFromPbKey_spec hmono h.inv hroom (chunkDir reverse).other start
  have hinv : Inv T (s.tb.setStaticStack stack) t := h.inv.setStaticStack stack
  cases hcells : pastCells T P (chunkDir reverse).other start t with
  | nil =>
    rw [hcells] at hfind
    rw [dbSelectChunkTreeCommon_partly_none hb hstart hstop hfind]
    exact chunkFrom_ok hmono hn h hroom hphase hinv hc hend .nothing
  | cons c cs =>
    have hmem : c ∈ pastCells T P (chunkDir reverse).other start t := by
      rw [hcells]
      exact List.mem_cons_self
    obtain ⟨hlisting, hpast⟩ := List.mem_filter.1 hmem
    obtain ⟨a, n, ha, hthis, hterm⟩ := headAt_objsOf h.inv.linked fun b (hb : b ∈ [c]) => by
      rw [List.mem_singleton.1 hb]
      exact hlisting
    have haddr : addr? (c :: cs) = some a := ha
    rw [hcells, haddr] at hfind
    rw [dbSelectChunkTreeCommon_partly_some hb hstart hstop hfind hthis]
    refine chunkFrom_ok hmono hn h hroom hphase hinv hc hend ?_
    rw [hterm]
    exact .of_past hmono hpast fun o hmp => (hcovers.range hb hstart hstop hmp).1

/-- **The first call**, for a key that is bound. -/
theorem dbSelectChunkTreeCommon_bound (hn : 0 < chunkSize) (hcovers : mpi.Covers T P)
    (hb : mpi.keyBoundness = .bound) {least : Key} (hleast : mpi.least = some least)
    (h : Underway T P mpi chunkSize reverse log s t []) (hroom : t.height ≤ stackNeed)
    (hphase : s.phase = .start) :
    CallOk T P mpi chunkSize reverse log s t []
      (s.tb.dbSelectChunkTreeCommon T P mpi chunkSize reverse) := by
  have hne : s.phase ≠ .eot := by
    rw [hphase]
    exact fun h => by cases h
  have hgathered := h.gathered
  rw [hphase, ChunkPhase.collected, List.append_nil] at hgathered
  have hequal : ∀ o, Stays (log ++ [objects t]) o → mpi.mp o ≠ none →
      o ∈ equal T least (objects t) := by
    intro o hstays hmp
    have hkey := hcovers o hmp
    rw [hb] at hkey
    exact mem_equal.2 ⟨hstays.of_append.2, hkey least hleast⟩
  rcases (findNode_spec h.inv hroom .empty : equal T least _ = [] ∧ _ ∨ _) with
    ⟨hnone, hfind⟩ | ⟨this, n, hone, hfind, hthis⟩
  · refine ⟨.eot, s.tb, [], ?_, ⟨h.inv, h.cursor, ?_, ?_, h.chunks.of_full hne⟩, fun _ => trivial⟩
    · rw [dbSelectChunkTreeCommon, hb]
      simp only [hleast, hfind, Option.bind_eq_bind, Option.bind_some]
      rfl
    · rw [← List.append_nil s.chunks.flatten] at hgathered
      exact hgathered.append_log _
    · rw [hnone] at hequal
      exact hequal
  · rw [hone] at hequal
    have hseen : Gathered T (chunkDir reverse) mpi.mp (log ++ [objects t]) [n.dbterm]
        (s.chunks.flatten ++ (mpi.mp n.dbterm).toList) := by
      refine ⟨?_, List.pairwise_singleton _ _, fun o ho => ?_⟩
      · rw [hgathered.results_eq, List.filterMap_nil, List.nil_append]
        cases hmp : mpi.mp n.dbterm <;> simp [hmp]
      · rw [List.mem_singleton.1 ho]
        refine ⟨_, List.mem_append_right _ (.head _), ?_⟩
        exact (mem_equal.1 (hone ▸ List.mem_cons_self)).1
    cases hmp : mpi.mp n.dbterm with
    | none =>
      rw [hmp] at hseen
      refine ⟨.eot, s.tb, [n.dbterm], ?_, ⟨h.inv, h.cursor, hseen, hequal,
        h.chunks.of_full hne⟩, fun _ => trivial⟩
      rw [dbSelectChunkTreeCommon, hb]
      simp [hleast, hfind, doitSelect_eq hthis, Patterns.atEnd, selected, hmp]
    | some ret =>
      rw [hmp] at hseen
      refine ⟨.tuple [ret] none, s.tb, [n.dbterm], ?_, ⟨h.inv, h.cursor, ?_, hequal,
        h.chunks.append hne Nat.one_pos hn fun h => absurd rfl h⟩, fun _ => trivial⟩
      · rw [dbSelectChunkTreeCommon, hb]
        simp [hleast, hfind, doitSelect_eq hthis, Patterns.atEnd, selected, hmp]
      show Gathered T _ _ _ _ ((s.chunks ++ [[ret]]).flatten ++ [])
      rw [List.append_nil, List.flatten_append]
      exact hseen

/-- **The first call.** -/
theorem dbSelectChunkTreeCommon_ok (hmono : P.Monotone T) (hn : 0 < chunkSize)
    (hcovers : mpi.Covers T P) (hbounded : mpi.Bounded)
    (h : Underway T P mpi chunkSize reverse log s t []) (hroom : t.height ≤ stackNeed)
    (hphase : s.phase = .start) :
    CallOk T P mpi chunkSize reverse log s t []
      (s.tb.dbSelectChunkTreeCommon T P mpi chunkSize reverse) := by
  cases hb : mpi.keyBoundness with
  | unbound =>
    rw [dbSelectChunkTreeCommon_unbound hb]
    exact chunkFrom_ok hmono hn h hroom hphase h.inv h.cursor (fun _ _ => rfl) .nothing
  | partiallyBound =>
    obtain ⟨least, hleast⟩ := hbounded.least (Or.inr hb)
    obtain ⟨most, hmost⟩ := hbounded.most hb
    cases reverse with
    | true => exact dbSelectChunkTreeCommon_partly hmono hn hcovers hb hmost hleast h hroom hphase
    | false => exact dbSelectChunkTreeCommon_partly hmono hn hcovers hb hleast hmost h hroom hphase
  | bound =>
    obtain ⟨least, hleast⟩ := hbounded.least (Or.inl hb)
    exact dbSelectChunkTreeCommon_bound hn hcovers hb hleast h hroom hphase
  | impossible =>
    have hne : s.phase ≠ .eot := by
      rw [hphase]
      exact fun h => by cases h
    have hgathered := h.gathered
    rw [hphase] at hgathered
    refine ⟨.eot, s.tb, [], ?_, ⟨h.inv, h.cursor, hgathered.append_log _, fun o _ hmp => ?_,
      h.chunks.of_full hne⟩, fun _ => trivial⟩
    · rw [dbSelectChunkTreeCommon, hb]
      rfl
    · have hkey := hcovers o hmp
      rw [hb] at hkey
      exact hkey.elim

/-! ## The results are turned around -/

theorem selectReverseLoop_spec (maxIter : ℕ) (list result : List Res) :
    (selectReverseLoop maxIter list result).1.reverse ++
        (selectReverseLoop maxIter list result).2 = list.reverse ++ result ∧
      (selectReverseLoop maxIter list result).1.length +
        (selectReverseLoop maxIter list result).2.length = list.length + result.length := by
  induction maxIter generalizing list result with
  | zero => cases list <;> exact ⟨rfl, rfl⟩
  | succ maxIter ih =>
    cases list with
    | nil => exact ⟨rfl, rfl⟩
    | cons x list =>
      obtain ⟨heq, hlen⟩ := ih list (x :: result)
      refine ⟨?_, ?_⟩
      · rw [selectReverseLoop, heq, List.reverse_cons, List.append_assoc]
        rfl
      · rw [selectReverseLoop, hlen, List.length_cons, List.length_cons]
        omega

theorem Held.append_log (h : Held T P mpi chunkSize reverse log seen c) (objs : List Obj) :
    Held T P mpi chunkSize reverse (log ++ [objs]) seen c :=
  ⟨h.mp_eq, h.chunkSize_eq, h.reverse_eq, h.got_eq, h.lt, h.endOk, h.upTo.append_log objs⟩

/-- **A call of `ets_select_reverse`.** -/
theorem Underway.turnAround (h : Underway T P mpi chunkSize reverse log s t seen)
    {list result : List Res} {next : Option (ChunkContinuation Key Obj Res)}
    (hphase : s.phase = .reverse list result next) :
    Underway T P mpi chunkSize reverse (log ++ [objects t])
      (s.returned s.tb (etsSelectReverse list result next)) t seen := by
  obtain ⟨hinv, hc, hgathered, hok, hchunks⟩ := h
  have hne : s.phase ≠ .eot := by
    rw [hphase]
    exact fun h => by cases h
  obtain ⟨heq, hlen⟩ := selectReverseLoop_spec (contextReds * 10 - 1) list result
  rw [hphase] at hok hgathered
  rw [ChunkPhase.collected, ← heq] at hgathered
  rw [etsSelectReverse]
  generalize selectReverseLoop (contextReds * 10 - 1) list result = turned at heq hlen hgathered
  obtain ⟨rest, result'⟩ := turned
  cases rest with
  | nil =>
    have hresult : result'.length = list.length + result.length := by
      rw [← hlen]
      exact (Nat.zero_add _).symm
    have hgathered' := hgathered.append_log (objects t)
    cases next with
    | none =>
      obtain ⟨hall, hpos, hle⟩ := hok
      refine ⟨hinv, hc, ?_, hall.append_log _, hchunks.append hne (hresult ▸ hpos)
        (hresult ▸ hle) fun h => absurd rfl h⟩
      show Gathered T _ _ _ _ ((s.chunks ++ [result']).flatten ++ [])
      rw [List.append_nil, List.flatten_append, List.flatten_singleton]
      exact hgathered'
    | some c =>
      obtain ⟨hheld, haccum, hsize⟩ := hok
      have hpos : 0 < chunkSize := Nat.zero_lt_of_lt hheld.lt
      refine ⟨hinv, hc, ?_, hheld.append_log _, hchunks.append hne ?_ ?_ fun _ => ?_⟩
      · show Gathered T _ _ _ _ ((s.chunks ++ [result']).flatten ++ c.accum.reverse)
        rw [haccum, List.reverse_nil, List.append_nil, List.flatten_append,
          List.flatten_singleton]
        exact hgathered'
      · omega
      · omega
      · omega
  | cons x rest =>
    refine ⟨hinv, hc, hgathered.append_log _, ?_, hchunks.of_full hne⟩
    cases next with
    | none =>
      obtain ⟨hall, hpos, hle⟩ := hok
      exact ⟨hall.append_log _, hlen ▸ hpos, hlen ▸ hle⟩
    | some c =>
      obtain ⟨hheld, haccum, hsize⟩ := hok
      exact ⟨hheld.append_log _, haccum, hlen.trans hsize⟩

/-! ## Runs -/

/-- The contents of the table in the calls of the `select`. -/
def contentsAt (T : Terms Key Obj) : List Obj → List (ChunkEvent Key Obj) → List (List Obj)
  | _, [] => []
  | objs, .call call :: events => contentsAt T (call.onMap T (Query.result T) objs).2 events
  | objs, .select :: events => objs :: contentsAt T objs events

/-- A session before its first call. -/
def ChunkSession.before (tb : DbTableTree Obj) : ChunkSession Key Obj Res := ⟨tb, .start, []⟩

theorem underway_before (h : Inv T tb t) (hc : Cursor t tb.staticStack) :
    Underway T P mpi chunkSize reverse [] (.before tb) t [] := by
  refine ⟨h, hc, ⟨rfl, .nil, fun _ ho => absurd ho List.not_mem_nil⟩, ⟨rfl, rfl⟩, ?_⟩
  exact ⟨fun _ h => absurd h List.not_mem_nil, fun _ _ h => absurd h List.not_mem_nil,
    fun _ h => absurd h List.not_mem_nil⟩

/-- **The next call** of a `select`. -/
theorem select_underway (hmono : P.Monotone T) (hn : 0 < chunkSize) (hcovers : mpi.Covers T P)
    (hbounded : mpi.Bounded) (h : Underway T P mpi chunkSize reverse log s t seen)
    (hroom : t.height ≤ stackNeed) :
    ∃ s' seen', s.select T P mpi chunkSize reverse = some s' ∧
      Underway T P mpi chunkSize reverse (log ++ [objects t]) s' t seen' := by
  rw [ChunkSession.select]
  cases hphase : s.phase with
  | start =>
    have hok := h.ok
    rw [hphase] at hok
    obtain ⟨rfl, rfl⟩ := hok
    obtain ⟨ret, tb', new, hrun, h', -⟩ :=
      dbSelectChunkTreeCommon_ok hmono hn hcovers hbounded h hroom hphase
    refine ⟨_, _, ?_, h'⟩
    simp only [hrun, Option.bind_eq_bind, Option.bind_some]
    rfl
  | select c =>
    obtain ⟨ret, tb', new, hrun, h', -⟩ := dbSelectContinueChunk_ok hmono hn h hroom hphase
    refine ⟨_, _, ?_, h'⟩
    simp only [hrun, Option.bind_eq_bind, Option.bind_some]
    rfl
  | reverse list result next => exact ⟨_, seen, rfl, h.turnAround hphase⟩
  | eot =>
    have hok := h.ok
    rw [hphase] at hok
    refine ⟨s, seen, rfl, h.inv, h.cursor, h.gathered.append_log _, ?_, h.chunks⟩
    rw [hphase]
    exact hok.append_log _

/-- **Any events** keep the invariant. -/
theorem run_underway (hmono : P.Monotone T) (hn : 0 < chunkSize) (hcovers : mpi.Covers T P)
    (hbounded : mpi.Bounded) {events : List (ChunkEvent Key Obj)}
    (h : Underway T P mpi chunkSize reverse log s t seen)
    (hfits : s.Fits T P mpi chunkSize reverse events) :
    ∃ s' t' seen', s.run T P mpi chunkSize reverse events = some s' ∧
      Underway T P mpi chunkSize reverse (log ++ contentsAt T (objects t) events) s' t' seen' := by
  induction events generalizing s t log seen with
  | nil =>
    refine ⟨s, t, seen, rfl, ?_⟩
    rw [contentsAt, List.append_nil]
    exact h
  | cons event events ih =>
    obtain ⟨hnum, hevent, hrest⟩ := hfits
    cases event with
    | call call =>
      obtain ⟨reply, tb', t', hrun, hinv, hc, hmap⟩ := call_spec h.inv h.cursor hnum hevent
      have hstep : s.step T P mpi chunkSize reverse (.call call) = some { s with tb := tb' } := by
        rw [ChunkSession.step, hrun]
        rfl
      rw [hstep] at hrest
      have h₁ : Underway T P mpi chunkSize reverse log { s with tb := tb' } t' seen :=
        ⟨hinv, hc, h.gathered, h.ok, h.chunks⟩
      obtain ⟨s', t'', seen', hruns, h'⟩ := ih h₁ hrest
      refine ⟨s', t'', seen', ?_, ?_⟩
      · rw [ChunkSession.run, hstep]
        exact hruns
      · rw [contentsAt, hmap]
        exact h'
    | select =>
      have hroom : t.height ≤ stackNeed :=
        (Avl.height_lt h.inv.avl (h.inv.nitems_eq ▸ hnum)).le
      obtain ⟨s₁, seen₁, hrun, h₁⟩ := select_underway hmono hn hcovers hbounded h hroom
      have hstep : s.step T P mpi chunkSize reverse .select = some s₁ := hrun
      rw [hstep] at hrest
      obtain ⟨s', t', seen', hruns, h'⟩ := ih h₁ hrest
      refine ⟨s', t', seen', ?_, ?_⟩
      · rw [ChunkSession.run, hstep]
        exact hruns
      · rw [contentsAt]
        rw [List.append_assoc] at h'
        exact h'

/-- **A `select` in chunks while the table changes.** The chunks together are the results of some
objects in the order of their keys; each of these has been in the table in a call of the `select`.
At the end of the table, an object that has a result and has been in the table in all of the calls
is one of them. All chunks but the last are full, and none is empty. -/
theorem chunks_safe (T : Terms Key Obj) (P : Patterns Key) (hmono : P.Monotone T)
    (mpi : MpInfo Key Obj (Option Res)) (hbounded : mpi.Bounded) (hcovers : mpi.Covers T P)
    {chunkSize : ℕ} (hn : 0 < chunkSize) (reverse : Bool) (events : List (ChunkEvent Key Obj))
    (hfits : (ChunkSession.before dbCreateTree).Fits T P mpi chunkSize reverse events) :
    ∃ s, (ChunkSession.before dbCreateTree).run T P mpi chunkSize reverse events = some s ∧
      (∃ seen : List Obj,
        (s.chunks.flatten ++ s.phase.collected = seen.filterMap mpi.mp) ∧
        (seen.Pairwise fun o o' => Later T (chunkDir reverse) (T.getkey o) (T.getkey o')) ∧
        (∀ o ∈ seen, ∃ objs ∈ contentsAt T [] events, o ∈ objs) ∧
        (s.phase = .eot → s.phase.collected = [] ∧ ∀ o, mpi.mp o ≠ none →
          (∀ objs ∈ contentsAt T [] events, o ∈ objs) → o ∈ seen)) ∧
      (∀ chunk ∈ s.chunks, 0 < chunk.length ∧ chunk.length ≤ chunkSize) ∧
      ∀ chunk ∈ s.chunks.dropLast, chunk.length = chunkSize := by
  obtain ⟨s, t, seen, hrun, h⟩ := run_underway hmono hn hcovers hbounded
    (underway_before inv_dbCreateTree .empty) hfits
  rw [List.nil_append] at h
  refine ⟨s, hrun, ⟨seen, h.gathered.results_eq, h.gathered.pairwise, h.gathered.inLog, ?_⟩,
    h.chunks.size, h.chunks.full_dropLast⟩
  intro hphase
  have hok := h.ok
  rw [hphase] at hok ⊢
  exact ⟨rfl, fun o hmp hstays => hok o hstays hmp⟩

/-! ## Without updates -/

/-- How much a phase has still to do, where `n` of the objects have not been seen. -/
def ChunkPhase.todo (n : ℕ) : ChunkPhase Key Obj Res → ℕ
  | .start => 3 * n + 3
  | .select c => 3 * n + c.accum.length + 2
  | .reverse list _ none => list.length + 1
  | .reverse list _ (some _) => list.length + 3 * n + 3
  | .eot => 0

theorem ChunkPhase.todo_le (n : ℕ) (phase : ChunkPhase Key Obj Res) :
    phase.todo n ≤ phase.collected.length + 3 * n + 3 := by
  cases phase with
  | start =>
    show 3 * n + 3 ≤ 0 + 3 * n + 3
    omega
  | select c =>
    rw [todo, collected, List.length_reverse]
    omega
  | reverse list result next =>
    rw [collected, List.length_append, List.length_reverse]
    cases next with
    | none =>
      rw [todo]
      omega
    | some c =>
      rw [todo]
      omega
  | eot => exact Nat.zero_le _

theorem ChunkPhase.Ending.todo_le {phase : ChunkPhase Key Obj Res} (h : phase.Ending) (n : ℕ) :
    phase.todo n ≤ phase.collected.length + 1 := by
  cases phase with
  | start => exact h.elim
  | select c => exact h.elim
  | reverse list result next =>
    cases next with
    | none =>
      rw [todo, collected, List.length_append, List.length_reverse]
      omega
    | some c => exact h.elim
  | eot => exact Nat.zero_le _

/-- The objects seen are among those of a table that does not change. -/
theorem Gathered.sublist {results : List Res} (h : Gathered T d mp log seen results)
    (hlog : ∀ objs ∈ log, objs = objects t) (hasc : Ascending T (objects t)) :
    seen.Sublist (dirObjs d t) := by
  have hantisymm : Std.Antisymm fun o o' => Later T d (T.getkey o) (T.getkey o') :=
    ⟨fun _ _ h h' => absurd h' h.not_later⟩
  have hirrefl : Std.Irrefl fun o o' => Later T d (T.getkey o) (T.getkey o') :=
    ⟨fun _ => not_later_self _⟩
  refine List.sublist_of_subperm_of_pairwise (h.pairwise.nodup.subperm fun o ho => ?_) h.pairwise
    (dirObjs_pairwise hasc d)
  obtain ⟨objs, hobjs, hmem⟩ := h.inLog o ho
  rw [hlog objs hobjs] at hmem
  exact mem_dirObjs.2 hmem

/-- A call returns at most the results of the objects that it visits. -/
theorem collected_le {s' : ChunkSession Key Obj Res} {new : List Obj} {log' : List (List Obj)}
    (h : Gathered T d mp log seen (s.chunks.flatten ++ s.phase.collected))
    (h' : Gathered T d mp log' (seen ++ new) (s'.chunks.flatten ++ s'.phase.collected))
    (hchunks : s.chunks.flatten.length ≤ s'.chunks.flatten.length) :
    s'.phase.collected.length ≤ s.phase.collected.length + new.length := by
  have hlen := congrArg List.length h.results_eq
  have hlen' := congrArg List.length h'.results_eq
  have hnew := List.length_filterMap_le mp new
  rw [List.length_append] at hlen
  rw [List.length_append, List.filterMap_append, List.length_append] at hlen'
  omega

theorem flatten_returned_le (s : ChunkSession Key Obj Res) (tb : DbTableTree Obj)
    (ret : ChunkRet Key Obj Res) :
    s.chunks.flatten.length ≤ (s.returned tb ret).chunks.flatten.length := by
  cases ret with
  | tuple results next =>
    rw [ChunkSession.returned, List.flatten_append, List.length_append]
    exact Nat.le_add_right _ _
  | eot => exact le_rfl
  | trapReverse list result next => exact le_rfl
  | trapSelect c => exact le_rfl

/-- A call that visits objects leaves less to do. -/
theorem todo_lt_of_call {s' : ChunkSession Key Obj Res} {new : List Obj} {n : ℕ}
    (hcollected : s'.phase.collected.length ≤ s.phase.collected.length + new.length)
    (hnew : new.length ≤ n) (hending : new = [] → s'.phase.Ending)
    (htodo : s.phase.collected.length + 3 * n + 2 ≤ s.phase.todo n) :
    s'.phase.todo (n - new.length) < s.phase.todo n := by
  by_cases hnil : new = []
  · have := (hending hnil).todo_le (n - new.length)
    subst hnil
    rw [List.length_nil] at *
    omega
  · have hpos := List.length_pos_iff.2 hnil
    have := s'.phase.todo_le (n - new.length)
    omega

theorem selectReverseLoop_lt (maxIter : ℕ) {list : List Res} (hlist : list ≠ [])
    (result : List Res) :
    (selectReverseLoop (maxIter + 1) list result).1.length < list.length := by
  have hle : ∀ (m : ℕ) (l r : List Res), (selectReverseLoop m l r).1.length ≤ l.length := by
    intro m
    induction m with
    | zero => intro l r; cases l <;> exact le_rfl
    | succ m ih =>
      intro l r
      cases l with
      | nil => exact le_rfl
      | cons x l => exact (ih l (x :: r)).trans (Nat.le_succ _)
  cases list with
  | nil => exact absurd rfl hlist
  | cons x list => exact Nat.lt_succ_of_le (hle maxIter list (x :: result))

/-- **A call leaves less to do**, if the table has not changed. -/
theorem select_progress (hmono : P.Monotone T) (hn : 0 < chunkSize) (hcovers : mpi.Covers T P)
    (hbounded : mpi.Bounded) (h : Underway T P mpi chunkSize reverse log s t seen)
    (hlog : ∀ objs ∈ log, objs = objects t) (hroom : t.height ≤ stackNeed) :
    ∃ s' seen', s.select T P mpi chunkSize reverse = some s' ∧
      Underway T P mpi chunkSize reverse (log ++ [objects t]) s' t seen' ∧
      (s'.phase.todo (t.numNodes - seen'.length) < s.phase.todo (t.numNodes - seen.length) ∨
        s'.phase = .eot) := by
  have hlog' : ∀ objs ∈ log ++ [objects t], objs = objects t := fun objs hobjs =>
    (List.mem_append.1 hobjs).elim (hlog objs) List.mem_singleton.1
  have hcall : ∀ {called}, CallOk T P mpi chunkSize reverse log s t seen called →
      s.phase.collected.length + 3 * (t.numNodes - seen.length) + 2 ≤
        s.phase.todo (t.numNodes - seen.length) →
      ∃ ret tb' seen', called = some (ret, tb') ∧
        Underway T P mpi chunkSize reverse (log ++ [objects t]) (s.returned tb' ret) t seen' ∧
        (s.returned tb' ret).phase.todo (t.numNodes - seen'.length) <
          s.phase.todo (t.numNodes - seen.length) := by
    rintro called ⟨ret, tb', new, hrun, h', hending⟩ htodo
    have hle := (h'.gathered.sublist hlog' h.inv.ascending).length_le
    rw [length_dirObjs, List.length_append] at hle
    refine ⟨ret, tb', seen ++ new, hrun, h', ?_⟩
    rw [List.length_append, ← Nat.sub_sub]
    exact todo_lt_of_call (collected_le h.gathered h'.gathered (flatten_returned_le _ _ _))
      (by omega) hending htodo
  rw [ChunkSession.select]
  cases hphase : s.phase with
  | start =>
    have hok := h.ok
    rw [hphase] at hok hcall
    obtain ⟨rfl, rfl⟩ := hok
    obtain ⟨ret, tb', seen', hrun, h', hlt⟩ := hcall
      (dbSelectChunkTreeCommon_ok hmono hn hcovers hbounded h hroom hphase) (by
        show 0 + 3 * _ + 2 ≤ 3 * _ + 3
        omega)
    refine ⟨_, seen', ?_, h', Or.inl hlt⟩
    simp only [hrun, Option.bind_eq_bind, Option.bind_some]
    rfl
  | select c =>
    rw [hphase] at hcall
    obtain ⟨ret, tb', seen', hrun, h', hlt⟩ := hcall
      (dbSelectContinueChunk_ok hmono hn h hroom hphase) (by
        rw [ChunkPhase.collected, ChunkPhase.todo, List.length_reverse]
        omega)
    refine ⟨_, seen', ?_, h', Or.inl hlt⟩
    simp only [hrun, Option.bind_eq_bind, Option.bind_some]
    rfl
  | reverse list result next =>
    have hok := h.ok
    rw [hphase] at hok
    refine ⟨_, seen, rfl, h.turnAround hphase, ?_⟩
    rw [etsSelectReverse]
    have hshorter : (selectReverseLoop (contextReds * 10 - 1) list result).1 = [] ∨
        (selectReverseLoop (contextReds * 10 - 1) list result).1.length < list.length := by
      cases list with
      | nil => exact Or.inl rfl
      | cons x list => exact Or.inr (selectReverseLoop_lt _ (List.cons_ne_nil _ _) result)
    generalize selectReverseLoop (contextReds * 10 - 1) list result = turned at hshorter
    obtain ⟨rest, result'⟩ := turned
    cases rest with
    | nil =>
      cases next with
      | none => exact Or.inr rfl
      | some c =>
        refine Or.inl ?_
        show 3 * _ + c.accum.length + 2 < list.length + 3 * _ + 3
        rw [hok.2.1, List.length_nil]
        omega
    | cons x rest =>
      have hlt := hshorter.resolve_left (List.cons_ne_nil _ _)
      refine Or.inl ?_
      cases next with
      | none => exact Nat.succ_lt_succ hlt
      | some c => exact Nat.add_lt_add_right (Nat.add_lt_add_right hlt _) _
  | eot =>
    obtain ⟨s', seen', hrun, h'⟩ := select_underway hmono hn hcovers hbounded h hroom
    rw [ChunkSession.select, hphase] at hrun
    cases hrun
    exact ⟨s, seen', rfl, h', Or.inr hphase⟩

/-- The event is a query, or the `select` goes on. -/
def ChunkEvent.readsTable : ChunkEvent Key Obj → Bool
  | .call (.update _) => false
  | _ => true

/-- The number of calls of the `select`. -/
def selects (events : List (ChunkEvent Key Obj)) : ℕ :=
  events.countP fun event => match event with
    | .select => true
    | .call _ => false

theorem ChunkPhase.eq_eot {phase : ChunkPhase Key Obj Res} {n : ℕ} (h : phase.todo n = 0) :
    phase = .eot := by
  cases phase with
  | start => cases h
  | select c => cases h
  | reverse list result next => cases next <;> cases h
  | eot => rfl

/-- **Without updates** the contents stay, and the calls come to an end. -/
theorem run_total (hmono : P.Monotone T) (hn : 0 < chunkSize) (hcovers : mpi.Covers T P)
    (hbounded : mpi.Bounded) {events : List (ChunkEvent Key Obj)}
    (hreads : ∀ event ∈ events, event.readsTable = true)
    (h : Underway T P mpi chunkSize reverse log s t seen)
    (hlog : ∀ objs ∈ log, objs = objects t) (hroom : t.height ≤ stackNeed) :
    ∃ s' seen' log', s.run T P mpi chunkSize reverse events = some s' ∧
      Underway T P mpi chunkSize reverse log' s' t seen' ∧ (∀ objs ∈ log', objs = objects t) ∧
      (s.phase.todo (t.numNodes - seen.length) ≤ selects events → s'.phase = .eot) := by
  induction events generalizing s log seen with
  | nil =>
    exact ⟨s, seen, log, rfl, h, hlog, fun hle => ChunkPhase.eq_eot (Nat.le_zero.1 hle)⟩
  | cons event events ih =>
    obtain ⟨hevent, hrest⟩ := List.forall_mem_cons.1 hreads
    cases event with
    | call call =>
      cases call with
      | update op => cases hevent
      | query q =>
        obtain ⟨stack, hrun, hc⟩ := (query_answers h.inv hroom h.cursor q).run
        have h₁ : Underway T P mpi chunkSize reverse log
            { s with tb := s.tb.setStaticStack stack } t seen :=
          ⟨h.inv.setStaticStack stack, hc, h.gathered, h.ok, h.chunks⟩
        obtain ⟨s', seen', log', hruns, h', hlog', hend⟩ := ih hrest h₁ hlog
        refine ⟨s', seen', log', ?_, h', hlog', hend⟩
        rw [ChunkSession.run, ChunkSession.step, Call.onTable, hrun]
        exact hruns
    | select =>
      obtain ⟨s₁, seen₁, hrun, h₁, htodo⟩ :=
        select_progress hmono hn hcovers hbounded h hlog hroom
      have hlog₁ : ∀ objs ∈ log ++ [objects t], objs = objects t := fun objs hobjs =>
        (List.mem_append.1 hobjs).elim (hlog objs) List.mem_singleton.1
      obtain ⟨s', seen', log', hruns, h', hlog', hend⟩ := ih hrest h₁ hlog₁
      refine ⟨s', seen', log', ?_, h', hlog', fun hle => hend ?_⟩
      · rw [ChunkSession.run, ChunkSession.step, hrun]
        exact hruns
      · rw [selects, List.countP_cons_of_pos rfl, ← selects] at hle
        rcases htodo with hlt | heot
        · omega
        · rw [heot]
          exact Nat.zero_le _

/-- Without updates there is room for all events. -/
theorem fits_of_reads (hmono : P.Monotone T) (hn : 0 < chunkSize) (hcovers : mpi.Covers T P)
    (hbounded : mpi.Bounded) {events : List (ChunkEvent Key Obj)}
    (hreads : ∀ event ∈ events, event.readsTable = true)
    (h : Underway T P mpi chunkSize reverse log s t seen) (hnum : t.numNodes < 2 ^ 61) :
    s.Fits T P mpi chunkSize reverse events := by
  induction events generalizing s log seen with
  | nil => trivial
  | cons event events ih =>
    obtain ⟨hevent, hrest⟩ := List.forall_mem_cons.1 hreads
    have hroom : t.height ≤ stackNeed := (Avl.height_lt h.inv.avl hnum).le
    have hnitems : s.tb.nitems < 2 ^ 61 := h.inv.nitems_eq ▸ hnum
    cases event with
    | call call =>
      cases call with
      | update op => cases hevent
      | query q =>
        obtain ⟨stack, hrun, hc⟩ := (query_answers h.inv hroom h.cursor q).run
        have h₁ : Underway T P mpi chunkSize reverse log
            { s with tb := s.tb.setStaticStack stack } t seen :=
          ⟨h.inv.setStaticStack stack, hc, h.gathered, h.ok, h.chunks⟩
        refine ⟨hnitems, trivial, ?_⟩
        rw [ChunkSession.step, Call.onTable, hrun]
        exact ih hrest h₁
    | select =>
      obtain ⟨s₁, seen₁, hrun, h₁⟩ := select_underway hmono hn hcovers hbounded h hroom
      refine ⟨hnitems, trivial, ?_⟩
      rw [ChunkSession.step, hrun]
      exact ih hrest h₁

/-- The contents of the table after some calls, in the order of their keys. -/
def contents (T : Terms Key Obj) (calls : List (Call Key Obj)) : List Obj :=
  (mapCalls T (Query.result T) [] calls).2

/-- **A `select` in chunks returns all results.** If there are no updates from its first call on,
the `select` comes to the end of the table after enough calls, and the chunks together are the
results of the objects in the table, in the order of their keys. -/
theorem chunks_complete (T : Terms Key Obj) (P : Patterns Key) (hmono : P.Monotone T)
    (mpi : MpInfo Key Obj (Option Res)) (hbounded : mpi.Bounded) (hcovers : mpi.Covers T P)
    {chunkSize : ℕ} (hn : 0 < chunkSize) (reverse : Bool) (calls : List (Call Key Obj))
    (hfits : CallsFit T dbCreateTree calls) (hnum : (contents T calls).length < 2 ^ 61)
    (events : List (ChunkEvent Key Obj)) (hreads : ∀ event ∈ events, event.readsTable = true)
    (hcount : 3 * (contents T calls).length + 3 ≤ selects events) :
    ∃ replies tb s, runCalls T dbCreateTree calls = some (replies, tb) ∧
      (ChunkSession.before tb).run T P mpi chunkSize reverse events = some s ∧ s.phase = .eot ∧
      s.chunks.flatten =
        (if reverse then (contents T calls).reverse else contents T calls).filterMap mpi.mp ∧
      (∀ chunk ∈ s.chunks, 0 < chunk.length ∧ chunk.length ≤ chunkSize) ∧
      ∀ chunk ∈ s.chunks.dropLast, chunk.length = chunkSize := by
  obtain ⟨replies, tb, t, hrun, hinv, hc, hmap⟩ := calls_spec inv_dbCreateTree .empty hfits
  have hcontents : contents T calls = objects t := congrArg Prod.snd hmap
  rw [hcontents, length_objects] at hnum hcount
  have hroom : t.height ≤ stackNeed := (Avl.height_lt hinv.avl hnum).le
  obtain ⟨s, seen, log, hruns, h, hlog, hend⟩ := run_total hmono hn hcovers hbounded hreads
    (underway_before hinv hc) (fun _ hobjs => absurd hobjs List.not_mem_nil) hroom
  have hphase : s.phase = .eot := hend hcount
  refine ⟨replies, tb, s, hrun, hruns, hphase, ?_, h.chunks.size, h.chunks.full_dropLast⟩
  have hok := h.ok
  have hgathered := h.gathered
  rw [hphase] at hok hgathered
  rw [ChunkPhase.collected, List.append_nil] at hgathered
  have hsublist := hgathered.sublist hlog hinv.ascending
  have hirrefl : Std.Irrefl fun o o' => Later T (chunkDir reverse) (T.getkey o) (T.getkey o') :=
    ⟨fun _ => not_later_self _⟩
  have hnodup := (dirObjs_pairwise hinv.ascending (chunkDir reverse)).nodup
  have hdir : dirObjs (chunkDir reverse) t =
      if reverse then (objects t).reverse else objects t := by
    cases reverse
    · exact dirObjs_right t
    · exact dirObjs_left t
  rw [hcontents, hgathered.results_eq, ← hdir, filterMap_eq_iff mpi.mp hsublist hnodup]
  exact fun o ho hmp => hok o (fun objs hobjs => hlog objs hobjs ▸ mem_dirObjs.1 ho) hmp

end PonBeam.EtsTree
