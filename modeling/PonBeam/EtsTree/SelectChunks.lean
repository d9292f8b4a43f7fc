import PonBeam.EtsTree.SelectAll

/-!
# `select` in chunks for match specifications

The range that `analyze_pattern` finds covers what has a result if no comparison is misled. Then
the calls of a `select` in chunks go on as with the ranges that the variables admit.
-/

namespace PonBeam.EtsTree

open Term TermTable DbTableTree

variable {Prim Obj Res : Type} {K : TermTable Prim Obj}
  {compile : List (Term Prim × Term Prim × Term Prim) → Except DbError (Obj → Option Res)}
  {pattern : Term Prim} {mpi : MpInfo (Term Prim) Obj (Option Res)} {chunkSize : ℕ}

/-- **A `select` in chunks while the table changes.** The chunks together are the results of some
objects in the order of their keys; each of these has been in the table in a call of the `select`.
At the end of the table, an object that has a result and has been in the table in all of the calls
is one of them. All chunks but the last are full, and none is empty. -/
theorem selectChunks_safe (K : TermTable Prim Obj)
    (hpattern : K.analyzePattern compile pattern = .ok mpi)
    (hmatch : ∀ o, mpi.mp o ≠ none →
      ∃ tpl ∈ headsOf pattern, K.admits tpl (K.getkey o) = true)
    (hsound : soundHeads K (headsOf pattern) = true) (hn : 0 < chunkSize) (reverse : Bool)
    (events : List (ChunkEvent (Term Prim) Obj))
    (hmeets : ∀ objs ∈ contentsAt K.terms [] events, ∀ o ∈ objs,
      ∀ p ∈ headKeys K (headsOf pattern), meetsVariable K.toPrims p (K.getkey o) = false)
    (hfits : (ChunkSession.before dbCreateTree).Fits K.terms K.patterns mpi chunkSize reverse
      events) :
    ∃ s, (ChunkSession.before dbCreateTree).run K.terms K.patterns mpi chunkSize reverse events =
        some s ∧
      (∃ seen : List Obj,
        (s.chunks.flatten ++ s.phase.collected = seen.filterMap mpi.mp) ∧
        (seen.Pairwise fun o o' =>
          Later K.terms (chunkDir reverse) (K.getkey o) (K.getkey o')) ∧
        (∀ o ∈ seen, ∃ objs ∈ contentsAt K.terms [] events, o ∈ objs) ∧
        (s.phase = .eot → s.phase.collected = [] ∧ ∀ o, mpi.mp o ≠ none →
          (∀ objs ∈ contentsAt K.terms [] events, o ∈ objs) → o ∈ seen)) ∧
      (∀ chunk ∈ s.chunks, 0 < chunk.length ∧ chunk.length ≤ chunkSize) ∧
      ∀ chunk ∈ s.chunks.dropLast, chunk.length = chunkSize := by
  have hbounded := analyzePattern_bounded hpattern
  have hcovers := analyzePattern_covers hpattern hmatch hsound
  have hsame : SameRun K.terms K.patterns K.ranges mpi chunkSize reverse
      (.before dbCreateTree) events :=
    run_same (ranges_monotone K) hn hcovers hbounded (agree_comparable K mpi)
      (underway_before inv_dbCreateTree .empty) trivial
      fun objs hobjs o ho => comparable_of_heads hpattern (hmeets objs hobjs o ho)
  have hfits' := hsame.fits.1 hfits
  rw [hsame.run hfits']
  exact chunks_safe K.terms K.ranges (ranges_monotone K) mpi hbounded hcovers hn reverse events
    hfits'

/-- Without updates the contents are always the same. -/
theorem contentsAt_reads {T : Terms (Term Prim) Obj} {events : List (ChunkEvent (Term Prim) Obj)}
    (hreads : ∀ event ∈ events, event.readsTable = true) (objs : List Obj) :
    ∀ objs' ∈ contentsAt T objs events, objs' = objs := by
  induction events with
  | nil => exact fun _ h => absurd h List.not_mem_nil
  | cons event events ih =>
    obtain ⟨hevent, hrest⟩ := List.forall_mem_cons.1 hreads
    cases event with
    | call call =>
      cases call with
      | update op => cases hevent
      | query q => exact ih hrest
    | select => exact List.forall_mem_cons.2 ⟨rfl, ih hrest⟩

/-- **A `select` in chunks returns all results.** If there are no updates from its first call on,
the `select` comes to the end of the table after enough calls, and the chunks together are the
results of the objects in the table, in the order of their keys. -/
theorem selectChunks_complete (K : TermTable Prim Obj)
    (hpattern : K.analyzePattern compile pattern = .ok mpi)
    (hmatch : ∀ o, mpi.mp o ≠ none →
      ∃ tpl ∈ headsOf pattern, K.admits tpl (K.getkey o) = true)
    (hsound : soundHeads K (headsOf pattern) = true) (hn : 0 < chunkSize) (reverse : Bool)
    (calls : List (Call (Term Prim) Obj)) (hfits : CallsFit K.terms dbCreateTree calls)
    (hnum : (contents K.terms calls).length < 2 ^ 61)
    (hmeets : ∀ o ∈ contents K.terms calls,
      ∀ p ∈ headKeys K (headsOf pattern), meetsVariable K.toPrims p (K.getkey o) = false)
    (events : List (ChunkEvent (Term Prim) Obj))
    (hreads : ∀ event ∈ events, event.readsTable = true)
    (hcount : 3 * (contents K.terms calls).length + 3 ≤ selects events) :
    ∃ replies tb s, runCalls K.terms dbCreateTree calls = some (replies, tb) ∧
      (ChunkSession.before tb).run K.terms K.patterns mpi chunkSize reverse events = some s ∧
      s.phase = .eot ∧
      s.chunks.flatten =
        (if reverse then (contents K.terms calls).reverse else contents K.terms calls).filterMap
          mpi.mp ∧
      (∀ chunk ∈ s.chunks, 0 < chunk.length ∧ chunk.length ≤ chunkSize) ∧
      ∀ chunk ∈ s.chunks.dropLast, chunk.length = chunkSize := by
  have hbounded := analyzePattern_bounded hpattern
  have hcovers := analyzePattern_covers hpattern hmatch hsound
  obtain ⟨replies, tb, s, hrun, hruns, hdone⟩ := chunks_complete K.terms K.ranges
    (ranges_monotone K) mpi hbounded hcovers hn reverse calls hfits hnum events hreads hcount
  obtain ⟨replies', tb', t, hrun', hinv, hc, hmap⟩ := calls_spec inv_dbCreateTree .empty hfits
  rw [hrun] at hrun'
  cases hrun'
  have hcontents : contents K.terms calls = objects t := congrArg Prod.snd hmap
  rw [hcontents] at hmeets hnum
  rw [length_objects] at hnum
  have hunderway : Underway K.terms K.ranges mpi chunkSize reverse [] (.before tb) t [] :=
    underway_before hinv hc
  have hsame : SameRun K.terms K.patterns K.ranges mpi chunkSize reverse (.before tb) events :=
    run_same (ranges_monotone K) hn hcovers hbounded (agree_comparable K mpi) hunderway trivial
      fun objs hobjs o ho => comparable_of_heads hpattern
        (hmeets o (contentsAt_reads hreads _ objs hobjs ▸ ho))
  have hfits' := fits_of_reads (ranges_monotone K) hn hcovers hbounded hreads hunderway hnum
  exact ⟨replies, tb, s, hrun, (hsame.run hfits').trans hruns, hdone⟩

/-! ## Sessions -/

/-- `[{{{1, [5|'_']}}, [], ['$_']}, {{{1, [3|'_']}}, [], ['$_']}]` -/
def listHeads : Term SomePrim :=
  twoHeads [int 1, .cons (int 5) (.prim (.atom 0))] [int 1, .cons (int 3) (.prim (.atom 0))]

/-- `{{1, [m, n]}}` -/
def listRow (m n : ℤ) : Term SomePrim :=
  .tuple [.tuple [int 1, .cons (int m) (.cons (int n) .nil)]]

/-- The two numbers of such a row. -/
def numbers : Term SomePrim → Option (ℤ × ℤ)
  | .tuple [.tuple [_, .cons (.prim (.small m)) (.cons (.prim (.small n)) .nil)]] => some (m, n)
  | _ => none

/-- Insertions of such rows, each at its own address. -/
def listPuts (rows : List (ℤ × ℤ)) : List (Call (Term SomePrim) (Term SomePrim)) :=
  rows.map fun r => .update (.put (listRow r.1 r.2) true (10 * r.1 + r.2).toNat)

/-- After the first chunk, which ends with the row 3, 9, this row is deleted, a row before it and
one behind it are inserted. -/
def someSession : List (ChunkEvent (Term SomePrim) (Term SomePrim)) :=
  (listPuts [(5, 2), (3, 1), (7, 0), (4, 0), (3, 9)]).map .call ++ [.select, .select,
    .call (.update (.erase (someTable.getkey (listRow 3 9))))] ++
    (listPuts [(3, 0), (5, 8)]).map .call ++ [.select, .select, .select, .select, .select]

theorem someSession_safe :
    ((ChunkSession.before dbCreateTree).run someTable.terms someTable.patterns
        (analyzed listHeads) 2 false someSession).map
        (fun s => s.chunks.map fun chunk => chunk.map numbers) =
      some [[some (3, 1), some (3, 9)], [some (5, 2), some (5, 8)]] ∧
    ∃ s, (ChunkSession.before dbCreateTree).run someTable.terms someTable.patterns
        (analyzed listHeads) 2 false someSession = some s ∧
      (∃ seen : List (Term SomePrim),
        (s.chunks.flatten ++ s.phase.collected = seen.filterMap (analyzed listHeads).mp) ∧
        (seen.Pairwise fun o o' => Later someTable.terms (chunkDir false) (someTable.getkey o)
          (someTable.getkey o')) ∧
        (∀ o ∈ seen, ∃ objs ∈ contentsAt someTable.terms [] someSession, o ∈ objs) ∧
        (s.phase = .eot → s.phase.collected = [] ∧ ∀ o, (analyzed listHeads).mp o ≠ none →
          (∀ objs ∈ contentsAt someTable.terms [] someSession, o ∈ objs) → o ∈ seen)) ∧
      (∀ chunk ∈ s.chunks, 0 < chunk.length ∧ chunk.length ≤ 2) ∧
      ∀ chunk ∈ s.chunks.dropLast, chunk.length = 2 :=
  ⟨by decide +kernel, selectChunks_safe someTable
    (rfl : someTable.analyzePattern someProgram listHeads = .ok (analyzed listHeads))
    (fun o => analyzed_admits o) rfl (by decide) false someSession (by decide +kernel)
    (by decide +kernel)⟩

theorem fiveRows_complete :
    ∃ replies tb s,
      runCalls someTable.terms dbCreateTree (listPuts [(5, 2), (3, 1), (4, 0), (3, 9), (5, 8)]) =
        some (replies, tb) ∧
      (ChunkSession.before tb).run someTable.terms someTable.patterns (analyzed listHeads) 3 true
        (List.replicate 18 .select) = some s ∧ s.phase = .eot ∧
      s.chunks.flatten = [listRow 5 8, listRow 5 2, listRow 3 9, listRow 3 1] ∧
      (∀ chunk ∈ s.chunks, 0 < chunk.length ∧ chunk.length ≤ 3) ∧
      ∀ chunk ∈ s.chunks.dropLast, chunk.length = 3 :=
  selectChunks_complete someTable
    (rfl : someTable.analyzePattern someProgram listHeads = .ok (analyzed listHeads))
    (fun o => analyzed_admits o) rfl (by decide) true
    (listPuts [(5, 2), (3, 1), (4, 0), (3, 9), (5, 8)]) (by decide +kernel) (by decide +kernel)
    (by decide +kernel) (List.replicate 18 .select) (by decide +kernel) (by decide +kernel)

end PonBeam.EtsTree
