import PonBeam.EtsTree.SelectChunk

/-!
# The calls of a `select` in chunks

Each call goes on behind the key that the one before has come to, whether or not there is an
object with this key any more. What has been found up to then is a list of objects in the order of
their keys, which the call extends by the objects that it visits.
-/

namespace PonBeam.EtsTree

open DbTableTree

variable {Key Obj Res : Type} {T : Terms Key Obj} {P : Patterns Key} {tb : DbTableTree Obj}
  {d : Side} {t : BinaryTree (Cell Obj)} {mp : Obj → Option Res} {sc : ChunkContext Obj Key Res}
  {o : Obj} {e : Option Key} {lastkey : Option Key} {seen new left : List Obj}
  {log : List (List Obj)} {list results : List Res}

/-! ## One traversal -/

/-- The context after an object. -/
def gotten (sc : ChunkContext Obj Key Res) (mp : Obj → Option Res) (o : Obj) :
    ChunkContext Obj Key Res where
  accum := (mp o).toList ++ sc.accum
  endCondition := sc.endCondition
  lastobj := some o
  max := sc.max - 1
  got := sc.got + (mp o).toList.length
  chunkSize := sc.chunkSize

/-- The chunk is full, or the call has to trap. -/
def ChunkContext.isDone (sc : ChunkContext Obj Key Res) : Bool :=
  decide (sc.max ≤ 0 ∨ sc.got = sc.chunkSize)

/-- An object of a traversal. -/
def chunkStep (T : Terms Key Obj) (P : Patterns Key) (d : Side) (mp : Obj → Option Res)
    (sc : ChunkContext Obj Key Res) (o : Obj) : ChunkContext Obj Key Res × Bool :=
  if P.atEnd d sc.endCondition (T.getkey o) then ({ sc with lastobj := some o }, false)
  else (gotten sc mp o, !(gotten sc mp o).isDone)

theorem doitSelectChunk_reads (T : Terms Key Obj) (P : Patterns Key) (d : Side)
    (mp : Obj → Option Res) : ReadsOnly (doitSelectChunk T P d mp) (chunkStep T P d mp) := by
  intro sc tb this n hthis
  rw [doitSelectChunk, hthis, chunkStep]
  simp only [Option.bind_eq_bind, Option.bind_some]
  split
  · rfl
  · cases hmp : mp n.dbterm <;> simp only [gotten, ChunkContext.isDone, hmp] <;> rfl

/-- What a traversal has done, that has visited the objects `new` and left the others. -/
structure Gotten (T : Terms Key Obj) (P : Patterns Key) (d : Side) (mp : Obj → Option Res)
    (sc : ChunkContext Obj Key Res) (new left : List Obj) (sc' : ChunkContext Obj Key Res) :
    Prop where
  accum : sc'.accum = (new.filterMap mp).reverse ++ sc.accum
  got : sc'.got = sc.got + (new.filterMap mp).length
  endCondition : sc'.endCondition = sc.endCondition
  chunkSize : sc'.chunkSize = sc.chunkSize
  le : sc'.got ≤ sc'.chunkSize
  /-- it has come to the end, or it has stopped at an object -/
  stop : (sc'.isDone = false ∧ ∀ o ∈ left.head?, P.atEnd d sc.endCondition (T.getkey o) = true) ∨
    (sc'.isDone = true ∧ ∃ o, new.getLast? = some o ∧ sc'.lastobj = some o)

theorem visitAll_gotten (rest : List Obj) (hsc : sc.isDone = false) (hle : sc.got ≤ sc.chunkSize) :
    ∃ new left, rest = new ++ left ∧
      Gotten T P d mp sc new left (visitAll (chunkStep T P d mp) sc rest) := by
  induction rest generalizing sc with
  | nil =>
    exact ⟨[], [], rfl, rfl, rfl, rfl, rfl, hle, Or.inl ⟨hsc, fun o ho => by cases ho⟩⟩
  | cons o rest ih =>
    rw [visitAll, chunkStep]
    cases hend : P.atEnd d sc.endCondition (T.getkey o) with
    | true =>
      refine ⟨[], o :: rest, rfl, ?_⟩
      rw [if_pos rfl, if_neg Bool.false_ne_true]
      exact ⟨rfl, rfl, rfl, rfl, hle, Or.inl ⟨hsc, fun o' ho' => by cases ho'; exact hend⟩⟩
    | false =>
      rw [if_neg Bool.false_ne_true]
      have hle' : (gotten sc mp o).got ≤ (gotten sc mp o).chunkSize := by
        have hne : sc.got ≠ sc.chunkSize := fun heq => by
          rw [ChunkContext.isDone, decide_eq_false_iff_not] at hsc
          exact hsc (Or.inr heq)
        have hone : (mp o).toList.length ≤ 1 := by cases mp o <;> simp
        show sc.got + (mp o).toList.length ≤ sc.chunkSize
        omega
      have hfilter : ∀ new : List Obj,
          (o :: new).filterMap mp = (mp o).toList ++ new.filterMap mp := fun new => by
        rw [List.filterMap_cons]
        cases mp o <;> rfl
      have hshort : (mp o).toList.reverse = (mp o).toList := by cases mp o <;> rfl
      cases hdone : (gotten sc mp o).isDone with
      | true =>
        refine ⟨[o], rest, rfl, ?_, ?_, rfl, rfl, hle', Or.inr ⟨hdone, o, rfl, rfl⟩⟩
        · rw [hfilter, List.filterMap_nil, List.append_nil, hshort]
          rfl
        · rw [hfilter, List.filterMap_nil, List.append_nil]
          rfl
      | false =>
        obtain ⟨new, left, rfl, hgot⟩ := ih hdone hle'
        refine ⟨o :: new, left, rfl, ?_, ?_, hgot.endCondition, hgot.chunkSize, hgot.le, ?_⟩
        · rw [hfilter, List.reverse_append, hshort, List.append_assoc]
          exact hgot.accum
        · rw [hfilter, List.length_append, ← Nat.add_assoc]
          exact hgot.got
        · rcases hgot.stop with hno | ⟨hyes, o', hlast, heq⟩
          · exact Or.inl hno
          · refine Or.inr ⟨hyes, o', ?_, heq⟩
            rw [List.getLast?_cons, hlast]
            rfl

/-! ## What has been found -/

/-- The results are those of the objects `seen`: they are in order, and each has been in the
table in one of the calls, in which the table had the contents `log`. -/
structure Gathered (T : Terms Key Obj) (d : Side) (mp : Obj → Option Res)
    (log : List (List Obj)) (seen : List Obj) (results : List Res) : Prop where
  results_eq : results = seen.filterMap mp
  pairwise : seen.Pairwise fun o o' => Later T d (T.getkey o) (T.getkey o')
  inLog : ∀ o ∈ seen, ∃ objs ∈ log, o ∈ objs

/-- The object has been in the table in all of the calls. -/
def Stays (log : List (List Obj)) (o : Obj) : Prop := ∀ objs ∈ log, o ∈ objs

/-- All objects that have a result and have always been in the table have been seen, or they are
still to come. -/
structure UpTo (T : Terms Key Obj) (d : Side) (mp : Obj → Option Res) (log : List (List Obj))
    (lastkey : Option Key) (seen : List Obj) : Prop where
  behind : ∀ o ∈ seen, isPending T d lastkey o = false
  complete : ∀ o, Stays log o → mp o ≠ none → isPending T d lastkey o = true ∨ o ∈ seen

/-- All of them have been seen. -/
def AllSeen (mp : Obj → Option Res) (log : List (List Obj)) (seen : List Obj) : Prop :=
  ∀ o, Stays log o → mp o ≠ none → o ∈ seen

theorem Stays.of_append {objs : List Obj} (h : Stays (log ++ [objs]) o) : Stays log o ∧ o ∈ objs :=
  ⟨fun as has => h as (List.mem_append_left _ has), h objs (List.mem_append_right _ (.head _))⟩

theorem Gathered.append_log (h : Gathered T d mp log seen results) (objs : List Obj) :
    Gathered T d mp (log ++ [objs]) seen results :=
  ⟨h.results_eq, h.pairwise, fun o ho => by
    obtain ⟨as, has, hmem⟩ := h.inLog o ho
    exact ⟨as, List.mem_append_left _ has, hmem⟩⟩

theorem UpTo.append_log (h : UpTo T d mp log lastkey seen) (objs : List Obj) :
    UpTo T d mp (log ++ [objs]) lastkey seen :=
  ⟨h.behind, fun o ho => h.complete o ho.of_append.1⟩

theorem AllSeen.append_log (h : AllSeen mp log seen) (objs : List Obj) :
    AllSeen mp (log ++ [objs]) seen :=
  fun o ho => h o ho.of_append.1

/-- What is still to come is later than what is not. -/
theorem later_of_pending {o' : Obj} (ho : isPending T d lastkey o = false)
    (ho' : isPending T d lastkey o' = true) : Later T d (T.getkey o) (T.getkey o') := by
  cases lastkey with
  | none => cases ho
  | some key =>
    refine (isPending_some.1 ho').of_not_later fun hlater => ?_
    rw [isPending_some.2 hlater] at ho
    cases ho

/-- **A traversal adds to what has been found.** -/
theorem Gathered.append (h : Gathered T d mp log seen results) (hup : UpTo T d mp log lastkey seen)
    (hasc : Ascending T (objects t)) (hsplit : pending T d lastkey t = new ++ left) :
    Gathered T d mp (log ++ [objects t]) (seen ++ new) (results ++ new.filterMap mp) := by
  have hnew : ∀ o ∈ new, o ∈ objects t ∧ isPending T d lastkey o = true := fun o ho => by
    apply mem_pending.1
    rw [hsplit]
    exact List.mem_append_left _ ho
  refine ⟨?_, ?_, fun o ho => ?_⟩
  · rw [h.results_eq, List.filterMap_append]
  · have hsorted := pending_pairwise (d := d) hasc lastkey
    rw [hsplit] at hsorted
    exact List.pairwise_append.2 ⟨h.pairwise, (List.pairwise_append.1 hsorted).1,
      fun o ho o' ho' => later_of_pending (hup.behind o ho) (hnew o' ho').2⟩
  · rcases List.mem_append.1 ho with ho | ho
    · exact (h.append_log _).inLog o ho
    · exact ⟨_, List.mem_append_right _ (.head _), (hnew o ho).1⟩

/-- An object that has always been in the table has been seen, if it is not left. -/
theorem UpTo.seen_or_left (hup : UpTo T d mp log lastkey seen)
    (hsplit : pending T d lastkey t = new ++ left) (ho : Stays (log ++ [objects t]) o)
    (hmp : mp o ≠ none) : o ∈ seen ++ new ∨ o ∈ left := by
  rcases hup.complete o ho.of_append.1 hmp with hpending | hseen
  · have hmem : o ∈ pending T d lastkey t := mem_pending.2 ⟨ho.of_append.2, hpending⟩
    rw [hsplit] at hmem
    exact (List.mem_append.1 hmem).imp (List.mem_append_right _) id
  · exact Or.inl (List.mem_append_left _ hseen)

/-- **The traversal has stopped at an object.** -/
theorem UpTo.append (hup : UpTo T d mp log lastkey seen) (hasc : Ascending T (objects t))
    (hsplit : pending T d lastkey t = new ++ left) (hlast : new.getLast? = some o) :
    UpTo T d mp (log ++ [objects t]) (some (T.getkey o)) (seen ++ new) := by
  obtain ⟨ys, hys⟩ := List.getLast?_eq_some_iff.1 hlast
  have hsorted := pending_pairwise (d := d) hasc lastkey
  rw [hsplit] at hsorted
  obtain ⟨hnew, -, hcross⟩ := List.pairwise_append.1 hsorted
  have hmem : o ∈ new := List.mem_of_getLast? hlast
  have hpending : isPending T d lastkey o = true := by
    apply (mem_pending (t := t)).1 _ |>.2
    rw [hsplit]
    exact List.mem_append_left _ hmem
  refine ⟨fun o' ho' => ?_, fun o' hstays hmp => ?_⟩
  · rw [Bool.eq_false_iff, Ne, isPending_some]
    rcases List.mem_append.1 ho' with hseen | hnew'
    · exact (later_of_pending (hup.behind o' hseen) hpending).not_later
    · rw [hys] at hnew hnew'
      rcases List.mem_append.1 hnew' with hys' | hone
      · exact ((List.pairwise_append.1 hnew).2.2 o' hys' o (.head _)).not_later
      · rw [List.mem_singleton.1 hone]
        exact not_later_self _
  · rcases hup.seen_or_left hsplit hstays hmp with hseen | hleft
    · exact Or.inr hseen
    · exact Or.inl (isPending_some.2 (hcross o hmem o' hleft))

/-! ## The end of the range -/

theorem atEnd_later {a b : Key} (hmono : P.Monotone T) (hlater : Later T d a b)
    (h : P.atEnd d e a = true) : P.atEnd d e b = true := by
  cases e with
  | none => exact h
  | some e =>
    rw [Patterns.atEnd, decide_eq_true_iff] at h ⊢
    cases d with
    | right =>
      rw [Side.sgn, one_mul] at h ⊢
      exact hmono.neg e _ _ (later_right.1 hlater).le h
    | left =>
      rw [Side.sgn] at h ⊢
      have := hmono.pos e _ _ (later_left.1 hlater).le (by omega)
      omega

/-- No object that has a result is beyond the end. -/
def EndOk (T : Terms Key Obj) (P : Patterns Key) (d : Side) (mp : Obj → Option Res)
    (e : Option Key) : Prop :=
  ∀ o, mp o ≠ none → P.atEnd d e (T.getkey o) = false

/-- **The traversal has come to the end.** -/
theorem UpTo.allSeen (hup : UpTo T d mp log lastkey seen) (hmono : P.Monotone T)
    (hend : EndOk T P d mp e) (hasc : Ascending T (objects t))
    (hsplit : pending T d lastkey t = new ++ left)
    (hleft : ∀ o ∈ left.head?, P.atEnd d e (T.getkey o) = true) :
    AllSeen mp (log ++ [objects t]) (seen ++ new) := by
  intro o hstays hmp
  refine (hup.seen_or_left hsplit hstays hmp).resolve_right fun ho => ?_
  have hsorted := pending_pairwise (d := d) hasc lastkey
  rw [hsplit] at hsorted
  have hat : P.atEnd d e (T.getkey o) = true := by
    cases left with
    | nil => cases ho
    | cons a left =>
      have ha := hleft a rfl
      rcases List.mem_cons.1 ho with rfl | ho
      · exact ha
      · have hlater := (List.pairwise_cons.1 (List.pairwise_append.1 hsorted).2.1).1 o ho
        exact atEnd_later hmono hlater ha
  rw [hend o hmp] at hat
  cases hat

/-! ## The invariant of a session -/

variable {mpi : MpInfo Key Obj (Option Res)} {chunkSize : ℕ} {reverse : Bool}
  {s : ChunkSession Key Obj Res} {c : ChunkContinuation Key Obj Res}

/-- What the continuation knows. -/
structure Held (T : Terms Key Obj) (P : Patterns Key) (mpi : MpInfo Key Obj (Option Res))
    (chunkSize : ℕ) (reverse : Bool) (log : List (List Obj)) (seen : List Obj)
    (c : ChunkContinuation Key Obj Res) : Prop where
  mp_eq : c.mp = mpi.mp
  chunkSize_eq : c.chunkSize = chunkSize
  reverse_eq : c.reverse = reverse
  got_eq : c.got = c.accum.length
  lt : c.got < chunkSize
  endOk : EndOk T P (chunkDir reverse) mpi.mp c.endCondition
  upTo : UpTo T (chunkDir reverse) mpi.mp log (some c.lastkey) seen

/-- What is known of a session that is in the given phase. -/
def ChunkPhase.Ok (T : Terms Key Obj) (P : Patterns Key) (mpi : MpInfo Key Obj (Option Res))
    (chunkSize : ℕ) (reverse : Bool) (log : List (List Obj)) (seen : List Obj) :
    ChunkPhase Key Obj Res → Prop
  | start => log = [] ∧ seen = []
  | select c => Held T P mpi chunkSize reverse log seen c
  | .reverse list result (some c) => Held T P mpi chunkSize reverse log seen c ∧ c.accum = [] ∧
      list.length + result.length = chunkSize
  | .reverse list result none => AllSeen mpi.mp log seen ∧ 0 < list.length + result.length ∧
      list.length + result.length ≤ chunkSize
  | eot => AllSeen mpi.mp log seen

/-- No more objects are visited. -/
def ChunkPhase.Ending : ChunkPhase Key Obj Res → Prop
  | .reverse _ _ none => True
  | eot => True
  | _ => False

/-- The results that have been collected for the next chunk. -/
def ChunkPhase.collected : ChunkPhase Key Obj Res → List Res
  | start => []
  | select c => c.accum.reverse
  | .reverse list result _ => list.reverse ++ result
  | eot => []

/-- The chunks are full, up to the last one at the end of the table. -/
structure ChunksOk (chunkSize : ℕ) (phase : ChunkPhase Key Obj Res) (chunks : List (List Res)) :
    Prop where
  size : ∀ chunk ∈ chunks, 0 < chunk.length ∧ chunk.length ≤ chunkSize
  full : phase ≠ .eot → ∀ chunk ∈ chunks, chunk.length = chunkSize
  full_dropLast : ∀ chunk ∈ chunks.dropLast, chunk.length = chunkSize

/-- The invariant of a session. -/
structure Underway (T : Terms Key Obj) (P : Patterns Key) (mpi : MpInfo Key Obj (Option Res))
    (chunkSize : ℕ) (reverse : Bool) (log : List (List Obj)) (s : ChunkSession Key Obj Res)
    (t : BinaryTree (Cell Obj)) (seen : List Obj) : Prop where
  inv : Inv T s.tb t
  cursor : Cursor t s.tb.staticStack
  gathered : Gathered T (chunkDir reverse) mpi.mp log seen (s.chunks.flatten ++ s.phase.collected)
  ok : s.phase.Ok T P mpi chunkSize reverse log seen
  chunks : ChunksOk chunkSize s.phase s.chunks

theorem ChunksOk.of_full {phase phase' : ChunkPhase Key Obj Res} {chunks : List (List Res)}
    (h : ChunksOk chunkSize phase chunks) (hphase : phase ≠ .eot) :
    ChunksOk chunkSize phase' chunks :=
  ⟨h.size, fun _ => h.full hphase, h.full_dropLast⟩

/-- A chunk that is not empty, and full if there is more to come. -/
theorem ChunksOk.append {phase phase' : ChunkPhase Key Obj Res} {chunks : List (List Res)}
    (h : ChunksOk chunkSize phase chunks) (hphase : phase ≠ .eot) {chunk : List Res}
    (hpos : 0 < chunk.length) (hle : chunk.length ≤ chunkSize)
    (hfull : phase' ≠ .eot → chunk.length = chunkSize) :
    ChunksOk chunkSize phase' (chunks ++ [chunk]) := by
  refine ⟨fun as has => ?_, fun hphase' as has => ?_, fun as has => ?_⟩
  · rcases List.mem_append.1 has with has | has
    · exact h.size as has
    · rw [List.mem_singleton.1 has]
      exact ⟨hpos, hle⟩
  · rcases List.mem_append.1 has with has | has
    · exact h.full hphase as has
    · rw [List.mem_singleton.1 has]
      exact hfull hphase'
  · rw [List.dropLast_concat] at has
    exact h.full hphase as has

/-! ## The ends of calls -/

theorem chunkEnd_of_not_done {sc : ChunkContext Obj Key Res} (hdone : sc.isDone = false)
    (hle : sc.got ≤ sc.chunkSize) :
    chunkEnd T sc e mp reverse = if sc.got = 0 then .eot else .trapReverse sc.accum [] none := by
  have hlt : sc.got < sc.chunkSize := by
    rw [ChunkContext.isDone, decide_eq_false_iff_not] at hdone
    omega
  rw [chunkEnd, if_pos hlt]

theorem chunkEnd_of_full {sc : ChunkContext Obj Key Res} (hfull : sc.got = sc.chunkSize)
    (hlast : sc.lastobj = some o) :
    chunkEnd T sc e mp reverse = .trapReverse sc.accum []
      (some ⟨T.getkey o, e, sc.chunkSize, mp, [], reverse, 0⟩) := by
  rw [chunkEnd, if_neg (not_lt.2 hfull.ge), hlast]

/-- **The last call** of a `select`. -/
theorem Underway.finish {accum : List Res} {got : ℕ}
    (h : Underway T P mpi chunkSize reverse log s t seen) (hphase : s.phase ≠ .eot)
    {log' : List (List Obj)} {seen' : List Obj} {tb' : DbTableTree Obj}
    {t' : BinaryTree (Cell Obj)} (hinv : Inv T tb' t') (hc : Cursor t' tb'.staticStack)
    (hgathered : Gathered T (chunkDir reverse) mpi.mp log' seen'
      (s.chunks.flatten ++ accum.reverse))
    (hall : AllSeen mpi.mp log' seen') (hgot : got = accum.length) (hle : got ≤ chunkSize) :
    Underway T P mpi chunkSize reverse log'
      (s.returned tb' (if got = 0 then .eot else .trapReverse accum [] none)) t' seen' := by
  have hchunks : ∀ phase', ChunksOk chunkSize phase' s.chunks := fun _ => h.chunks.of_full hphase
  by_cases hzero : got = 0
  · rw [if_pos hzero]
    obtain rfl : accum = [] := List.length_eq_zero_iff.1 (hgot.symm.trans hzero)
    exact ⟨hinv, hc, hgathered, hall, hchunks _⟩
  · rw [if_neg hzero]
    refine ⟨hinv, hc, ?_, ⟨hall, ?_, ?_⟩, hchunks _⟩
    · rw [← List.append_nil accum.reverse] at hgathered
      exact hgathered
    · rw [List.length_nil, Nat.add_zero, ← hgot]
      exact Nat.pos_of_ne_zero hzero
    · rw [List.length_nil, Nat.add_zero, ← hgot]
      exact hle

theorem ne_nil_of_last {α : Type} {a : α} {l : List α} (h : l.getLast? = some a) : l ≠ [] := by
  rintro rfl
  cases h

/-- A call of a `select`: its traversal of the table `t` starts behind `lastkey` with the context
`sc`, visits `new`, and ends with the context `sc'`. -/
structure Traversed (T : Terms Key Obj) (P : Patterns Key) (mpi : MpInfo Key Obj (Option Res))
    (chunkSize : ℕ) (reverse : Bool) (log : List (List Obj)) (s : ChunkSession Key Obj Res)
    (t : BinaryTree (Cell Obj)) (seen : List Obj) (e lastkey : Option Key)
    (sc : ChunkContext Obj Key Res) (new left : List Obj) (sc' : ChunkContext Obj Key Res)
    (tb' : DbTableTree Obj) : Prop where
  underway : Underway T P mpi chunkSize reverse log s t seen
  phase : s.phase ≠ .eot
  upTo : UpTo T (chunkDir reverse) mpi.mp log lastkey seen
  endOk : EndOk T P (chunkDir reverse) mpi.mp e
  collected : s.phase.collected = sc.accum.reverse
  got_eq : sc.got = sc.accum.length
  chunkSize_eq : sc.chunkSize = chunkSize
  endCondition : sc.endCondition = e ∨ sc.endCondition = none
  split : pending T (chunkDir reverse) lastkey t = new ++ left
  gotten : Gotten T P (chunkDir reverse) mpi.mp sc new left sc'
  inv : Inv T tb' t
  cursor : Cursor t tb'.staticStack

namespace Traversed

variable {sc' : ChunkContext Obj Key Res} {tb' : DbTableTree Obj}
  (h : Traversed T P mpi chunkSize reverse log s t seen e lastkey sc new left sc' tb')

include h

theorem gathered :
    Gathered T (chunkDir reverse) mpi.mp (log ++ [objects t]) (seen ++ new)
      (s.chunks.flatten ++ sc'.accum.reverse) := by
  have hadd := h.underway.gathered.append h.upTo h.inv.ascending h.split
  rw [h.collected, List.append_assoc, ← List.reverse_reverse (new.filterMap mpi.mp),
    ← List.reverse_append, ← h.gotten.accum] at hadd
  exact hadd

theorem got_eq' : sc'.got = sc'.accum.length := by
  rw [h.gotten.got, h.gotten.accum, List.length_append, List.length_reverse, h.got_eq,
    Nat.add_comm]

theorem chunkSize_eq' : sc'.chunkSize = chunkSize :=
  h.gotten.chunkSize.trans h.chunkSize_eq

theorem le : sc'.got ≤ chunkSize :=
  h.chunkSize_eq' ▸ h.gotten.le

/-- The call has come to the end. -/
theorem atEnd (hmono : P.Monotone T)
    (hleft : ∀ o ∈ left.head?, P.atEnd (chunkDir reverse) e (T.getkey o) = true) :
    Underway T P mpi chunkSize reverse (log ++ [objects t])
      (s.returned tb' (if sc'.got = 0 then .eot else .trapReverse sc'.accum [] none)) t
      (seen ++ new) :=
  h.underway.finish h.phase h.inv h.cursor h.gathered
    (h.upTo.allSeen hmono h.endOk h.inv.ascending h.split hleft) h.got_eq' h.le

/-- The traversal has stopped before its limits. -/
theorem notDone (hmono : P.Monotone T) (hdone : sc'.isDone = false) :
    Underway T P mpi chunkSize reverse (log ++ [objects t])
      (s.returned tb' (chunkEnd T sc' e mpi.mp reverse)) t (seen ++ new) := by
  rw [chunkEnd_of_not_done hdone h.gotten.le]
  refine h.atEnd hmono fun o ho => ?_
  rcases h.gotten.stop with ⟨-, hleft⟩ | ⟨hyes, -⟩
  · have hat := hleft o ho
    rcases h.endCondition with he | he <;> rw [he] at hat
    · exact hat
    · cases hat
  · rw [hdone] at hyes
    cases hyes

/-- The chunk is full. -/
theorem full (hn : 0 < chunkSize) (hlast : new.getLast? = some o) (hobj : sc'.lastobj = some o)
    (hfull : sc'.got = chunkSize) :
    Underway T P mpi chunkSize reverse (log ++ [objects t])
      (s.returned tb' (chunkEnd T sc' e mpi.mp reverse)) t (seen ++ new) := by
  rw [chunkEnd_of_full (hfull.trans h.chunkSize_eq'.symm) hobj]
  have hheld : Held T P mpi chunkSize reverse (log ++ [objects t]) (seen ++ new)
      ⟨T.getkey o, e, sc'.chunkSize, mpi.mp, [], reverse, 0⟩ :=
    ⟨rfl, h.chunkSize_eq', rfl, rfl, hn, h.endOk,
      h.upTo.append h.inv.ascending h.split hlast⟩
  refine ⟨h.inv, h.cursor, ?_, ⟨hheld, rfl, ?_⟩, h.underway.chunks.of_full h.phase⟩
  · have hgathered := h.gathered
    rw [← List.append_nil sc'.accum.reverse] at hgathered
    exact hgathered
  · rw [List.length_nil, Nat.add_zero, ← h.got_eq', hfull]

/-- The call traps. -/
theorem trap (hlast : new.getLast? = some o) (hlt : sc'.got < chunkSize) :
    Underway T P mpi chunkSize reverse (log ++ [objects t])
      (s.returned tb' (.trapSelect ⟨T.getkey o, e, chunkSize, mpi.mp, sc'.accum, reverse,
        sc'.got⟩)) t (seen ++ new) :=
  ⟨h.inv, h.cursor, h.gathered, ⟨rfl, rfl, rfl, h.got_eq', hlt, h.endOk,
    h.upTo.append h.inv.ascending h.split hlast⟩, h.underway.chunks.of_full h.phase⟩

/-- The call has not trapped. -/
theorem ended (hmono : P.Monotone T) (hn : 0 < chunkSize)
    (hcond : 0 < sc'.max ∨ sc'.got = chunkSize) :
    Underway T P mpi chunkSize reverse (log ++ [objects t])
      (s.returned tb' (chunkEnd T sc' e mpi.mp reverse)) t (seen ++ new) ∧
    (new = [] → (s.returned tb' (chunkEnd T sc' e mpi.mp reverse)).phase.Ending) := by
  cases hdone : sc'.isDone with
  | false =>
    refine ⟨h.notDone hmono hdone, fun _ => ?_⟩
    rw [chunkEnd_of_not_done hdone h.gotten.le]
    split <;> trivial
  | true =>
    rcases h.gotten.stop with ⟨hno, -⟩ | ⟨-, o, hlast, hobj⟩
    · rw [hdone] at hno
      cases hno
    · have hsize := h.chunkSize_eq'
      rw [ChunkContext.isDone, decide_eq_true_iff] at hdone
      exact ⟨h.full hn hlast hobj (by omega), fun hnil => absurd hnil (ne_nil_of_last hlast)⟩

/-- Otherwise it has stopped at an object. -/
theorem stopped (hcond : ¬ (0 < sc'.max ∨ sc'.got = chunkSize)) :
    ∃ o, new.getLast? = some o ∧ sc'.lastobj = some o ∧ sc'.got < chunkSize := by
  have hle := h.le
  rcases h.gotten.stop with ⟨hno, -⟩ | ⟨-, o, hlast, hobj⟩
  · rw [ChunkContext.isDone, decide_eq_false_iff_not] at hno
    omega
  · exact ⟨o, hlast, hobj, by omega⟩

/-- The object that it has stopped at is beyond the end. -/
theorem doneAnyway (hmono : P.Monotone T) (hlast : new.getLast? = some o)
    (hat : P.atEnd (chunkDir reverse) e (T.getkey o) = true) :
    Underway T P mpi chunkSize reverse (log ++ [objects t])
      (s.returned tb' (if sc'.got = 0 then .eot else .trapReverse sc'.accum [] none)) t
      (seen ++ new) := by
  refine h.atEnd hmono fun o' ho' => ?_
  have hsorted := pending_pairwise (d := chunkDir reverse) h.inv.ascending lastkey
  rw [h.split] at hsorted
  have hlater := (List.pairwise_append.1 hsorted).2.2 o (List.mem_of_getLast? hlast) o'
    (List.mem_of_mem_head? ho')
  exact atEnd_later hmono hlater hat

end Traversed

/-! ## Calls -/

/-- The end of `db_select_chunk_tree_common`, from the traversal on. -/
def chunkFrom (T : Terms Key Obj) (P : Patterns Key) (mp : Obj → Option Res) (chunkSize : ℕ)
    (reverse : Bool) (lastkey endCondition : Option Key) (tb : DbTableTree Obj) :
    Option (ChunkRet Key Obj Res × DbTableTree Obj) := do
  let sc : ChunkContext Obj Key Res := ⟨[], endCondition, none, 1000, 0, chunkSize⟩
  let (sc, tb) ← tb.traverse T (chunkDir reverse) lastkey
    (doitSelectChunk T P (chunkDir reverse) mp) sc
  if 0 < sc.max ∨ sc.got = chunkSize then
    return (chunkEnd T sc sc.endCondition mp reverse, tb)
  else
    let lastobj ← sc.lastobj
    return (.trapSelect ⟨T.getkey lastobj, sc.endCondition, chunkSize, mp, sc.accum,
      reverse, sc.got⟩, tb)

/-- What a call has done: it has visited some objects, or the `select` ends. -/
def CallOk (T : Terms Key Obj) (P : Patterns Key) (mpi : MpInfo Key Obj (Option Res))
    (chunkSize : ℕ) (reverse : Bool) (log : List (List Obj)) (s : ChunkSession Key Obj Res)
    (t : BinaryTree (Cell Obj)) (seen : List Obj)
    (called : Option (ChunkRet Key Obj Res × DbTableTree Obj)) : Prop :=
  ∃ ret tb' new, called = some (ret, tb') ∧
    Underway T P mpi chunkSize reverse (log ++ [objects t]) (s.returned tb' ret) t (seen ++ new) ∧
    (new = [] → (s.returned tb' ret).phase.Ending)

/-- **The traversal of a call.** -/
theorem Underway.traverse (h : Underway T P mpi chunkSize reverse log s t seen)
    (sc : ChunkContext Obj Key Res) (hroom : t.height ≤ stackNeed) (hphase : s.phase ≠ .eot) (hinv : Inv T tb t)
    (hc : Cursor t tb.staticStack) (hend : EndOk T P (chunkDir reverse) mpi.mp e)
    (hup : UpTo T (chunkDir reverse) mpi.mp log lastkey seen)
    (hcollected : s.phase.collected = sc.accum.reverse) (hgot : sc.got = sc.accum.length)
    (hsize : sc.chunkSize = chunkSize) (hlt : sc.got < chunkSize) (hmax : sc.max = 1000)
    (he : sc.endCondition = e ∨ sc.endCondition = none) :
    ∃ new left sc' tb', tb.traverse T (chunkDir reverse) lastkey
        (doitSelectChunk T P (chunkDir reverse) mpi.mp) sc = some (sc', tb') ∧
      Traversed T P mpi chunkSize reverse log s t seen e lastkey sc new left sc' tb' := by
  have hdone : sc.isDone = false := by
    rw [ChunkContext.isDone, decide_eq_false_iff_not]
    omega
  obtain ⟨stack, hrun, hc'⟩ := traverse_visitAll (doitSelectChunk_reads T P (chunkDir reverse)
    mpi.mp) sc hinv hroom hc (chunkDir reverse) lastkey
  obtain ⟨new, left, hsplit, hgotten⟩ := visitAll_gotten (T := T) (P := P)
    (d := chunkDir reverse) (pending T (chunkDir reverse) lastkey t) hdone (hsize ▸ hlt.le)
  exact ⟨new, left, _, _, hrun, h, hphase, hup, hend, hcollected, hgot, hsize, he, hsplit,
    hgotten, hinv.setStaticStack stack, hc'⟩

/-- **The first call**, from the traversal on. -/
theorem chunkFrom_ok (hmono : P.Monotone T) (hn : 0 < chunkSize)
    (h : Underway T P mpi chunkSize reverse log s t seen) (hroom : t.height ≤ stackNeed)
    (hphase : s.phase = .start) (hinv : Inv T tb t) (hc : Cursor t tb.staticStack)
    (hend : EndOk T P (chunkDir reverse) mpi.mp e)
    (hup : UpTo T (chunkDir reverse) mpi.mp log lastkey seen) :
    CallOk T P mpi chunkSize reverse log s t seen
      (chunkFrom T P mpi.mp chunkSize reverse lastkey e tb) := by
  have hne : s.phase ≠ .eot := by
    rw [hphase]
    exact fun h => by cases h
  obtain ⟨new, left, sc', tb', hrun, htr⟩ := h.traverse ⟨[], e, none, 1000, 0, chunkSize⟩
    hroom hne hinv hc hend hup (by rw [hphase]; rfl) rfl rfl hn rfl (Or.inl rfl)
  rw [chunkFrom, hrun]
  simp only [Option.bind_eq_bind, Option.bind_some]
  have he : sc'.endCondition = e := htr.gotten.endCondition
  by_cases hcond : 0 < sc'.max ∨ sc'.got = chunkSize
  · rw [if_pos hcond, he]
    exact ⟨_, _, _, rfl, htr.ended hmono hn hcond⟩
  · obtain ⟨o, hlast, hobj, hlt⟩ := htr.stopped hcond
    rw [if_neg hcond, he, hobj]
    exact ⟨_, _, new, rfl, htr.trap hlast hlt, fun hnil => absurd hnil (ne_nil_of_last hlast)⟩

/-- **A later call.** -/
theorem dbSelectContinueChunk_ok (hmono : P.Monotone T) (hn : 0 < chunkSize)
    (h : Underway T P mpi chunkSize reverse log s t seen) (hroom : t.height ≤ stackNeed)
    (hphase : s.phase = .select c) :
    CallOk T P mpi chunkSize reverse log s t seen (s.tb.dbSelectContinueChunk T P c) := by
  have hne : s.phase ≠ .eot := by
    rw [hphase]
    exact fun h => by cases h
  have hheld : Held T P mpi chunkSize reverse log seen c := by
    have := h.ok
    rw [hphase] at this
    exact this
  obtain ⟨new, left, sc', tb', hrun, htr⟩ := h.traverse
    ⟨c.accum, none, none, 1000, c.got, c.chunkSize⟩ hroom hne h.inv h.cursor hheld.endOk
    hheld.upTo (by rw [hphase]; rfl) hheld.got_eq hheld.chunkSize_eq hheld.lt rfl
    (Or.inr rfl)
  obtain ⟨lastkey, e, size, mp, accum, rev, got⟩ := c
  obtain rfl : mp = mpi.mp := hheld.mp_eq
  obtain rfl : size = chunkSize := hheld.chunkSize_eq
  obtain rfl : rev = reverse := hheld.reverse_eq
  rw [dbSelectContinueChunk, hrun]
  simp only [Option.bind_eq_bind, Option.bind_some]
  rw [htr.chunkSize_eq']
  by_cases hcond : 0 < sc'.max ∨ sc'.got = size
  · rw [if_pos hcond]
    exact ⟨_, _, _, rfl, htr.ended hmono hn hcond⟩
  · obtain ⟨o, hlast, hobj, hlt⟩ := htr.stopped hcond
    rw [if_neg hcond, hobj]
    simp only [Option.bind_some]
    cases hat : P.atEnd (chunkDir rev) e (T.getkey o) with
    | true =>
      rw [if_pos rfl]
      exact ⟨_, _, new, rfl, htr.doneAnyway hmono hlast hat,
        fun hnil => absurd hnil (ne_nil_of_last hlast)⟩
    | false =>
      rw [if_neg Bool.false_ne_true]
      exact ⟨_, _, new, rfl, htr.trap hlast hlt, fun hnil => absurd hnil (ne_nil_of_last hlast)⟩

end PonBeam.EtsTree
