import PonBeam.SigQueue.Queue
import PonBeam.Lib.MachineInt
import Mathlib.Data.List.Perm.Subperm

/-!
# The number of signals in the private queues (`erl_proc_sig_queue.h`)

`erts_proc_sig_privqs_len` never looks at a message: it adds up the counts that the
non-message signals of the middle queue keep, and gives up early when there are more
signals, or more non-message signals, than its caller wants to know about. A negative
limit is no limit, and a negative answer says that it gave up.
-/

namespace PonBeam.SigQueue

/-- `ERTS_SWORD_MAX` -/
def swordMax : ℤ := 9223372036854775807

/-- The loop over the non-message signals, for so many turns; `none` when a pointer at one
is `NULL` or the turns are used up. -/
def privqsLenLoop (p : Proc) (maxSigs maxNmsigs : ℤ) : ℕ → Option Slot → ℤ → ℤ → Option ℤ
  | 0, _, _, _ => none
  | _ + 1, none, res, _ => some res
  | turns + 1, some nmsigpp, res, noNmsigs =>
    match p.load nmsigpp with
    | none => none
    | some nmsigp =>
      let res := res + (p.mem.mlenoffs nmsigp + 1)
      if res > maxSigs then some (-res)
      else if wrapInt (noNmsigs + 1) > maxNmsigs then some (-res)
      else
        privqsLenLoop p maxSigs maxNmsigs turns (p.mem.specificNext nmsigp) res
          (wrapInt (noNmsigs + 1))

/-- `erts_proc_sig_privqs_len` -/
def privqsLen (p : Proc) (turns : ℕ) (maxSigs maxNmsigs : ℤ) : Option ℤ :=
  let res := p.qs.mqLen
  let maxSigs := if maxSigs < 0 then swordMax else maxSigs
  if res > maxSigs then some (-res)
  else
    let maxNmsigs := if maxNmsigs < 0 then swordMax else maxNmsigs
    privqsLenLoop p maxSigs maxNmsigs turns p.qs.nmsigs.next (res + p.qs.mlenoffs) 0

/-! ## The state of the queues -/

/-- The number of messages of a queue. -/
def countMsgs (isMsg : Sig → Bool) (l : List Sig) : ℕ := l.countP isMsg

/-- The number of non-message signals of a queue. -/
def countNonMsgs (isMsg : Sig → Bool) (l : List Sig) : ℕ := l.countP fun x => !isMsg x

/-- A signal starts at a word of the memory. -/
def WordAddress (x : ℕ) : Prop := x < 18446744073709551616 ∧ x % 8 = 0

/-- **The private queues**: the inner queue holds `inner`, the middle one `middle`, and the
counts and the chain of non-message signals are those of the signals. -/
structure PrivRep (p : Proc) (inner middle : List Sig) : Prop where
  /-- the inner queue, with the markers in it -/
  innerLinks : Seg p.mem.next p.qs.first inner none
  /-- its messages are counted, the markers are not -/
  mqLen : p.qs.mqLen = countMsgs p.mem.isMsg inner
  /-- the middle queue -/
  middleRep : QueueRep p.mem .cont p.qs.cont p.qs.contLast p.qs.nmsigs p.qs.mlenoffs middle
  /-- where the signals are -/
  address : ∀ x ∈ inner ++ middle, WordAddress x

/-! ## The sum of the counts -/

/-- What the loop adds for the non-message signals of `ys`. -/
def counted (mlenoffs : Sig → ℤ) : List (Slot × Sig) → ℤ
  | [] => 0
  | y :: ys => mlenoffs y.2 + 1 + counted mlenoffs ys

section Counted

theorem counted_append (mlenoffs : Sig → ℤ) (ys zs : List (Slot × Sig)) :
    counted mlenoffs (ys ++ zs) = counted mlenoffs ys + counted mlenoffs zs := by
  induction ys with
  | nil => exact (zero_add _).symm
  | cons y ys ih =>
    rw [List.cons_append, counted, counted, ih]
    exact (add_assoc ..).symm

theorem counted_nonneg {mlenoffs : Sig → ℤ} {ys : List (Slot × Sig)}
    (h : ∀ y ∈ ys, 0 ≤ mlenoffs y.2) : 0 ≤ counted mlenoffs ys := by
  induction ys with
  | nil => exact le_refl 0
  | cons y ys ih =>
    have hy := h y (List.mem_cons_self ..)
    have hys := ih fun z hz => h z (List.mem_cons_of_mem _ hz)
    rw [counted]
    omega

variable {isMsg : Sig → Bool} {mlenoffs : Sig → ℤ} {l : List Sig} {k t : ℤ}

/-- With the trailing messages, the counts add up to the length. -/
theorem Offs.counted_add (h : Offs isMsg mlenoffs k l t) (base : Slot) :
    counted mlenoffs (nmSlots isMsg base l) + t = k + l.length := by
  induction l generalizing k base with
  | nil =>
    have ht : t = k := h
    rw [ht]
    exact add_comm ..
  | cons x l ih =>
    have hlen : (((x :: l).length : ℕ) : ℤ) = l.length + 1 := by
      rw [List.length_cons, Nat.cast_succ]
    rw [Offs] at h
    rw [nmSlots, hlen]
    split at h
    · rename_i hx
      rw [if_pos hx, ih h]
      ring
    · rename_i hx
      have ih := ih h.2 (.next x)
      rw [if_neg hx, counted, h.1]
      rw [add_assoc, ih]
      ring

/-- The counts of the first few add up to the place of the last of them. -/
theorem Offs.counted_front (h : Offs isMsg mlenoffs k l t) {base : Slot}
    {front rest : List (Slot × Sig)} (hl : nmSlots isMsg base l = front ++ rest)
    (hne : front ≠ []) :
    ∃ a b, l = a ++ b ∧ countNonMsgs isMsg a = front.length ∧
      counted mlenoffs front = k + a.length := by
  induction l generalizing k base front with
  | nil => exact absurd (List.append_eq_nil_iff.mp hl.symm).1 hne
  | cons x l ih =>
    rw [Offs] at h
    rw [nmSlots] at hl
    split at h
    · rename_i hx
      rw [if_pos hx] at hl
      obtain ⟨a, b, rfl, ha, hc⟩ := ih h hl hne
      refine ⟨x :: a, b, rfl, ?_, ?_⟩
      · rw [countNonMsgs, List.countP_cons_of_neg (by simp [hx])]
        exact ha
      · rw [hc, List.length_cons, Nat.cast_succ]
        ring
    · rename_i hx
      rw [if_neg hx] at hl
      obtain _ | ⟨y, front⟩ := front
      · exact absurd rfl hne
      · obtain ⟨rfl, htail⟩ := List.cons.inj hl
        by_cases hf : front = []
        · subst hf
          refine ⟨[x], l, rfl, ?_, ?_⟩
          · rw [countNonMsgs, List.countP_cons_of_pos (by simp [hx])]
            rfl
          · rw [counted, counted, h.1]
            simp
        · obtain ⟨a, b, rfl, ha, hc⟩ := ih h.2 htail hf
          refine ⟨x :: a, b, rfl, ?_, ?_⟩
          · rw [countNonMsgs, List.countP_cons_of_pos (by simp [hx])]
            exact congrArg (· + 1) ha
          · rw [counted, hc, h.1, List.length_cons, Nat.cast_succ]
            ring

/-- No count is negative. -/
theorem Offs.nonneg (h : Offs isMsg mlenoffs k l t) (hk : 0 ≤ k) (base : Slot) :
    0 ≤ t ∧ ∀ y ∈ nmSlots isMsg base l, 0 ≤ mlenoffs y.2 := by
  induction l generalizing k base with
  | nil =>
    have ht : t = k := h
    exact ⟨ht ▸ hk, fun y hy => by cases hy⟩
  | cons x l ih =>
    rw [Offs] at h
    rw [nmSlots]
    split at h
    · rename_i hx
      rw [if_pos hx]
      exact ih h (by omega) _
    · rename_i hx
      rw [if_neg hx]
      obtain ⟨ht, hl⟩ := ih h.2 (le_refl 0) (.next x)
      refine ⟨ht, fun y hy => ?_⟩
      rcases List.mem_cons.mp hy with rfl | hy
      · exact h.1 ▸ hk
      · exact hl y hy

end Counted

/-! ## The loop -/

/-- **The loop**, from the `k`-th non-message signal on: it has added all the counts, or it
has given up after those of `front`. -/
theorem privqsLenLoop_spec {p : Proc} {ys : List (Slot × Sig)}
    (hload : ∀ y ∈ ys, p.load y.1 = some y.2) (hchain : SpecSeg p.mem.specificNext ys none)
    (maxSigs maxNmsigs res : ℤ) (k turns : ℕ) (hturns : ys.length < turns) :
    ∃ r, privqsLenLoop p maxSigs maxNmsigs turns (ys.head?.map Prod.fst) res (wrapInt k) = some r ∧
      (r = res + counted p.mem.mlenoffs ys ∨
        ∃ front rest, ys = front ++ rest ∧ front ≠ [] ∧
          r = -(res + counted p.mem.mlenoffs front) ∧
          (maxSigs < res + counted p.mem.mlenoffs front ∨
            maxNmsigs < wrapInt ((k + front.length : ℕ) : ℤ))) := by
  induction ys generalizing res k turns with
  | nil =>
    obtain ⟨turns, rfl⟩ := Nat.exists_eq_succ_of_ne_zero (Nat.ne_of_gt hturns)
    exact ⟨res, rfl, .inl (add_zero res).symm⟩
  | cons y ys ih =>
    obtain ⟨turns, rfl⟩ := Nat.exists_eq_succ_of_ne_zero (Nat.ne_of_gt (Nat.zero_lt_of_lt hturns))
    have hy : p.load y.1 = some y.2 := hload y (List.mem_cons_self ..)
    have hone : counted p.mem.mlenoffs [y] = p.mem.mlenoffs y.2 + 1 := add_zero _
    simp only [List.head?_cons, Option.map_some, privqsLenLoop, hy]
    rw [wrapInt_succ]
    split
    · rename_i hmax
      refine ⟨_, rfl, .inr ⟨[y], ys, rfl, List.cons_ne_nil _ _, ?_, .inl ?_⟩⟩
      · rw [hone]
      · rw [hone]
        exact hmax
    · split
      · rename_i hmax
        refine ⟨_, rfl, .inr ⟨[y], ys, rfl, List.cons_ne_nil _ _, ?_, .inr hmax⟩⟩
        rw [hone]
      · -- the signals that are left, with this one counted
        have hnext : p.mem.specificNext y.2 = ys.head?.map Prod.fst := by
          rw [hchain.1, Option.or_none]
        rw [hnext]
        obtain ⟨r, hr, hcase⟩ := ih (fun z hz => hload z (List.mem_cons_of_mem _ hz)) hchain.2
          (res + (p.mem.mlenoffs y.2 + 1)) (k + 1) turns (Nat.lt_of_succ_lt_succ hturns)
        refine ⟨r, hr, ?_⟩
        rcases hcase with hall | ⟨front, rest, rfl, -, hfront, hwhy⟩
        · refine .inl ?_
          rw [hall, counted]
          exact add_assoc ..
        · have hcons : res + counted p.mem.mlenoffs (y :: front) =
              res + (p.mem.mlenoffs y.2 + 1) + counted p.mem.mlenoffs front := by
            rw [counted]
            exact (add_assoc ..).symm
          have hk : k + (y :: front).length = k + 1 + front.length := by
            rw [List.length_cons, Nat.add_assoc, Nat.add_comm 1]
          refine .inr ⟨y :: front, rest, rfl, List.cons_ne_nil _ _, ?_, ?_⟩
          · rw [hcons]
            exact hfront
          · rw [hcons, hk]
            exact hwhy

/-! ## The number that comes out -/

theorem length_le_of_lt {l : List ℕ} {n : ℕ} (hnd : l.Nodup) (h : ∀ x ∈ l, x < n) :
    l.length ≤ n := by
  have hsub : l ⊆ List.range n := fun x hx => List.mem_range.mpr (h x hx)
  have hle := (hnd.subperm hsub).length_le
  rwa [List.length_range] at hle

/-- There are not more signals than words. -/
theorem length_le_of_wordAddress {l : List ℕ} (hnd : l.Nodup) (h : ∀ x ∈ l, WordAddress x) :
    l.length ≤ 2305843009213693952 := by
  have hwords : (l.map (· / 8)).Nodup := by
    refine hnd.map_on fun x hx y hy hxy => ?_
    have hx := (h x hx).2
    have hy := (h y hy).2
    have hxy : x / 8 = y / 8 := hxy
    omega
  rw [← List.length_map (· / 8)]
  refine length_le_of_lt hwords fun w hw => ?_
  obtain ⟨x, hx, rfl⟩ := List.mem_map.mp hw
  have hx := (h x hx).1
  omega

namespace PrivRep

variable {p : Proc} {inner middle : List Sig}

/-- The messages of the inner queue and the signals of the middle queue. -/
def total (p : Proc) (inner middle : List Sig) : ℤ :=
  countMsgs p.mem.isMsg inner + middle.length

theorem total_le (h : PrivRep p inner middle) : total p inner middle ≤ 4611686018427387904 := by
  have hinner : inner.length ≤ 2305843009213693952 :=
    length_le_of_wordAddress h.innerLinks.nodup fun x hx =>
      h.address x (List.mem_append_left _ hx)
  have hmiddle : middle.length ≤ 2305843009213693952 :=
    length_le_of_wordAddress h.middleRep.links.nodup fun x hx =>
      h.address x (List.mem_append_right _ hx)
  have hmsgs : countMsgs p.mem.isMsg inner ≤ inner.length := List.countP_le_length
  rw [total]
  omega

/-- What has been counted at the first few non-message signals. -/
theorem counted_front (h : PrivRep p inner middle) {front rest : List (Slot × Sig)}
    (hl : nmSlots p.mem.isMsg .cont middle = front ++ rest) (hne : front ≠ []) :
    ∃ n, n = p.qs.mqLen + p.qs.mlenoffs + counted p.mem.mlenoffs front ∧
      0 < n ∧ n ≤ total p inner middle ∧
      ∃ a b, middle = a ++ b ∧ countNonMsgs p.mem.isMsg a = front.length ∧
        n = p.qs.mqLen + p.qs.mlenoffs + a.length := by
  obtain ⟨a, b, hab, ha, hc⟩ := h.middleRep.offs.counted_front hl hne
  rw [zero_add] at hc
  obtain ⟨ht, hys⟩ := h.middleRep.offs.nonneg (le_refl 0) .cont
  have hsum := h.middleRep.offs.counted_add .cont
  rw [hl] at hys
  rw [hl, counted_append, zero_add] at hsum
  have hrest : 0 ≤ counted p.mem.mlenoffs rest :=
    counted_nonneg fun y hy => hys y (List.mem_append_right _ hy)
  have hfront : 0 < front.length := List.length_pos_iff.mpr hne
  have hpos : 0 < a.length := by
    rw [← ha] at hfront
    exact hfront.trans_le List.countP_le_length
  have hmq := h.mqLen
  refine ⟨_, rfl, ?_, ?_, a, b, hab, ha, by rw [hc]⟩
  · omega
  · rw [total]
    omega

/-- **The answer**, for limits that stand as they are. -/
theorem loop_answer (h : PrivRep p inner middle) {turns : ℕ}
    (hturns : countNonMsgs p.mem.isMsg middle < turns) (maxSigs maxNmsigs : ℤ) :
    ∃ r, privqsLenLoop p maxSigs maxNmsigs turns p.qs.nmsigs.next
        (p.qs.mqLen + p.qs.mlenoffs) 0 = some r ∧
      (r = total p inner middle ∨
        ∃ n, r = -n ∧ 0 < n ∧ n ≤ total p inner middle ∧
          (maxSigs < n ∨ ∃ front back, middle = front ++ back ∧
            maxNmsigs < wrapInt (countNonMsgs p.mem.isMsg front) ∧
            n = p.qs.mqLen + p.qs.mlenoffs + front.length)) := by
  have hcount : (nmSlots p.mem.isMsg .cont middle).length = countNonMsgs p.mem.isMsg middle := by
    rw [countNonMsgs, List.countP_eq_length_filter, ← nmSlots_snd .cont, List.length_map]
  have hload : ∀ y ∈ nmSlots p.mem.isMsg .cont middle, p.load y.1 = some y.2 :=
    load_nmSlots h.middleRep.links
  obtain ⟨r, hr, hcase⟩ := privqsLenLoop_spec hload h.middleRep.chain maxSigs maxNmsigs
    (p.qs.mqLen + p.qs.mlenoffs) 0 turns (hcount ▸ hturns)
  rw [← h.middleRep.nmNext] at hr
  refine ⟨r, hr, ?_⟩
  rcases hcase with hall | ⟨front, rest, hl, hne, hrn, hwhy⟩
  · refine .inl ?_
    have hsum := h.middleRep.offs.counted_add .cont
    rw [hall, total, ← h.mqLen, add_assoc, add_comm p.qs.mlenoffs, hsum, zero_add]
  · obtain ⟨n, hn, hpos, hle, a, b, hab, ha, hna⟩ := h.counted_front hl hne
    refine .inr ⟨n, hn ▸ hrn, hpos, hle, ?_⟩
    rcases hwhy with hmax | hmax
    · exact .inl (hn ▸ hmax)
    · rw [zero_add, ← ha] at hmax
      exact .inr ⟨a, b, hab, hmax, hna⟩

end PrivRep

/-- A message and a marker in the inner queue, a message and a signal in the middle one. -/
def withMarker : Proc where
  mem := ⟨fun x => if x = 8 then some 16 else if x = 24 then some 32 else none,
    fun x => x = 8 || x = 24, fun _ => none, fun x => if x = 32 then 1 else 0⟩
  qs := ⟨some 8, .next 16, 1, some 24, .next 32, ⟨some (.next 24), some (.next 24)⟩, 0⟩
  inq := .empty

theorem withMarker_rep : PrivRep withMarker [8, 16] [24, 32] where
  innerLinks := ⟨rfl, rfl, rfl⟩
  mqLen := rfl
  middleRep := ⟨⟨rfl, rfl, rfl⟩, rfl, rfl, rfl, ⟨rfl, trivial⟩, rfl, rfl⟩
  address := by
    simp only [WordAddress]
    decide

/-- The marker is not counted. -/
theorem marker_not_counted :
    ¬∀ (p : Proc) (inner middle : List Sig) (turns : ℕ), PrivRep p inner middle →
      countNonMsgs p.mem.isMsg middle < turns →
      privqsLen p turns (-1) (-1) = some ((inner.length + middle.length : ℕ) : ℤ) := by
  intro h
  have hlen := h withMarker [8, 16] [24, 32] 2 withMarker_rep (by decide)
  revert hlen
  decide

/-- **The length.** Without limits the answer is the total. With them it is the total, or
minus what was counted when there were more than `maxSigs`, or when more than `maxNmsigs`
non-message signals had been passed; and no more than the total was counted. -/
theorem privqsLen_total {p : Proc} {inner middle : List Sig} (h : PrivRep p inner middle)
    {turns : ℕ} (hturns : countNonMsgs p.mem.isMsg middle < turns) :
    (∀ maxSigs < 0, ∀ maxNmsigs < 0,
      privqsLen p turns maxSigs maxNmsigs = some (PrivRep.total p inner middle)) ∧
    ∀ maxSigs maxNmsigs, ∃ r, privqsLen p turns maxSigs maxNmsigs = some r ∧
      (r = PrivRep.total p inner middle ∨
        ∃ n, r = -n ∧ 0 < n ∧ n ≤ PrivRep.total p inner middle ∧
          (0 ≤ maxSigs ∧ maxSigs < n ∨
            0 ≤ maxNmsigs ∧ ∃ front back, middle = front ++ back ∧
              maxNmsigs < countNonMsgs p.mem.isMsg front ∧
              n = p.qs.mqLen + p.qs.mlenoffs + front.length)) := by
  have hmq := h.mqLen
  have htotal := h.total_le
  have hle : p.qs.mqLen ≤ PrivRep.total p inner middle := by
    rw [PrivRep.total]
    omega
  constructor
  · intro maxSigs hsigs maxNmsigs hnmsigs
    have hmax : ¬p.qs.mqLen > swordMax := by
      rw [swordMax]
      omega
    obtain ⟨r, hr, hcase⟩ := h.loop_answer hturns swordMax swordMax
    simp only [privqsLen, if_pos hsigs, if_pos hnmsigs, if_neg hmax]
    rw [hr]
    rcases hcase with hall | ⟨n, -, -, hn, hwhy | ⟨a, b, -, hwhy, -⟩⟩
    · rw [hall]
    · rw [swordMax] at hwhy
      omega
    · have hlt := wrapInt_lt (countNonMsgs p.mem.isMsg a)
      rw [swordMax] at hwhy
      omega
  · intro maxSigs maxNmsigs
    -- the limits as they stand after the negative ones are replaced
    obtain ⟨sigs, hsigs⟩ : ∃ sigs, sigs = if maxSigs < 0 then swordMax else maxSigs := ⟨_, rfl⟩
    obtain ⟨nmsigs, hnmsigs⟩ : ∃ nmsigs, nmsigs = if maxNmsigs < 0 then swordMax else maxNmsigs :=
      ⟨_, rfl⟩
    have hexceeds : ∀ n, 0 ≤ n → n ≤ PrivRep.total p inner middle → sigs < n →
        0 ≤ maxSigs ∧ maxSigs < n := by
      intro n _ hn hlt
      rw [hsigs] at hlt
      split at hlt
      · rw [swordMax] at hlt
        omega
      · exact ⟨by omega, hlt⟩
    have hpassed : ∀ k : ℕ, nmsigs < wrapInt k → 0 ≤ maxNmsigs ∧ maxNmsigs < k := by
      intro k hlt
      rw [hnmsigs] at hlt
      split at hlt
      · have hk : wrapInt k < swordMax := lt_trans (wrapInt_lt k) (by decide)
        exact absurd hlt (not_lt.mpr hk.le)
      · rename_i hneg
        have hnonneg : 0 ≤ maxNmsigs := Int.not_lt.mp hneg
        have hk : wrapInt k ≤ k := le_of_wrapInt (lt_of_le_of_lt hnonneg hlt)
        exact ⟨hnonneg, lt_of_lt_of_le hlt hk⟩
    simp only [privqsLen]
    rw [← hsigs, ← hnmsigs]
    split
    · rename_i hmax
      have hnonneg : 0 ≤ p.qs.mqLen := by
        rw [hmq]
        exact Int.natCast_nonneg _
      obtain ⟨h₀, hlt⟩ := hexceeds _ hnonneg hle hmax
      exact ⟨_, rfl, .inr ⟨_, rfl, lt_of_le_of_lt h₀ hlt, hle, .inl ⟨h₀, hlt⟩⟩⟩
    · obtain ⟨r, hr, hcase⟩ := h.loop_answer hturns sigs nmsigs
      refine ⟨r, hr, hcase.imp_right ?_⟩
      rintro ⟨n, hrn, hpos, hn, hwhy | ⟨a, b, hab, hwhy, hna⟩⟩
      · exact ⟨n, hrn, hpos, hn, .inl (hexceeds n hpos.le hn hwhy)⟩
      · obtain ⟨h₀, hlt⟩ := hpassed _ hwhy
        exact ⟨n, hrn, hpos, hn, .inr ⟨h₀, a, b, hab, hlt, hna⟩⟩

/-- Three signals are counted there. -/
theorem withMarker_total :
    privqsLen withMarker 2 (-1) (-1) = some 3 ∧
      ∃ r, privqsLen withMarker 2 1 (-1) = some r ∧ (r = 3 ∨ ∃ n, r = -n ∧ 0 < n ∧ n ≤ 3) := by
  obtain ⟨hall, hlimits⟩ := privqsLen_total withMarker_rep (show _ < 2 by decide)
  refine ⟨hall (-1) (by decide) (-1) (by decide), ?_⟩
  obtain ⟨r, hr, hcase⟩ := hlimits 1 (-1)
  refine ⟨r, hr, hcase.imp_right ?_⟩
  rintro ⟨n, hrn, hpos, hn, -⟩
  exact ⟨n, hrn, hpos, hn⟩

end PonBeam.SigQueue
