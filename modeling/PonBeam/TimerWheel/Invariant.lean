import PonBeam.TimerWheel.Book
import PonBeam.TimerWheel.Bump

/-!
# The invariant of the wheel

A bump goes through stages: in the at-once slot nothing in the wheels is due; during the
scan of the soon wheel its due timers are in the slots left; during the scan of the later
wheel so are the timers that have to leave it. `bump_scnt` counts at least the timers
still to be found, which is why a range without any can be passed over. A bump that
yields stays in its stage until it is resumed.
-/

namespace PonBeam.TimerWheel

/-! ## Where a timer may be -/

/-- The end of the later slots a wheel at `pos` has to have looked at. -/
def endPos (pos : ℤ) : ℤ := pos + 16384 - (pos + 16384) % 8192

/-- A timer's `slot` and `timeout_pos` agree. -/
structure PlacedAt (pos slot tpos : ℤ) : Prop where
  /-- a slot or inactive -/
  lower : -2 ≤ slot
  /-- a slot or inactive -/
  upper : slot < 32768
  /-- the at-once slot -/
  atOnce : slot = -1 → tpos ≤ pos
  /-- the soon wheel -/
  soon : 0 ≤ slot → slot < 16384 → slot = tpos % 16384 ∧ tpos < pos + 16384
  /-- the later wheel -/
  later : 16384 ≤ slot → slot = tpos / 8192 % 16384 + 16384

/-- The minima of the wheels are not after a timer that is ahead of a scan. -/
structure MinimaAt (pos laterPos soonMin laterMin slot tpos : ℤ) : Prop where
  /-- the soon wheel -/
  soon : 0 ≤ slot → slot < 16384 → pos < tpos → soonMin ≤ tpos
  /-- the later wheel -/
  later : 16384 ≤ slot → laterPos ≤ tpos → laterMin ≤ tpos

/-- What a bump to `pos` may trigger or move, if it was set before. -/
def DueAt (pos slot tpos : ℤ) : Prop :=
  (0 ≤ slot ∧ slot < 16384 ∧ tpos ≤ pos) ∨ (16384 ≤ slot ∧ tpos < pos + 16384)

instance (pos slot tpos : ℤ) : Decidable (DueAt pos slot tpos) :=
  inferInstanceAs (Decidable (_ ∨ _))

/-- Where a bump is: in a slot, with so many left. -/
inductive Stage : Type where
  /-- in the at-once slot, or nowhere -/
  | atOnce
  /-- in the soon wheel -/
  | soon (slot slots : ℤ)
  /-- in the later wheel -/
  | later (slot slots : ℤ)

namespace Stage

/-- The slot the list in `sentinel` is from. -/
def cur : Stage → ℤ
  | .atOnce => -1
  | .soon slot _ => slot
  | .later slot _ => slot

/-- What holds of the positions. -/
def Rules (pos laterPos : ℤ) : Stage → Prop
  | .atOnce => pos + 8192 < laterPos
  | .soon slot slots => 0 ≤ slots ∧ 0 ≤ slot ∧ slot < 16384
  | .later slot slots => 0 ≤ slots ∧ 16384 ≤ slot ∧ slot < 32768 ∧ laterPos = endPos pos

/-- What holds of each timer: the ones to be found are in the slots left. -/
def At (pos laterPos slot tpos : ℤ) : Stage → Prop
  | .atOnce => (0 ≤ slot → slot < 16384 → pos < tpos) ∧ (16384 ≤ slot → laterPos ≤ tpos)
  | .soon cur slots =>
    (0 ≤ slot → slot < 16384 → pos < tpos ∨ (slot - cur) % 16384 < slots) ∧
      (16384 ≤ slot → laterPos ≤ tpos)
  | .later cur slots => (0 ≤ slot → slot < 16384 → pos < tpos) ∧
      (16384 ≤ slot → laterPos ≤ tpos ∨ (slot - cur) % 16384 < slots)

/-- What holds of a timer in the slot whose list has been taken. -/
def Calm (pos laterPos tpos : ℤ) : Stage → Prop
  | .atOnce => True
  | .soon _ _ => pos < tpos
  | .later _ _ => laterPos ≤ tpos

/-- A slot is being looked at. -/
def Running : Stage → Prop
  | .atOnce => True
  | .soon _ slots => 1 ≤ slots
  | .later _ slots => 1 ≤ slots

end Stage

/-- **The invariant.** `busy` says that a list has been taken from its slot. A callback may
still have to be accounted for, `pn` times in `nto` and `pb` times in `bump_scnt`. -/
structure Inv (A : Finset Tmr) (tiw : Wheel) (st : Stage) (busy : Bool) (pn pb : ℤ) : Prop where
  /-- the lists -/
  lists : Lists tiw.w tiw.sentinel tiw.slot st.cur
  /-- the counters -/
  counts : Counts A tiw.slot (tiw.nto - pn) tiw.atOnceNto tiw.soonNto tiw.laterNto tiw.scnt
  /-- the timers -/
  placed : ∀ t, PlacedAt tiw.pos (tiw.slot t) (tiw.timeoutPos t)
  /-- the minima, which a search may have raised past the list that was taken -/
  minima : ∀ t, t ∉ tiw.sentinel →
    MinimaAt tiw.pos tiw.laterPos tiw.soonMinTpos tiw.laterMinTpos (tiw.slot t) (tiw.timeoutPos t)
  /-- `later.pos` is the start of a slot -/
  aligned : tiw.laterPos % 8192 = 0
  /-- it is in the soon wheel's range -/
  ahead : tiw.laterPos ≤ tiw.pos + 16384
  /-- the stage -/
  rules : st.Rules tiw.pos tiw.laterPos
  /-- the timers in it -/
  staged : ∀ t, st.At tiw.pos tiw.laterPos (tiw.slot t) (tiw.timeoutPos t)
  /-- the timers to be found are counted -/
  due : st ≠ .atOnce → ∀ ix,
    (tally A fun t => DueAt tiw.pos (tiw.slot t) (tiw.timeoutPos t) ∧ tiw.slot t / 512 = ix)
      + (if ix = st.cur / 512 then pb else 0) ≤ tiw.bumpScnt ix
  /-- no list -/
  idle : busy = false → tiw.sentinel = []
  /-- a list of a slot still counted in `slots` -/
  running : busy = true → st.Running
  /-- what it left behind is not due -/
  calm : busy = true → ∀ t ∈ tiw.w st.cur, st.Calm tiw.pos tiw.laterPos (tiw.timeoutPos t)

/-! ## A timer is put into a slot -/

namespace Wheel

variable (tiw : Wheel) (i : ℤ) (p : Tmr)

@[simp] theorem insertTimerIntoSlot_w :
    (tiw.insertTimerIntoSlot i p).w = Function.update tiw.w i (tiw.w i ++ [p]) := by
  unfold insertTimerIntoSlot
  dsimp only
  split_ifs <;> rfl

@[simp] theorem insertTimerIntoSlot_slot :
    (tiw.insertTimerIntoSlot i p).slot = Function.update tiw.slot p i := by
  unfold insertTimerIntoSlot
  dsimp only
  split_ifs <;> rfl

@[simp] theorem insertTimerIntoSlot_sentinel :
    (tiw.insertTimerIntoSlot i p).sentinel = tiw.sentinel := by
  unfold insertTimerIntoSlot
  dsimp only
  split_ifs <;> rfl

@[simp] theorem insertTimerIntoSlot_timeoutPos :
    (tiw.insertTimerIntoSlot i p).timeoutPos = tiw.timeoutPos := by
  unfold insertTimerIntoSlot
  dsimp only
  split_ifs <;> rfl

@[simp] theorem insertTimerIntoSlot_pos : (tiw.insertTimerIntoSlot i p).pos = tiw.pos := by
  unfold insertTimerIntoSlot
  dsimp only
  split_ifs <;> rfl

@[simp] theorem insertTimerIntoSlot_laterPos :
    (tiw.insertTimerIntoSlot i p).laterPos = tiw.laterPos := by
  unfold insertTimerIntoSlot
  dsimp only
  split_ifs <;> rfl

@[simp] theorem insertTimerIntoSlot_bumpScnt :
    (tiw.insertTimerIntoSlot i p).bumpScnt = tiw.bumpScnt := by
  unfold insertTimerIntoSlot
  dsimp only
  split_ifs <;> rfl

@[simp] theorem insertTimerIntoSlot_nto : (tiw.insertTimerIntoSlot i p).nto = tiw.nto := by
  unfold insertTimerIntoSlot
  dsimp only
  split_ifs <;> rfl

theorem insertTimerIntoSlot_atOnceNto : (tiw.insertTimerIntoSlot i p).atOnceNto
    = tiw.atOnceNto + (if i = -1 then 1 else 0) := by
  unfold insertTimerIntoSlot slotAtOnce
  dsimp only
  split_ifs <;> simp

theorem insertTimerIntoSlot_soonNto : (tiw.insertTimerIntoSlot i p).soonNto
    = tiw.soonNto + (if i ≠ -1 ∧ i < 16384 then 1 else 0) := by
  unfold insertTimerIntoSlot slotAtOnce laterWheelFirstSlot soonWheelSize
  dsimp only
  split_ifs <;> simp_all

theorem insertTimerIntoSlot_laterNto : (tiw.insertTimerIntoSlot i p).laterNto
    = tiw.laterNto + (if i ≠ -1 ∧ ¬ i < 16384 then 1 else 0) := by
  unfold insertTimerIntoSlot slotAtOnce laterWheelFirstSlot soonWheelSize
  dsimp only
  split_ifs <;> simp_all

theorem insertTimerIntoSlot_scnt (ix : ℤ) : (tiw.insertTimerIntoSlot i p).scnt ix
    = tiw.scnt ix + (if i ≠ -1 ∧ ix = i / 512 then 1 else 0) := by
  unfold insertTimerIntoSlot slotAtOnce scntAdd scntGetIx scntRange Function.update
  dsimp only
  split_ifs <;> simp_all

theorem insertTimerIntoSlot_soonMinTpos :
    (tiw.insertTimerIntoSlot i p).soonMinTpos ≤ tiw.soonMinTpos ∧
    (i ≠ -1 → i < 16384 → (tiw.insertTimerIntoSlot i p).soonMinTpos ≤ tiw.timeoutPos p) := by
  unfold insertTimerIntoSlot slotAtOnce laterWheelFirstSlot soonWheelSize
  dsimp only
  split_ifs <;> dsimp only <;> omega

theorem insertTimerIntoSlot_laterMinTpos :
    (tiw.insertTimerIntoSlot i p).laterMinTpos ≤ tiw.laterMinTpos ∧
    (16384 ≤ i → (tiw.insertTimerIntoSlot i p).laterMinTpos ≤ tiw.timeoutPos p) := by
  unfold insertTimerIntoSlot slotAtOnce laterWheelFirstSlot soonWheelSize
  dsimp only
  split_ifs <;> dsimp only <;> omega

/-- The old slot of the timer does not matter. -/
theorem insertTimerIntoSlot_update_slot (j : ℤ) :
    ({ tiw with slot := Function.update tiw.slot p j }).insertTimerIntoSlot i p
      = tiw.insertTimerIntoSlot i p := by
  unfold insertTimerIntoSlot
  simp only [Function.update_idem]

end Wheel

section

variable {A : Finset Tmr} {tiw tiw' : Wheel} {st : Stage} {busy : Bool} {pn pb pn' pb' : ℤ}
  {i : ℤ} {p : Tmr}

/-- A timer may be put into the slot `i`. -/
inductive Fits (pos i tpos : ℤ) : Prop where
  /-- into the at-once slot -/
  | atOnce : i = -1 → tpos ≤ pos → Fits pos i tpos
  /-- into the soon wheel -/
  | soon : 0 ≤ i → i < 16384 → i = tpos % 16384 → pos < tpos → tpos < pos + 16384 →
      Fits pos i tpos
  /-- into the later wheel, beyond the soon wheel -/
  | later : 16384 ≤ i → i = tpos / 8192 % 16384 + 16384 → pos + 16384 ≤ tpos → Fits pos i tpos

theorem Fits.bounds {pos tpos : ℤ} (h : Fits pos i tpos) : -1 ≤ i ∧ i < 32768 := by
  cases h <;> omega

theorem Fits.not_due {pos tpos : ℤ} (h : Fits pos i tpos) : ¬ DueAt pos i tpos := by
  unfold DueAt
  cases h <;> omega

theorem Fits.staged {pos laterPos tpos : ℤ} (h : Fits pos i tpos)
    (hlater : laterPos ≤ pos + 16384) : st.At pos laterPos i tpos := by
  cases st <;> cases h <;> simp only [Stage.At] <;> omega

theorem Fits.calm {pos laterPos tpos : ℤ} (h : Fits pos i tpos)
    (hlater : laterPos ≤ pos + 16384) (hr : st.Rules pos laterPos) (hi : i = st.cur) :
    st.Calm pos laterPos tpos := by
  cases st <;> cases h <;> simp only [Stage.Calm, Stage.Rules, Stage.cur] at hr hi ⊢ <;> omega

theorem Fits.placed {pos tpos : ℤ} (h : Fits pos i tpos) : PlacedAt pos i tpos := by
  cases h <;> constructor <;> omega

theorem MinimaAt.mono {pos laterPos soonMin laterMin soonMin' laterMin' slot tpos : ℤ}
    (h : MinimaAt pos laterPos soonMin laterMin slot tpos) (hs : soonMin' ≤ soonMin)
    (hl : laterMin' ≤ laterMin) : MinimaAt pos laterPos soonMin' laterMin' slot tpos :=
  ⟨fun h1 h2 h3 => hs.trans (h.soon h1 h2 h3), fun h1 h2 => hl.trans (h.later h1 h2)⟩

/-- An inactive timer is in no wheel. -/
theorem MinimaAt.of_inactive {pos laterPos soonMin laterMin slot tpos : ℤ} (h : slot = -2) :
    MinimaAt pos laterPos soonMin laterMin slot tpos := by
  constructor <;> omega

/-- **An inactive timer is put into a slot it fits in.** -/
theorem Inv.insertTimerIntoSlot (pn : ℤ) (h : Inv A tiw st busy (pn + 1) pb) (hp : p ∈ A)
    (hslot : tiw.slot p = -2) (hfit : Fits tiw.pos i (tiw.timeoutPos p)) :
    Inv A (tiw.insertTimerIntoSlot i p) st busy pn pb := by
  obtain ⟨hlo, hhi⟩ := hfit.bounds
  have hold : ∀ t, t ≠ p → Function.update tiw.slot p i t = tiw.slot t := fun t ht =>
    Function.update_of_ne ht ..
  refine ⟨?lists, ?counts, ?placed, ?minima, ?aligned, ?ahead, ?rules, ?staged, ?due, ?idle,
    h.running, ?calm⟩
  case lists =>
    simp only [Wheel.insertTimerIntoSlot_w, Wheel.insertTimerIntoSlot_slot,
      Wheel.insertTimerIntoSlot_sentinel]
    exact h.lists.insert hslot (by omega)
  case counts =>
    have hc := h.counts.update hp i
    rw [hslot] at hc
    refine hc.cast ?_ ?_ ?_ ?_ ?_ ?_
    · simp
    · simp only [Wheel.insertTimerIntoSlot_nto]
      split_ifs <;> omega
    · rw [Wheel.insertTimerIntoSlot_atOnceNto]
      split_ifs <;> omega
    · rw [Wheel.insertTimerIntoSlot_soonNto]
      split_ifs <;> omega
    · rw [Wheel.insertTimerIntoSlot_laterNto]
      split_ifs <;> omega
    · intro ix
      rw [Wheel.insertTimerIntoSlot_scnt]
      split_ifs <;> omega
  case placed =>
    intro t
    simp only [Wheel.insertTimerIntoSlot_slot, Wheel.insertTimerIntoSlot_timeoutPos,
      Wheel.insertTimerIntoSlot_pos]
    by_cases ht : t = p
    · rw [ht, Function.update_self]
      exact hfit.placed
    · rw [hold t ht]
      exact h.placed t
  case minima =>
    intro t hsent
    obtain ⟨hs1, hs2⟩ := Wheel.insertTimerIntoSlot_soonMinTpos tiw i p
    obtain ⟨hl1, hl2⟩ := Wheel.insertTimerIntoSlot_laterMinTpos tiw i p
    simp only [Wheel.insertTimerIntoSlot_slot, Wheel.insertTimerIntoSlot_timeoutPos,
      Wheel.insertTimerIntoSlot_pos, Wheel.insertTimerIntoSlot_laterPos,
      Wheel.insertTimerIntoSlot_sentinel] at hsent ⊢
    by_cases ht : t = p
    · rw [ht, Function.update_self]
      exact ⟨fun h1 h2 _ => hs2 (by omega) h2, fun h1 _ => hl2 h1⟩
    · rw [hold t ht]
      exact (h.minima t hsent).mono hs1 hl1
  case aligned => simpa using h.aligned
  case ahead => simpa using h.ahead
  case rules => simpa using h.rules
  case staged =>
    intro t
    simp only [Wheel.insertTimerIntoSlot_slot, Wheel.insertTimerIntoSlot_timeoutPos,
      Wheel.insertTimerIntoSlot_pos, Wheel.insertTimerIntoSlot_laterPos]
    by_cases ht : t = p
    · rw [ht, Function.update_self]
      exact hfit.staged h.ahead
    · rw [hold t ht]
      exact h.staged t
  case due =>
    intro hst ix
    simp only [Wheel.insertTimerIntoSlot_slot, Wheel.insertTimerIntoSlot_timeoutPos,
      Wheel.insertTimerIntoSlot_pos, Wheel.insertTimerIntoSlot_bumpScnt]
    have hsame := tally_keep (A := A) (a := p)
      (P := fun t => DueAt tiw.pos (tiw.slot t) (tiw.timeoutPos t) ∧ tiw.slot t / 512 = ix)
      (Q := fun t => DueAt tiw.pos (Function.update tiw.slot p i t) (tiw.timeoutPos t) ∧
        Function.update tiw.slot p i t / 512 = ix)
      (fun t ht => by rw [hold t ht]) ?_
    · rw [hsame]
      exact h.due hst ix
    · rw [Function.update_self, hslot]
      refine iff_of_false (fun hd => hfit.not_due hd.1) fun hd => ?_
      have hno := hd.1
      unfold DueAt at hno
      omega
  case idle => simpa using h.idle
  case calm =>
    intro hb t ht
    simp only [Wheel.insertTimerIntoSlot_w, Wheel.insertTimerIntoSlot_timeoutPos,
      Wheel.insertTimerIntoSlot_pos, Wheel.insertTimerIntoSlot_laterPos] at ht ⊢
    by_cases hcur : st.cur = i
    · rw [hcur, Function.update_self, List.mem_append, List.mem_singleton] at ht
      rcases ht with ht | rfl
      · exact h.calm hb t (hcur ▸ ht)
      · exact hfit.calm h.ahead h.rules hcur.symm
    · rw [Function.update_of_ne hcur] at ht
      exact h.calm hb t ht

/-! ## A timer leaves -/

/-- The timer `p` is taken out of the counters and becomes inactive. -/
structure Vacated (tiw : Wheel) (p : Tmr) (tiw' : Wheel) : Prop where
  slot : tiw'.slot = Function.update tiw.slot p (-2)
  timeoutPos : tiw'.timeoutPos = tiw.timeoutPos
  pos : tiw'.pos = tiw.pos
  laterPos : tiw'.laterPos = tiw.laterPos
  atOnceNto : tiw'.atOnceNto = tiw.atOnceNto - (if tiw.slot p = -1 then 1 else 0)
  soonNto : tiw'.soonNto
    = tiw.soonNto - (if 0 ≤ tiw.slot p ∧ tiw.slot p < 16384 then 1 else 0)
  laterNto : tiw'.laterNto = tiw.laterNto - (if 16384 ≤ tiw.slot p then 1 else 0)
  scnt : ∀ ix, tiw'.scnt ix
    = tiw.scnt ix - (if 0 ≤ tiw.slot p ∧ tiw.slot p / 512 = ix then 1 else 0)
  soonMinTpos : tiw'.soonMinTpos = tiw.soonMinTpos ∨ tiw'.soonNto = 0
  laterMinTpos : tiw'.laterMinTpos = tiw.laterMinTpos ∨ tiw'.laterNto = 0

theorem scntAdd_apply (scnt : ℤ → ℤ) (ix d j : ℤ) :
    scntAdd scnt ix d j = scnt j + (if j = ix then d else 0) := by
  unfold scntAdd
  by_cases hj : j = ix
  · rw [hj, Function.update_self, if_pos rfl]
  · rw [Function.update_of_ne hj, if_neg hj, Int.add_zero]

/-- A timer leaves the at-once slot. -/
theorem Vacated.atOnce (tiw : Wheel) (p : Tmr) (hs : tiw.slot p = -1) : Vacated tiw p
    { tiw with
      atOnceNto := tiw.atOnceNto - 1
      slot := Function.update tiw.slot p slotInactive } := by
  refine ⟨rfl, rfl, rfl, rfl, ?_, ?_, ?_, fun ix => ?_, Or.inl rfl, Or.inl rfl⟩ <;> dsimp only
  all_goals split_ifs <;> omega

/-- A timer leaves the soon wheel. -/
theorem Vacated.soon (tiw : Wheel) (p : Tmr) (hs : 0 ≤ tiw.slot p) (hs' : tiw.slot p < 16384) :
    Vacated tiw p
    { tiw.decSoonNto with
      scnt := scntAdd tiw.scnt (scntGetIx (tiw.slot p)) (-1)
      slot := Function.update tiw.slot p slotInactive } := by
  refine ⟨rfl, rfl, rfl, rfl, ?_, ?_, ?_, fun ix => ?_, ?_, Or.inl rfl⟩ <;>
    simp only [Wheel.decSoonNto, scntAdd_apply, scntGetIx, scntRange]
  all_goals split_ifs <;> omega

/-- A timer leaves the later wheel. -/
theorem Vacated.later (tiw : Wheel) (p : Tmr) (hs : 16384 ≤ tiw.slot p) : Vacated tiw p
    { tiw.decLaterNto with
      scnt := scntAdd tiw.scnt (scntGetIx (tiw.slot p)) (-1)
      slot := Function.update tiw.slot p slotInactive } := by
  refine ⟨rfl, rfl, rfl, rfl, ?_, ?_, ?_, fun ix => ?_, Or.inl rfl, ?_⟩ <;>
    simp only [Wheel.decLaterNto, scntAdd_apply, scntGetIx, scntRange]
  all_goals split_ifs <;> omega

/-- **A timer leaves.** Its list is gone over beforehand; if it was to be found by the bump,
`bump_scnt` may go down by one for it. -/
theorem Inv.vacate (h : Inv A tiw st busy pn pb) (hv : Vacated tiw p tiw')
    (hact : tiw.slot p ≠ -2) (hlists : Lists tiw'.w tiw'.sentinel tiw'.slot st.cur)
    (hw : ∀ t ∈ tiw'.w st.cur, t ∈ tiw.w st.cur) (hsent : tiw'.sentinel = tiw.sentinel.erase p)
    (hnto : tiw'.nto - pn' = tiw.nto - pn - 1)
    (hdue : ∀ ix, tiw.bumpScnt ix - (if ix = st.cur / 512 then pb else 0)
        + (if ix = st.cur / 512 then pb' else 0)
        - (if DueAt tiw.pos (tiw.slot p) (tiw.timeoutPos p) ∧ tiw.slot p / 512 = ix then 1 else 0)
      ≤ tiw'.bumpScnt ix) :
    Inv A tiw' st busy pn' pb' := by
  have hp : p ∈ A := h.counts.mem p hact
  have hold : ∀ t, t ≠ p → Function.update tiw.slot p (-2) t = tiw.slot t := fun t ht =>
    Function.update_of_ne ht ..
  have hcounts : Counts A tiw'.slot (tiw'.nto - pn') tiw'.atOnceNto tiw'.soonNto tiw'.laterNto
      tiw'.scnt := by
    refine (h.counts.update hp (-2)).cast hv.slot ?_ ?_ ?_ ?_ ?_
    · rw [hnto, if_pos hact]
      simp
    · rw [hv.atOnceNto]
      simp
    · rw [hv.soonNto]
      simp
    · rw [hv.laterNto]
      simp
    · intro ix
      rw [hv.scnt]
      simp
  refine ⟨hlists, hcounts, ?placed, ?minima, ?aligned, ?ahead, ?rules, ?staged, ?due, ?idle,
    h.running, ?calm⟩
  case placed =>
    intro t
    rw [hv.slot, hv.timeoutPos, hv.pos]
    by_cases ht : t = p
    · rw [ht, Function.update_self]
      constructor <;> omega
    · rw [hold t ht]
      exact h.placed t
  case minima =>
    intro t hout
    have hns := hcounts.not_soon (t := t)
    have hnl := hcounts.not_later (t := t)
    rw [hv.slot] at hns hnl
    rw [hv.slot, hv.timeoutPos, hv.pos, hv.laterPos]
    by_cases ht : t = p
    · rw [ht, Function.update_self]
      exact MinimaAt.of_inactive rfl
    · rw [hold t ht] at hns hnl ⊢
      rw [hsent] at hout
      have hm := h.minima t fun hm => hout ((List.mem_erase_of_ne ht).mpr hm)
      refine ⟨fun ha hb hc => ?_, fun ha hb => ?_⟩
      · rcases hv.soonMinTpos with hs | hs
        · rw [hs]
          exact hm.soon ha hb hc
        · exact absurd ⟨ha, hb⟩ (hns hs)
      · rcases hv.laterMinTpos with hl | hl
        · rw [hl]
          exact hm.later ha hb
        · exact absurd ha (hnl hl)
  case aligned => rw [hv.laterPos]; exact h.aligned
  case ahead => rw [hv.laterPos, hv.pos]; exact h.ahead
  case rules => rw [hv.laterPos, hv.pos]; exact h.rules
  case staged =>
    intro t
    rw [hv.slot, hv.timeoutPos, hv.pos, hv.laterPos]
    by_cases ht : t = p
    · rw [ht, Function.update_self]
      cases st <;> simp only [Stage.At] <;> omega
    · rw [hold t ht]
      exact h.staged t
  case due =>
    intro hst ix
    have hmove := tally_update (A := A)
      (P := fun t => DueAt tiw.pos (tiw.slot t) (tiw.timeoutPos t) ∧ tiw.slot t / 512 = ix)
      (Q := fun t => DueAt tiw'.pos (tiw'.slot t) (tiw'.timeoutPos t) ∧ tiw'.slot t / 512 = ix)
      hp (fun t ht => by rw [hv.slot, hv.timeoutPos, hv.pos, hold t ht])
    have hgone : ¬ (DueAt tiw'.pos (tiw'.slot p) (tiw'.timeoutPos p) ∧
        tiw'.slot p / 512 = ix) := by
      rw [hv.slot, Function.update_self]
      unfold DueAt
      omega
    rw [if_neg hgone] at hmove
    have hle := h.due hst ix
    have hbump := hdue ix
    omega
  case idle =>
    intro hb
    rw [hsent, h.idle hb]
    rfl
  case calm =>
    intro hb t ht
    rw [hv.timeoutPos, hv.pos, hv.laterPos]
    exact h.calm hb t (hw t ht)

end

end PonBeam.TimerWheel
