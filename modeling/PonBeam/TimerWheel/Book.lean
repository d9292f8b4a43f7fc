import PonBeam.Lib.Tally
import PonBeam.TimerWheel.Model

/-!
# The books of the wheel

`Lists` says which lists the active timers are in, `Counts` what the counters count.
Both speak of the fields of the timers only through `slot`, and change when the `slot`
of one timer does.
-/

namespace PonBeam.TimerWheel

/-! ## Lists -/

/-- Every active timer is once in the list of its slot, or in the list that was taken from
the slot `cur`. -/
structure Lists (w : ℤ → List Tmr) (sentinel : List Tmr) (slot : Tmr → ℤ) (cur : ℤ) : Prop where
  /-- the list of a slot -/
  slot_of_mem : ∀ i, ∀ t ∈ w i, slot t = i
  /-- inactive timers are in no list -/
  inactive : w (-2) = []
  /-- no timer twice -/
  nodup : ∀ i, (w i).Nodup
  /-- the list taken from `cur` -/
  slot_of_sentinel : ∀ t ∈ sentinel, slot t = cur
  /-- a slot timers are in -/
  cur_ne : cur ≠ -2
  /-- no timer twice -/
  sentinel_nodup : sentinel.Nodup
  /-- the two lists of `cur` are apart -/
  apart : ∀ t ∈ sentinel, t ∉ w cur
  /-- all of them -/
  cover : ∀ t, slot t ≠ -2 → t ∈ w (slot t) ∨ t ∈ sentinel

namespace Lists

variable {w : ℤ → List Tmr} {sentinel : List Tmr} {slot : Tmr → ℤ} {cur i : ℤ} {p : Tmr}

theorem notMem_of_inactive (h : Lists w sentinel slot cur) (hp : slot p = -2) (j : ℤ) :
    p ∉ w j := fun hm => by
  have hj := h.slot_of_mem j p hm
  rw [hp] at hj
  rw [← hj, h.inactive] at hm
  exact List.not_mem_nil hm

theorem notMem_sentinel_of_inactive (h : Lists w sentinel slot cur) (hp : slot p = -2) :
    p ∉ sentinel := fun hm => h.cur_ne ((h.slot_of_sentinel p hm).symm.trans hp)

/-- An inactive timer is put at the end of a slot. -/
theorem insert (h : Lists w sentinel slot cur) (hp : slot p = -2) (hi : i ≠ -2) :
    Lists (Function.update w i (w i ++ [p])) sentinel (Function.update slot p i) cur := by
  have hw := h.notMem_of_inactive hp
  have hsent := h.notMem_sentinel_of_inactive hp
  have hold : ∀ t, t ≠ p → Function.update slot p i t = slot t := fun t ht =>
    Function.update_of_ne ht ..
  have hmem : ∀ j t, t ∈ Function.update w i (w i ++ [p]) j → t ∈ w j ∨ (t = p ∧ j = i) := by
    intro j t ht
    by_cases hj : j = i
    · subst hj
      rw [Function.update_self, List.mem_append, List.mem_singleton] at ht
      exact ht.imp_right fun he => ⟨he, rfl⟩
    · rw [Function.update_of_ne hj] at ht
      exact Or.inl ht
  refine ⟨fun j t ht => ?_, ?_, fun j => ?_, fun t ht => ?_, h.cur_ne, h.sentinel_nodup,
    fun t ht hm => ?_, fun t ht => ?_⟩
  · rcases hmem j t ht with hold' | ⟨rfl, rfl⟩
    · rw [hold t fun he => hw j (he ▸ hold')]
      exact h.slot_of_mem j t hold'
    · exact Function.update_self ..
  · rw [Function.update_of_ne (Ne.symm hi)]
    exact h.inactive
  · by_cases hj : j = i
    · subst hj
      rw [Function.update_self]
      refine List.nodup_append.mpr ⟨h.nodup j, List.nodup_singleton p, fun x hx y hy he => ?_⟩
      rw [List.mem_singleton.mp hy] at he
      exact hw j (he ▸ hx)
    · rw [Function.update_of_ne hj]
      exact h.nodup j
  · rw [hold t fun he => hsent (he ▸ ht)]
    exact h.slot_of_sentinel t ht
  · rcases hmem cur t hm with hm | ⟨rfl, -⟩
    · exact h.apart t ht hm
    · exact hsent ht
  · by_cases hp' : t = p
    · subst hp'
      rw [Function.update_self, Function.update_self]
      exact Or.inl (List.mem_append_right _ (List.mem_singleton_self t))
    · rw [hold t hp'] at ht ⊢
      rcases h.cover t ht with hm | hm
      · left
        by_cases hj : slot t = i
        · rw [hj, Function.update_self, ← hj]
          exact List.mem_append_left _ hm
        · rw [Function.update_of_ne hj]
          exact hm
      · exact Or.inr hm

/-- A timer leaves: a list of the slot `i` and of `cur` without it. -/
theorem remove (h : Lists w sentinel slot cur) :
    Lists (Function.update w (slot p) ((w (slot p)).erase p)) (sentinel.erase p)
      (Function.update slot p (-2)) cur := by
  have hold : ∀ t, t ≠ p → Function.update slot p (-2) t = slot t := fun t ht =>
    Function.update_of_ne ht ..
  have hmem : ∀ j t, t ∈ Function.update w (slot p) ((w (slot p)).erase p) j →
      t ∈ w j ∧ t ≠ p := by
    intro j t ht
    by_cases hj : j = slot p
    · subst hj
      rw [Function.update_self] at ht
      exact ((h.nodup _).mem_erase_iff.mp ht).symm
    · rw [Function.update_of_ne hj] at ht
      exact ⟨ht, fun he => hj (by rw [← he, h.slot_of_mem j t ht])⟩
  have hsent : ∀ t, t ∈ sentinel.erase p → t ∈ sentinel ∧ t ≠ p := fun t ht =>
    (h.sentinel_nodup.mem_erase_iff.mp ht).symm
  refine ⟨fun j t ht => ?_, ?_, fun j => ?_, fun t ht => ?_, h.cur_ne, h.sentinel_nodup.erase p,
    fun t ht hm => ?_, fun t ht => ?_⟩
  · obtain ⟨hm, hne⟩ := hmem j t ht
    rw [hold t hne]
    exact h.slot_of_mem j t hm
  · refine List.eq_nil_iff_forall_not_mem.mpr fun t ht => ?_
    have hm := (hmem _ t ht).1
    rw [h.inactive] at hm
    exact List.not_mem_nil hm
  · by_cases hj : j = slot p
    · subst hj
      rw [Function.update_self]
      exact (h.nodup _).erase p
    · rw [Function.update_of_ne hj]
      exact h.nodup j
  · rw [hold t (hsent t ht).2]
    exact h.slot_of_sentinel t (hsent t ht).1
  · exact h.apart t (hsent t ht).1 (hmem cur t hm).1
  · have hne : t ≠ p := fun he => ht (by rw [he, Function.update_self])
    rw [hold t hne] at ht ⊢
    rcases h.cover t ht with hm | hm
    · left
      by_cases hj : slot t = slot p
      · rw [hj, Function.update_self]
        exact (h.nodup _).mem_erase_iff.mpr ⟨hne, hj ▸ hm⟩
      · rw [Function.update_of_ne hj]
        exact hm
    · exact Or.inr (h.sentinel_nodup.mem_erase_iff.mpr ⟨hne, hm⟩)

/-- The timer alone in its slot is not in the list taken. -/
theorem sentinel_erase_of_alone (h : Lists w sentinel slot cur) (hw : w (slot p) = [p]) :
    sentinel.erase p = sentinel :=
  List.erase_of_not_mem fun hm => by
    have hcur := h.slot_of_sentinel p hm
    exact h.apart p hm (by rw [← hcur, hw]; exact List.mem_singleton_self p)

/-- The first timer of the list leaves. -/
theorem pop {rest : List Tmr} (h : Lists w (p :: rest) slot cur) :
    Lists w rest (Function.update slot p (-2)) cur := by
  have hcur := h.slot_of_sentinel p (List.mem_cons_self ..)
  have hremove := h.remove (p := p)
  rw [hcur, List.erase_of_not_mem (h.apart p (List.mem_cons_self ..)), List.erase_cons_head,
    Function.update_eq_self] at hremove
  exact hremove

/-- The list of a slot is taken. -/
theorem take (h : Lists w [] slot cur) (hi : i ≠ -2) :
    Lists (Function.update w i []) (w i) slot i := by
  refine ⟨fun j t ht => ?_, ?_, fun j => ?_, h.slot_of_mem i, hi, h.nodup i, fun t _ hm => ?_,
    fun t ht => ?_⟩
  · by_cases hj : j = i
    · rw [hj, Function.update_self] at ht
      exact absurd ht List.not_mem_nil
    · rw [Function.update_of_ne hj] at ht
      exact h.slot_of_mem j t ht
  · rw [Function.update_of_ne (Ne.symm hi)]
    exact h.inactive
  · by_cases hj : j = i
    · rw [hj, Function.update_self]
      exact List.nodup_nil
    · rw [Function.update_of_ne hj]
      exact h.nodup j
  · rw [Function.update_self] at hm
    exact List.not_mem_nil hm
  · rcases h.cover t ht with hm | hm
    · by_cases hj : slot t = i
      · exact Or.inr (hj ▸ hm)
      · rw [Function.update_of_ne hj]
        exact Or.inl hm
    · exact absurd hm List.not_mem_nil

/-- With no list taken the slot does not matter. -/
theorem of_nil (h : Lists w [] slot cur) (hi : i ≠ -2) : Lists w [] slot i :=
  ⟨h.slot_of_mem, h.inactive, h.nodup, fun _ ht => absurd ht List.not_mem_nil, hi, List.nodup_nil,
    fun _ ht => absurd ht List.not_mem_nil, h.cover⟩

/-- With no list taken an active timer is in its slot. -/
theorem mem_of_nil (h : Lists w [] slot cur) {t : Tmr} (ht : slot t ≠ -2) : t ∈ w (slot t) :=
  (h.cover t ht).resolve_right List.not_mem_nil

end Lists

/-! ## Counters -/

/-- What the counters count; `A` has all active timers. -/
structure Counts (A : Finset Tmr) (slot : Tmr → ℤ) (nto atOnceNto soonNto laterNto : ℤ)
    (scnt : ℤ → ℤ) : Prop where
  /-- the active timers -/
  mem : ∀ t, slot t ≠ -2 → t ∈ A
  /-- all of them -/
  all : nto = tally A fun t => slot t ≠ -2
  /-- in the at-once slot -/
  atOnce : atOnceNto = tally A fun t => slot t = -1
  /-- in the soon wheel -/
  soon : soonNto = tally A fun t => 0 ≤ slot t ∧ slot t < 16384
  /-- in the later wheel -/
  later : laterNto = tally A fun t => 16384 ≤ slot t
  /-- in a range of slots -/
  ranges : ∀ ix, scnt ix = tally A fun t => 0 ≤ slot t ∧ slot t / 512 = ix

namespace Counts

variable {A : Finset Tmr} {slot : Tmr → ℤ} {nto atOnceNto soonNto laterNto : ℤ} {scnt : ℤ → ℤ}

/-- The same counters, written in another way. -/
theorem cast (h : Counts A slot nto atOnceNto soonNto laterNto scnt) {slot' : Tmr → ℤ}
    {nto' atOnceNto' soonNto' laterNto' : ℤ} {scnt' : ℤ → ℤ} (h1 : slot' = slot) (h2 : nto' = nto)
    (h3 : atOnceNto' = atOnceNto) (h4 : soonNto' = soonNto) (h5 : laterNto' = laterNto)
    (h6 : ∀ ix, scnt' ix = scnt ix) :
    Counts A slot' nto' atOnceNto' soonNto' laterNto' scnt' := by
  obtain rfl : scnt' = scnt := funext h6
  subst h1 h2 h3 h4 h5
  exact h

/-- **One timer changes its slot.** -/
theorem update (h : Counts A slot nto atOnceNto soonNto laterNto scnt) {p : Tmr} (hp : p ∈ A)
    (j : ℤ) :
    Counts A (Function.update slot p j)
      (nto - (if slot p ≠ -2 then 1 else 0) + (if j ≠ -2 then 1 else 0))
      (atOnceNto - (if slot p = -1 then 1 else 0) + (if j = -1 then 1 else 0))
      (soonNto - (if 0 ≤ slot p ∧ slot p < 16384 then 1 else 0)
        + (if 0 ≤ j ∧ j < 16384 then 1 else 0))
      (laterNto - (if 16384 ≤ slot p then 1 else 0) + (if 16384 ≤ j then 1 else 0))
      (fun ix => scnt ix - (if 0 ≤ slot p ∧ slot p / 512 = ix then 1 else 0)
        + (if 0 ≤ j ∧ j / 512 = ix then 1 else 0)) := by
  have hold : ∀ t, t ≠ p → Function.update slot p j t = slot t := fun t ht =>
    Function.update_of_ne ht ..
  have hmove : ∀ (P : ℤ → Prop) [DecidablePred P],
      (tally A fun t => P (Function.update slot p j t)) =
        (tally A fun t => P (slot t)) - (if P (slot p) then 1 else 0)
          + (if P j then 1 else 0) := by
    intro P _
    rw [tally_update (P := fun t => P (slot t)) hp fun x hx => by rw [hold x hx]]
    simp only [Function.update_self]
  refine ⟨fun t ht => ?_, ?_, ?_, ?_, ?_, fun ix => ?_⟩
  · by_cases hx : t = p
    · rw [hx]
      exact hp
    · rw [hold t hx] at ht
      exact h.mem t ht
  · rw [hmove fun i => i ≠ -2, h.all]
  · rw [hmove fun i => i = -1, h.atOnce]
  · rw [hmove fun i => 0 ≤ i ∧ i < 16384, h.soon]
  · rw [hmove fun i => 16384 ≤ i, h.later]
  · rw [hmove fun i => 0 ≤ i ∧ i / 512 = ix, h.ranges]

/-- One more timer to look at. -/
theorem grow (h : Counts A slot nto atOnceNto soonNto laterNto scnt) (p : Tmr) :
    Counts (insert p A) slot nto atOnceNto soonNto laterNto scnt := by
  have hsame : ∀ P : ℤ → Prop, ¬ P (-2) →
      (tally (insert p A) fun t => P (slot t)) = tally A fun t => P (slot t) := by
    intro P hP
    refine tally_grow (Finset.subset_insert p A) fun t ht => h.mem t fun he => ?_
    rw [he] at ht
    exact hP ht
  refine ⟨fun t ht => Finset.mem_insert_of_mem (h.mem t ht), ?_, ?_, ?_, ?_, fun ix => ?_⟩
  · rw [hsame (fun i => i ≠ -2) (by simp), h.all]
  · rw [hsame (fun i => i = -1) (by decide), h.atOnce]
  · rw [hsame (fun i => 0 ≤ i ∧ i < 16384) (by decide), h.soon]
  · rw [hsame (fun i => 16384 ≤ i) (by decide), h.later]
  · rw [hsame (fun i => 0 ≤ i ∧ i / 512 = ix) (by omega), h.ranges]

theorem inactive_of_nto (h : Counts A slot nto atOnceNto soonNto laterNto scnt) (hz : nto = 0)
    (t : Tmr) : slot t = -2 := by
  by_contra hne
  exact not_of_tally_eq_zero (h.all.symm.trans hz) (h.mem t hne) hne

theorem not_atOnce (h : Counts A slot nto atOnceNto soonNto laterNto scnt) (hz : atOnceNto = 0)
    (t : Tmr) : slot t ≠ -1 := fun he =>
  not_of_tally_eq_zero (h.atOnce.symm.trans hz) (h.mem t (by omega)) he

theorem not_soon (h : Counts A slot nto atOnceNto soonNto laterNto scnt) (hz : soonNto = 0)
    (t : Tmr) : ¬ (0 ≤ slot t ∧ slot t < 16384) := fun hs =>
  not_of_tally_eq_zero (h.soon.symm.trans hz) (h.mem t (by omega)) hs

theorem not_later (h : Counts A slot nto atOnceNto soonNto laterNto scnt) (hz : laterNto = 0)
    (t : Tmr) : ¬ 16384 ≤ slot t := fun hs =>
  not_of_tally_eq_zero (h.later.symm.trans hz) (h.mem t (by omega)) hs

theorem not_range (h : Counts A slot nto atOnceNto soonNto laterNto scnt) {ix : ℤ}
    (hz : scnt ix = 0) (t : Tmr) : ¬ (0 ≤ slot t ∧ slot t / 512 = ix) := fun hs =>
  not_of_tally_eq_zero ((h.ranges ix).symm.trans hz) (h.mem t (by omega)) hs

end Counts

end PonBeam.TimerWheel
