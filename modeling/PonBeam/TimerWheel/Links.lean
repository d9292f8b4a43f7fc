import PonBeam.Lib.Ring
import PonBeam.TimerWheel.Firing

/-!
# The linked lists of the wheel

`w`, `p->next`, `p->prev` and the sentinel as `time.c` has them, and what the functions of
the wheel do to them. The timers they work on are found through the pointers; what they
decide by other fields is decided by those of `Wheel`. The lists of `Wheel` are then what
the pointers represent: `Linked` holds in every state of a run of the two side by side.
-/

namespace PonBeam.TimerWheel

/-- What an `ErtsTWheelTimer *` other than `NULL` points to. -/
inductive Node : Type where
  /-- `&tiw->sentinel` -/
  | sentinel
  /-- a timer -/
  | timer (p : Tmr)
  deriving DecidableEq, Repr

/-- The pointers of a wheel and its timers. -/
structure Links where
  /-- `tiw->w` -/
  w : ℤ → Option Node
  /-- `p->next` -/
  next : Node → Node
  /-- `p->prev` -/
  prev : Node → Node

namespace Links

/-- `insert_timer_into_slot` -/
def insertTimerIntoSlot (k : Links) (slot : ℤ) (p : Node) : Links :=
  match k.w slot with
  | none =>
    { w := Function.update k.w slot (some p)
      next := Function.update k.next p p
      prev := Function.update k.prev p p }
  | some next =>
    let prev := k.prev next
    { w := k.w
      next := Function.update (Function.update k.next p next) prev p
      prev := Function.update (Function.update k.prev p prev) next p }

/-- `remove_timer` -/
def removeTimer (k : Links) (slot : ℤ) (p : Node) : Links :=
  if k.next p = p then { k with w := Function.update k.w slot none }
  else
    { w := if k.w slot = some p then Function.update k.w slot (some (k.next p)) else k.w
      next := Function.update k.next (k.prev p) (k.next p)
      prev := Function.update k.prev (k.next p) (k.prev p) }

/-- The list of `slot`, which starts with `p`, is hung on the sentinel, without `p`. -/
def hang (k : Links) (slot : ℤ) (p : Node) : Links :=
  let w := Function.update k.w slot none
  if k.next p = p then { k with w := w }
  else
    { w := w
      next := Function.update (Function.update k.next .sentinel (k.next p)) (k.prev p) .sentinel
      prev := Function.update (Function.update k.prev .sentinel (k.prev p)) (k.next p) .sentinel }

/-- `p`, the first timer that hangs on the sentinel, is taken off it. -/
def takeOff (k : Links) (p : Node) : Links :=
  { k with
    next := Function.update k.next .sentinel (k.next p)
    prev := Function.update k.prev (k.next p) .sentinel }

/-- One timer of the list being bumped: it is triggered, or put into a slot again. -/
def bumpTimer (k : Links) (s : State) : Home → Node → Links
  | .soon, .timer p =>
    if s.tiw.timeoutPos p ≤ s.loc.bumpTo then k else k.insertTimerIntoSlot s.loc.slot (.timer p)
  | .later, .timer p =>
    let tpos := s.tiw.timeoutPos p
    if tpos ≥ s.tiw.laterPos + laterWheelSlotSize then
      k.insertTimerIntoSlot s.loc.slot (.timer p)
    else if tpos > s.tiw.pos then k.insertTimerIntoSlot (soonSlot tpos) (.timer p)
    else k
  | _, _ => k

/-- Take the list of `slot` and start on it. -/
def takeSlot (k : Links) (s : State) (home : Home) (slot : ℤ) : Links :=
  match k.w slot with
  | none => k
  | some p => (k.hang slot p).bumpTimer s home p

/-- The next timer of the list. -/
def nextTimer (k : Links) (s : State) (home : Home) : Links :=
  let p := k.next .sentinel
  if p = .sentinel then k
  else if s.outOfTime home then k
  else (k.takeOff p).bumpTimer s home p

/-- What a step from `s` does to the pointers. -/
def step (k : Links) (s : State) : Label → Links
  | .set p timeoutPos _ => k.insertTimerIntoSlot (s.tiw.targetSlot timeoutPos) (.timer p)
  | .cancel p =>
    if s.tiw.slot p ≠ slotInactive then k.removeTimer (s.tiw.slot p) (.timer p) else k
  | .run _ =>
    match s.pc with
    | .top => if s.tiw.nto = 0 then k else k.takeSlot s .atOnce slotAtOnce
    | .soon => if 0 < s.loc.slots then k.takeSlot s .soon s.loc.slot else k
    | .later => if 0 < s.loc.slots then k.takeSlot s .later s.loc.slot else k
    | .next home => k.nextTimer s home
    | _ => k
  | _ => k

end Links

/-- The wheel and its pointers, from `erts_create_timer_wheel` on. -/
def linkedSystem : System (State × Links) Label where
  init s := wheelSystem.init s.1 ∧ s.2.w = (fun _ => none) ∧
    s.2.next .sentinel = .sentinel ∧ s.2.prev .sentinel = .sentinel
  step s l s' := wheelSystem.step s.1 l s'.1 ∧ s'.2 = s.2.step s.1 l

/-- Every run of the wheel is one of both. -/
theorem exists_links {ok : State → Label → Prop} {s : State} (h : (wheelSystem.restrict ok).Reach s) :
    ∃ k, (linkedSystem.restrict fun x l => ok x.1 l).Reach (s, k) := by
  induction h with
  | start hs =>
    exact ⟨⟨fun _ => none, fun _ => .sentinel, fun _ => .sentinel⟩, .start ⟨hs, rfl, rfl, rfl⟩⟩
  | @next s s' l _ hstep ih =>
    obtain ⟨k, hk⟩ := ih
    exact ⟨k.step s l, hk.next ⟨hstep.1, hstep.2, rfl⟩⟩

/-! ## The lists that the pointers represent -/

/-- The circular lists: of the slots, and the one of the sentinel. -/
def circles (w : ℤ → List Tmr) (sentinel : List Tmr) : Option ℤ → List Node
  | none => .sentinel :: sentinel.map .timer
  | some i => (w i).map .timer

/-- The pointers represent the lists. -/
structure Linked (w : ℤ → List Tmr) (sentinel : List Tmr) (k : Links) : Prop where
  /-- where the list of a slot starts -/
  first : ∀ i, k.w i = (w i).head?.map .timer
  /-- how it goes on -/
  rings : Rings k.next k.prev (circles w sentinel)

section

variable {w : ℤ → List Tmr} {sentinel rest : List Tmr} {k : Links} {i : ℤ} {p : Tmr}

theorem mem_circles_slot : .timer p ∈ circles w sentinel (some i) ↔ p ∈ w i :=
  List.mem_map_of_injective fun _ _ => Node.timer.inj

theorem mem_circles_sentinel : .timer p ∈ circles w sentinel none ↔ p ∈ sentinel := by
  have hmem : .timer p ∈ sentinel.map Node.timer ↔ p ∈ sentinel :=
    List.mem_map_of_injective fun _ _ => Node.timer.inj
  exact ⟨fun h => hmem.mp ((List.mem_cons.mp h).resolve_left Node.noConfusion),
    fun h => List.mem_cons_of_mem _ (hmem.mpr h)⟩

theorem notMem_circles (hw : ∀ i, p ∉ w i) (hs : p ∉ sentinel) (j : Option ℤ) :
    .timer p ∉ circles w sentinel j := by
  cases j with
  | none => exact mem_circles_sentinel.not.mpr hs
  | some i => exact mem_circles_slot.not.mpr (hw i)

theorem circles_update_slot (l : List Tmr) : circles (Function.update w i l) sentinel
    = Function.update (circles w sentinel) (some i) (l.map .timer) := by
  funext j
  by_cases hj : j = some i
  · rw [hj, Function.update_self]
    change List.map _ (Function.update w i l i) = _
    rw [Function.update_self]
  · rw [Function.update_of_ne hj]
    cases j with
    | none => rfl
    | some j =>
      change List.map _ (Function.update w i l j) = _
      rw [Function.update_of_ne fun he => hj (congrArg some he)]
      rfl

theorem circles_update_sentinel (sentinel l : List Tmr) : circles w l
    = Function.update (circles w sentinel) none (.sentinel :: l.map .timer) := by
  funext j
  cases j with
  | none => rw [Function.update_self]; rfl
  | some j => rw [Function.update_of_ne (Option.some_ne_none j)]; rfl

theorem map_timer_erase (l : List Tmr) :
    (l.erase p).map Node.timer = (l.map Node.timer).erase (.timer p) :=
  List.map_erase (fun _ _ => Node.timer.inj) l

/-- **A timer is put at the end of a slot.** -/
theorem Linked.insert (h : Linked w sentinel k) (hw : ∀ i, p ∉ w i) (hs : p ∉ sentinel) (i : ℤ) :
    Linked (Function.update w i (w i ++ [p])) sentinel
      (k.insertTimerIntoSlot i (.timer p)) := by
  have hp := notMem_circles hw hs
  have hcirc : circles (Function.update w i (w i ++ [p])) sentinel =
      Function.update (circles w sentinel) (some i) (circles w sentinel (some i) ++ [.timer p]) := by
    rw [circles_update_slot, List.map_append]
    rfl
  unfold Links.insertTimerIntoSlot
  cases hi : w i with
  | nil =>
    have hfirst := h.first i
    rw [hi] at hfirst hcirc
    rw [hfirst]
    refine ⟨fun j => ?_, ?_⟩
    · change Function.update k.w i (some (.timer p)) j = _
      by_cases hj : j = i
      · rw [hj, Function.update_self, Function.update_self]
        rfl
      · rw [Function.update_of_ne hj, Function.update_of_ne hj]
        exact h.first j
    · rw [hcirc]
      refine h.rings.start ?_ hp
      change (w i).map _ = []
      rw [hi]
      rfl
  | cons a l =>
    have hfirst := h.first i
    rw [hi] at hfirst hcirc
    rw [hfirst]
    refine ⟨fun j => ?_, ?_⟩
    · by_cases hj : j = i
      · rw [hj, Function.update_self]
        exact hfirst
      · rw [Function.update_of_ne hj]
        exact h.first j
    · rw [hcirc]
      refine h.rings.insert (m := l.map .timer) ?_ hp
      change (w i).map _ = _
      rw [hi]
      rfl

theorem Linked.first_update (h : Linked w sentinel k) {l : List Tmr} {n : Option Node}
    (hn : n = l.head?.map .timer) (j : ℤ) :
    Function.update k.w i n j = (Function.update w i l j).head?.map .timer := by
  by_cases hj : j = i
  · rw [hj, Function.update_self, Function.update_self]
    exact hn
  · rw [Function.update_of_ne hj, Function.update_of_ne hj]
    exact h.first j

theorem Linked.alone_iff (h : Linked w sentinel k) (hp : p ∈ w i) :
    k.next (.timer p) = .timer p ↔ w i = [p] := by
  rw [h.rings.next_eq_self_iff (mem_circles_slot.mpr hp)]
  refine ⟨fun he => ?_, fun he => ?_⟩
  · exact List.map_injective_iff.mpr (fun _ _ => Node.timer.inj) he
  · change (w i).map _ = _
    rw [he]
    rfl

/-- The second timer of a slot. -/
theorem Linked.next_head (h : Linked w sentinel k) (hi : w i = p :: rest) (hrest : rest ≠ []) :
    some (k.next (.timer p)) = rest.head?.map .timer := by
  obtain ⟨a, l, rfl⟩ := List.exists_cons_of_ne_nil hrest
  have hring := h.rings.ring (some i)
  change Ring _ _ ((w i).map _) at hring
  rw [hi] at hring
  rw [(Ring.cons_cons_iff.mp hring).1.1]
  rfl

/-- Where a slot starts after one of its timers, which has a neighbour, was taken out. -/
theorem Linked.first_remove (h : Linked w sentinel k) (hself : k.next (.timer p) ≠ .timer p)
    (hp : p ∈ w i) (j : ℤ) :
    (if k.w i = some (.timer p) then Function.update k.w i (some (k.next (.timer p))) else k.w) j
      = (Function.update w i ((w i).erase p) j).head?.map .timer := by
  obtain ⟨a, l, hi⟩ := List.exists_cons_of_ne_nil (List.ne_nil_of_mem hp)
  have hfirst : k.w i = some (.timer a) := by
    rw [h.first i, hi]
    rfl
  by_cases ha : a = p
  · subst ha
    have hl : l ≠ [] := by
      rintro rfl
      exact hself ((h.alone_iff hp).mpr hi)
    rw [if_pos hfirst, hi, List.erase_cons_head]
    exact h.first_update (h.next_head hi hl) j
  · rw [if_neg fun he => ha (Node.timer.inj (Option.some.inj (hfirst.symm.trans he))), hi,
      List.erase_cons_tail (by simpa using ha)]
    by_cases hj : j = i
    · rw [hj, Function.update_self]
      exact hfirst
    · rw [Function.update_of_ne hj]
      exact h.first j

/-- **A timer is taken out** of its slot, or off the sentinel. -/
theorem Linked.remove (h : Linked w sentinel k) (hp : p ∈ w i ∨ p ∈ sentinel) :
    Linked (Function.update w i ((w i).erase p)) (sentinel.erase p)
      (k.removeTimer i (.timer p)) := by
  unfold Links.removeTimer
  rcases hp with hp | hp
  · have hmem : .timer p ∈ circles w sentinel (some i) := mem_circles_slot.mpr hp
    have hout : sentinel.erase p = sentinel := List.erase_of_not_mem fun hs =>
      nomatch h.rings.apart _ _ _ hmem (mem_circles_sentinel.mpr hs)
    rw [hout]
    by_cases hself : k.next (.timer p) = .timer p
    · rw [if_pos hself, (h.alone_iff hp).mp hself, List.erase_cons_head]
      refine ⟨fun j => ?_, ?_⟩
      · exact h.first_update (l := []) rfl j
      · rw [circles_update_slot]
        exact h.rings.clear (some i)
    · rw [if_neg hself]
      refine ⟨fun j => h.first_remove hself hp j, ?_⟩
      rw [circles_update_slot, map_timer_erase]
      exact h.rings.unlink hmem hself
  · have hmem : .timer p ∈ circles w sentinel none := mem_circles_sentinel.mpr hp
    have hout : p ∉ w i := fun hw =>
      nomatch h.rings.apart _ _ _ hmem (mem_circles_slot.mpr hw)
    have hself : k.next (.timer p) ≠ .timer p := fun he =>
      nomatch (h.rings.next_eq_self_iff hmem).mp he
    have hhead : k.w i ≠ some (.timer p) := fun he => by
      rw [h.first i, Option.map_eq_some_iff] at he
      obtain ⟨a, ha, he⟩ := he
      exact hout (Node.timer.inj he ▸ List.mem_of_mem_head? ha)
    rw [if_neg hself, if_neg hhead, List.erase_of_not_mem hout, Function.update_eq_self]
    refine ⟨h.first, ?_⟩
    rw [circles_update_sentinel sentinel, map_timer_erase]
    exact h.rings.unlink hmem hself

/-- **The list of a slot is taken**, all but its first timer hangs on the sentinel. -/
theorem Linked.hang (h : Linked w [] k) (hi : w i = p :: rest) :
    Linked (Function.update w i []) rest (k.hang i (.timer p)) := by
  have hp : p ∈ w i := by
    rw [hi]
    exact List.mem_cons_self ..
  unfold Links.hang
  by_cases hrest : rest = []
  · subst hrest
    rw [if_pos ((h.alone_iff hp).mpr hi)]
    refine ⟨fun j => h.first_update (l := []) rfl j, ?_⟩
    rw [circles_update_slot]
    exact h.rings.clear (some i)
  · have hself : k.next (.timer p) ≠ .timer p := fun he => by
      have hone := (h.alone_iff hp).mp he
      rw [hi] at hone
      exact hrest (List.cons.inj hone).2
    rw [if_neg hself]
    refine ⟨fun j => h.first_update (l := []) rfl j, ?_⟩
    rw [circles_update_sentinel [], circles_update_slot]
    refine h.rings.move ?_ ?_ rfl (Option.some_ne_none i)
    · change (w i).map _ = _
      rw [hi]
      rfl
    · exact List.map_eq_nil_iff.not.mpr hrest

/-- The first timer that hangs on the sentinel. -/
theorem Linked.next_sentinel (h : Linked w (p :: rest) k) : k.next .sentinel = .timer p :=
  (Ring.cons_cons_iff.mp (h.rings.ring none)).1.1

/-- **It is taken off.** -/
theorem Linked.takeOff (h : Linked w (p :: rest) k) : Linked w rest (k.takeOff (.timer p)) := by
  have hmem : .timer p ∈ circles w (p :: rest) none :=
    mem_circles_sentinel.mpr (List.mem_cons_self ..)
  have hself : k.next (.timer p) ≠ .timer p := fun he =>
    nomatch (h.rings.next_eq_self_iff hmem).mp he
  have hprev : k.prev (.timer p) = .sentinel := (Ring.cons_cons_iff.mp (h.rings.ring none)).1.2
  have hunlink := h.rings.unlink hmem hself
  have herase : (circles w (p :: rest) none).erase (.timer p)
      = .sentinel :: rest.map .timer := by
    simp [circles]
  rw [hprev, herase] at hunlink
  refine ⟨h.first, ?_⟩
  rw [circles_update_sentinel (p :: rest)]
  exact hunlink

/-- Nothing hangs on the sentinel. -/
theorem Linked.sentinel_nil (h : Linked w [] k) : k.next .sentinel = .sentinel :=
  (Ring.singleton_iff.mp (h.rings.ring none)).1

end

/-! ## Steps -/

section

variable {s s' : State} {k : Links} {home : Home} {p : Tmr} {rest : List Tmr} {slot : ℤ}

/-- The pointers represent the lists of the wheel. -/
def State.Linked (s : State) (k : Links) : Prop :=
  TimerWheel.Linked s.tiw.w s.tiw.sentinel k

/-- What becomes of a timer depends on a few fields only. -/
theorem Links.bumpTimer_congr (s s' : State) (n : Node)
    (htpos : s'.tiw.timeoutPos = s.tiw.timeoutPos)
    (hpos : s'.tiw.pos = s.tiw.pos) (hlater : s'.tiw.laterPos = s.tiw.laterPos)
    (hto : s'.loc.bumpTo = s.loc.bumpTo) (hslot : s'.loc.slot = s.loc.slot) :
    k.bumpTimer s' home n = k.bumpTimer s home n := by
  unfold Links.bumpTimer
  rw [htpos, hpos, hlater, hto, hslot]

theorem Links.takeSlot_pay (cost : ℤ) : k.takeSlot (s.pay cost) home slot
    = k.takeSlot s home slot := by
  unfold Links.takeSlot
  split
  · rfl
  · exact Links.bumpTimer_congr s (s.pay cost) _ rfl rfl rfl rfl rfl

/-- At every place the active timers are in the lists. -/
theorem Phase.lists {A : Finset Tmr} (h : Phase A s) :
    ∃ st : Stage, Lists s.tiw.w s.tiw.sentinel s.tiw.slot st.cur := by
  unfold Phase at h
  cases hpc : s.pc with
  | idle =>
    rw [hpc] at h
    rcases h with ⟨-, h⟩ | ⟨home, -, h⟩ <;> exact ⟨_, h.lists⟩
  | pass => rw [hpc] at h; exact ⟨_, h.lists⟩
  | top => rw [hpc] at h; exact ⟨_, h.lists⟩
  | atOnceDone => rw [hpc] at h; exact ⟨_, h.lists⟩
  | soon => rw [hpc] at h; exact ⟨_, h.lists⟩
  | enterLater => rw [hpc] at h; exact ⟨_, h.1.lists⟩
  | later => rw [hpc] at h; exact ⟨_, h.lists⟩
  | passDone => rw [hpc] at h; exact ⟨_, h.1.lists⟩
  | next home => rw [hpc] at h; exact ⟨_, h.lists⟩
  | callback home => rw [hpc] at h; exact ⟨_, h.lists⟩

/-- `insert_timer_into_slot` on both sides. -/
theorem Linked.insertTimerIntoSlot {tiw : Wheel} (h : Linked tiw.w tiw.sentinel k)
    (hw : ∀ i, p ∉ tiw.w i) (hs : p ∉ tiw.sentinel) (i : ℤ) :
    Linked (tiw.insertTimerIntoSlot i p).w (tiw.insertTimerIntoSlot i p).sentinel
      (k.insertTimerIntoSlot i (.timer p)) := by
  rw [Wheel.insertTimerIntoSlot_w, Wheel.insertTimerIntoSlot_sentinel]
  exact h.insert hw hs i

/-- One timer of the list being bumped. -/
theorem State.Linked.bumpTimer (h : s.Linked k) (hw : ∀ i, p ∉ s.tiw.w i)
    (hs : p ∉ s.tiw.sentinel) (home : Home) :
    (s.bumpTimer home p).Linked (k.bumpTimer s home (.timer p)) := by
  cases home with
  | atOnce => exact h
  | soon =>
    unfold State.bumpTimer State.bumpSoon
    dsimp only
    split_ifs with hdue
    · rw [show k.bumpTimer s .soon (.timer p) = k from if_pos hdue]
      exact h
    · rw [show k.bumpTimer s .soon (.timer p) = _ from if_neg hdue]
      apply TimerWheel.Linked.insertTimerIntoSlot
      exacts [h, hw, hs]
  | later =>
    unfold State.bumpTimer State.bumpLater
    dsimp only
    split_ifs with hkeep hsoon
    · rw [show k.bumpTimer s .later (.timer p) = _ from if_pos hkeep]
      apply TimerWheel.Linked.insertTimerIntoSlot
      exacts [h, hw, hs]
    · rw [show k.bumpTimer s .later (.timer p) = _ from (if_neg hkeep).trans (if_pos hsoon)]
      apply TimerWheel.Linked.insertTimerIntoSlot
      exacts [h, hw, hs]
    · rw [show k.bumpTimer s .later (.timer p) = k from (if_neg hkeep).trans (if_neg hsoon)]
      exact h

/-- The first timer of a slot is in no other list. -/
theorem Linked.head_apart {w : ℤ → List Tmr} {sentinel : List Tmr} (h : Linked w sentinel k)
    (hi : w slot = p :: rest) : p ∉ rest ∧ ∀ j, p ∉ Function.update w slot [] j := by
  have hp : .timer p ∈ circles w sentinel (some slot) := mem_circles_slot.mpr (by
    rw [hi]
    exact List.mem_cons_self ..)
  refine ⟨fun hm => ?_, fun j hj => ?_⟩
  · have hnd := List.Nodup.of_map _ (h.rings.nodup (some slot))
    rw [hi] at hnd
    exact (List.nodup_cons.mp hnd).1 hm
  · by_cases hjs : j = slot
    · rw [hjs, Function.update_self] at hj
      exact List.not_mem_nil hj
    · rw [Function.update_of_ne hjs] at hj
      exact hjs (Option.some.inj (h.rings.apart _ _ _ (mem_circles_slot.mpr hj) hp))

/-- Taking the list of a slot. -/
theorem State.Linked.takeSlot (h : s.Linked k) (hs : s.tiw.sentinel = []) (home : Home)
    (slot : ℤ) : (s.takeSlot home slot).Linked (k.takeSlot s home slot) := by
  have hfirst := h.first slot
  unfold State.takeSlot Links.takeSlot
  cases hw : s.tiw.w slot with
  | nil =>
    rw [hw] at hfirst
    rw [hfirst]
    cases home with
    | atOnce => exact h
    | soon => exact h
    | later => exact h
  | cons p rest =>
    rw [hw] at hfirst
    rw [hfirst]
    have hsent : (if rest = [] then s.tiw.sentinel else rest) = rest := by
      split_ifs with hrest
      · rw [hs, hrest]
      · rfl
    have h' : TimerWheel.Linked s.tiw.w [] k := hs ▸ h
    obtain ⟨hp, hout⟩ := h'.head_apart hw
    have hhang : (s.withTiw { s.tiw with
      w := Function.update s.tiw.w slot []
      sentinel := rest }).Linked (k.hang slot (.timer p)) := h'.hang hw
    dsimp only [Option.map_some, List.head?_cons]
    rw [hsent, ← Links.bumpTimer_congr s (s.withTiw _) (.timer p) rfl rfl rfl rfl rfl]
    exact hhang.bumpTimer hout hp home

/-- The next timer of the list. -/
theorem State.Linked.nextTimer (h : s.Linked k) (home : Home) :
    (s.nextTimer home).Linked (k.nextTimer s home) := by
  unfold State.nextTimer Links.nextTimer
  cases hs : s.tiw.sentinel with
  | nil =>
    have h' : TimerWheel.Linked s.tiw.w [] k := hs ▸ h
    dsimp only
    rw [if_pos h'.sentinel_nil]
    cases home with
    | atOnce => exact h
    | soon => exact h
    | later => exact h
  | cons p rest =>
    have h' : TimerWheel.Linked s.tiw.w (p :: rest) k := hs ▸ h
    have hp : .timer p ∈ circles s.tiw.w (p :: rest) none :=
      mem_circles_sentinel.mpr (List.mem_cons_self ..)
    dsimp only
    rw [h'.next_sentinel, if_neg (fun he : Node.timer p = .sentinel => nomatch he)]
    split_ifs with hout
    · cases home with
      | atOnce => exact h
      | soon => exact h
      | later => exact h
    · have hoff : (s.withTiw { s.tiw with sentinel := rest }).Linked (k.takeOff (.timer p)) :=
        h'.takeOff
      rw [← Links.bumpTimer_congr s (s.withTiw _) (.timer p) rfl rfl rfl rfl rfl]
      refine hoff.bumpTimer (fun i hi => ?_) (fun hm => ?_) home
      · exact nomatch h'.rings.apart _ _ _ hp (mem_circles_slot.mpr hi)
      · have hnd := h'.rings.nodup none
        exact (List.nodup_cons.mp (List.Nodup.of_map _ (List.nodup_cons.mp hnd).2)).1 hm

theorem findNextTimeout_lists (tiw : Wheel) (currTime : ℤ) :
    (tiw.findNextTimeout currTime).w = tiw.w ∧
      (tiw.findNextTimeout currTime).sentinel = tiw.sentinel := by
  unfold Wheel.findNextTimeout Wheel.findLaterTimeout Wheel.findSoonTimeout
  dsimp only
  split_ifs <;> exact ⟨rfl, rfl⟩

theorem ponTimerWheelArm_lists (tiw : Wheel) (a : ArmAnswers) :
    (tiw.ponTimerWheelArm a).w = tiw.w ∧ (tiw.ponTimerWheelArm a).sentinel = tiw.sentinel := by
  obtain ⟨fd, d, he⟩ := tiw.ponTimerWheelArm_eq a
  rw [he]
  exact ⟨rfl, rfl⟩

/-- A step that leaves the lists alone. -/
theorem State.Linked.of_lists (h : s.Linked k) (hw : s'.tiw.w = s.tiw.w)
    (hs : s'.tiw.sentinel = s.tiw.sentinel) : s'.Linked k := by
  unfold State.Linked at h ⊢
  rw [hw, hs]
  exact h

theorem State.Linked.emptyWheel (h : s.Linked k) (a : ArmAnswers) : (s.emptyWheel a).Linked k := by
  obtain ⟨hw, hs⟩ := ponTimerWheelArm_lists
    { s.tiw.setNextTimeout (s.loc.bumpTo + clktcksWeek) with
      trueNextTimeoutTime := false
      pos := s.loc.bumpTo
      laterPos := laterPosMask (s.loc.bumpTo + soonWheelSize)
      yieldSlot := slotInactive } a
  exact h.of_lists hw hs

theorem State.Linked.finish (h : s.Linked k) (a : Answers) : (s.finish a).Linked k := by
  obtain ⟨hw, hs⟩ := findNextTimeout_lists { s.tiw with trueNextTimeoutTime := false } a.now
  obtain ⟨hw', hs'⟩ := ponTimerWheelArm_lists
    (Wheel.findNextTimeout { s.tiw with trueNextTimeoutTime := false } a.now) a.arm
  exact h.of_lists (hw'.trans hw) (hs'.trans hs)

/-- **One step of a bump.** Where it takes a list nothing hangs on the sentinel. -/
theorem State.Linked.runStep {ok : Prop} {a : Answers} (h : s.Linked k) (hg : Good ok s)
    (hs : s.runStep a = some s') : s'.Linked (k.step s (.run a)) := by
  obtain ⟨A, hphase⟩ := hg.phase
  unfold State.runStep at hs
  unfold Phase at hphase
  unfold Links.step
  cases hpc : s.pc with
  | idle =>
    rw [hpc] at hs
    cases hs
  | callback home =>
    rw [hpc] at hs
    cases hs
  | pass =>
    rw [hpc] at hs
    obtain rfl := Option.some.inj hs
    exact h
  | top =>
    rw [hpc] at hs hphase
    obtain rfl := Option.some.inj hs
    dsimp only
    split_ifs
    · exact h.emptyWheel a.arm
    · exact h.takeSlot (hphase.idle rfl) .atOnce slotAtOnce
  | atOnceDone =>
    rw [hpc] at hs
    obtain rfl := Option.some.inj hs
    unfold State.atOnceDone
    dsimp only
    split_ifs
    · exact h
    · exact h
    · exact h.emptyWheel a.arm
    · exact h
  | soon =>
    rw [hpc] at hs hphase
    obtain rfl := Option.some.inj hs
    dsimp only
    split_ifs
    · rw [← Links.takeSlot_pay]
      exact State.Linked.takeSlot (s := s.pay costSlot) h (hphase.idle rfl) .soon s.loc.slot
    · exact h
    · exact h
  | enterLater =>
    rw [hpc] at hs
    obtain rfl := Option.some.inj hs
    unfold State.enterLater
    dsimp only
    split_ifs <;> exact h
  | later =>
    rw [hpc] at hs hphase
    obtain rfl := Option.some.inj hs
    dsimp only
    split_ifs
    · rw [← Links.takeSlot_pay]
      exact State.Linked.takeSlot (s := s.pay costSlot) h (hphase.idle rfl) .later s.loc.slot
    · exact h
  | passDone =>
    rw [hpc] at hs
    dsimp only at hs ⊢
    split_ifs at hs
    · obtain rfl := Option.some.inj hs
      exact h
    · obtain rfl := Option.some.inj hs
      exact h.finish a
  | next home =>
    rw [hpc] at hs
    obtain rfl := Option.some.inj hs
    exact h.nextTimer home

/-- **Every step** keeps the lists that the pointers represent. -/
theorem State.Linked.step {ok : Prop} {l : Label} (h : s.Linked k) (hg : Good ok s)
    (hs : s.step l = some s') : s'.Linked (k.step s l) := by
  obtain ⟨A, hphase⟩ := hg.phase
  cases l with
  | set p timeoutPos a =>
    simp only [State.step] at hs
    split_ifs at hs with hok
    obtain rfl := Option.some.inj hs
    obtain ⟨st, hlists⟩ := hphase.lists
    obtain ⟨b, pos, time, fd, d, he, -⟩ := Wheel.noteTimeout_eq
      ((s.tiw.startTimer p timeoutPos).insertTimerIntoSlot (s.tiw.targetSlot timeoutPos) p)
      (s.tiw.wakeUpPos timeoutPos) a
    have hin : TimerWheel.Linked
        ((s.tiw.startTimer p timeoutPos).insertTimerIntoSlot (s.tiw.targetSlot timeoutPos) p).w
        ((s.tiw.startTimer p timeoutPos).insertTimerIntoSlot
          (s.tiw.targetSlot timeoutPos) p).sentinel
        (k.insertTimerIntoSlot (s.tiw.targetSlot timeoutPos) (.timer p)) := by
      apply TimerWheel.Linked.insertTimerIntoSlot
      · exact h
      · exact hlists.notMem_of_inactive hok.2
      · exact hlists.notMem_sentinel_of_inactive hok.2
    unfold State.Linked
    change TimerWheel.Linked (s.tiw.setTimer p timeoutPos a).w
      (s.tiw.setTimer p timeoutPos a).sentinel _
    unfold Wheel.setTimer
    rw [he]
    exact hin
  | cancel p =>
    simp only [State.step] at hs
    split_ifs at hs with hok
    obtain rfl := Option.some.inj hs
    obtain ⟨st, hlists⟩ := hphase.lists
    obtain ⟨hw, hsent⟩ := removeTimer_lists (p := p) hlists
    unfold State.Linked
    change TimerWheel.Linked (s.tiw.cancelTimer p).w (s.tiw.cancelTimer p).sentinel _
    unfold Wheel.cancelTimer Links.step
    dsimp only
    split_ifs with hact
    · dsimp only
      rw [hw, hsent]
      exact h.remove (hlists.cover p hact)
    · exact h
  | check remain now =>
    simp only [State.step] at hs
    split_ifs at hs with hok
    obtain rfl := Option.some.inj hs
    obtain ⟨hw, hsent⟩ := findNextTimeout_lists s.tiw now
    rcases checkNextTimeoutTime_cases s.tiw remain now with he | ⟨-, he⟩
    · exact h.of_lists (congrArg Wheel.w he) (congrArg Wheel.sentinel he)
    · exact h.of_lists ((congrArg Wheel.w he).trans hw) ((congrArg Wheel.sentinel he).trans hsent)
  | bump currTime =>
    simp only [State.step] at hs
    split_ifs at hs with hok
    obtain rfl := Option.some.inj hs
    exact h
  | run a => exact h.runStep hg hs
  | ret =>
    simp only [State.step] at hs
    split at hs
    · obtain rfl := Option.some.inj hs
      unfold State.callbackDone
      dsimp only
      split <;> exact h
    · cases hs

end

end PonBeam.TimerWheel
