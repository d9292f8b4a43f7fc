import PonBeam.Condition.WakeUp
import PonBeam.Lib.Seg
import Mathlib.Data.List.Perm.Basic
import Mathlib.Data.List.Perm.Lattice

/-!
# Exactly-once delivery

`ready_list` is a stack of the pushes not yet taken, linked through the `next` words;
`wait` takes it whole and `try_dequeue` takes its top. `Delivery` ties the words in
memory to that picture while any number of pushes are under way: a process in the
middle of a push is in no list, so the store to its `next` word disturbs none, and the
word still holds what the notifier loaded when its exchange succeeds.
-/

namespace PonBeam.Condition

open Cond

/-- The process a notifier is about to push. -/
def NotifyPc.pushing : NotifyPc → Option Process
  | .load p | .store p _ | .cas p _ => some p
  | _ => none

/-- The chain a call of `wait` has taken and not returned yet. -/
def SchedPc.inHand : SchedPc → List Process
  | .waitReset head | .waitDrain head => [head]
  | _ => []

/-- A call of `try_dequeue` has looked at the head of the list. -/
def SchedPc.Trying : SchedPc → Prop
  | .tryNext _ | .tryCas _ _ => True
  | _ => False

/-- The chains taken from the list, each where the scheduler has got to. -/
def Cond.holding (s : Cond) : List Process := s.sched.inHand ++ s.cursors

/-- The processes still linked in the chains the scheduler holds. -/
def linked (held : List (Process × List Process)) : List Process := (held.map Prod.snd).flatten

/-- The newest push of each process, the last one first. -/
def newest : List Process → List Process
  | [] => []
  | p :: older => p :: (newest older).filter (· ≠ p)

/-- A list without `p` does not notice that `p` is pushed. -/
theorem sublist_filter_newest {l pushes : List Process} {p : Process}
    (h : l.Sublist (newest pushes)) (hp : p ∉ l) :
    l.Sublist ((newest pushes).filter (· ≠ p)) := by
  have hl : l.filter (· ≠ p) = l := by
    apply List.filter_eq_self.mpr
    intro q hq
    exact decide_eq_true fun he => hp (he ▸ hq)
  rw [← hl]
  exact h.filter _

/-- `stack` is queued, `held` are the chains the scheduler holds, and nothing else is out. -/
structure Delivery (s : Cond) (stack : List Process) (held : List (Process × List Process)) :
    Prop where
  /-- the list, from `ready_list` -/
  ready : Seg s.next s.readyList stack none
  /-- the chains start where the scheduler has got to -/
  heads : (held.map Prod.fst).Perm s.holding
  /-- and run to NULL -/
  chains : ∀ x ∈ held, Seg s.next (some x.1) x.2 none
  /-- every push is queued, in a chain, or dealt with -/
  once : s.pushes.Perm (stack ++ linked held ++ s.followed)
  /-- no process is out twice -/
  nodup : (stack ++ linked held).Nodup
  /-- the list is in reverse order of the pushes that brought its processes there -/
  stackOrder : stack.Sublist (newest s.pushes)
  /-- and so is every chain -/
  chainOrder : ∀ x ∈ held, x.2.Sublist (newest s.pushes)
  /-- what is out may not be notified -/
  taken : ∀ p ∈ stack ++ linked held, s.free p = false
  /-- a process being pushed is not out, and may not be notified -/
  flight : ∀ t p, (s.notifier t).pushing = some p → s.free p = false ∧ p ∉ stack ++ linked held
  /-- and one notifier pushes it -/
  one : ∀ t u p, (s.notifier t).pushing = some p → (s.notifier u).pushing = some p → t = u
  /-- the word it loaded is in place -/
  casNext : ∀ t p old, s.notifier t = .cas p old → s.next p = old
  /-- `try_dequeue` looks at a queued process -/
  tryNext : ∀ h, s.sched = .tryNext h → h ∈ stack
  /-- and at its `next` word -/
  tryCas : ∀ h n, s.sched = .tryCas h n → h ∈ stack ∧ s.next h = n

theorem delivery_create : Delivery create [] [] where
  ready := rfl
  heads := List.Perm.nil
  chains := by simp
  once := List.Perm.nil
  nodup := List.nodup_nil
  stackOrder := List.Sublist.slnil
  chainOrder := by simp
  taken := by simp [linked]
  flight t p h := by cases h
  one t u p h := by cases h
  casNext t p old h := by cases h
  tryNext h hs := by cases hs
  tryCas h n hs := by cases hs

section Steps

variable {s s' : Cond} {stack : List Process} {held held' : List (Process × List Process)}

theorem linked_perm (h : held.Perm held') : (linked held).Perm (linked held') :=
  (h.map Prod.snd).flatten

/-- The order in which the chains are listed does not matter. -/
theorem Delivery.reorder (h : Delivery s stack held) (hp : held.Perm held') :
    Delivery s stack held' := by
  have hl : (stack ++ linked held).Perm (stack ++ linked held') :=
    (linked_perm hp).append_left stack
  exact
    { h with
      heads := (hp.map Prod.fst).symm.trans h.heads
      chains := fun x hx => h.chains x (hp.mem_iff.mpr hx)
      once := h.once.trans (hl.append_right _)
      nodup := hl.nodup_iff.mp h.nodup
      chainOrder := fun x hx => h.chainOrder x (hp.mem_iff.mpr hx)
      taken := fun p hp' => h.taken p (hl.mem_iff.mpr hp')
      flight := fun t p ht => ⟨(h.flight t p ht).1, fun hm => (h.flight t p ht).2
        (hl.mem_iff.mpr hm)⟩ }

/-! ### The scheduler -/

/-- The scheduler moves on with nothing taken or returned. -/
theorem Delivery.schedGoto (h : Delivery s stack held) {pc : SchedPc}
    (hhand : pc.inHand = s.sched.inHand) (hnext : ∀ p, pc = .tryNext p → p ∈ stack)
    (hcas : ∀ p n, pc = .tryCas p n → p ∈ stack ∧ s.next p = n) :
    Delivery (s.schedGoto pc) stack held :=
  { h with
    heads := by
      change (held.map Prod.fst).Perm (pc.inHand ++ s.cursors)
      rw [hhand]
      exact h.heads
    tryNext := hnext
    tryCas := hcas }

theorem Delivery.schedPlain (h : Delivery s stack held) {pc : SchedPc}
    (hhand : pc.inHand = s.sched.inHand) (hpc : ¬ pc.Trying) :
    Delivery (s.schedGoto pc) stack held :=
  h.schedGoto hhand (fun _ he => absurd (by rw [he]; trivial) hpc)
    fun _ _ he => absurd (by rw [he]; trivial) hpc

/-- A call starts, or `epoll_wait` is interrupted. -/
theorem Delivery.call (h : Delivery s stack held) {pc pc' : SchedPc}
    (hstep : (if s.sched = pc then some (s.schedGoto pc') else none) = some s')
    (hhand : pc'.inHand = pc.inHand) (hpc : ¬ pc'.Trying) : Delivery s' stack held := by
  split at hstep
  case isTrue hs =>
    obtain rfl := Option.some.inj hstep
    exact h.schedPlain (by rw [hs, hhand]) hpc
  case isFalse => cases hstep

/-- The writes to the flag and the counter leave the lists alone. -/
theorem Delivery.of_eq (h : Delivery s stack held)
    (heq : s'.readyList = s.readyList ∧ s'.next = s.next ∧ s'.notifier = s.notifier ∧
      s'.sched = s.sched ∧ s'.cursors = s.cursors ∧ s'.free = s.free ∧ s'.pushes = s.pushes ∧
      s'.followed = s.followed) : Delivery s' stack held := by
  obtain ⟨e₁, e₂, e₃, e₄, e₅, e₆, e₇, e₈⟩ := heq
  have hhold : s'.holding = s.holding := by rw [holding, holding, e₄, e₅]
  refine ⟨?_, ?_, ?_, ?_, h.nodup, ?_, ?_, ?_, ?_, ?_, ?_, ?_, ?_⟩
  · rw [e₁, e₂]; exact h.ready
  · rw [hhold]; exact h.heads
  · rw [e₂]; exact h.chains
  · rw [e₇, e₈]; exact h.once
  · rw [e₇]; exact h.stackOrder
  · rw [e₇]; exact h.chainOrder
  · rw [e₆]; exact h.taken
  · rw [e₃, e₆]; exact h.flight
  · rw [e₃]; exact h.one
  · rw [e₂, e₃]; exact h.casNext
  · rw [e₄]; exact h.tryNext
  · rw [e₂, e₄]; exact h.tryCas

theorem Delivery.setSatisfied (h : Delivery s stack held) (b : Bool) :
    Delivery (s.setSatisfied b) stack held :=
  h.of_eq ⟨rfl, rfl, rfl, rfl, rfl, rfl, rfl, rfl⟩

theorem Delivery.readFd (h : Delivery s stack held) : Delivery s.readFd stack held :=
  h.of_eq ⟨rfl, rfl, rfl, rfl, rfl, rfl, rfl, rfl⟩

theorem Delivery.writeFd (h : Delivery s stack held) : Delivery s.writeFd stack held :=
  h.of_eq ⟨rfl, rfl, rfl, rfl, rfl, rfl, rfl, rfl⟩

/-- The top of the list is where `ready_list` points. -/
theorem Delivery.stack_eq (h : Delivery s stack held) {head : Process}
    (hr : s.readyList = some head) : ∃ rest, stack = head :: rest ∧
      Seg s.next (s.next head) rest none := by
  have hready := h.ready
  rw [hr] at hready
  cases stack with
  | nil => cases hready
  | cons x rest =>
    obtain ⟨hx, hrest⟩ := hready
    obtain rfl := Option.some.inj hx
    exact ⟨rest, rfl, hrest⟩

/-- `wait` takes the list whole. -/
theorem Delivery.takeAll (h : Delivery s stack held) {head : Process}
    (hr : s.readyList = some head) (hpc : s.sched = .waitCas head) :
    Delivery (s.takeAll.schedGoto (.waitReset head)) [] ((head, stack) :: held) := by
  have hlinked : linked ((head, stack) :: held) = stack ++ linked held := rfl
  have hready := h.ready
  rw [hr] at hready
  refine ⟨rfl, ?_, ?_, ?_, ?_, List.nil_sublist _, ?_, ?_, ?_, h.one, h.casNext, ?_, ?_⟩
  · have hhold : s.holding = s.cursors := by rw [holding, hpc]; rfl
    have := h.heads
    rw [hhold] at this
    exact this.cons head
  · intro x hx
    rcases List.mem_cons.mp hx with rfl | hx
    · exact hready
    · exact h.chains x hx
  · exact h.once
  · exact h.nodup
  · intro x hx
    rcases List.mem_cons.mp hx with rfl | hx
    · exact h.stackOrder
    · exact h.chainOrder x hx
  · exact h.taken
  · exact h.flight
  · intro p hp
    cases hp
  · intro p n hp
    cases hp

/-- `try_dequeue` takes the top of the list. -/
theorem Delivery.takeHead (h : Delivery s stack held) {head : Process} {next : Option Process}
    (hr : s.readyList = some head) (hpc : s.sched = .tryCas head next) (pc : SchedPc)
    (hhand : pc.inHand = []) (htry : ¬ pc.Trying) :
    ∃ rest, Delivery ((s.takeHead head next).schedGoto pc) rest held := by
  obtain ⟨rest, rfl, hrest⟩ := h.stack_eq hr
  obtain ⟨-, rfl⟩ := h.tryCas head next hpc
  have hnd := List.nodup_cons.mp h.nodup
  have hfree : ∀ p, p ≠ head → ((s.takeHead head (s.next head)).schedGoto pc).free p = s.free p :=
    fun p hp => Function.update_of_ne hp ..
  refine ⟨rest, ⟨hrest, ?_, h.chains, ?_, hnd.2, ?_, h.chainOrder, fun p hp => ?_,
    fun t p ht => ?_, h.one, h.casNext, fun p hp => ?_, fun p n hp => ?_⟩⟩
  · have hhold : s.holding = s.cursors := by rw [holding, hpc]; rfl
    have := h.heads
    rw [hhold] at this
    change (held.map Prod.fst).Perm (pc.inHand ++ s.cursors)
    rw [hhand]
    exact this
  · refine h.once.trans ?_
    change (head :: (rest ++ linked held ++ s.followed)).Perm
      (rest ++ linked held ++ head :: s.followed)
    exact List.perm_middle.symm
  · exact (List.sublist_cons_self head rest).trans h.stackOrder
  · rw [hfree p fun he => hnd.1 (he ▸ hp)]
    exact h.taken p (List.mem_cons_of_mem _ hp)
  · obtain ⟨hf, hm⟩ := h.flight t p ht
    have hne : p ≠ head := fun he => hm (he ▸ List.mem_cons_self ..)
    rw [hfree p hne]
    exact ⟨hf, fun hm' => hm (List.mem_cons_of_mem _ hm')⟩
  · obtain rfl : pc = .tryNext p := hp
    exact absurd trivial htry
  · obtain rfl : pc = .tryCas p n := hp
    exact absurd trivial htry

/-- The scheduler follows a `next` word and is through with the process. -/
theorem Delivery.follow (h : Delivery s stack held) (hpc : s.sched = .idle) {i : ℕ} {p : Process}
    (hi : s.cursors[i]? = some p) :
    ∃ held', Delivery { s.finish p with
      cursors := (s.next p).toList ++ s.cursors.eraseIdx i } stack held' := by
  have hcur : s.cursors.Perm (p :: s.cursors.eraseIdx i) := by
    obtain ⟨hlt, rfl⟩ := List.getElem?_eq_some_iff.mp hi
    exact (List.getElem_cons_eraseIdx_perm hlt).symm
  have hheads : (held.map Prod.fst).Perm (p :: s.cursors.eraseIdx i) := by
    have hhold : s.holding = s.cursors := by rw [holding, hpc]; rfl
    exact (hhold ▸ h.heads).trans hcur
  -- bring the chain that is followed to the front
  obtain ⟨⟨q, l⟩, hmem, rfl⟩ := List.mem_map.mp (hheads.mem_iff.mpr (List.mem_cons_self ..))
  obtain ⟨h₁, h₂, rfl⟩ := List.append_of_mem hmem
  have hd := h.reorder List.perm_middle
  set rest := h₁ ++ h₂ with hrest
  obtain ⟨l', rfl, hl'⟩ : ∃ l', l = q :: l' ∧ Seg s.next (s.next q) l' none := by
    have hseg := hd.chains (q, l) (List.mem_cons_self ..)
    cases l with
    | nil => cases hseg
    | cons x l' =>
      obtain ⟨hx, hseg⟩ := hseg
      obtain rfl : q = x := Option.some.inj hx
      exact ⟨l', rfl, hseg⟩
  have hmiddle : (((h₁ ++ (q, q :: l') :: h₂).map Prod.fst)).Perm
      (((q, q :: l') :: rest).map Prod.fst) := List.perm_middle.map Prod.fst
  have hrests : (rest.map Prod.fst).Perm (s.cursors.eraseIdx i) :=
    (hmiddle.symm.trans hheads).cons_inv
  -- what is left of it, if anything
  set held' := (s.next q).toList.map (fun r => (r, l')) ++ rest with hheld'
  have hlinked : linked held' = l' ++ linked rest := by
    rw [hheld']
    cases hn : s.next q with
    | none =>
      rw [hn] at hl'
      obtain rfl : l' = [] := by
        cases l' with
        | nil => rfl
        | cons x l' => cases hl'.1
      rfl
    | some r => rfl
  have hperm : (stack ++ linked ((q, q :: l') :: rest)).Perm (q :: (stack ++ linked held')) := by
    rw [hlinked]
    exact List.perm_middle
  have hnd := List.nodup_cons.mp (hperm.nodup_iff.mp hd.nodup)
  have hfree : ∀ r, r ≠ q → (s.finish q).free r = s.free r :=
    fun r hr => Function.update_of_ne hr ..
  have hsub : ∀ r, r ∈ stack ++ linked held' → r ∈ stack ++ linked ((q, q :: l') :: rest) :=
    fun r hr => hperm.mem_iff.mpr (List.mem_cons_of_mem _ hr)
  refine ⟨held', ⟨hd.ready, ?_, ?_, ?_, hnd.2, hd.stackOrder, ?_, fun r hr => ?_, fun t r ht => ?_,
    hd.one, hd.casNext, fun r hr => ?_, fun r n hr => ?_⟩⟩
  · change (held'.map Prod.fst).Perm (s.sched.inHand ++ ((s.next q).toList ++ _))
    rw [hpc, hheld', List.map_append, List.map_map]
    have hid : (s.next q).toList.map (Prod.fst ∘ fun r => (r, l')) = (s.next q).toList := by
      cases s.next q <;> rfl
    rw [hid]
    exact hrests.append_left _
  · intro x hx
    rcases List.mem_append.mp hx with hx | hx
    · obtain ⟨r, hr, rfl⟩ := List.mem_map.mp hx
      rw [Option.mem_toList] at hr
      change Seg s.next (some r) l' none
      rw [← hr]
      exact hl'
    · exact hd.chains x (List.mem_cons_of_mem _ hx)
  · refine hd.once.trans ?_
    refine (hperm.append_right s.followed).trans ?_
    exact List.perm_middle.symm
  · intro x hx
    rcases List.mem_append.mp hx with hx | hx
    · obtain ⟨r, -, rfl⟩ := List.mem_map.mp hx
      exact (List.sublist_cons_self q l').trans
        (hd.chainOrder (q, q :: l') (List.mem_cons_self ..))
    · exact hd.chainOrder x (List.mem_cons_of_mem _ hx)
  · change (s.finish q).free r = false
    rw [hfree r fun he => hnd.1 (he ▸ hr)]
    exact hd.taken r (hsub r hr)
  · obtain ⟨hf, hm⟩ := hd.flight t r ht
    have hne : r ≠ q := fun he => hm (hperm.mem_iff.mpr (he ▸ List.mem_cons_self ..))
    change (s.finish q).free r = false ∧ _
    rw [hfree r hne]
    exact ⟨hf, fun hm' => hm (hsub r hm')⟩
  · change s.sched = _ at hr
    rw [hpc] at hr
    cases hr
  · change s.sched = _ at hr
    rw [hpc] at hr
    cases hr

/-! ### The notifiers -/

/-- A notifier moves on, with the same process in hand or none. -/
theorem Delivery.goto (h : Delivery s stack held) {t : ℕ} {pc : NotifyPc}
    (hp : ∀ p, pc.pushing = some p → (s.notifier t).pushing = some p)
    (hc : ∀ p old, pc = .cas p old → s.next p = old) : Delivery (s.goto t pc) stack held := by
  have hpush : ∀ u p, ((s.goto t pc).notifier u).pushing = some p →
      (s.notifier u).pushing = some p := by
    intro u p hu
    by_cases hut : u = t
    · subst hut
      rw [goto_self] at hu
      exact hp p hu
    · rwa [goto_of_ne s pc hut] at hu
  exact
    { h with
      flight := fun u p hu => h.flight u p (hpush u p hu)
      one := fun u v p hu hv => h.one u v p (hpush u p hu) (hpush v p hv)
      casNext := fun u p old hu => by
        by_cases hut : u = t
        · subst hut
          rw [goto_self] at hu
          exact hc p old hu
        · rw [goto_of_ne s pc hut] at hu
          exact h.casNext u p old hu }

/-- `*node = old_head`: the node is in no list. -/
theorem Delivery.storeNext (h : Delivery s stack held) {t : ℕ} {p : Process}
    {old q : Option Process} (ht : s.notifier t = .store p old) :
    Delivery (s.storeNext p q) stack held := by
  have hout := (h.flight t p (by rw [ht]; rfl)).2
  have hnext : ∀ r, r ≠ p → (s.storeNext p q).next r = s.next r :=
    fun r hr => Function.update_of_ne hr ..
  refine
    { h with
      ready := (Seg.congr fun r hr => hnext r fun he => hout ?_).mpr h.ready
      chains := fun x hx => (Seg.congr fun r hr => hnext r fun he => hout ?_).mpr (h.chains x hx)
      casNext := fun u r old' hu => ?_
      tryCas := fun r n hr => ⟨(h.tryCas r n hr).1, ?_⟩ }
  · exact List.mem_append_left _ (he ▸ hr)
  · exact List.mem_append_right _ (List.mem_flatten.mpr ⟨x.2, List.mem_map_of_mem hx, he ▸ hr⟩)
  · have hne : r ≠ p := by
      rintro rfl
      have hu : s.notifier u = .cas r old' := hu
      obtain rfl := h.one u t r (by rw [hu]; rfl) (by rw [ht]; rfl)
      cases hu.symm.trans ht
    rw [hnext r hne]
    exact h.casNext u r old' hu
  · have hne : r ≠ p := fun he => hout (List.mem_append_left _ (he ▸ (h.tryCas r n hr).1))
    rw [hnext r hne]
    exact (h.tryCas r n hr).2

/-- The exchange succeeds: the process is on top of the list. -/
theorem Delivery.push (h : Delivery s stack held) {t : ℕ} {p : Process} {old : Option Process}
    (ht : s.notifier t = .cas p old) (hr : s.readyList = old) :
    Delivery ((s.push p).goto t .readSat) (p :: stack) held := by
  obtain ⟨hfree, hout⟩ := h.flight t p (by rw [ht]; rfl)
  have hpush : ∀ u q, (((s.push p).goto t .readSat).notifier u).pushing = some q →
      u ≠ t ∧ (s.notifier u).pushing = some q := by
    intro u q hu
    by_cases hut : u = t
    · subst hut
      rw [goto_self] at hu
      cases hu
    · rw [goto_of_ne _ _ hut] at hu
      exact ⟨hut, hu⟩
  have hmem : ∀ q, q ∈ p :: stack ++ linked held → q = p ∨ q ∈ stack ++ linked held :=
    fun q hq => List.mem_cons.mp hq
  refine ⟨⟨rfl, ?_⟩, h.heads, h.chains, ?_, List.nodup_cons.mpr ⟨hout, h.nodup⟩, ?_, fun x hx => ?_,
    fun q hq => ?_, fun u q hu => ?_, fun u v q hu hv => ?_, fun u q o hu => ?_, fun q hq => ?_,
    fun q n hq => ?_⟩
  · change Seg s.next (s.next p) stack none
    rw [h.casNext t p old ht, ← hr]
    exact h.ready
  · exact h.once.cons p
  · have hp : p ∉ stack := fun hm => hout (List.mem_append_left _ hm)
    exact (sublist_filter_newest h.stackOrder hp).cons_cons p
  · -- the process pushed is in no chain, so an older push of it gives none of them its order
    have hp : p ∉ x.2 := fun hm => hout
      (List.mem_append_right _ (List.mem_flatten.mpr ⟨x.2, List.mem_map_of_mem hx, hm⟩))
    exact (sublist_filter_newest (h.chainOrder x hx) hp).trans (List.sublist_cons_self p _)
  · rcases hmem q hq with rfl | hq
    · exact hfree
    · exact h.taken q hq
  · obtain ⟨hut, hu'⟩ := hpush u q hu
    obtain ⟨hf, hm⟩ := h.flight u q hu'
    refine ⟨hf, fun hq => ?_⟩
    rcases hmem q hq with rfl | hq
    · exact hut (h.one u t q hu' (by rw [ht]; rfl))
    · exact hm hq
  · exact h.one u v q (hpush u q hu).2 (hpush v q hv).2
  · by_cases hut : u = t
    · subst hut
      rw [goto_self] at hu
      cases hu
    · rw [goto_of_ne _ _ hut] at hu
      exact h.casNext u q o hu
  · exact List.mem_cons_of_mem _ (h.tryNext q hq)
  · exact ⟨List.mem_cons_of_mem _ (h.tryCas q n hq).1, (h.tryCas q n hq).2⟩

/-- A call of `pon_condition_notify` on a process that is free. -/
theorem Delivery.notify (h : Delivery s stack held) {t : ℕ} {p : Process}
    (hp : s.free p = true) :
    Delivery ({ s with free := Function.update s.free p false }.goto t (.load p)) stack held := by
  set f := Function.update s.free p false with hf
  have hfree : ∀ q, s.free q = false → f q = false := by
    intro q hq
    by_cases hqp : q = p
    · rw [hf, hqp, Function.update_self]
    · rw [hf, Function.update_of_ne hqp, hq]
  have hpush : ∀ u q, (({ s with free := f }.goto t (.load p)).notifier u).pushing = some q →
      u = t ∧ q = p ∨ (s.notifier u).pushing = some q := by
    intro u q hu
    by_cases hut : u = t
    · subst hut
      rw [goto_self] at hu
      exact Or.inl ⟨rfl, (Option.some.inj hu).symm⟩
    · rw [goto_of_ne _ _ hut] at hu
      exact Or.inr hu
  have hbusy : ∀ u, (s.notifier u).pushing ≠ some p := by
    intro u hu
    have := (h.flight u p hu).1
    rw [hp] at this
    cases this
  refine
    { h with
      taken := fun q hq => hfree q (h.taken q hq)
      flight := fun u q hu => ?_
      one := fun u v q hu hv => ?_
      casNext := fun u q old hu => ?_ }
  · rcases hpush u q hu with ⟨-, rfl⟩ | hu
    · refine ⟨Function.update_self .., fun hm => ?_⟩
      have := h.taken q hm
      rw [hp] at this
      cases this
    · exact ⟨hfree q (h.flight u q hu).1, (h.flight u q hu).2⟩
  · rcases hpush u q hu with ⟨rfl, rfl⟩ | hu'
    · rcases hpush v q hv with ⟨rfl, -⟩ | hv'
      · rfl
      · exact absurd hv' (hbusy v)
    · rcases hpush v q hv with ⟨-, rfl⟩ | hv'
      · exact absurd hu' (hbusy u)
      · exact h.one u v q hu' hv'
  · by_cases hut : u = t
    · subst hut
      rw [goto_self] at hu
      cases hu
    · rw [goto_of_ne _ _ hut] at hu
      exact h.casNext u q old hu

theorem Delivery.notifierStep (h : Delivery s stack held) {t : ℕ}
    (hstep : notifierStep s t = some s') : ∃ stack', Delivery s' stack' held := by
  cases hpc : s.notifier t <;> simp only [Condition.notifierStep, hpc] at hstep
  case idle => cases hstep
  case load p =>
    obtain rfl := Option.some.inj hstep
    exact ⟨stack, h.goto (fun q hq => by rw [hpc]; exact hq) fun q o hq => by cases hq⟩
  case store p old =>
    obtain rfl := Option.some.inj hstep
    refine ⟨stack, (h.storeNext hpc).goto (fun q hq => ?_) fun q o hq => ?_⟩
    · change (s.notifier t).pushing = some q
      rw [hpc]
      exact hq
    · cases hq
      exact Function.update_self ..
  case cas p old =>
    split at hstep
    case isTrue hr =>
      obtain rfl := Option.some.inj hstep
      exact ⟨p :: stack, h.push hpc hr⟩
    case isFalse =>
      -- another thread was faster, and the word just stored is written again before the next try
      obtain rfl := Option.some.inj hstep
      exact ⟨stack, h.goto (fun q hq => by rw [hpc]; exact hq) fun q o hq => by cases hq⟩
  case readSat =>
    obtain rfl := Option.some.inj hstep
    refine ⟨stack, h.goto (fun q hq => ?_) fun q o hq => ?_⟩
    · split at hq <;> cases hq
    · split at hq <;> cases hq
  case writeSat =>
    obtain rfl := Option.some.inj hstep
    exact ⟨stack, (h.setSatisfied true).goto (fun q hq => by cases hq) fun q o hq => by cases hq⟩
  case writeFd =>
    obtain rfl := Option.some.inj hstep
    exact ⟨stack, h.writeFd.goto (fun q hq => by cases hq) fun q o hq => by cases hq⟩

theorem Delivery.schedStep (h : Delivery s stack held) (hstep : schedStep s = some s') :
    ∃ stack' held', Delivery s' stack' held' := by
  cases hpc : s.sched <;> simp only [Condition.schedStep, hpc] at hstep
  case idle => cases hstep
  case waitLoad =>
    split at hstep <;>
    · obtain rfl := Option.some.inj hstep
      exact ⟨stack, held, h.schedPlain (by rw [hpc]; rfl) id⟩
  case waitCas head =>
    split at hstep
    · rename_i hr
      obtain rfl := Option.some.inj hstep
      exact ⟨[], _, h.takeAll hr hpc⟩
    · obtain rfl := Option.some.inj hstep
      exact ⟨stack, held, h.schedPlain (by rw [hpc]; rfl) id⟩
  case waitReset head =>
    obtain rfl := Option.some.inj hstep
    refine ⟨stack, held, (h.setSatisfied false).schedPlain ?_ id⟩
    change _ = s.sched.inHand
    rw [hpc]
    rfl
  case waitDrain head =>
    split at hstep
    · obtain rfl := Option.some.inj hstep
      exact ⟨stack, held, h.readFd⟩
    · -- the chain goes from the call's hand to the scheduler's
      obtain rfl := Option.some.inj hstep
      have hheads := h.heads
      rw [holding, hpc] at hheads
      refine ⟨stack, held, ?_⟩
      exact
        { h with
          heads := hheads
          tryNext := fun p hp => by cases hp
          tryCas := fun p n hp => by cases hp }
  case waitReadSat =>
    obtain rfl := Option.some.inj hstep
    refine ⟨stack, held, h.schedPlain ?_ ?_⟩
    · rw [hpc]
      split <;> rfl
    · split <;> exact id
  case waitReadFd =>
    split at hstep
    · obtain rfl := Option.some.inj hstep
      refine ⟨stack, held, h.readFd.schedPlain ?_ id⟩
      change _ = s.sched.inHand
      rw [hpc]
      rfl
    · obtain rfl := Option.some.inj hstep
      exact ⟨stack, held, h.schedPlain (by rw [hpc]; rfl) id⟩
  case tryLoad =>
    split at hstep
    · obtain rfl := Option.some.inj hstep
      exact ⟨stack, held, h.schedPlain (by rw [hpc]; rfl) id⟩
    · rename_i head hr
      obtain rfl := Option.some.inj hstep
      obtain ⟨rest, rfl, -⟩ := h.stack_eq hr
      refine ⟨_, held, h.schedGoto (by rw [hpc]; rfl) (fun p hp => ?_) fun p n hp => by cases hp⟩
      cases hp
      exact List.mem_cons_self ..
  case tryNext head =>
    obtain rfl := Option.some.inj hstep
    refine ⟨stack, held, h.schedGoto (by rw [hpc]; rfl) (fun p hp => by cases hp)
      fun p n hp => ?_⟩
    cases hp
    exact ⟨h.tryNext head hpc, rfl⟩
  case tryCas head next =>
    split at hstep
    · rename_i hr
      obtain rfl := Option.some.inj hstep
      obtain ⟨rest, hd⟩ := h.takeHead hr hpc (if next = none then .tryReset else .idle)
        (by split <;> rfl) (by split <;> exact id)
      exact ⟨rest, held, hd⟩
    · obtain rfl := Option.some.inj hstep
      exact ⟨stack, held, h.schedPlain (by rw [hpc]; rfl) id⟩
  case waitEpoll =>
    split at hstep
    · obtain rfl := Option.some.inj hstep
      exact ⟨stack, held, h.schedPlain (by rw [hpc]; rfl) id⟩
    · cases hstep
  all_goals
    obtain rfl := Option.some.inj hstep
    refine ⟨stack, held, (h.setSatisfied _).schedPlain ?_ id⟩
    change _ = s.sched.inHand
    rw [hpc]
    rfl

/-- **One move** keeps the picture. -/
theorem Delivery.move (h : Delivery s stack held) {a : Move} (hstep : move s a = some s') :
    ∃ stack' held', Delivery s' stack' held' := by
  cases a with
  | notify t p =>
    simp only [Condition.move] at hstep
    split at hstep
    · rename_i hfree
      obtain rfl := Option.some.inj hstep
      exact ⟨stack, held, h.notify hfree.2⟩
    · cases hstep
  | notifier t =>
    obtain ⟨stack', hd⟩ := h.notifierStep hstep
    exact ⟨stack', held, hd⟩
  | spurious t =>
    simp only [Condition.move] at hstep
    split at hstep
    · rename_i p old hpc
      obtain rfl := Option.some.inj hstep
      exact ⟨stack, held, h.goto (fun q hq => by rw [hpc]; exact hq) fun q o hq => by cases hq⟩
    · cases hstep
  | wait => exact ⟨stack, held, h.call hstep rfl id⟩
  | tryDequeue => exact ⟨stack, held, h.call hstep rfl id⟩
  | sched => exact h.schedStep hstep
  | interrupt => exact ⟨stack, held, h.call hstep rfl id⟩
  | follow i =>
    simp only [Condition.move] at hstep
    split at hstep
    · rename_i hpc
      split at hstep
      · rename_i p hi
        obtain rfl := Option.some.inj hstep
        obtain ⟨held', hd⟩ := h.follow hpc hi
        exact ⟨stack, held', hd⟩
      · cases hstep
    · cases hstep

end Steps

/-! ## Every run -/

/-- Every successful push is, exactly once, reachable from `ready_list`, or in a chain that
`wait` has taken and the scheduler has not got through, or dealt with; and the list and the
chains are in reverse order of the pushes, the newest push of a process counting. -/
def ExactlyOnce (s : Cond) : Prop :=
  ∃ stack held,
    Seg s.next s.readyList stack none ∧
    (held.map Prod.fst).Perm s.holding ∧ (∀ x ∈ held, Seg s.next (some x.1) x.2 none) ∧
    s.pushes.Perm (stack ++ linked held ++ s.followed) ∧ (stack ++ linked held).Nodup ∧
    stack.Sublist (newest s.pushes) ∧ ∀ x ∈ held, x.2.Sublist (newest s.pushes)

/-- **Exactly once**, in every interleaving. -/
theorem exactlyOnce_of_reach {s : Cond} (h : condSystem.Reach s) : ExactlyOnce s := by
  have hinv : ∃ stack held, Delivery s stack held := by
    refine h.invariant (I := fun s => ∃ stack held, Delivery s stack held) (fun s hs => ?_)
      fun s a s' ⟨_, _, hd⟩ hst => hd.move hst
    obtain rfl : s = create := hs
    exact ⟨[], [], delivery_create⟩
  obtain ⟨stack, held, hd⟩ := hinv
  exact ⟨stack, held, hd.ready, hd.heads, hd.chains, hd.once, hd.nodup, hd.stackOrder,
    hd.chainOrder⟩

/-- Process 1 is pushed, taken and followed; then 2 and 1 again are pushed, and a `wait` takes
both: at its return 1 comes before 2, for its newest push is the last one. -/
theorem two_pushes_exactlyOnce :
    ∃ s, run create [.notify 1 1, .notifier 1, .notifier 1, .notifier 1,
        .wait, .sched, .sched, .sched, .sched, .follow 0,
        .notify 2 2, .notifier 2, .notifier 2, .notifier 2,
        .notifier 1, .notifier 1, .notifier 1, .notify 1 1, .notifier 1, .notifier 1, .notifier 1,
        .wait, .sched, .sched, .sched, .sched, .sched] = some s ∧
      s.cursors = [1] ∧ s.next 1 = some 2 ∧ s.pushes = [1, 2, 1] ∧ s.followed = [1] ∧
      newest s.pushes = [1, 2] ∧ ExactlyOnce s := by
  have hrun : ∀ as, (run create as).isSome → run create as = some ((run create as).getD create) :=
    fun as h => by
      obtain ⟨s, hs⟩ := Option.isSome_iff_exists.mp h
      rw [hs, Option.getD_some]
  exact ⟨_, hrun _ rfl, rfl, rfl, rfl, rfl, rfl,
    exactlyOnce_of_reach (reach_of_run (.start rfl) (hrun _ rfl))⟩

end PonBeam.Condition
