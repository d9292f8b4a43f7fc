import PonBeam.Premise.Term
import PonBeam.Lib.Seg

/-!
# Registering Premises (`bif.c`, `pon_premise.c`)

`pon_register_premises/1` makes a Premise for each element of its argument and appends it
through a tail pointer, before it knows that the argument is a proper list. Only then are
the Premises of the process replaced; otherwise those just made are freed. An argument that
is not a list cell is refused at once, `[]` among them: to have no Premises there is
`pon_unregister_premises/0`.

Blocks are what `erts_alloc` hands out and `erts_free` takes back. A function that reads or
frees a block which is not allocated has no result.
-/

namespace PonBeam.Premise

/-- The address of an `ErtsPremise`. -/
abbrev Addr : Type := ℕ

/-- An `ErtsPremise`, without its link. -/
structure ErtsPremise where
  /-- the pattern -/
  pattern : Eterm
  /-- `match_fn`, or `NULL` -/
  matchFn : Option ℕ
  /-- whether there is a matched message -/
  hasMatch : Bool
  /-- its term -/
  matchedTerm : Eterm
  /-- the message, or `NULL` -/
  matchedMsg : Option ℕ
  /-- which clause it is -/
  clauseIndex : ℕ
  deriving DecidableEq, Repr

/-- `ERTS_INIT_PREMISE`, the link apart. -/
def initPremise (pat : Eterm) (matchFn : Option ℕ) (cidx : ℕ) : ErtsPremise :=
  ⟨pat, matchFn, false, .nonValue, none, cidx⟩

/-- The memory of the Premises. -/
structure PremMem where
  /-- the fields -/
  premise : Addr → ErtsPremise
  /-- `next_premise` -/
  nextPremise : Addr → Option Addr
  /-- the allocated blocks -/
  live : List Addr

namespace PremMem

/-- `erts_alloc` and `ERTS_INIT_PREMISE`. -/
def alloc (mem : PremMem) (addr : Addr) (prem : ErtsPremise) : PremMem where
  premise := Function.update mem.premise addr prem
  nextPremise := Function.update mem.nextPremise addr none
  live := addr :: mem.live

/-- `addr->next_premise = next` -/
def setNext (mem : PremMem) (addr : Addr) (next : Option Addr) : PremMem :=
  { mem with nextPremise := Function.update mem.nextPremise addr next }

/-- `erts_free` -/
def free (mem : PremMem) (addr : Addr) : PremMem := { mem with live := mem.live.erase addr }

end PremMem

/-- Frees a list of Premises, in so many turns. -/
def freeLoop : ℕ → Option Addr → PremMem → Option PremMem
  | _, none, mem => some mem
  | 0, some _, _ => none
  | turns + 1, some prem, mem =>
    if prem ∈ mem.live then freeLoop turns (mem.nextPremise prem) (mem.free prem) else none

/-- What the process has. -/
structure PremState where
  /-- the memory -/
  mem : PremMem
  /-- `p->pon_premises` -/
  ponPremises : Option Addr

/-- `erts_pon_register_premises` -/
def ertsPonRegisterPremises (turns : ℕ) (premises : Option Addr) (p : PremState) :
    Option PremState :=
  (freeLoop turns p.ponPremises p.mem).map fun mem => ⟨mem, premises⟩

/-- The variables of the loop; `tail` is `&prems` (`none`) or `&prem->next_premise`. -/
structure Build where
  /-- the memory -/
  mem : PremMem
  /-- the list so far -/
  prems : Option Addr
  /-- where its end is -/
  tail : Option Addr
  /-- the next index -/
  idx : ℕ

/-- `*tail = prem; tail = &prem->next_premise` -/
def Build.append (b : Build) (prem : Addr) : Build :=
  match b.tail with
  | none => { b with prems := some prem, tail := some prem }
  | some last => { b with mem := b.mem.setNext last (some prem), tail := some prem }

/-- One turn of the loop, for the element `elem`. -/
def Build.turn (alloc : List Addr → Addr) (elem : Eterm) (b : Build) : Build :=
  let prem := alloc b.mem.live
  let b := { b with mem := b.mem.alloc prem (initPremise elem none b.idx) }
  let b := b.append prem
  { b with idx := b.idx + 1 }

/-- The loop over the list cells, for so many turns; it ends with the tail of the list. -/
def buildLoop (heap : Heap) (alloc : List Addr → Addr) : ℕ → Eterm → Build →
    Option (Eterm × Build)
  | 0, _, _ => none
  | turns + 1, .list addr, b =>
    buildLoop heap alloc turns (heap.cell addr).2 (b.turn alloc (heap.cell addr).1)
  | _ + 1, l, b => some (l, b)

/-- What a BIF returns. -/
inductive BifResult : Type where
  /-- `am_true` -/
  | amTrue
  /-- the `badarg` error -/
  | badarg
  deriving DecidableEq, Repr

/-- `pon_register_premises_1` -/
def ponRegisterPremises1 (heap : Heap) (alloc : List Addr → Addr) (turns : ℕ) (list : Eterm)
    (p : PremState) : Option (BifResult × PremState) :=
  if list.isList = false then some (.badarg, p)
  else
    match buildLoop heap alloc turns list ⟨p.mem, none, none, 0⟩ with
    | none => none
    | some (l, b) =>
      if l ≠ nil then
        (freeLoop turns b.prems b.mem).map fun mem => (.badarg, { p with mem := mem })
      else
        (ertsPonRegisterPremises turns b.prems { p with mem := b.mem }).map fun p => (.amTrue, p)

/-! ## Lists -/

/-- `l` is a chain of cells with the elements `ws`, and then `t`. -/
def Cells (heap : Heap) : Eterm → List Eterm → Eterm → Prop
  | l, [], t => l = t ∧ l.isList = false
  | l, w :: ws, t => ∃ addr, l = .list addr ∧ (heap.cell addr).1 = w ∧
      Cells heap (heap.cell addr).2 ws t

theorem Reads.cells {heap : Heap} {l : Eterm} {v : Value} (h : Reads heap l v) :
    ∃ ws t, Cells heap l ws t := by
  cases h with
  | list _ htl =>
    obtain ⟨ws, t, h⟩ := htl.cells
    exact ⟨_ :: ws, t, _, rfl, rfl, h⟩
  | immed _ | tuple _ _ | big _ | float _ | bitstring _ | thing _ _ => exact ⟨[], _, rfl, rfl⟩

/-! ## Freeing -/

/-- A list of allocated Premises. -/
structure Chain (mem : PremMem) (head : Option Addr) (addrs : List Addr) : Prop where
  /-- their links -/
  links : Seg mem.nextPremise head addrs none
  /-- they are allocated -/
  live : ∀ a ∈ addrs, a ∈ mem.live
  /-- no block is allocated twice -/
  nodup : mem.live.Nodup

theorem Chain.congr {mem mem' : PremMem} {head : Option Addr} {addrs : List Addr}
    (h : Chain mem head addrs) (hnext : ∀ a ∈ addrs, mem'.nextPremise a = mem.nextPremise a)
    (hlive : ∀ a ∈ addrs, a ∈ mem'.live) (hnd : mem'.live.Nodup) : Chain mem' head addrs :=
  ⟨(Seg.congr hnext).mpr h.links, hlive, hnd⟩

/-- **The freeing loop** frees the list and nothing else. -/
theorem Chain.freeLoop {mem : PremMem} {head : Option Addr} {addrs : List Addr}
    (h : Chain mem head addrs) {turns : ℕ} (hturns : addrs.length ≤ turns) :
    ∃ mem', freeLoop turns head mem = some mem' ∧ mem'.premise = mem.premise ∧
      mem'.nextPremise = mem.nextPremise ∧ mem'.live.Nodup ∧
      ∀ a, a ∈ mem'.live ↔ a ∈ mem.live ∧ a ∉ addrs := by
  induction addrs generalizing mem head turns with
  | nil =>
    obtain rfl : head = none := h.links
    refine ⟨mem, ?_, rfl, rfl, h.nodup, fun a => ?_⟩
    · cases turns <;> rfl
    · simp
  | cons prem addrs ih =>
    obtain ⟨turns, rfl⟩ := Nat.exists_eq_succ_of_ne_zero (Nat.ne_of_gt (Nat.zero_lt_of_lt hturns))
    obtain ⟨rfl, hlinks⟩ := h.links
    have hfresh : prem ∉ addrs := (List.nodup_cons.mp h.links.nodup).1
    have hrest : Chain (mem.free prem) (mem.nextPremise prem) addrs := by
      refine ⟨hlinks, fun a ha => ?_, h.nodup.erase _⟩
      refine (List.mem_erase_of_ne ?_).mpr (h.live a (List.mem_cons_of_mem _ ha))
      rintro rfl
      exact hfresh ha
    obtain ⟨mem', hrun, hpremise, hnext, hnd, hlive⟩ := ih hrest (Nat.le_of_succ_le_succ hturns)
    refine ⟨mem', ?_, hpremise, hnext, hnd, fun a => ?_⟩
    · rw [PonBeam.Premise.freeLoop, if_pos (h.live prem (List.mem_cons_self ..))]
      exact hrun
    · rw [hlive, PremMem.free, h.nodup.mem_erase_iff, List.mem_cons]
      tauto

/-! ## Building -/

/-- What the elements become. -/
def initAll (ws : List Eterm) : List ErtsPremise := ws.mapIdx fun i w => initPremise w none i

theorem initAll_concat (ws : List Eterm) (w : Eterm) :
    initAll (ws ++ [w]) = initAll ws ++ [initPremise w none ws.length] := by
  exact List.mapIdx_concat

/-- The list that has been built from `ws`, in a memory that was `mem₀`. -/
structure Built (mem₀ : PremMem) (b : Build) (addrs : List Addr) (ws : List Eterm) : Prop where
  /-- the list -/
  chain : Chain b.mem b.prems addrs
  /-- its end -/
  tail : b.tail = addrs.getLast?
  /-- a Premise for each element -/
  premises : addrs.map b.mem.premise = initAll ws
  /-- the elements are counted -/
  idx : b.idx = ws.length
  /-- its blocks are new -/
  live : ∀ a, a ∈ b.mem.live ↔ a ∈ mem₀.live ∨ a ∈ addrs
  /-- they are not among the old ones -/
  fresh : ∀ a ∈ addrs, a ∉ mem₀.live
  /-- which are as they were -/
  old : ∀ a ∈ mem₀.live,
    b.mem.premise a = mem₀.premise a ∧ b.mem.nextPremise a = mem₀.nextPremise a

section Building

variable {alloc : List Addr → Addr} {mem₀ : PremMem} {b : Build} {addrs : List Addr}
  {ws : List Eterm} {heap : Heap}

theorem turn_live (w : Eterm) : (b.turn alloc w).mem.live = alloc b.mem.live :: b.mem.live := by
  obtain ⟨mem, prems, _ | last, idx⟩ := b <;> rfl

theorem turn_premise (w : Eterm) : (b.turn alloc w).mem.premise =
    Function.update b.mem.premise (alloc b.mem.live) (initPremise w none b.idx) := by
  obtain ⟨mem, prems, _ | last, idx⟩ := b <;> rfl

theorem turn_tail (w : Eterm) : (b.turn alloc w).tail = some (alloc b.mem.live) := by
  obtain ⟨mem, prems, _ | last, idx⟩ := b <;> rfl

theorem turn_idx (w : Eterm) : (b.turn alloc w).idx = b.idx + 1 := by
  obtain ⟨mem, prems, _ | last, idx⟩ := b <;> rfl

/-- The links after a turn: the new block is the last, and the one before leads there. -/
theorem turn_links (w : Eterm) (h : b.tail = addrs.getLast?)
    (hlinks : Seg b.mem.nextPremise b.prems addrs none) (hfresh : alloc b.mem.live ∉ addrs) :
    Seg (b.turn alloc w).mem.nextPremise (b.turn alloc w).prems (addrs ++ [alloc b.mem.live])
      none := by
  obtain ⟨prem, hprem⟩ : ∃ prem, prem = alloc b.mem.live := ⟨_, rfl⟩
  rw [← hprem] at hfresh ⊢
  cases ht : b.tail with
  | none =>
    obtain rfl := List.getLast?_eq_none_iff.mp (h.symm.trans ht)
    have hturn : (b.turn alloc w).prems = some prem := by
      simp only [Build.turn, Build.append, ht, hprem]
    have hnext : (b.turn alloc w).mem.nextPremise prem = none := by
      simp only [Build.turn, Build.append, ht, PremMem.alloc, hprem]
      exact Function.update_self ..
    exact ⟨hturn, hnext⟩
  | some last =>
    have hlast : addrs.getLast? = some last := h.symm.trans ht
    have hmem : last ∈ addrs := List.mem_of_getLast? hlast
    have hne : last ≠ prem := fun he => hfresh (he ▸ hmem)
    have hturn : (b.turn alloc w).prems = b.prems := by
      simp only [Build.turn, Build.append, ht]
    have hnext : (b.turn alloc w).mem.nextPremise =
        Function.update (Function.update b.mem.nextPremise prem none) last (some prem) := by
      simp only [Build.turn, Build.append, ht, PremMem.alloc, PremMem.setNext, hprem]
    rw [hturn, hnext]
    refine hlinks.snoc hlinks.nodup (fun y hy => ?_) ?_ ?_ fun z hz hz' => ?_
    · obtain rfl := Option.some.inj (hlast.symm.trans hy)
      exact Function.update_self ..
    · rw [if_neg (List.ne_nil_of_mem hmem)]
    · rw [Function.update_of_ne hne.symm]
      exact Function.update_self ..
    · have hzl : z ≠ last := fun he => hz' (he ▸ hlast)
      have hzp : z ≠ prem := fun he => hfresh (he ▸ hz)
      rw [Function.update_of_ne hzl, Function.update_of_ne hzp]

/-- The links of the blocks that are not in the list do not change. -/
theorem turn_next_old (w : Eterm) (h : b.tail = addrs.getLast?) {a : Addr} (ha : a ∉ addrs)
    (hne : a ≠ alloc b.mem.live) :
    (b.turn alloc w).mem.nextPremise a = b.mem.nextPremise a := by
  cases ht : b.tail with
  | none =>
    simp only [Build.turn, Build.append, ht, PremMem.alloc]
    exact Function.update_of_ne hne ..
  | some last =>
    have hlast : a ≠ last := fun he => ha (he ▸ List.mem_of_getLast? (h.symm.trans ht))
    simp only [Build.turn, Build.append, ht, PremMem.alloc, PremMem.setNext]
    rw [Function.update_of_ne hlast, Function.update_of_ne hne]

/-- **One turn** appends a Premise. -/
theorem Built.turn (halloc : ∀ live, alloc live ∉ live) (h : Built mem₀ b addrs ws) (w : Eterm) :
    Built mem₀ (b.turn alloc w) (addrs ++ [alloc b.mem.live]) (ws ++ [w]) := by
  have hprem : alloc b.mem.live ∉ b.mem.live := halloc _
  have hnot : alloc b.mem.live ∉ addrs := fun ha => hprem (h.chain.live _ ha)
  have hold : ∀ a ∈ b.mem.live, a ≠ alloc b.mem.live := fun a ha he => hprem (he ▸ ha)
  refine ⟨⟨turn_links w h.tail h.chain.links hnot, fun a ha => ?_, ?_⟩, ?_, ?_, ?_, fun a => ?_,
    fun a ha => ?_, fun a ha => ⟨?_, ?_⟩⟩
  · rw [turn_live, List.mem_cons]
    rcases List.mem_append.mp ha with ha | ha
    · exact .inr (h.chain.live a ha)
    · exact .inl (List.mem_singleton.mp ha)
  · rw [turn_live]
    exact List.nodup_cons.mpr ⟨hprem, h.chain.nodup⟩
  · rw [turn_tail, List.getLast?_concat]
  · have hsame : addrs.map (Function.update b.mem.premise (alloc b.mem.live)
        (initPremise w none b.idx)) = addrs.map b.mem.premise :=
      List.map_congr_left fun a ha =>
        Function.update_of_ne (hold a (h.chain.live a ha)) ..
    rw [turn_premise, List.map_append, hsame, h.premises, initAll_concat, List.map_singleton,
      Function.update_self, h.idx]
  · rw [turn_idx, h.idx, List.length_append, List.length_singleton]
  · rw [turn_live, List.mem_cons, h.live, List.mem_append, List.mem_singleton]
    tauto
  · rcases List.mem_append.mp ha with ha | ha
    · exact h.fresh a ha
    · obtain rfl := List.mem_singleton.mp ha
      exact fun hl => hprem ((h.live _).mpr (.inl hl))
  · rw [turn_premise, Function.update_of_ne (hold a ((h.live a).mpr (.inl ha)))]
    exact (h.old a ha).1
  · rw [turn_next_old w h.tail (fun hin => h.fresh a hin ha) (hold a ((h.live a).mpr (.inl ha)))]
    exact (h.old a ha).2

/-- **The loop** appends one for each element. -/
theorem Built.loop (halloc : ∀ live, alloc live ∉ live) (h : Built mem₀ b addrs ws)
    {l t : Eterm} {rest : List Eterm} (hl : Cells heap l rest t) {turns : ℕ}
    (hturns : rest.length < turns) :
    ∃ b' addrs', buildLoop heap alloc turns l b = some (t, b') ∧
      Built mem₀ b' addrs' (ws ++ rest) := by
  induction rest generalizing b addrs ws l turns with
  | nil =>
    obtain ⟨rfl, hl⟩ := hl
    obtain ⟨turns, rfl⟩ := Nat.exists_eq_succ_of_ne_zero (Nat.ne_of_gt hturns)
    refine ⟨b, addrs, ?_, by rwa [List.append_nil]⟩
    cases l with
    | list addr => cases hl
    | nonValue | immed _ | boxed _ => rfl
  | cons w rest ih =>
    obtain ⟨addr, rfl, rfl, hl⟩ := hl
    obtain ⟨turns, rfl⟩ := Nat.exists_eq_succ_of_ne_zero (Nat.ne_of_gt (Nat.zero_lt_of_lt hturns))
    obtain ⟨b', addrs', hrun, hb'⟩ := ih (h.turn halloc _) hl (Nat.lt_of_succ_lt_succ hturns)
    refine ⟨b', addrs', hrun, ?_⟩
    rwa [List.append_assoc] at hb'

end Building

/-! ## The call -/

/-- The Premises of the process are what they were, and nothing is left allocated. -/
structure Unchanged (p p' : PremState) (old : List Addr) : Prop where
  /-- the same list -/
  head : p'.ponPremises = p.ponPremises
  /-- with the same links -/
  chain : Chain p'.mem p'.ponPremises old
  /-- and the same fields -/
  premises : ∀ a ∈ old, p'.mem.premise a = p.mem.premise a
  /-- the blocks -/
  live : ∀ a, a ∈ p'.mem.live ↔ a ∈ p.mem.live

/-- The Premises of the process are those of `ws`, and the `old` ones are freed:
one for each element, in their order, without a match. -/
def Replaced (p p' : PremState) (old : List Addr) (ws : List Eterm) : Prop :=
  ∃ addrs, Chain p'.mem p'.ponPremises addrs ∧
    (addrs.map p'.mem.premise = ws.mapIdx fun i w => ⟨w, none, false, .nonValue, none, i⟩) ∧
    ∀ a, a ∈ p'.mem.live ↔ (a ∈ p.mem.live ∧ a ∉ old) ∨ a ∈ addrs

section Call

variable {heap : Heap} {alloc : List Addr → Addr} {p : PremState} {old : List Addr}

theorem Unchanged.refl (hp : Chain p.mem p.ponPremises old) : Unchanged p p old :=
  ⟨rfl, hp, fun _ _ => rfl, fun _ => Iff.rfl⟩

theorem built_start (hp : Chain p.mem p.ponPremises old) :
    Built p.mem ⟨p.mem, none, none, 0⟩ [] [] :=
  ⟨⟨rfl, fun a ha => (nomatch ha), hp.nodup⟩, rfl, rfl, rfl, fun a => by simp,
    fun a ha => (nomatch ha), fun _ _ => ⟨rfl, rfl⟩⟩

/-- The old Premises while the new ones are built. -/
theorem Built.old_chain {b : Build} {addrs : List Addr} {ws : List Eterm}
    (hb : Built p.mem b addrs ws) (hp : Chain p.mem p.ponPremises old) :
    Chain b.mem p.ponPremises old :=
  hp.congr (fun a ha => (hb.old a (hp.live a ha)).2)
    (fun a ha => (hb.live a).mpr (.inl (hp.live a ha))) hb.chain.nodup

/-- On a list that turns out improper, what was built is freed. -/
theorem Built.discard {b : Build} {addrs : List Addr} {ws : List Eterm}
    (hb : Built p.mem b addrs ws) (hp : Chain p.mem p.ponPremises old) {turns : ℕ}
    (hturns : addrs.length ≤ turns) :
    ∃ mem, freeLoop turns b.prems b.mem = some mem ∧ Unchanged p { p with mem := mem } old := by
  obtain ⟨mem, hrun, hpremise, hnext, hnd, hlive⟩ := hb.chain.freeLoop hturns
  have hkept : ∀ a, a ∈ mem.live ↔ a ∈ p.mem.live := by
    intro a
    rw [hlive, hb.live]
    constructor
    · rintro ⟨hold | hnew, hnot⟩
      · exact hold
      · exact absurd hnew hnot
    · exact fun hold => ⟨.inl hold, fun hnew => hb.fresh a hnew hold⟩
  refine ⟨mem, hrun, rfl, ?_, fun a ha => ?_, hkept⟩
  · refine (hb.old_chain hp).congr (fun a _ => congrFun hnext a) (fun a ha => ?_) hnd
    exact (hkept a).mpr (hp.live a ha)
  · exact (congrFun hpremise a).trans (hb.old a (hp.live a ha)).1

/-- On a proper list it takes the place of the old Premises, which are freed. -/
theorem Built.install {b : Build} {addrs : List Addr} {ws : List Eterm}
    (hb : Built p.mem b addrs ws) (hp : Chain p.mem p.ponPremises old) {turns : ℕ}
    (hturns : old.length ≤ turns) :
    ∃ p', ertsPonRegisterPremises turns b.prems { p with mem := b.mem } = some p' ∧
      Replaced p p' old ws := by
  obtain ⟨mem, hrun, hpremise, hnext, hnd, hlive⟩ := (hb.old_chain hp).freeLoop hturns
  have hkept : ∀ a, a ∈ mem.live ↔ (a ∈ p.mem.live ∧ a ∉ old) ∨ a ∈ addrs := by
    intro a
    rw [hlive, hb.live]
    constructor
    · rintro ⟨hold | hnew, hnot⟩
      · exact .inl ⟨hold, hnot⟩
      · exact .inr hnew
    · rintro (⟨hold, hnot⟩ | hnew)
      · exact ⟨.inl hold, hnot⟩
      · exact ⟨.inr hnew, fun ha => hb.fresh a hnew (hp.live a ha)⟩
  refine ⟨⟨mem, b.prems⟩, ?_, addrs, ?_, ?_, hkept⟩
  · rw [ertsPonRegisterPremises, hrun]
    rfl
  · exact hb.chain.congr (fun a _ => congrFun hnext a)
      (fun a ha => (hkept a).mpr (.inr ha)) hnd
  · exact (congrArg (List.map · addrs) hpremise).trans hb.premises

/-- **The call.** On a proper list that is not empty the Premises are replaced, one for each
element; on anything else it fails and the Premises are what they were. -/
theorem ponRegisterPremises1_spec (halloc : ∀ live, alloc live ∉ live)
    (hp : Chain p.mem p.ponPremises old) {list : Eterm} (hlist : IsTerm heap list) :
    ∃ ws t, Cells heap list ws t ∧ ∀ turns, ws.length + old.length < turns →
      ∃ r p', ponRegisterPremises1 heap alloc turns list p = some (r, p') ∧
        (ws ≠ [] ∧ t = nil → r = .amTrue ∧ Replaced p p' old ws) ∧
        (ws = [] ∨ t ≠ nil → r = .badarg ∧ Unchanged p p' old) := by
  obtain ⟨v, hv⟩ := hlist
  obtain ⟨ws, t, hcells⟩ := hv.cells
  refine ⟨ws, t, hcells, fun turns hturns => ?_⟩
  rw [ponRegisterPremises1]
  cases ws with
  | nil =>
    obtain ⟨-, hl⟩ := hcells
    rw [if_pos hl]
    exact ⟨_, _, rfl, fun h => absurd rfl h.1, fun _ => ⟨rfl, .refl hp⟩⟩
  | cons w ws =>
    have hl : list.isList ≠ false := by
      obtain ⟨addr, rfl, -⟩ := hcells
      exact Bool.noConfusion
    have hlt : (w :: ws).length < turns := Nat.lt_of_le_of_lt (Nat.le_add_right ..) hturns
    have hold : old.length ≤ turns := by omega
    obtain ⟨b, addrs, hrun, hb⟩ := (built_start hp).loop halloc hcells hlt
    rw [List.nil_append] at hb
    rw [if_neg hl, hrun]
    by_cases ht : t = nil
    · obtain ⟨p', hinstall, hreplaced⟩ := hb.install hp hold
      refine ⟨.amTrue, p', ?_, fun _ => ⟨rfl, hreplaced⟩, fun h => ?_⟩
      · simp only [if_neg (not_not.mpr ht), hinstall, Option.map_some]
      · exact h.elim (fun h => nomatch h) fun h => absurd ht h
    · have hlen : addrs.length = (w :: ws).length := by
        have hlen := congrArg List.length hb.premises
        rwa [List.length_map, initAll, List.length_mapIdx] at hlen
      have hnew : addrs.length ≤ turns := by omega
      obtain ⟨mem, hfree, hunchanged⟩ := hb.discard hp hnew
      refine ⟨.badarg, _, ?_, fun h => absurd h.2 ht, fun _ => ⟨rfl, hunchanged⟩⟩
      simp only [if_pos ht, hfree, Option.map_some]

end Call

/-- `[1, 2]`, and `[1 | 2]` at the address 32. -/
def twoLists : Heap where
  cell := fun addr =>
    if addr = 0 then (makeSmall 1, .list 16)
    else if addr = 16 then (makeSmall 2, nil)
    else (makeSmall 1, makeSmall 2)
  boxed := fun _ => .tuple []

/-- A block past all others. -/
def allocPast (live : List Addr) : Addr := live.foldr (fun a b => max (a + 1) b) 0

theorem allocPast_fresh (live : List Addr) : allocPast live ∉ live := by
  have hlt : ∀ a ∈ live, a < allocPast live := by
    intro a ha
    induction live with
    | nil => cases ha
    | cons b live ih =>
      rcases List.mem_cons.mp ha with rfl | ha
      · exact Nat.le_max_left ..
      · exact Nat.lt_of_lt_of_le (ih ha) (Nat.le_max_right ..)
  exact fun h => Nat.lt_irrefl _ (hlt _ h)

/-- A process with one Premise, that has a match. -/
def onePremise : PremState where
  mem := ⟨fun _ => ⟨makeSmall 7, none, true, makeSmall 7, some 0, 0⟩, fun _ => none, [0]⟩
  ponPremises := some 0

theorem onePremise_chain : Chain onePremise.mem onePremise.ponPremises [0] :=
  ⟨⟨rfl, rfl⟩, by decide, by decide⟩

/-- The empty list is refused. -/
theorem empty_list_refused :
    ¬∀ (heap : Heap) (alloc : List Addr → Addr) (p : PremState) (old : List Addr) (list : Eterm)
      (ws : List Eterm), (∀ live, alloc live ∉ live) → Chain p.mem p.ponPremises old →
      IsTerm heap list → Cells heap list ws nil → ∃ turns p',
        ponRegisterPremises1 heap alloc turns list p = some (.amTrue, p') := by
  intro h
  obtain ⟨turns, p', hrun⟩ := h twoLists allocPast onePremise [0] nil [] allocPast_fresh
    onePremise_chain ⟨_, .immed _⟩ ⟨rfl, rfl⟩
  cases hrun

/-- Two Premises take the place of one. -/
theorem onePremise_replaced :
    ∃ ws t, Cells twoLists (.list 0) ws t ∧ ∀ turns, ws.length + 1 < turns →
      ∃ r p', ponRegisterPremises1 twoLists allocPast turns (.list 0) onePremise = some (r, p') ∧
        (ws ≠ [] ∧ t = nil → r = .amTrue ∧ Replaced onePremise p' [0] ws) := by
  have hlist : IsTerm twoLists (.list 0) :=
    ⟨_, .list (.immed _) (.list (.immed _) (.immed _))⟩
  obtain ⟨ws, t, hcells, hcall⟩ :=
    ponRegisterPremises1_spec allocPast_fresh onePremise_chain hlist
  refine ⟨ws, t, hcells, fun turns hturns => ?_⟩
  obtain ⟨r, p', hrun, htrue, -⟩ := hcall turns hturns
  exact ⟨r, p', hrun, htrue⟩

end PonBeam.Premise
