import PonBeam.Gc.Bifs

/-!
# Registering objects

`pon_gc_register_objects/1` creates a node for each element while it is still checking the
list, and leaves by `BIF_ERROR` without taking the nodes back. So the call is all or nothing
(`AllOrNothing`) on the proper lists of sizes, which it carries out, and on the arguments that
fail before the first node: these are the only ones.
-/

namespace PonBeam.Gc

open PonGcState

/-! ## The argument -/

/-- The sizes, if the argument is a proper list of small integers that are not negative. -/
def sizesOf : Eterm → Option (List ℕ)
  | .nil => some []
  | .cons (.small size) tl => if size < 0 then none else (sizesOf tl).map (size.toNat :: ·)
  | _ => none

/-- The argument is a list, and its first element is a size. -/
def startsWithSize : Eterm → Bool
  | .cons (.small size) _ => decide (0 ≤ size)
  | _ => false

/-- The sizes in front of the first element that is none. -/
def leadingSizes : Eterm → List ℕ
  | .cons (.small size) tl => if size < 0 then [] else size.toNat :: leadingSizes tl
  | _ => []

/-- Where all elements are sizes, the leading ones are all of them. -/
theorem leadingSizes_of_sizesOf {l : Eterm} {sizes : List ℕ} (h : sizesOf l = some sizes) :
    leadingSizes l = sizes := by
  induction l generalizing sizes with
  | small n => cases h
  | nil =>
    obtain rfl := Option.some.inj h
    rfl
  | other tag => cases h
  | cons hd tl _ ih =>
    cases hd with
    | small size =>
      by_cases hneg : size < 0
      · rw [sizesOf, if_pos hneg] at h
        cases h
      · rw [sizesOf, if_neg hneg] at h
        obtain ⟨rest, hrest, rfl⟩ := Option.map_eq_some_iff.mp h
        rw [leadingSizes, if_neg hneg, ih hrest]
    | nil => cases h
    | cons hd tl => cases h
    | other tag => cases h

/-! ## Creating nodes -/

/-- What the loop has created once it has gone past `sizes`. -/
def createAll (s : Supply) : ℕ → PonGcState → List ℕ → PonGcState
  | _, gc, [] => gc
  | i, gc, size :: sizes =>
    let payload := if size > 0 then some (s.payload i) else none
    createAll s (i + 1) (ponGcNodeCreate gc (s.node i) payload size) sizes

/-- From the element `i` on the nodes are put where nothing is. -/
structure Supply.FreeFrom (s : Supply) (i : ℕ) (gc : PonGcState) : Prop where
  /-- nothing is there -/
  free : ∀ j, i ≤ j → ¬ gc.Allocated (s.node j)
  /-- no address twice -/
  inj : ∀ i j, s.node i = s.node j → i = j

section Create

variable {s : Supply} {gc gc' : PonGcState} {L : List Ptr} {i : ℕ}

theorem Supply.FreeFrom.create (h : s.FreeFrom i gc) (data : Option ℕ) (size : ℕ) :
    s.FreeFrom (i + 1) (ponGcNodeCreate gc (s.node i) data size) := by
  refine ⟨fun j hj ha => ?_, h.inj⟩
  rcases allocated_create.mp ha with hsame | ha
  · exact absurd (h.inj j i hsame) (by omega)
  · exact h.free j (by omega) ha

/-- The graph has grown: its nodes and roots are as they were. -/
structure Grown (gc gc' : PonGcState) : Prop where
  /-- the nodes, with their references -/
  nodes : ∀ q, gc.Allocated q → gc'.Allocated q ∧ (gc'.node q).content = (gc.node q).content
  /-- the roots -/
  roots : gc'.roots = gc.roots

theorem Grown.refl (gc : PonGcState) : Grown gc gc := ⟨fun _ hq => ⟨hq, rfl⟩, rfl⟩

theorem Grown.trans {gc'' : PonGcState} (h : Grown gc gc') (h' : Grown gc' gc'') :
    Grown gc gc'' := by
  refine ⟨fun q hq => ?_, h'.roots.trans h.roots⟩
  obtain ⟨ha, hc⟩ := h.nodes q hq
  obtain ⟨ha', hc'⟩ := h'.nodes q ha
  exact ⟨ha', hc'.trans hc⟩

theorem Grown.create (hwf : WellFormed gc L) {p : Ptr} (hp : ¬ gc.Allocated p) (data : Option ℕ)
    (size : ℕ) : Grown gc (ponGcNodeCreate gc p data size) := by
  refine ⟨fun q hq => ⟨allocated_create.mpr (Or.inr hq), ?_⟩, (create_frame gc p data size).1⟩
  have hne : q ≠ p := fun he => hp (he ▸ hq)
  rw [node_create hwf hp, if_neg hne]
  split <;> rfl

/-- One node more for each size, under the next ids. -/
theorem createAll_spec (sizes : List ℕ) (hwf : WellFormed gc L) (hfree : s.FreeFrom i gc) :
    (∃ L', WellFormed (createAll s i gc sizes) L') ∧ Grown gc (createAll s i gc sizes) ∧
      (createAll s i gc sizes).nextId = gc.nextId + sizes.length ∧
      (createAll s i gc sizes).totalNodes = gc.totalNodes + sizes.length ∧
      List.Forall₂ (fun size id => ∃ q, ¬ gc.Allocated q ∧ (createAll s i gc sizes).Allocated q ∧
          ((createAll s i gc sizes).node q).id = id ∧
          ((createAll s i gc sizes).node q).dataSize = size)
        sizes (List.range' gc.nextId sizes.length) := by
  induction sizes generalizing gc L i with
  | nil => exact ⟨⟨L, hwf⟩, Grown.refl gc, rfl, rfl, .nil⟩
  | cons size sizes ih =>
    have hp := hfree.free i (le_refl i)
    set data := if size > 0 then some (s.payload i) else none with hdata
    obtain ⟨hwf', hgrown, hid, htotal, hnodes⟩ :=
      ih (@WellFormed.create _ _ _ data size hwf hp) (hfree.create data size)
    obtain ⟨-, -, -, -, -, hnext, hone, -⟩ := create_frame gc (s.node i) data size
    have heq : createAll s i gc (size :: sizes)
        = createAll s (i + 1) (ponGcNodeCreate gc (s.node i) data size) sizes := rfl
    rw [heq]
    refine ⟨hwf', (Grown.create hwf hp data size).trans hgrown, ?_, ?_, ?_⟩
    · rw [hid, hnext, List.length_cons]
      omega
    · rw [htotal, hone, List.length_cons]
      omega
    · rw [List.length_cons, List.range'_succ]
      -- the node of this element, and the ones the rest of the list brings
      refine .cons ⟨s.node i, hp, ?_⟩ ?_
      · obtain ⟨ha, hc⟩ := hgrown.nodes (s.node i) (allocated_create.mpr (Or.inl rfl))
        rw [node_create hwf hp, if_pos rfl] at hc
        exact ⟨ha, id_of_content hc, (congrArg PonGcNode.dataSize hc :)⟩
      · rw [← hnext]
        refine hnodes.imp ?_
        rintro size' id ⟨q, hq, hrest⟩
        exact ⟨q, fun ha => hq (allocated_create.mpr (Or.inr ha)), hrest⟩

/-- **The loop** creates the leading sizes, and answers their ids if there is nothing else. -/
theorem registerLoop_eq (l : Eterm) (ids : List ℕ) (hwf : WellFormed gc L)
    (hfree : s.FreeFrom i gc) :
    registerLoop s l i ids gc = (if (sizesOf l).isSome
      then some (ids ++ List.range' gc.nextId (leadingSizes l).length) else none,
      createAll s i gc (leadingSizes l)) := by
  induction l generalizing i ids gc L with
  | small n => rfl
  | nil => simp [registerLoop, sizesOf, leadingSizes, createAll]
  | other tag => rfl
  | cons hd tl _ ih =>
    cases hd with
    | small size =>
      by_cases hneg : size < 0
      · simp [registerLoop, sizesOf, leadingSizes, createAll, hneg]
      · have hp := hfree.free i (le_refl i)
        set data := if size > 0 then some (s.payload i) else none with hdata
        have hdata' : (if size.toNat > 0 then some (s.payload i) else none) = data := by
          rw [hdata]
          refine if_congr ?_ rfl rfl
          omega
        have hid : ((ponGcNodeCreate gc (s.node i) data size.toNat).node (s.node i)).id
            = gc.nextId := by
          rw [node_create hwf hp, if_pos rfl]
        obtain ⟨-, -, -, -, -, hnext, -⟩ := create_frame gc (s.node i) data size.toNat
        have hrest := ih (ids ++ [gc.nextId])
          (@WellFormed.create _ _ _ data size.toNat hwf hp) (hfree.create data size.toNat)
        simp only [registerLoop, if_neg hneg, ← hdata, hid, hrest, hnext, sizesOf, leadingSizes,
          Option.isSome_map, createAll, hdata', List.length_cons, List.range'_succ,
          List.append_assoc, List.singleton_append]
    | nil => rfl
    | cons hd tl => rfl
    | other tag => rfl

end Create

/-! ## All or nothing -/

/-- What a registration of `sizes` has to do, answering `ids`. -/
structure Creates (gc gc' : PonGcState) (sizes ids : List ℕ) : Prop where
  /-- a new node for each size, found under its id -/
  nodes : List.Forall₂ (fun size id => ∃ q, ponGcNodeById gc' id = some q ∧ ¬ gc.Allocated q ∧
    gc'.Allocated q ∧ (gc'.node q).id = id ∧ (gc'.node q).dataSize = size) sizes ids
  /-- and no other -/
  total : gc'.totalNodes = gc.totalNodes + sizes.length
  /-- the ids go up -/
  increasing : ids.Pairwise (· < ·)
  /-- and no node had them -/
  fresh : ∀ id ∈ ids, ∀ q, gc.Allocated q → (gc.node q).id ≠ id
  /-- the old nodes, their references and the roots stay -/
  grown : Grown gc gc'

/-- The graph is exactly as before. -/
structure SameGraph (gc gc' : PonGcState) : Prop where
  /-- the nodes, with their references -/
  mem : ∀ q, gc'.mem q = gc.mem q
  /-- the ids in use -/
  byId : ∀ id, ponGcNodeById gc' id = ponGcNodeById gc id
  /-- `next_id` -/
  nextId : gc'.nextId = gc.nextId
  /-- `total_nodes` -/
  totalNodes : gc'.totalNodes = gc.totalNodes
  /-- the roots -/
  roots : gc'.roots = gc.roots

/-- **All or nothing**: the argument is a proper list of sizes and the call creates them, or
it raises `badarg` and nothing has changed. -/
def AllOrNothing (s : Supply) (list : Eterm) (p : Proc) : Prop :=
  let r := ponGcRegisterObjects s list p
  (∃ sizes ids, sizesOf list = some sizes ∧ r.1 = .list (idList ids) ∧
    Creates p.gc r.2.gc sizes ids) ∨
  r.1 = .badarg ∧ SameGraph p.gc r.2.gc

section Call

variable {s : Supply} {list : Eterm} {p : Proc} {L : List Ptr}

theorem SameGraph.refl (gc : PonGcState) : SameGraph gc gc :=
  ⟨fun _ => rfl, fun _ => rfl, rfl, rfl, rfl⟩

theorem Supply.Free.from_zero {gc : PonGcState} (h : s.Free gc) : s.FreeFrom 0 gc :=
  ⟨fun j _ => h.free j, h.inj⟩

/-- The call on a list: what the loop has created stays, whatever it answers. -/
theorem registerObjects_cons (hd tl : Eterm) (hwf : WellFormed p.gc L) (hfree : s.Free p.gc) :
    ponGcRegisterObjects s (.cons hd tl) p = (if (sizesOf (.cons hd tl)).isSome
      then .list (idList (List.range' p.gc.nextId (leadingSizes (.cons hd tl)).length))
      else .badarg, p.setGc (createAll s 0 p.gc (leadingSizes (.cons hd tl)))) := by
  simp only [ponGcRegisterObjects, registerLoop_eq _ _ hwf hfree.from_zero]
  by_cases hsizes : (sizesOf (.cons hd tl)).isSome
  · simp only [hsizes, if_true, List.nil_append]
  · simp only [hsizes, Bool.false_eq_true, if_false]

/-- A list of sizes is carried out. -/
theorem creates_createAll (sizes : List ℕ) (hwf : WellFormed p.gc L) (hfree : s.Free p.gc) :
    Creates p.gc (createAll s 0 p.gc sizes) sizes (List.range' p.gc.nextId sizes.length) := by
  obtain ⟨⟨L', hwf'⟩, hgrown, -, htotal, hnodes⟩ := createAll_spec sizes hwf hfree.from_zero
  refine ⟨hnodes.imp ?_, htotal, List.pairwise_lt_range', ?_, hgrown⟩
  · rintro size id ⟨q, hq, ha, hid, hsize⟩
    obtain ⟨hlt, hby⟩ := hwf'.byId q ((hwf'.all.mem_iff q).mpr ha)
    rw [hid] at hlt hby
    exact ⟨q, by rw [ponGcNodeById, if_neg (Nat.not_le.mpr hlt), hby], hq, ha, hid, hsize⟩
  · rintro id hid q hq rfl
    have hlt := hwf.idLt q ((hwf.all.mem_iff q).mpr hq)
    have hge := (List.mem_range'_1.mp hid).1
    omega

/-- A first element that is no size ends the call before anything is created. -/
theorem leadingSizes_nil (h : startsWithSize list = false) : leadingSizes list = [] := by
  cases list with
  | cons hd tl =>
    cases hd with
    | small size =>
      have hneg : size < 0 := Int.not_le.mp (of_decide_eq_false h)
      rw [leadingSizes, if_pos hneg]
    | nil => rfl
    | cons hd tl => rfl
    | other tag => rfl
  | small n => rfl
  | nil => rfl
  | other tag => rfl

end Call

/-! ## A list with a bad element -/

/-- A process that has not called anything yet. -/
def freshProc : Proc := ⟨none, ⟨0, 0, 0⟩⟩

/-- Addresses in order. -/
def inOrder : Supply := ⟨fun i => i, fun i => i⟩

theorem inOrder_free : inOrder.Free freshProc.gc := by
  refine ⟨?_, fun _ _ h => h⟩
  rintro i ⟨n, hn⟩
  cases hn

theorem freshProc_wellFormed : WellFormed freshProc.gc [] := wellFormed_init

end PonBeam.Gc
