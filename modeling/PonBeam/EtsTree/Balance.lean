import PonBeam.EtsTree.Linked

/-!
# The loops of an insertion and a deletion

The loops do in memory what `grown`, `shrunk` and the walks to the root and to a key do with
the tree.
-/

namespace PonBeam.EtsTree

variable {Key Obj : Type} {d : Side} {c : Cell Obj} {s t t' : BinaryTree (Cell Obj)}
  {tb : DbTableTree Obj} {fs gs : List (Frame (Cell Obj))} {state : Bool}

/-! ## One turn -/

theorem Linked.setBalance (h : Linked tb fs (d.join c s t)) (b : ℤ) :
    ∃ tb', tb.modify c.item.1 (fun n => n.setBalance b) = some tb' ∧
      Linked tb' fs (d.join (c.tilt b) s t) ∧ Kept tb tb' := by
  obtain ⟨hc, hs, ht⟩ := holds_join.1 h.sub
  have hnd := (List.nodup_append.1 h.nodup).2.1
  rw [addrs_join_perm.nodup_iff, List.nodup_cons, List.mem_append, not_or] at hnd
  obtain ⟨⟨hcs, hct⟩, -⟩ := hnd
  have haddrs : addrs (d.join (c.tilt b) s t) = addrs (d.join c s t) :=
    addrs_congr (by simp)
  refine ⟨_, modify_eq hc, ⟨?_, ?_, haddrs ▸ h.nodup⟩, kept_write hc (by simp)⟩
  · have hpath := h.path
    rw [ptr_join] at hpath ⊢
    refine hpath.congr fun a ha => write_heap_of_ne ?_
    rintro rfl
    exact h.not_outer (mem_addrs_join.2 (Or.inl rfl)) ha
  · rw [nodeOf_setBalance, holds_join]
    exact ⟨write_heap_self, hs.write hcs, ht.write hct⟩

/-- **One turn after an insertion.** -/
theorem putTurn_spec (h : Linked tb fs (d.join c s t)) (hg : grown d c s t = some (t', state)) :
    ∃ tb', tb.putTurn d (placeOf fs) = some (tb', state) ∧ Linked tb' fs t' ∧ Kept tb tb' := by
  simp only [DbTableTree.putTurn, h.get_eq, ptr_join, h.heap_eq, Option.bind_eq_bind,
    Option.bind_some, nodeOf_balance, nodeOf_child]
  rw [grown] at hg
  split_ifs at hg ⊢ with h1 h2 h3
  · cases hg
    obtain ⟨tb', heq, hlinked, hkept⟩ := h.setBalance 0
    exact ⟨tb', by rw [heq]; rfl, hlinked, hkept⟩
  · cases hg
    obtain ⟨tb', heq, hlinked, hkept⟩ := h.setBalance d.sgn
    exact ⟨tb', by rw [heq]; rfl, hlinked, hkept⟩
  · by_cases hs : s = .nil
    · subst hs
      simp at hg
    obtain ⟨c₁, x, y, rfl⟩ := d.eq_join hs
    have hc₁ := (holds_join.1 (holds_join.1 h.sub).2.1).1
    simp only [Side.split_join] at hg
    simp only [ptr_join, hc₁, Option.bind_some, nodeOf_balance]
    split_ifs at hg ⊢ with h4
    · cases hg
      obtain ⟨tb', heq, hlinked, hkept⟩ := h.singleRotation 0 0
      exact ⟨tb', by rw [heq]; rfl, hlinked, hkept⟩
    · by_cases hy : y = .nil
      · subst hy
        simp at hg
      obtain ⟨c₂, y, z, rfl⟩ := d.eq_join hy
      rw [Side.split_join] at hg
      cases hg
      obtain ⟨tb', heq, hlinked, hkept⟩ := h.doubleRotation
      exact ⟨tb', by rw [heq]; rfl, hlinked, hkept⟩
  · cases hg
    exact ⟨tb, rfl, h, Kept.refl tb⟩

/-- **One turn after a deletion.** -/
theorem treeBalance_spec (h : Linked tb fs (d.join c s t))
    (hg : shrunk d c s t = some (t', state)) :
    ∃ tb', tb.treeBalance d (placeOf fs) = some (tb', state) ∧ Linked tb' fs t' ∧
      Kept tb tb' := by
  simp only [DbTableTree.treeBalance, h.get_eq, ptr_join, h.heap_eq, Option.bind_eq_bind,
    Option.bind_some, nodeOf_balance, nodeOf_child_other]
  rw [shrunk] at hg
  split_ifs at hg ⊢ with h1 h2 h3
  · cases hg
    obtain ⟨tb', heq, hlinked, hkept⟩ := h.setBalance 0
    exact ⟨tb', by rw [heq]; rfl, hlinked, hkept⟩
  · cases hg
    obtain ⟨tb', heq, hlinked, hkept⟩ := h.setBalance (-d.sgn)
    exact ⟨tb', by rw [heq]; rfl, hlinked, hkept⟩
  · by_cases ht : t = .nil
    · subst ht
      simp at hg
    obtain ⟨c₁, x, y, rfl⟩ := d.other.eq_join ht
    have hc₁ := (holds_join.1 (holds_join.1 h.sub).2.2).1
    rw [← Side.join_other] at h
    simp only [Side.split_join] at hg
    simp only [ptr_join, hc₁, Option.bind_some, nodeOf_balance]
    split_ifs at hg ⊢ with h4 h5
    · cases hg
      obtain ⟨tb', heq, hlinked, hkept⟩ := h.singleRotation d.other.sgn (-d.other.sgn)
      exact ⟨tb', by rw [heq]; rfl, hlinked, hkept⟩
    · cases hg
      obtain ⟨tb', heq, hlinked, hkept⟩ := h.singleRotation 0 0
      exact ⟨tb', by rw [heq]; rfl, hlinked, hkept⟩
    · by_cases hy : y = .nil
      · subst hy
        simp at hg
      obtain ⟨c₂, y, z, rfl⟩ := d.other.eq_join hy
      rw [Side.split_join] at hg
      cases hg
      obtain ⟨tb', heq, hlinked, hkept⟩ := h.doubleRotation
      exact ⟨tb', by rw [heq]; rfl, hlinked, hkept⟩
  · cases hg
    exact ⟨tb, rfl, h, Kept.refl tb⟩

/-! ## To the root -/

/-- **The loop after an insertion.** -/
theorem putLoop_spec (h : Linked tb fs t) (hg : regrow fs t = some t') :
    ∃ tb', tb.putLoop (pathOf fs) = some tb' ∧ Linked tb' [] t' ∧ Kept tb tb' := by
  induction fs generalizing tb t with
  | nil =>
    cases hg
    exact ⟨tb, rfl, h, Kept.refl tb⟩
  | cons f fs ih =>
    rw [regrow] at hg
    cases hgrown : grown f.side f.label t f.sibling with
    | none => simp [hgrown] at hg
    | some r =>
      obtain ⟨t₁, state⟩ := r
      rw [hgrown] at hg
      obtain ⟨tb₁, hturn, hlinked, hkept⟩ := putTurn_spec (Linked.attach_iff.1 h) hgrown
      rw [pathOf, DbTableTree.putLoop, hturn]
      cases state with
      | true =>
        obtain ⟨tb', heq, hlinked', hkept'⟩ := ih hlinked (by simpa using hg)
        exact ⟨tb', by simpa using heq, hlinked', hkept.trans hkept'⟩
      | false =>
        cases hg
        exact ⟨tb₁, by simp, Linked.plug_iff.1 hlinked, hkept⟩

theorem balanceTurn_eq (tb : DbTableTree Obj) (d : Side) (this : Place) :
    tb.balanceTurn d this = tb.treeBalance d this := by
  cases d <;> rfl

/-- The loop after a deletion, as far as to the frames `fs`. -/
theorem balanceLoop_spec (gs : List (Frame (Cell Obj))) (h : Linked tb (gs ++ fs) t)
    (hg : reshrink gs t = some (t', state)) :
    ∃ tb', tb.balanceLoop ((pathOf (gs ++ fs)).take gs.length) = some (tb', state) ∧
      Linked tb' fs t' ∧ Kept tb tb' := by
  induction gs generalizing tb t with
  | nil =>
    cases hg
    exact ⟨tb, rfl, h, Kept.refl tb⟩
  | cons g gs ih =>
    rw [reshrink] at hg
    cases hshrunk : shrunk g.side g.label t g.sibling with
    | none => simp [hshrunk] at hg
    | some r =>
      obtain ⟨t₁, state₁⟩ := r
      rw [hshrunk] at hg
      rw [List.cons_append] at h
      obtain ⟨tb₁, hturn, hlinked, hkept⟩ := treeBalance_spec (Linked.attach_iff.1 h) hshrunk
      rw [List.cons_append, pathOf, List.length_cons, List.take_succ_cons,
        DbTableTree.balanceLoop, balanceTurn_eq, hturn]
      cases state₁ with
      | true =>
        obtain ⟨tb', heq, hlinked', hkept'⟩ := ih hlinked (by simpa using hg)
        exact ⟨tb', by simpa using heq, hlinked', hkept.trans hkept'⟩
      | false =>
        simp only [Bool.false_eq_true, if_false, Option.some.injEq, Prod.mk.injEq] at hg
        obtain ⟨rfl, rfl⟩ := hg
        refine ⟨tb₁, by simp, ?_, hkept⟩
        rw [Linked.plug_iff, ← plug_append]
        exact Linked.plug_iff.1 hlinked

end PonBeam.EtsTree
