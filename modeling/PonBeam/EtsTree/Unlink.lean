import PonBeam.EtsTree.Balance

/-!
# Taking a node out

`delsub` walks to the last node `p` of the left child of `*this`, hangs it into the place of
the node `q` there, and its left child into its own place. From then on the memory holds the
frames that were walked above the node `p` in the place of `q`, so that the loops for the path
that was walked and for the stack of the caller are one walk to the root.
-/

namespace PonBeam.EtsTree

variable {Key Obj : Type} {c b : Cell Obj} {s t t' x l r : BinaryTree (Cell Obj)}
  {tb : DbTableTree Obj} {fs gs : List (Frame (Cell Obj))} {state : Bool}

/-- The places on the stack of `delsub`. -/
def tstackOf (gs fs : List (Frame (Cell Obj))) : List Place :=
  ((pathOf (gs ++ fs)).take gs.length).map Prod.snd

theorem tstackOf_cons {g : Frame (Cell Obj)} :
    tstackOf (g :: gs) fs = placeOf (gs ++ fs) :: tstackOf gs fs := rfl

/-- **The walk to the last node.** -/
theorem delsubWalk_spec {room : ℕ} (h : Linked tb (gs ++ fs) (.node c l r))
    (hroom : r.height ≤ room) :
    tb.delsubWalk room (placeOf (gs ++ fs)) (tstackOf gs fs) =
        some (placeOf ((rightmost gs c l r).1 ++ fs), tstackOf (rightmost gs c l r).1 fs) ∧
      Linked tb ((rightmost gs c l r).1 ++ fs)
        (.node (rightmost gs c l r).2.1 (rightmost gs c l r).2.2 .nil) := by
  induction r generalizing gs c l room with
  | nil =>
    have hnode := (holds_join (d := .left)).1 h.sub |>.1
    refine ⟨?_, h⟩
    rw [DbTableTree.delsubWalk, h.get_eq]
    simp [ptr, hnode, nodeOf, rightmost]
  | node b l' r' _ ih =>
    have hnode := (holds_join (d := .left)).1 h.sub |>.1
    cases room with
    | zero => simp at hroom
    | succ room =>
      have hnext : Linked tb ((⟨.right, c, l⟩ :: gs) ++ fs) (.node b l' r') :=
        Linked.attach_iff.2 h
      have hroom' : r'.height ≤ room := by
        rw [BinaryTree.height] at hroom
        omega
      obtain ⟨hwalk, hlinked⟩ := ih hnext hroom'
      refine ⟨?_, hlinked⟩
      rw [rightmost, ← hwalk, tstackOf_cons, DbTableTree.delsubWalk, h.get_eq]
      simp [ptr, hnode, nodeOf, placeOf]

/-- The bottom of the stack is patched: the node there has another address. -/
theorem patchBottom_eq {f f' : Frame (Cell Obj)} (hgs : ∀ g ∈ gs, g.side = .right) :
    (DbTableTree.patchBottom (tstackOf gs (f :: fs)) (placeOf (f' :: fs))).map (fun r => (Side.right, r)) =
      (pathOf (gs ++ f' :: fs)).take gs.length := by
  induction gs with
  | nil => rfl
  | cons g gs ih =>
    have hside := hgs g List.mem_cons_self
    have ih' := ih fun g hg => hgs g (List.mem_cons_of_mem _ hg)
    cases gs with
    | nil => simp [tstackOf, DbTableTree.patchBottom, pathOf, hside]
    | cons g' gs =>
      rw [List.cons_append, pathOf, List.length_cons, List.take_succ_cons, ← ih', hside,
        tstackOf_cons, DbTableTree.patchBottom, if_neg (by simp), DbTableTree.patchBottom, if_neg (by simp [tstackOf_cons]),
        List.dropLast_cons_of_ne_nil (by simp [tstackOf_cons])]
      rfl

/-- The items without a node whose place the last node of its left child has taken. -/
theorem nodup_replaced (hgs : Frame.after gs = [])
    (hnd : (addrs (plug fs (.node c (plug gs (.node b x .nil)) r))).Nodup) {n : ℤ} :
    (outer (gs ++ ⟨.left, b.tilt n, r⟩ :: fs) ++ addrs x).Nodup := by
  rw [← (addrs_plug_perm _ _).nodup_iff, plug_append, plug_cons]
  refine hnd.sublist ?_
  rw [addrs, addrs, items_plug, items_plug, Frame.attach, Side.join, items_node, items_node,
    items_plug_last hgs]
  refine List.Sublist.map _ (List.Sublist.append_left (List.Sublist.append_right ?_ _) _)
  rw [List.append_assoc]
  exact List.Sublist.append_left ((List.sublist_cons_self ..).cons_cons _) _

/-- The parts of a tree with a place in the left child of a place. -/
theorem addrs_parts_perm (fs gs : List (Frame (Cell Obj))) :
    (addrs (plug fs (.node c (plug gs (.node b x .nil)) r))).Perm
      (outer fs ++ (c.item.1 :: (addrs r ++ (outer gs ++ (b.item.1 :: addrs x))))) := by
  refine (addrs_plug_perm fs _).trans (List.Perm.append_left _ ?_)
  refine addrs_node_perm.trans (List.Perm.cons _ ?_)
  refine List.perm_append_comm.trans (List.Perm.append_left _ ?_)
  refine (addrs_plug_perm gs _).trans (List.Perm.append_left _ ?_)
  simpa using addrs_node_perm (c := b) (s := x) (t := .nil)

/-- **The last node of the left child of `c` takes its place.** -/
theorem hook_spec (h : Linked tb (gs ++ ⟨.left, c, r⟩ :: fs) (.node b x .nil))
    (hgs : Frame.after gs = []) :
    ∃ tb₁ tb₂ tb₃ n nc, tb.set (some b.item.1) (placeOf fs) = some tb₁ ∧
      tb₁.heap b.item.1 = some n ∧
      tb₁.set n.left (placeOf (gs ++ ⟨.left, c, r⟩ :: fs)) = some tb₂ ∧
      tb₂.heap c.item.1 = some nc ∧
      tb₂.modify b.item.1 (fun n =>
        { n with left := nc.left, right := nc.right, balance := nc.balance }) = some tb₃ ∧
      Linked tb₃ (gs ++ ⟨.left, b.tilt c.balance, r⟩ :: fs) x ∧ Kept tb tb₃ := by
  have hnodup : (addrs (plug fs (.node c (plug gs (.node b x .nil)) r))).Nodup := by
    have := h.nodup_plug
    rwa [plug_append, plug_cons] at this
  -- no two parts share an address
  have hparts := (addrs_parts_perm fs gs).nodup_iff.1 hnodup
  simp only [List.nodup_append, List.nodup_cons, List.mem_append, List.mem_cons, not_or] at hparts
  obtain ⟨houter, ⟨⟨hcr, hcgs, hcb, hcx⟩, hrn, ⟨hgsn, ⟨hbx, -⟩, hgsbx⟩, hrin⟩, hdisj⟩ := hparts
  -- the memory before
  obtain ⟨top, hlow, hc, hsib, hhigh⟩ := holdsPath_append.1 h.path
  obtain ⟨hnode, hx, -⟩ := (holds_join (d := .left)).1 h.sub
  simp only [ptr_nil] at hc hsib hhigh hnode
  -- the place of `c`
  obtain ⟨tb₁, hset₁, hhigh₁, hkept₁, hheap₁⟩ := hhigh.set houter (some b.item.1)
  have hb₁ : tb₁.heap b.item.1 = some (nodeOf .left b (ptr x) none) := by
    rw [hheap₁ _ fun ha => hdisj _ ha _ (by simp) rfl, hnode]
  have hlow₁ : HoldsPath tb₁.heap (some c.item.1) (gs ++ [⟨.left, c, r⟩]) (some b.item.1) := by
    refine holdsPath_append.2 ⟨top, hlow.congr fun a ha => ?_, ?_, hsib.congr fun a ha => ?_, rfl⟩
    · exact hheap₁ a fun ha' => hdisj _ ha' _ (by simp [ha]) rfl
    · rw [hheap₁ _ fun ha => hdisj _ ha _ (by simp) rfl, hc]
    · exact hheap₁ a fun ha' => hdisj _ ha' _ (by simp [ha]) rfl
  -- the place of `b`, the child of a node of `gs` or of `c`
  obtain ⟨f, fs', hf, hfmem⟩ : ∃ f fs', gs ++ [⟨.left, c, r⟩] = f :: fs' ∧
      (f.label.item.1 ∈ outer gs ∨ f.label.item.1 = c.item.1) := by
    cases gs with
    | nil => exact ⟨_, _, rfl, Or.inr rfl⟩
    | cons g gs => exact ⟨g, _, rfl, Or.inl (mem_outer_cons.2 (Or.inl rfl))⟩
  have hplace : placeOf (gs ++ ⟨.left, c, r⟩ :: fs) = placeOf (f :: fs') := by
    rw [← hf]
    cases gs <;> rfl
  have hfs' : (outer (f :: fs')).Nodup := by
    rw [← hf, (outer_append_perm ..).nodup_iff]
    refine List.Nodup.append hgsn ?_ ?_
    · rw [outer_cons_perm.nodup_iff, outer_nil, List.append_nil]
      exact List.nodup_cons.2 ⟨hcr, hrn⟩
    · rintro a ha ha'
      rcases mem_outer_cons.1 ha' with rfl | ha' | ha'
      · exact hcgs ha
      · exact hrin a ha' a (Or.inl ha) rfl
      · exact List.not_mem_nil ha'
  have hfouter : f.label.item.1 ∉ outer fs := by
    intro ha
    rcases hfmem with hf | hf
    · exact hdisj _ ha _ (by simp [hf]) rfl
    · exact hdisj _ ha _ (Or.inl hf) rfl
  rw [hf] at hlow₁
  obtain ⟨tb₂, hset₂, hroot₂, hlow₂, hkept₂, hheap₂⟩ := hlow₁.set_cons hfs' (ptr x)
  rw [← hf] at hlow₂
  obtain ⟨top₂, hlow₂, hc₂, hsib₂, -⟩ := holdsPath_append.1 hlow₂
  simp only at hc₂ hsib₂
  -- the node `b`
  have hbf : b.item.1 ≠ f.label.item.1 := by
    rcases hfmem with hf | hf
    · exact (hgsbx _ hf _ (Or.inl rfl)).symm
    · exact hf ▸ Ne.symm hcb
  have hb₂ : tb₂.heap b.item.1 = some (nodeOf .left b (ptr x) none) := by
    rw [hheap₂ _ hbf, hb₁]
  have hkept₃ : Kept tb₂ (tb₂.write b.item.1 (nodeOf .left (b.tilt c.balance) top₂ (ptr r))) :=
    kept_write hb₂ (by simp)
  refine ⟨tb₁, tb₂, tb₂.write b.item.1 (nodeOf .left (b.tilt c.balance) top₂ (ptr r)), _, _, hset₁,
    hb₁, ?_, hc₂, modify_eq hb₂, ⟨?_, ?_, nodup_replaced hgs hnodup⟩,
    (hkept₁.trans hkept₂).trans hkept₃⟩
  · rw [hplace]
    exact hset₂
  · refine holdsPath_append.2 ⟨top₂, hlow₂.congr fun a ha => ?_, ?_, ?_, ?_⟩
    · exact write_heap_of_ne fun heq => hgsbx a ha _ (Or.inl rfl) heq
    · exact write_heap_self
    · exact hsib₂.write fun hb => hrin _ hb _ (Or.inr (Or.inl rfl)) rfl
    · rw [show (tb₂.write b.item.1 (nodeOf .left (b.tilt c.balance) top₂ (ptr r))).root = tb₁.root
        from hroot₂]
      refine hhigh₁.congr fun a ha => ?_
      rw [write_heap_of_ne fun heq => hdisj a ha _ (by simp) heq]
      exact hheap₂ a fun heq => hfouter (heq ▸ ha)
  · refine Holds.write ?_ hbx
    have hxf : f.label.item.1 ∉ addrs x := by
      rcases hfmem with hf | hf
      · exact fun ha => hgsbx _ hf _ (Or.inr ha) rfl
      · exact hf ▸ hcx
    refine hx.congr fun a ha => ?_
    rw [hheap₂ a fun heq => hxf (heq ▸ ha), hheap₁ a fun ha' => hdisj _ ha' _ (by simp [ha]) rfl]

/-- **`delsub`.** -/
theorem delsub_spec {a : Cell Obj} {l' r' : BinaryTree (Cell Obj)}
    (h : Linked tb fs (.node c (.node a l' r') r)) (hroom : r'.height ≤ stackNeed)
    (hg : reshrink (rightmost [] a l' r').1 (rightmost [] a l' r').2.2 = some (t', state)) :
    ∃ tb', tb.delsub (placeOf fs) = some (tb', state) ∧
      Linked tb' (⟨.left, (rightmost [] a l' r').2.1.tilt c.balance, r⟩ :: fs) t' ∧
      Kept tb tb' := by
  have hdown : Linked tb ([] ++ ⟨.left, c, r⟩ :: fs) (.node a l' r') := Linked.attach_iff.2 h
  obtain ⟨hwalk, hlast⟩ := delsubWalk_spec hdown hroom
  have hsides : ∀ g ∈ (rightmost [] a l' r').1, g.side = .right := side_rightmost (by simp)
  have hafter : Frame.after (rightmost [] a l' r').1 = [] := after_rightmost rfl
  generalize rightmost [] a l' r' = last at *
  obtain ⟨gs, b, x⟩ := last
  simp only at *
  obtain ⟨tb₁, tb₂, tb₃, n, nc, hset₁, hb₁, hset₂, hc₂, hmodify, hlinked, hkept⟩ :=
    hook_spec hlast hafter
  obtain ⟨tb', hloop, hlinked', hkept'⟩ := balanceLoop_spec gs hlinked hg
  refine ⟨tb', ?_, hlinked', hkept.trans hkept'⟩
  have hplace : placeOf ([] ++ (⟨.left, c, r⟩ : Frame (Cell Obj)) :: fs) =
      .child .left c.item.1 := rfl
  have hstack : tstackOf [] ((⟨.left, c, r⟩ : Frame (Cell Obj)) :: fs) = [] := rfl
  have hpatch := @patchBottom_eq _ fs gs ⟨.left, c, r⟩ ⟨.left, b.tilt c.balance, r⟩ hsides
  have hbottom : placeOf ((⟨.left, b.tilt c.balance, r⟩ : Frame (Cell Obj)) :: fs) =
      .child .left b.item.1 := rfl
  rw [hplace, hstack] at hwalk
  rw [hbottom] at hpatch
  simp only [DbTableTree.delsub, h.get_eq, ptr, Option.bind_eq_bind, Option.bind_some, hwalk,
    hlast.get_eq, hset₁, hb₁, hset₂, hc₂, hmodify, hpatch]
  exact hloop

/-- The node in a place makes way for its only child, or for none. -/
theorem Linked.child {d : Side} (h : Linked tb fs (d.join c s t)) :
    ∃ tb', tb.set (ptr s) (placeOf fs) = some tb' ∧ Linked tb' fs s ∧ Kept tb tb' := by
  refine h.update rfl (fun _ _ => rfl) (holds_join.1 h.sub).2.1 ?_
  refine h.nodup.sublist (List.Sublist.append_left ?_ _)
  rw [addrs, addrs, items_join]
  cases d
  · exact (List.sublist_append_left ..).map _
  · exact (List.Sublist.trans (List.sublist_cons_self ..) (List.sublist_append_right ..)).map _

/-- **The node in a place is taken out of it.** -/
theorem unhook_spec (h : Linked tb fs (.node c l r)) (hg : removed fs c l r = some (t', state))
    (hroom : fs.length + (BinaryTree.node c l r).height ≤ stackNeed) :
    ∃ tb₁ state₁ fs₁ t₁, tb.unhook c.item.1 (placeOf fs) (pathOf fs) =
        some (tb₁, state₁, pathOf fs₁) ∧ Linked tb₁ fs₁ t₁ ∧ Kept tb tb₁ ∧
      (if state₁ then reshrink fs₁ t₁ = some (t', state) else t' = plug fs₁ t₁) := by
  have hnode := (holds_join (d := .left)).1 h.sub |>.1
  rw [BinaryTree.height] at hroom
  cases r with
  | nil =>
    obtain ⟨tb', hset, hlinked, hkept⟩ := Linked.child (d := .left) h
    refine ⟨tb', true, fs, l, ?_, hlinked, hkept, ?_⟩
    · simp [DbTableTree.unhook, hnode, nodeOf, hset]
    · cases l <;> exact hg
  | node c₁ rl rr =>
    cases l with
    | nil =>
      obtain ⟨tb', hset, hlinked, hkept⟩ := Linked.child (d := .right) h
      refine ⟨tb', true, fs, _, ?_, hlinked, hkept, hg⟩
      rw [ptr] at hset
      simp [DbTableTree.unhook, hnode, nodeOf, ptr, hset]
    | node a l' r' =>
      rw [removed] at hg
      · have hheight : r'.height ≤ stackNeed := by
          simp only [BinaryTree.height] at hroom
          omega
        have hlength : fs.length < stackNeed := by omega
        simp only [reshrink_append] at hg
        cases hlow : reshrink (rightmost [] a l' r').1 (rightmost [] a l' r').2.2 with
        | none => simp [hlow] at hg
        | some low =>
          obtain ⟨t₁, state₁⟩ := low
          obtain ⟨tb₁, hdelsub, hlinked, hkept⟩ := delsub_spec h hheight hlow
          refine ⟨tb₁, state₁, _, t₁, ?_, hlinked, hkept, ?_⟩
          · simp [DbTableTree.unhook, hnode, nodeOf, ptr, hlength, hdelsub, pathOf]
          · rw [hlow] at hg
            cases state₁ with
            | true => exact hg
            | false =>
              simp only [Bool.false_eq_true, if_false, Option.some.injEq, Prod.mk.injEq] at hg
              exact hg.1.symm
      · exact fun h => by cases h

/-- **The node at an equal key is taken out.** -/
theorem linkout_spec (h : Linked tb fs (.node c l r)) (hg : removed fs c l r = some (t', state))
    (hroom : fs.length + (BinaryTree.node c l r).height ≤ stackNeed) :
    ∃ tb', tb.linkout c.item.1 (placeOf fs) (pathOf fs) = some tb' ∧ Linked tb' [] t' ∧
      Kept { tb with nitems := tb.nitems - 1 } tb' := by
  obtain ⟨tb₁, state₁, fs₁, t₁, hunhook, hlinked, hkept, hrest⟩ := unhook_spec h hg hroom
  have hkept₁ : Kept { tb with nitems := tb.nitems - 1 } { tb₁ with nitems := tb₁.nitems - 1 } :=
    ⟨congrArg (· - 1) hkept.nitems, hkept.staticStack, hkept.dbterm⟩
  have hlinked₁ : Linked { tb₁ with nitems := tb₁.nitems - 1 } fs₁ t₁ :=
    hlinked.congr rfl fun _ _ => rfl
  simp only [DbTableTree.linkout, hunhook, Option.bind_eq_bind, Option.bind_some]
  cases state₁ with
  | true =>
    have hlinked₂ : Linked { tb₁ with nitems := tb₁.nitems - 1 } (fs₁ ++ []) t₁ := by
      rwa [List.append_nil]
    obtain ⟨tb', hloop, hlinked', hkept'⟩ := balanceLoop_spec fs₁ hlinked₂ hrest
    rw [List.append_nil, ← length_pathOf, List.take_length] at hloop
    refine ⟨tb', ?_, hlinked', hkept₁.trans hkept'⟩
    rw [if_pos rfl, hloop]
    rfl
  | false =>
    rw [if_neg (by simp)] at hrest
    exact ⟨_, rfl, hrest ▸ Linked.plug_iff.1 hlinked₁, hkept₁⟩

end PonBeam.EtsTree
