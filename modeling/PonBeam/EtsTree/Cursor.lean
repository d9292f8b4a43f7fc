import PonBeam.EtsTree.Navigate
import PonBeam.EtsTree.Refine

/-!
# The static stack as a cursor

The static stack is empty, or it is the path from the root to a node, where its slot is the
number of the node or zero. `Points d t array xs c ys` says that the stack leads to the node
`c` of the tree `t`, with `ys` after it in the direction `d` and `xs` before it, the nearest
first. A walk from there in the direction `d` comes to the first of `ys`.
-/

namespace PonBeam.EtsTree

variable {Key Obj : Type} {T : Terms Key Obj} {tb : DbTableTree Obj} {d : Side}
  {t s u : BinaryTree (Cell Obj)} {fs : List (Frame (Cell Obj))} {c : Cell Obj}
  {a : Addr} {array : List Addr} {xs ys : List (Cell Obj)}

/-- The addresses on the path to a place, the nearest first. -/
def trail (fs : List (Frame (Cell Obj))) : List Addr := fs.map fun f => f.label.item.1

@[simp] theorem trail_nil : trail ([] : List (Frame (Cell Obj))) = [] := rfl

@[simp] theorem trail_cons {f : Frame (Cell Obj)} :
    trail (f :: fs) = f.label.item.1 :: trail fs := rfl

@[simp] theorem length_trail (fs : List (Frame (Cell Obj))) : (trail fs).length = fs.length :=
  List.length_map ..

/-- **The stack leads to a node.** -/
structure Points (d : Side) (t : BinaryTree (Cell Obj)) (array : List Addr)
    (xs : List (Cell Obj)) (c : Cell Obj) (ys : List (Cell Obj)) : Prop where
  path : ∃ fs s u, plug fs (d.join c s u) = t ∧ array = c.item.1 :: trail fs ∧
    ys = listing d s ++ ahead d fs ∧ xs = listing d.other u ++ ahead d.other fs

namespace Points

theorem of_plug (fs : List (Frame (Cell Obj))) (c : Cell Obj) (s u : BinaryTree (Cell Obj)) :
    Points d (plug fs (d.join c s u)) (c.item.1 :: trail fs)
      (listing d.other u ++ ahead d.other fs) c (listing d s ++ ahead d fs) :=
  ⟨fs, s, u, rfl, rfl, rfl, rfl⟩

/-- The other direction. -/
theorem flip (h : Points d t array xs c ys) : Points d.other t array ys c xs := by
  obtain ⟨fs, s, u, hplug, harray, hys, hxs⟩ := h.path
  refine ⟨fs, u, s, ?_, harray, hxs, ?_⟩
  · rw [Side.join_other, hplug]
  · rw [Side.other_other, hys]

theorem listing_eq (h : Points d t array xs c ys) : listing d t = xs.reverse ++ c :: ys := by
  obtain ⟨fs, s, u, rfl, -, rfl, rfl⟩ := h.path
  rw [listing_plug, listing_join, List.reverse_append, listing_other d u, List.reverse_reverse]
  simp only [List.append_assoc, List.cons_append]

/-- The node after one has it before. -/
theorem before_eq {array' : List Addr} {b : Cell Obj} {xs' zs : List (Cell Obj)}
    (h : Points d t array xs c ys) (h' : Points d t array' xs' b zs) (hys : ys = b :: zs) :
    xs' = c :: xs := by
  have heq : xs'.reverse ++ b :: zs = (c :: xs).reverse ++ b :: zs := by
    rw [← h'.listing_eq, h.listing_eq, hys, List.reverse_cons, List.append_assoc]
    rfl
  exact List.reverse_injective (List.append_cancel_right heq)

/-- The node is on top of the stack. -/
theorem top (h : Points d t array xs c ys) : ∃ rest, array = c.item.1 :: rest := by
  obtain ⟨fs, s, u, -, harray, -, -⟩ := h.path
  exact ⟨trail fs, harray⟩

/-- The node in memory. -/
theorem node (h : Points d t array xs c ys) (hlinked : Linked tb [] t) :
    ∃ n, tb.heap c.item.1 = some n ∧ n.dbterm = c.item.2 := by
  obtain ⟨fs, s, u, rfl, -, -, -⟩ := h.path
  have hplace : Linked tb fs (d.join c s u) := Linked.plug_iff.2 hlinked
  exact ⟨_, hplace.heap_eq, nodeOf_dbterm⟩

end Points

theorem mem_addrs_of_ptr (h : ptr t = some a) : a ∈ addrs t := by
  cases t with
  | nil => cases h
  | node c l r =>
    cases h
    exact mem_addrs_node.2 (Or.inl rfl)

/-! ## Walks -/

/-- Down to the extreme node on side `d`. -/
theorem pushSpine_spec {room : ℕ} (h : Linked tb fs (d.join c s u))
    (hroom : (d.join c s u).height ≤ room) :
    ∃ gs b v, tb.pushSpine d room c.item.1 (trail fs) = some (b.item.1, b.item.1 :: trail gs) ∧
      plug gs (d.join b .nil v) = plug fs (d.join c s u) ∧ ahead d gs = ahead d fs := by
  induction room generalizing fs c s u with
  | zero =>
    rw [Side.height_join] at hroom
    exact absurd hroom (Nat.not_succ_le_zero _)
  | succ room ih =>
    rw [DbTableTree.pushSpine, h.heap_eq]
    simp only [Option.bind_eq_bind, Option.bind_some, nodeOf_child]
    by_cases hs : s = .nil
    · subst hs
      exact ⟨fs, c, u, rfl, rfl, rfl⟩
    · obtain ⟨c', s', u', rfl⟩ := Side.eq_join d hs
      have hbelow : Linked tb (⟨d, c, u⟩ :: fs) (d.join c' s' u') := Linked.attach_iff.2 h
      rw [Side.height_join] at hroom
      obtain ⟨gs, b, v, hrun, hplug, hahead⟩ := ih hbelow (by omega)
      refine ⟨gs, b, v, ?_, hplug, hahead.trans ahead_cons_self⟩
      rw [trail_cons] at hrun
      rw [ptr_join]
      exact hrun

/-- Up to the first node that is entered from the side other than `d`. -/
theorem popWhile_spec (h : Linked tb fs t) (hptr : ptr t = some a) :
    (ahead d fs = [] ∧ tb.popWhile d (a :: trail fs) = some (none, [])) ∨
    ∃ gs b s u, tb.popWhile d (a :: trail fs) = some (some b.item.1, b.item.1 :: trail gs) ∧
      plug gs (d.join b s u) = plug fs t ∧ ahead d fs = b :: (listing d s ++ ahead d gs) := by
  induction fs generalizing t a with
  | nil => exact Or.inl ⟨ahead_nil, rfl⟩
  | cons f fs ih =>
    obtain ⟨side, b, s⟩ := f
    have hup : Linked tb fs (side.join b t s) := Linked.attach_iff.1 h
    have hnode := hup.heap_eq
    rw [trail_cons, DbTableTree.popWhile, hnode]
    simp only [Option.bind_eq_bind, Option.bind_some]
    by_cases hside : side = d
    · subst hside
      rw [nodeOf_child, if_pos hptr, ahead_cons_self]
      exact ih hup ptr_join
    · obtain rfl : side = d.other := by
        cases d <;> cases side <;> first | rfl | exact absurd rfl hside
      have hne : ptr s ≠ some a := by
        intro hs
        have hs' : a ∈ addrs s := mem_addrs_of_ptr hs
        have ht' : a ∈ addrs t := mem_addrs_of_ptr hptr
        exact h.not_outer ht' (mem_outer_cons.2 (Or.inr (Or.inl hs')))
      right
      refine ⟨fs, b, s, t, ?_, ?_, ahead_cons_other⟩
      · rw [nodeOf_other, nodeOf_child, if_neg hne]
        rfl
      · rw [plug_cons, Frame.attach, Side.join_other]

/-- The other loop that goes up ends at the same node. -/
theorem popUntil_eq (h : Linked tb fs t) (hptr : ptr t = some a) :
    tb.popUntil d (a :: trail fs) = tb.popWhile d (a :: trail fs) := by
  induction fs generalizing t a with
  | nil => rfl
  | cons f fs ih =>
    obtain ⟨side, b, s⟩ := f
    have hup : Linked tb fs (side.join b t s) := Linked.attach_iff.1 h
    have hne : ptr s ≠ some a := by
      intro hs
      have hs' : a ∈ addrs s := mem_addrs_of_ptr hs
      exact h.not_outer (mem_addrs_of_ptr hptr) (mem_outer_cons.2 (Or.inr (Or.inl hs')))
    rw [trail_cons, DbTableTree.popUntil, DbTableTree.popWhile, hup.heap_eq]
    simp only [Option.bind_eq_bind, Option.bind_some]
    by_cases hside : side = d
    · subst hside
      rw [nodeOf_child, nodeOf_child_other, if_pos hptr, if_neg hne]
      exact ih hup ptr_join
    · obtain rfl : side = d.other := by
        cases d <;> cases side <;> first | rfl | exact absurd rfl hside
      rw [nodeOf_other, nodeOf_child, nodeOf_child_other, if_pos hptr, if_neg hne]

/-- **To the neighbour** in a direction, as `slot_search` goes there. -/
theorem slotTurn_spec (h : Linked tb [] t) (hroom : t.height ≤ stackNeed)
    (hp : Points d t array xs c ys) :
    (ys = [] ∧ tb.slotTurn d c.item.1 array = some (none, [])) ∨
    ∃ b zs array', tb.slotTurn d c.item.1 array = some (some b.item.1, array') ∧ ys = b :: zs ∧
      Points d t array' (c :: xs) b zs := by
  obtain ⟨fs, s, u, rfl, rfl, rfl, rfl⟩ := hp.path
  have hplace : Linked tb fs (d.join c s u) := Linked.plug_iff.2 h
  rw [DbTableTree.slotTurn, hplace.heap_eq]
  simp only [Option.bind_eq_bind, Option.bind_some, nodeOf_child]
  by_cases hs : s = .nil
  · subst hs
    rw [ptr_nil, listing_nil, List.nil_append]
    rw [listing_nil, List.nil_append] at hp
    dsimp only
    rw [popUntil_eq hplace ptr_join]
    rcases popWhile_spec hplace (d := d) ptr_join with hnone | ⟨gs, b, s', u', hrun, hplug, hys⟩
    · exact Or.inl hnone
    · have hp' := hplug ▸ Points.of_plug gs b s' u' (d := d)
      have hxs := hp.before_eq hp' hys
      exact Or.inr ⟨b, _, _, hrun, hys, hxs ▸ hp'⟩
  · obtain ⟨c', s', u', rfl⟩ := Side.eq_join d.other hs
    have hbelow : Linked tb (⟨d, c, u⟩ :: fs) (d.other.join c' s' u') := Linked.attach_iff.2 hplace
    have hfits : fs.length + 1 + (d.other.join c' s' u').height ≤
        (plug fs (d.join c (d.other.join c' s' u') u)).height :=
      length_add_height_le (⟨d, c, u⟩ :: fs) (d.other.join c' s' u')
    have hfree : (d.other.join c' s' u').height ≤
        stackNeed - (c.item.1 :: trail fs).length := by
      rw [List.length_cons, length_trail]
      omega
    obtain ⟨gs, b, v, hrun, hplug, hahead⟩ := pushSpine_spec hbelow hfree
    right
    have hp' : Points d (plug fs (d.join c (d.other.join c' s' u') u)) (b.item.1 :: trail gs)
        (c :: (listing d.other u ++ ahead d.other fs)) b (listing d v ++ ahead d gs) := by
      refine ⟨gs, v, .nil, ?_, rfl, rfl, ?_⟩
      · rw [← Side.join_other, hplug]
        rfl
      · rw [hahead, listing_nil, List.nil_append]
        rw [← ahead_cons_other, Side.other_other]
    refine ⟨b, _, _, ?_, hp'.flip.before_eq hp.flip rfl, hp'⟩
    rw [trail_cons] at hrun
    rw [ptr_join]
    simp only [hrun, Option.bind_some]
    rfl

/-- Number of the node, counted from one. -/
def number (d : Side) (xs ys : List (Cell Obj)) : ℕ :=
  match d with
  | .right => xs.length + 1
  | .left => ys.length + 1

/-- The slot is the number of the node, if it is known. -/
def Counts (d : Side) (xs ys : List (Cell Obj)) (slot : ℕ) : Prop :=
  slot = 0 ∨ slot = number d xs ys

theorem Counts.countSlot {slot : ℕ} {b : Cell Obj} (h : Counts d xs (b :: ys) slot) :
    Counts d (c :: xs) ys (DbTableTree.countSlot d slot) := by
  rcases h with rfl | rfl
  · exact Or.inl rfl
  · right
    cases d <;> rfl

/-- **To the neighbour** in a direction, as `find_next` and `find_prev` go there. -/
theorem stepFrom_spec {slot : ℕ} (h : Linked tb [] t) (hroom : t.height ≤ stackNeed)
    (hp : Points d t array xs c ys) :
    (ys = [] ∧ tb.stepFrom d c.item.1 ⟨array, slot⟩ = some (none, ⟨[], 0⟩)) ∨
    ∃ b zs array', tb.stepFrom d c.item.1 ⟨array, slot⟩ =
        some (some b.item.1, ⟨array', DbTableTree.countSlot d slot⟩) ∧ ys = b :: zs ∧
      Points d t array' (c :: xs) b zs := by
  have heq : tb.stepFrom d c.item.1 ⟨array, slot⟩ = (tb.slotTurn d c.item.1 array).map
      fun r => (r.1, ⟨r.2, if r.1 = none then 0 else DbTableTree.countSlot d slot⟩) := by
    obtain ⟨fs, s, u, rfl, rfl, -, -⟩ := hp.path
    have hplace : Linked tb fs (d.join c s u) := Linked.plug_iff.2 h
    rw [DbTableTree.stepFrom, DbTableTree.slotTurn, hplace.heap_eq]
    simp only [Option.bind_eq_bind, Option.bind_some, nodeOf_child]
    cases hq : ptr s with
    | none =>
      simp only [popUntil_eq hplace ptr_join]
      cases hrun : tb.popWhile d (c.item.1 :: trail fs) with
      | none => rfl
      | some r =>
        obtain ⟨this, array⟩ := r
        cases this <;> rfl
    | some q =>
      simp only
      cases tb.pushSpine d.other (stackNeed - (c.item.1 :: trail fs).length) q
        (c.item.1 :: trail fs) <;> rfl
  rw [heq]
  rcases slotTurn_spec h hroom hp with ⟨hys, hrun⟩ | ⟨b, zs, array', hrun, hys, hp'⟩
  · exact Or.inl ⟨hys, by rw [hrun]; rfl⟩
  · exact Or.inr ⟨b, zs, array', by rw [hrun]; rfl, hys, hp'⟩

/-! ## From a key -/

/-- A key against that of a node, seen in a direction: negative if the node is beyond the key. -/
def cutFrom (T : Terms Key Obj) (d : Side) (key : Key) (c : Cell Obj) : ℤ :=
  d.sgn * cutCell T key c

theorem cutFrom_eq_zero {key : Key} : cutFrom T d key c = 0 ↔ cutCell T key c = 0 := by
  rw [cutFrom]
  rcases d.sgn_cases with hd | hd <;> rw [hd] <;> omega

/-- In either direction the nodes are in the order of their keys. -/
theorem cutBy_listing {key : Key} (h : CutBy (cutCell T key) (inorder t)) (d : Side) :
    CutBy (cutFrom T d key) (listing d t) := by
  cases d with
  | right =>
    refine h.imp fun hlt hle => ?_
    simp only [cutFrom, Side.sgn, one_mul] at hle ⊢
    exact hlt hle
  | left =>
    refine List.pairwise_reverse.2 (h.imp fun hlt hle => ?_)
    simp only [cutFrom, Side.sgn] at hle ⊢
    by_contra hnot
    have := hlt (by omega)
    omega

/-- The nodes beyond a key, the nearest first. -/
def beyond (T : Terms Key Obj) (d : Side) (key : Key) (t : BinaryTree (Cell Obj)) :
    List (Cell Obj) :=
  (listing d t).filter fun c => cutFrom T d key c < 0

namespace Points

variable {key : Key}

theorem around (hp : Points d t array xs c ys) (hcut : CutBy (cutCell T key) (inorder t)) :
    (cutFrom T d key c ≤ 0 → ∀ b ∈ ys, cutFrom T d key b < 0) ∧
      (0 ≤ cutFrom T d key c → ∀ b ∈ xs, 0 < cutFrom T d key b) := by
  have h := cutBy_listing hcut d
  rw [hp.listing_eq] at h
  obtain ⟨hafter, hbefore⟩ := h.around_node
  exact ⟨hafter, fun hc b hb => hbefore hc b (List.mem_reverse.2 hb)⟩

/-- The node is not beyond the key, and those after it are. -/
theorem beyond_eq (hp : Points d t array xs c ys) (hcut : CutBy (cutCell T key) (inorder t))
    (hc : 0 ≤ cutFrom T d key c) (hys : ∀ b ∈ ys, cutFrom T d key b < 0) :
    beyond T d key t = ys := by
  have hxs : xs.reverse.filter (fun b => decide (cutFrom T d key b < 0)) = [] := by
    refine List.filter_eq_nil_iff.2 fun b hb => ?_
    have := (hp.around hcut).2 hc b (List.mem_reverse.1 hb)
    simpa using this.le
  rw [beyond, hp.listing_eq, List.filter_append, hxs, List.nil_append,
    List.filter_cons_of_neg (by simpa using hc), List.filter_eq_self]
  exact fun b hb => decide_eq_true (hys b hb)

/-- The node is beyond the key, and those before it are not. -/
theorem beyond_eq_cons (hp : Points d t array xs c ys) (hcut : CutBy (cutCell T key) (inorder t))
    (hc : cutFrom T d key c < 0) (hxs : ∀ b ∈ xs, 0 < cutFrom T d key b) :
    beyond T d key t = c :: ys := by
  have hnone : xs.reverse.filter (fun b => decide (cutFrom T d key b < 0)) = [] := by
    refine List.filter_eq_nil_iff.2 fun b hb => ?_
    have := hxs b (List.mem_reverse.1 hb)
    simpa using this.le
  rw [beyond, hp.listing_eq, List.filter_append, hnone, List.nil_append,
    List.filter_cons_of_pos (by simpa using hc), List.filter_eq_self.2]
  exact fun b hb => decide_eq_true ((hp.around hcut).1 hc.le b hb)

end Points

theorem cmpKeyEq_iff {key : Key} {n : TreeDbTerm Obj} :
    T.cmpKeyEq key n = true ↔ T.cut key n.dbterm = 0 := by
  rw [Terms.cmpKeyEq, Bool.or_eq_true, beq_iff_eq]
  constructor
  · rintro (hsame | heq)
    · exact T.cmp_of_isSame _ _ hsame
    · exact heq
  · exact Or.inr

/-- What is outside of a place on either side of a key. -/
structure Outside (T : Terms Key Obj) (d : Side) (key : Key) (fs : List (Frame (Cell Obj))) :
    Prop where
  after : ∀ b ∈ ahead d fs, cutFrom T d key b < 0
  before : ∀ b ∈ ahead d.other fs, 0 < cutFrom T d key b

/-- **Down to the key**: to the next node, or to one after which it comes. -/
theorem rebuild_spec {key : Key} {room : ℕ} (h : Linked tb fs (d.join c s u))
    (hcut : CutBy (cutCell T key) (inorder (plug fs (d.join c s u))))
    (hout : Outside T d key fs) (hroom : (d.join c s u).height ≤ room) :
    ∃ found array xs b ys, tb.rebuild T d key room c.item.1 (trail fs) =
        some (found, b.item.1, array) ∧
      Points d (plug fs (d.join c s u)) array xs b ys ∧
      beyond T d key (plug fs (d.join c s u)) = if found then b :: ys else ys := by
  induction room generalizing fs c s u with
  | zero =>
    rw [Side.height_join] at hroom
    exact absurd hroom (Nat.not_succ_le_zero _)
  | succ room ih =>
    rw [Side.height_join] at hroom
    have hp := Points.of_plug (d := d) fs c s u
    obtain ⟨hafter, hbefore⟩ := hp.around hcut
    have hkey : d.sgn * T.cmpKey key (nodeOf d c (ptr s) (ptr u)) = cutFrom T d key c := by
      rw [Terms.cmpKey, nodeOf_dbterm]
      rfl
    rw [DbTableTree.rebuild, h.heap_eq]
    simp only [Option.bind_eq_bind, Option.bind_some, hkey, nodeOf_child, nodeOf_child_other]
    rcases lt_trichotomy (cutFrom T d key c) 0 with hneg | hzero | hpos
    · rw [if_neg hneg.not_gt, if_pos hneg]
      by_cases hu : u = .nil
      · subst hu
        rw [listing_nil, List.nil_append] at hp
        exact ⟨true, _, _, c, _, rfl, hp, hp.beyond_eq_cons hcut hneg hout.before⟩
      · obtain ⟨c', s', u', rfl⟩ := Side.eq_join d hu
        have hplug : plug (⟨d.other, c, s⟩ :: fs) (d.join c' s' u') =
            plug fs (d.join c s (d.join c' s' u')) := by
          rw [plug_cons, Frame.attach, Side.join_other]
        have hbelow : Linked tb (⟨d.other, c, s⟩ :: fs) (d.join c' s' u') :=
          Linked.plug_iff.2 (hplug ▸ Linked.plug_iff.1 h)
        have hout' : Outside T d key (⟨d.other, c, s⟩ :: fs) := by
          refine ⟨fun b hb => ?_, fun b hb => hout.before b ?_⟩
          · rw [ahead_cons_other] at hb
            rcases List.mem_cons.1 hb with rfl | hb
            · exact hneg
            · exact hafter hneg.le b hb
          · rwa [ahead_cons_self] at hb
        have hrec := ih hbelow (hplug ▸ hcut) hout' (by omega)
        rw [ptr_join]
        rw [hplug] at hrec
        exact hrec
    · rw [if_neg (hzero ▸ lt_irrefl _), if_neg (hzero ▸ lt_irrefl _)]
      exact ⟨false, _, _, c, _, rfl, hp, hp.beyond_eq hcut hzero.ge (hafter hzero.le)⟩
    · rw [if_pos hpos]
      by_cases hs : s = .nil
      · subst hs
        rw [listing_nil, List.nil_append] at hp
        exact ⟨false, _, _, c, _, rfl, hp, hp.beyond_eq hcut hpos.le hout.after⟩
      · obtain ⟨c', s', u', rfl⟩ := Side.eq_join d hs
        have hbelow : Linked tb (⟨d, c, u⟩ :: fs) (d.join c' s' u') := Linked.attach_iff.2 h
        have hout' : Outside T d key (⟨d, c, u⟩ :: fs) := by
          refine ⟨fun b hb => hout.after b ?_, fun b hb => ?_⟩
          · rwa [ahead_cons_self] at hb
          · have hframe : ahead d.other (⟨d, c, u⟩ :: fs) =
                c :: (listing d.other u ++ ahead d.other fs) := by
              rw [← ahead_cons_other, Side.other_other]
            rw [hframe] at hb
            rcases List.mem_cons.1 hb with rfl | hb
            · exact hpos
            · exact hbefore hpos.le b hb
        rw [ptr_join]
        exact ih hbelow hcut hout' (by omega)

/-! ## The cursor -/

/-- **The static stack of a table**: it is empty, or leads to a node whose number is the slot, if
that is known. -/
inductive Cursor (t : BinaryTree (Cell Obj)) : DbTreeStack → Prop
  /-- no node -/
  | empty : Cursor t ⟨[], 0⟩
  /-- a node -/
  | node {array : List Addr} {xs ys : List (Cell Obj)} {c : Cell Obj} {slot : ℕ}
      (points : Points .right t array xs c ys) (counts : Counts .right xs ys slot) :
      Cursor t ⟨array, slot⟩

variable {stack : DbTreeStack}

theorem Counts.flip {slot : ℕ} (h : Counts d xs ys slot) : Counts d.other ys xs slot := by
  cases d <;> exact h

theorem Cursor.of_points {slot : ℕ} (hp : Points d t array xs c ys) (hs : Counts d xs ys slot) :
    Cursor t ⟨array, slot⟩ := by
  cases d with
  | right => exact .node hp hs
  | left => exact .node hp.flip hs.flip

/-- In either direction. -/
theorem Cursor.cases_dir (h : Cursor t stack) (d : Side) : stack = ⟨[], 0⟩ ∨
    ∃ array xs c ys slot, stack = ⟨array, slot⟩ ∧ Points d t array xs c ys ∧
      Counts d xs ys slot := by
  cases h with
  | empty => exact Or.inl rfl
  | node hp hs =>
    right
    cases d with
    | right => exact ⟨_, _, _, _, _, rfl, hp, hs⟩
    | left => exact ⟨_, _, _, _, _, rfl, hp.flip, hs.flip⟩

/-- An address, if there is a node. -/
def addr? (cs : List (Cell Obj)) : Option Addr := cs.head?.map fun c => c.item.1

/-- From a node the walk goes to the first of those beyond it. -/
theorem stepFrom_cursor {slot : ℕ} (h : Linked tb [] t) (hroom : t.height ≤ stackNeed)
    (hp : Points d t array xs c ys) (hs : Counts d xs ys slot) :
    ∃ stack', tb.stepFrom d c.item.1 ⟨array, slot⟩ = some (addr? ys, stack') ∧
      Cursor t stack' := by
  have hstep := @stepFrom_spec Obj tb d t c array xs ys slot h hroom hp
  rcases hstep with ⟨rfl, hrun⟩ | ⟨b, zs, array', hrun, rfl, hp'⟩
  · exact ⟨_, hrun, .empty⟩
  · exact ⟨_, hrun, .of_points hp' hs.countSlot⟩

/-- Without a node to start from, the walk starts at the root. -/
theorem findNeighbour_of_reset {key : Key} (h : Linked tb [] t) (hasc : Ascending T (objects t))
    (hroom : t.height ≤ stackNeed) (hres : tb.resumeStack T key stack = some ⟨[], 0⟩) :
    ∃ stack', tb.findNeighbour T d key stack = some (addr? (beyond T d key t), stack') ∧
      Cursor t stack' := by
  have hroot : tb.root = ptr t := h.path
  rw [DbTableTree.findNeighbour, hres]
  simp only [Option.bind_eq_bind, Option.bind_some, hroot]
  by_cases ht : t = .nil
  · subst ht
    refine ⟨⟨[], 0⟩, ?_, .empty⟩
    rw [beyond, listing_nil]
    rfl
  · obtain ⟨c, s, u, rfl⟩ := Side.eq_join d ht
    have hout : Outside T d key [] := by
      constructor <;> intro b hb <;> rw [ahead_nil] at hb <;> exact absurd hb List.not_mem_nil
    obtain ⟨found, array, xs, b, ys, hrun, hp, hbeyond⟩ :=
      rebuild_spec h (hasc.cutBy key) hout hroom
    rw [plug_nil] at hp hbeyond
    rw [trail_nil] at hrun
    rw [ptr_join]
    simp only [hrun, Option.bind_some, hbeyond]
    cases found with
    | true => exact ⟨⟨array, 0⟩, rfl, .of_points hp (Or.inl rfl)⟩
    | false => exact stepFrom_cursor h hroom hp (Or.inl rfl)

/-- **The neighbour of a key**, from any cursor. -/
theorem findNeighbour_spec {key : Key} (h : Linked tb [] t) (hasc : Ascending T (objects t))
    (hroom : t.height ≤ stackNeed) (hc : Cursor t stack) :
    ∃ stack', tb.findNeighbour T d key stack = some (addr? (beyond T d key t), stack') ∧
      Cursor t stack' := by
  rcases hc.cases_dir d with rfl | ⟨array, xs, c, ys, slot, rfl, hp, hs⟩
  · exact findNeighbour_of_reset h hasc hroom rfl
  · obtain ⟨rest, rfl⟩ := hp.top
    obtain ⟨n, hn, hterm⟩ := hp.node h
    have hres : tb.resumeStack T key ⟨c.item.1 :: rest, slot⟩ =
        if T.cmpKeyEq key n then some ⟨c.item.1 :: rest, slot⟩ else some ⟨[], 0⟩ := by
      rw [DbTableTree.resumeStack]
      simp only [hn, Option.bind_eq_bind, Option.bind_some]
      rfl
    cases heq : T.cmpKeyEq key n with
    | false =>
      rw [heq] at hres
      exact findNeighbour_of_reset h hasc hroom hres
    | true =>
      have hcut : cutFrom T d key c = 0 := by
        rw [cutFrom_eq_zero, cutCell, ← hterm]
        exact cmpKeyEq_iff.1 heq
      rw [heq, if_pos rfl] at hres
      have hbeyond := hp.beyond_eq (hasc.cutBy key) hcut.ge
        ((hp.around (hasc.cutBy key)).1 hcut.le)
      rw [DbTableTree.findNeighbour, hres, hbeyond]
      exact stepFrom_cursor h hroom hp hs

/-! ## From a slot -/

theorem Points.length_eq (hp : Points d t array xs c ys) :
    xs.length + 1 + ys.length = t.numNodes := by
  have hlen := congrArg List.length hp.listing_eq
  rw [List.length_append, List.length_reverse, List.length_cons] at hlen
  have hlisting : (listing d t).length = t.numNodes := by
    cases d
    · exact (List.length_reverse ..).trans (length_inorder t)
    · exact length_inorder t
  omega

/-- **To a slot**, one node after the other. -/
theorem slotLoop_spec {slot : ℕ} (h : Linked tb [] t) (hroom : t.height ≤ stackNeed)
    (hslot : 1 ≤ slot ∧ slot ≤ t.numNodes) {turns : ℕ} (hp : Points .right t array xs c ys)
    (hup : slot ≤ xs.length + 1 + turns) (hdown : xs.length + 1 ≤ slot + turns) :
    ∃ array' xs' b ys', tb.slotLoop slot turns c.item.1 ⟨array, xs.length + 1⟩ =
        some (some b.item.1, ⟨array', xs'.length + 1⟩) ∧
      Points .right t array' xs' b ys' ∧ xs'.length + 1 = slot := by
  have hlen := hp.length_eq
  induction turns generalizing array xs c ys with
  | zero =>
    have heq : xs.length + 1 = slot := Nat.le_antisymm hdown hup
    refine ⟨array, xs, c, ys, ?_, hp, heq⟩
    rw [DbTableTree.slotLoop]
    exact if_pos heq
  | succ turns ih =>
    rw [DbTableTree.slotLoop]
    by_cases heq : xs.length + 1 = slot
    · exact ⟨array, xs, c, ys, if_pos heq, hp, heq⟩
    · rw [if_neg heq]
      dsimp only
      by_cases hlt : xs.length + 1 < slot
      · rw [if_pos hlt]
        rcases slotTurn_spec h hroom hp with ⟨rfl, -⟩ | ⟨b, zs, array', hrun, rfl, hp'⟩
        · rw [List.length_nil] at hlen
          omega
        · rw [hrun]
          exact ih hp' (by rw [List.length_cons]; omega) (by rw [List.length_cons]; omega)
            hp'.length_eq
      · rw [if_neg hlt]
        rcases slotTurn_spec h hroom hp.flip with ⟨rfl, -⟩ | ⟨b, zs, array', hrun, rfl, hp'⟩
        · rw [List.length_nil] at hlt heq
          omega
        · rw [List.length_cons] at hup hdown heq hlt
          have hrun' : tb.slotTurn .left c.item.1 array = some (some b.item.1, array') := hrun
          have hflip : Points .right t array' zs b (c :: ys) := hp'.flip
          rw [hrun']
          exact ih hflip (by omega) (by omega) hflip.length_eq

/-- The extreme node on a side. -/
theorem pushSpine_end (h : Linked tb [] t) (hroom : t.height ≤ stackNeed) (ht : t ≠ .nil) :
    ∃ root b array xs, tb.root = some root ∧
      tb.pushSpine d stackNeed root [] = some (b.item.1, array) ∧ Points d t array xs b [] := by
  obtain ⟨c, s, u, rfl⟩ := Side.eq_join d ht
  have hroot : tb.root = some c.item.1 := h.path.trans ptr_join
  obtain ⟨gs, b, v, hrun, hplug, hahead⟩ := pushSpine_spec h hroom
  have hp := Points.of_plug (d := d) gs b .nil v
  rw [hplug, plug_nil, listing_nil, List.nil_append, hahead, ahead_nil] at hp
  exact ⟨_, b, _, _, hroot, hrun, hp⟩

/-- The stack from which `slot_search` goes. -/
def slotStack (slot : ℕ) (stack : DbTreeStack) : DbTreeStack :=
  let stack := if slot = 1 then { stack with slot := 0 } else stack
  if stack.slot = 0 then { stack with array := [] } else stack

theorem slotStack_cases (slot : ℕ) (hc : Cursor t stack) : slotStack slot stack = ⟨[], 0⟩ ∨
    ∃ array xs c ys, slotStack slot stack = ⟨array, xs.length + 1⟩ ∧
      Points .right t array xs c ys := by
  have hzero : ∀ s : DbTreeStack, s.slot = 0 →
      { s with array := [] } = (⟨[], 0⟩ : DbTreeStack) := by
    rintro ⟨array, slot⟩ rfl
    rfl
  rw [slotStack]
  by_cases h1 : slot = 1
  · left
    rw [if_pos h1]
    exact if_pos rfl
  · rw [if_neg h1]
    by_cases h0 : stack.slot = 0
    · left
      rw [if_pos h0]
      exact hzero stack h0
    · rw [if_neg h0]
      rcases hc.cases_dir .right with rfl | ⟨array, xs, c, ys, k, rfl, hp, hs⟩
      · exact absurd rfl h0
      · obtain rfl : k = xs.length + 1 := hs.resolve_left h0
        exact Or.inr ⟨array, xs, c, ys, rfl, hp⟩

/-- **A slot**, from any cursor. -/
theorem slotSearch_spec {slot : ℕ} (h : Inv T tb t) (hroom : t.height ≤ stackNeed)
    (hslot : 1 ≤ slot ∧ slot ≤ t.numNodes) (hc : Cursor t stack) :
    ∃ array xs b ys, tb.slotSearch slot stack =
        some (some b.item.1, ⟨array, xs.length + 1⟩, false) ∧
      Points .right t array xs b ys ∧ xs.length + 1 = slot := by
  rcases slotStack_cases slot hc with hstack | ⟨array, xs, c, ys, hstack, hp⟩
  · have ht : t ≠ .nil := by
      rintro rfl
      exact absurd (hslot.1.trans hslot.2) (by simp)
    obtain ⟨root, c, array, ys, hroot, hspine, hp⟩ := pushSpine_end h.linked hroom ht (d := .left)
    have hflip : Points .right t array [] c ys := hp.flip
    have hup : slot ≤ 0 + 1 + (slot + (0 + 1)) := by omega
    have hdown : 0 + 1 ≤ slot + (slot + (0 + 1)) := by omega
    obtain ⟨array', xs', b, ys', hrun, hp', hlen⟩ :=
      slotLoop_spec h.linked hroom hslot hflip hup hdown
    refine ⟨array', xs', b, ys', ?_, hp', hlen⟩
    rw [List.length_nil] at hrun
    simp only [slotStack] at hstack
    simp only [DbTableTree.slotSearch, hstack, hroot, hspine, Option.bind_eq_bind,
      Option.bind_some, hrun]
    rfl
  · obtain ⟨rest, rfl⟩ := hp.top
    have hup : slot ≤ xs.length + 1 + (slot + (xs.length + 1)) := by omega
    have hdown : xs.length + 1 ≤ slot + (slot + (xs.length + 1)) := by omega
    obtain ⟨array', xs', b, ys', hrun, hp', hlen⟩ :=
      slotLoop_spec h.linked hroom hslot hp hup hdown
    refine ⟨array', xs', b, ys', ?_, hp', hlen⟩
    simp only [slotStack] at hstack
    simp only [DbTableTree.slotSearch, hstack, hrun, Option.bind_eq_bind, Option.bind_some]
    rfl

end PonBeam.EtsTree
