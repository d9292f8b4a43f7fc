import Mathlib.Data.List.Cycle
import Mathlib.Logic.Function.Basic

/-!
# Circular doubly linked lists

Nodes with a `next` and a `prev` field, as two functions. `Ring next prev l` says that the
nodes of `l` are linked in a circle in the order of `l`. Where the circle is opened does not
matter, so a node can be brought to the front before it is taken out; what an edit of the
fields does is then read off the two ends of the rest.
-/

namespace PonBeam

universe u

variable {α : Type u}

/-- `y` comes after `x`. -/
def Link (next prev : α → α) (x y : α) : Prop := next x = y ∧ prev y = x

/-- The nodes of `l` are linked in a circle. -/
def Ring (next prev : α → α) (l : List α) : Prop := Cycle.Chain (Link next prev) (l : Cycle α)

namespace Ring

variable {next prev next' prev' : α → α} {l : List α} {a p q : α}

theorem nil : Ring next prev [] := Cycle.Chain.nil _

/-- The circle can be opened anywhere. -/
theorem rotate {l₁ l₂ : List α} (h : Ring next prev (l₁ ++ l₂)) : Ring next prev (l₂ ++ l₁) := by
  unfold Ring at h ⊢
  rwa [Cycle.coe_eq_coe.mpr List.isRotated_append] at h

/-- A circle is a chain whose last node comes before its first. -/
theorem cons_iff : Ring next prev (a :: l) ↔ List.IsChain (Link next prev) (a :: l) ∧
    Link next prev ((a :: l).getLast (List.cons_ne_nil a l)) a := by
  unfold Ring
  rw [Cycle.chain_coe_cons, ← List.cons_append, List.isChain_append]
  refine and_congr_right fun _ => ⟨fun h => ?_, fun h => ⟨List.isChain_singleton a, ?_⟩⟩
  · exact h.2 _ (List.getLast_mem_getLast? _) a rfl
  · intro x hx y hy
    rw [List.getLast?_eq_some_getLast (List.cons_ne_nil a l)] at hx
    obtain rfl := Option.some.inj hx
    obtain rfl := Option.some.inj hy
    exact h

/-- Two neighbours of `p` and the chain between them. -/
theorem cons_cons_iff : Ring next prev (p :: a :: l) ↔ Link next prev p a ∧
    List.IsChain (Link next prev) (a :: l) ∧
    Link next prev ((a :: l).getLast (List.cons_ne_nil a l)) p := by
  rw [cons_iff, List.isChain_cons_cons, List.getLast_cons (List.cons_ne_nil a l), and_assoc]

/-- A chain only depends on the fields between its ends. -/
theorem chain_congr (h : List.IsChain (Link next prev) l)
    (hnext : ∀ x ∈ l.dropLast, next' x = next x) (hprev : ∀ x ∈ l.tail, prev' x = prev x) :
    List.IsChain (Link next' prev') l := by
  induction h with
  | nil => exact List.IsChain.nil
  | singleton a => exact List.IsChain.singleton a
  | @cons_cons a b l hab hl ih =>
    refine List.IsChain.cons_cons ⟨?_, ?_⟩ (ih (fun x hx => ?_) fun x hx => ?_)
    · rw [hnext a (List.mem_cons_self ..)]
      exact hab.1
    · rw [hprev b (List.mem_cons_self ..)]
      exact hab.2
    · exact hnext x (List.mem_cons_of_mem a hx)
    · exact hprev x (List.mem_cons_of_mem b hx)

/-- A circle only depends on the fields of its nodes. -/
theorem congr (h : Ring next prev l) (hnext : ∀ x ∈ l, next' x = next x)
    (hprev : ∀ x ∈ l, prev' x = prev x) : Ring next' prev' l := by
  cases l with
  | nil => exact nil
  | cons a l =>
    rw [cons_iff] at h ⊢
    refine ⟨chain_congr h.1 (fun x hx => hnext x (List.mem_of_mem_dropLast hx))
      fun x hx => hprev x (List.mem_of_mem_tail hx), ?_, ?_⟩
    · rw [hnext _ (List.getLast_mem _)]
      exact h.2.1
    · rw [hprev a (List.mem_cons_self ..)]
      exact h.2.2

/-- The only node is its own neighbour. -/
theorem singleton_iff : Ring next prev [a] ↔ next a = a ∧ prev a = a := by
  rw [cons_iff]
  exact and_iff_right (List.isChain_singleton a)

section

variable [DecidableEq α]

/-- The ends of a chain without repetition are not inside it. -/
theorem chain_update (h : List.IsChain (Link next prev) (a :: l)) (hnd : (a :: l).Nodup) (b c : α) :
    List.IsChain (Link (Function.update next ((a :: l).getLast (List.cons_ne_nil a l)) b)
      (Function.update prev a c)) (a :: l) := by
  refine chain_congr h (fun x hx => Function.update_of_ne ?_ ..)
    fun x hx => Function.update_of_ne ?_ ..
  · rintro rfl
    rw [← List.dropLast_append_getLast (List.cons_ne_nil a l), List.nodup_append] at hnd
    exact hnd.2.2 _ hx _ (List.mem_singleton_self _) rfl
  · rintro rfl
    exact (List.nodup_cons.mp hnd).1 hx

/-- **A node is put in** before the first one, that is at the end. -/
theorem insert (h : Ring next prev (a :: l)) (hnd : (a :: l).Nodup) (hp : p ∉ a :: l) :
    Ring (Function.update (Function.update next p a) (prev a) p)
      (Function.update (Function.update prev p (prev a)) a p) (a :: l ++ [p]) := by
  obtain ⟨hchain, hlast⟩ := cons_iff.mp h
  have hmem : prev a ∈ a :: l := by
    rw [hlast.2]
    exact List.getLast_mem _
  have hpa : p ≠ prev a := fun he => hp (he ▸ hmem)
  have hpa' : p ≠ a := fun he => hp (he ▸ List.mem_cons_self ..)
  have hold : List.IsChain (Link (Function.update next p a) (Function.update prev p (prev a)))
      (a :: l) := by
    refine chain_congr hchain (fun x hx => Function.update_of_ne ?_ ..)
      fun x hx => Function.update_of_ne ?_ ..
    · exact fun he => hp (he ▸ List.mem_of_mem_dropLast hx)
    · exact fun he => hp (he ▸ List.mem_of_mem_tail hx)
  have hnew := chain_update hold hnd p p
  rw [← hlast.2] at hnew
  suffices hr : Ring (Function.update (Function.update next p a) (prev a) p)
      (Function.update (Function.update prev p (prev a)) a p) ([p] ++ a :: l) from hr.rotate
  refine cons_cons_iff.mpr ⟨⟨?_, ?_⟩, hnew, ?_, ?_⟩
  · rw [Function.update_of_ne hpa, Function.update_self]
  · rw [Function.update_self]
  · rw [← hlast.2, Function.update_self]
  · rw [Function.update_of_ne hpa', Function.update_self, hlast.2]

/-- **A node is taken out.** -/
theorem unlink (h : Ring next prev (p :: l)) (hl : l ≠ []) (hnd : l.Nodup) :
    Ring (Function.update next (prev p) (next p)) (Function.update prev (next p) (prev p)) l := by
  obtain ⟨a, l, rfl⟩ := List.exists_cons_of_ne_nil hl
  obtain ⟨hfirst, hchain, hlast⟩ := cons_cons_iff.mp h
  have hnew := chain_update hchain hnd a ((a :: l).getLast (List.cons_ne_nil a l))
  rw [hfirst.1, hlast.2]
  exact cons_iff.mpr ⟨hnew, Function.update_self .., Function.update_self ..⟩

/-- **A node is replaced.** -/
theorem replace (h : Ring next prev (p :: l)) (hl : l ≠ []) (hnd : l.Nodup) (hq : q ∉ l) :
    Ring (Function.update (Function.update next q (next p)) (prev p) q)
      (Function.update (Function.update prev q (prev p)) (next p) q) (q :: l) := by
  obtain ⟨a, l, rfl⟩ := List.exists_cons_of_ne_nil hl
  have hold := unlink h hl hnd
  obtain ⟨hfirst, -, hlast⟩ := cons_cons_iff.mp h
  rw [hfirst.1] at hold ⊢
  have hlast' : Function.update prev a (prev p) a = prev p := Function.update_self ..
  have hin := insert hold hnd hq
  rw [hlast'] at hin
  have hne : q ≠ a := fun he => hq (he ▸ List.mem_cons_self ..)
  have hne' : q ≠ prev p := fun he => hq (by rw [he, hlast.2]; exact List.getLast_mem _)
  rw [Function.update_comm hne', Function.update_idem, Function.update_comm hne,
    Function.update_idem] at hin
  rw [Function.update_comm hne', Function.update_comm hne]
  exact hin.rotate

end

theorem prev_mem (h : Ring next prev (p :: l)) (hl : l ≠ []) : prev p ∈ l := by
  obtain ⟨a, l, rfl⟩ := List.exists_cons_of_ne_nil hl
  obtain ⟨-, -, hlast⟩ := cons_cons_iff.mp h
  rw [hlast.2]
  exact List.getLast_mem _

theorem next_mem (h : Ring next prev (p :: l)) (hl : l ≠ []) : next p ∈ l := by
  obtain ⟨a, l, rfl⟩ := List.exists_cons_of_ne_nil hl
  rw [(cons_cons_iff.mp h).1.1]
  exact List.mem_cons_self ..

/-- A node that is its own neighbour is the only one. -/
theorem next_eq_self_iff (h : Ring next prev (p :: l)) (hp : p ∉ l) : next p = p ↔ l = [] := by
  refine ⟨fun he => ?_, fun he => ?_⟩
  · by_contra hl
    exact hp (he ▸ h.next_mem hl)
  · subst he
    exact (singleton_iff.mp h).1

end Ring

/-! ## Many lists -/

/-- Circular lists that have no node in common. -/
structure Rings {ι : Type*} (next prev : α → α) (l : ι → List α) : Prop where
  /-- each is a circle -/
  ring : ∀ i, Ring next prev (l i)
  /-- without repetition -/
  nodup : ∀ i, (l i).Nodup
  /-- a node is in one of them -/
  apart : ∀ i j x, x ∈ l i → x ∈ l j → i = j

namespace Rings

variable {ι : Type*} {next prev next' prev' : α → α} {l : ι → List α} {i j : ι} {m : List α}
  {a p q : α}

section

variable [DecidableEq α]

/-- The circle of `i`, opened at one of its nodes. -/
theorem opened (h : Rings next prev l) (hp : p ∈ l i) :
    ∃ b c, l i = b ++ p :: c ∧ Ring next prev (p :: (c ++ b)) ∧ (c ++ b).Nodup ∧ p ∉ c ++ b ∧
      (l i).erase p = b ++ c := by
  obtain ⟨b, c, hi⟩ := List.append_of_mem hp
  have hring := h.ring i
  have hnd := h.nodup i
  rw [hi] at hring hnd
  have hnd' : (p :: (c ++ b)).Nodup := List.perm_append_comm.nodup_iff.mp hnd
  obtain ⟨hpn, hnd''⟩ := List.nodup_cons.mp hnd'
  refine ⟨b, c, hi, hring.rotate, hnd'', hpn, ?_⟩
  rw [hi, List.erase_append_right _ fun hb => hpn (List.mem_append_right c hb),
    List.erase_cons_head]

theorem next_eq_self_iff (h : Rings next prev l) (hp : p ∈ l i) : next p = p ↔ l i = [p] := by
  obtain ⟨b, c, hi, hring, -, hpn, -⟩ := h.opened hp
  rw [hring.next_eq_self_iff hpn, hi, List.append_eq_nil_iff]
  refine ⟨fun he => ?_, fun he => ?_⟩
  · rw [he.1, he.2]
    rfl
  · have hlen := congrArg List.length he
    simp only [List.length_append, List.length_cons, List.length_nil] at hlen
    exact ⟨List.eq_nil_of_length_eq_zero (by omega), List.eq_nil_of_length_eq_zero (by omega)⟩

end

variable [DecidableEq ι]

/-- **One list is changed.** The edit touches its nodes and new ones only. -/
theorem edit (h : Rings next prev l) (hring : Ring next' prev' m) (hnd : m.Nodup)
    (hnext : ∀ x, x ∉ l i → x ∉ m → next' x = next x)
    (hprev : ∀ x, x ∉ l i → x ∉ m → prev' x = prev x)
    (hnew : ∀ x ∈ m, x ∈ l i ∨ ∀ j, x ∉ l j) : Rings next' prev' (Function.update l i m) := by
  have hother : ∀ j, j ≠ i → ∀ x ∈ l j, x ∉ l i ∧ x ∉ m := by
    intro j hj x hx
    have hi : x ∉ l i := fun hi => hj (h.apart j i x hx hi)
    refine ⟨hi, fun hm => ?_⟩
    rcases hnew x hm with hm | hm
    · exact hi hm
    · exact hm j hx
  have happ : ∀ j x, x ∈ Function.update l i m j → (j = i ∧ x ∈ m) ∨ (j ≠ i ∧ x ∈ l j) := by
    intro j x hx
    by_cases hj : j = i
    · rw [hj, Function.update_self] at hx
      exact Or.inl ⟨hj, hx⟩
    · rw [Function.update_of_ne hj] at hx
      exact Or.inr ⟨hj, hx⟩
  refine ⟨fun j => ?_, fun j => ?_, fun j k x hj hk => ?_⟩
  · by_cases hj : j = i
    · rw [hj, Function.update_self]
      exact hring
    · rw [Function.update_of_ne hj]
      refine (h.ring j).congr (fun x hx => ?_) fun x hx => ?_
      · exact hnext x (hother j hj x hx).1 (hother j hj x hx).2
      · exact hprev x (hother j hj x hx).1 (hother j hj x hx).2
  · by_cases hj : j = i
    · rw [hj, Function.update_self]
      exact hnd
    · rw [Function.update_of_ne hj]
      exact h.nodup j
  · rcases happ j x hj with ⟨hji, hxj⟩ | ⟨hji, hxj⟩ <;>
      rcases happ k x hk with ⟨hki, hxk⟩ | ⟨hki, hxk⟩
    · rw [hji, hki]
    · exact absurd hxj (hother k hki x hxk).2
    · exact absurd hxk (hother j hji x hxj).2
    · exact h.apart j k x hxj hxk

/-- A list is forgotten. -/
theorem clear (h : Rings next prev l) (i : ι) : Rings next prev (Function.update l i []) :=
  h.edit Ring.nil List.nodup_nil (fun _ _ _ => rfl) (fun _ _ _ => rfl)
    fun _ hx => absurd hx List.not_mem_nil

variable [DecidableEq α]

/-- A node is put into an empty list. -/
theorem start (h : Rings next prev l) (hi : l i = []) (hp : ∀ j, p ∉ l j) :
    Rings (Function.update next p p) (Function.update prev p p)
      (Function.update l i (l i ++ [p])) := by
  rw [hi]
  refine h.edit (Ring.singleton_iff.mpr ⟨Function.update_self .., Function.update_self ..⟩)
    (List.nodup_singleton p) (fun x _ hx => ?_) (fun x _ hx => ?_) fun x hx => ?_
  · exact Function.update_of_ne (List.mem_singleton.not.mp hx) ..
  · exact Function.update_of_ne (List.mem_singleton.not.mp hx) ..
  · rw [List.mem_singleton.mp hx]
    exact Or.inr hp

/-- A node is put at the end of a list that starts with `a`. -/
theorem insert (h : Rings next prev l) (hi : l i = a :: m) (hp : ∀ j, p ∉ l j) :
    Rings (Function.update (Function.update next p a) (prev a) p)
      (Function.update (Function.update prev p (prev a)) a p)
      (Function.update l i (l i ++ [p])) := by
  have hring := h.ring i
  have hnd := h.nodup i
  have hpi := hp i
  rw [hi] at hring hnd hpi
  have hmem : prev a ∈ a :: m := by
    obtain ⟨-, hlast⟩ := Ring.cons_iff.mp hring
    rw [hlast.2]
    exact List.getLast_mem _
  rw [hi]
  refine h.edit (hring.insert hnd hpi) ?_ (fun x hx hm => ?_) (fun x hx hm => ?_) fun x hx => ?_
  · refine List.nodup_append.mpr ⟨hnd, List.nodup_singleton p, fun x hx y hy he => ?_⟩
    rw [List.mem_singleton.mp hy] at he
    exact hpi (he ▸ hx)
  · rw [hi] at hx
    rw [Function.update_of_ne (ne_of_mem_of_not_mem hmem hx).symm, Function.update_of_ne]
    rintro rfl
    exact hm (List.mem_append_right _ (List.mem_singleton_self x))
  · rw [hi] at hx
    rw [Function.update_of_ne (ne_of_mem_of_not_mem (List.mem_cons_self ..) hx).symm,
      Function.update_of_ne]
    rintro rfl
    exact hm (List.mem_append_right _ (List.mem_singleton_self x))
  · rcases List.mem_append.mp hx with hx | hx
    · rw [hi]
      exact Or.inl hx
    · rw [List.mem_singleton.mp hx]
      exact Or.inr hp

/-- A node is taken out of a list with others. -/
theorem unlink (h : Rings next prev l) (hp : p ∈ l i) (hne : next p ≠ p) :
    Rings (Function.update next (prev p) (next p)) (Function.update prev (next p) (prev p))
      (Function.update l i ((l i).erase p)) := by
  obtain ⟨b, c, hi, hring, hnd, hpn, her⟩ := h.opened hp
  have hrest : c ++ b ≠ [] := (hring.next_eq_self_iff hpn).not.mp hne
  have hin : ∀ x ∈ c ++ b, x ∈ l i := by
    intro x hx
    rw [hi]
    rcases List.mem_append.mp hx with hx | hx
    · exact List.mem_append_right b (List.mem_cons_of_mem p hx)
    · exact List.mem_append_left _ hx
  rw [her]
  refine h.edit (hring.unlink hrest hnd).rotate ?_ (fun x hx _ => ?_) (fun x hx _ => ?_)
    fun x hx => ?_
  · exact (List.perm_append_comm).nodup_iff.mp hnd
  · exact Function.update_of_ne (ne_of_mem_of_not_mem (hin _ (hring.prev_mem hrest)) hx).symm ..
  · exact Function.update_of_ne (ne_of_mem_of_not_mem (hin _ (hring.next_mem hrest)) hx).symm ..
  · exact Or.inl (hin x ((List.perm_append_comm).mem_iff.mp hx))

/-- All of a list but its first node is moved to a node that is alone. -/
theorem move (h : Rings next prev l) (hi : l i = p :: m) (hm : m ≠ []) (hj : l j = [q])
    (hij : i ≠ j) :
    Rings (Function.update (Function.update next q (next p)) (prev p) q)
      (Function.update (Function.update prev q (prev p)) (next p) q)
      (Function.update (Function.update l i []) j (q :: m)) := by
  have hring := h.ring i
  have hnd := h.nodup i
  rw [hi] at hring hnd
  obtain ⟨-, hnd⟩ := List.nodup_cons.mp hnd
  have hin : ∀ x ∈ m, x ∈ l i := fun x hx => by
    rw [hi]
    exact List.mem_cons_of_mem p hx
  have hq : q ∉ m := fun hq => hij (h.apart i j q (hin q hq) (by
    rw [hj]
    exact List.mem_singleton_self q))
  have hj' : Function.update l i [] j = [q] := by
    rw [Function.update_of_ne (Ne.symm hij), hj]
  refine (h.clear i).edit (hring.replace hm hnd hq) (List.nodup_cons.mpr ⟨hq, hnd⟩)
    (fun x _ hx => ?_) (fun x _ hx => ?_) fun x hx => ?_
  · rw [List.mem_cons, not_or] at hx
    rw [Function.update_of_ne (ne_of_mem_of_not_mem (hring.prev_mem hm) hx.2).symm,
      Function.update_of_ne hx.1]
  · rw [List.mem_cons, not_or] at hx
    rw [Function.update_of_ne (ne_of_mem_of_not_mem (hring.next_mem hm) hx.2).symm,
      Function.update_of_ne hx.1]
  · rw [hj']
    rcases List.mem_cons.mp hx with rfl | hx
    · exact Or.inl (List.mem_singleton_self x)
    · refine Or.inr fun k hk => ?_
      by_cases hki : k = i
      · rw [hki, Function.update_self] at hk
        exact List.not_mem_nil hk
      · rw [Function.update_of_ne hki] at hk
        exact hki (h.apart k i x hk (hin x hx))

end Rings

end PonBeam
