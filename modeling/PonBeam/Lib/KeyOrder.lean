import PonBeam.Lib.Grouped
import Mathlib.Data.List.Nodup

/-!
# The order of keys in a list

`keyOrder key l` are the keys of a list in the order in which they first occur. Replacing the
elements of a key by others of that key does not change it. In a grouped list the keys before
that of an element `b` only have elements before `b`.
-/

namespace PonBeam

universe u v

variable {α : Type u} {κ : Type v} {key : α → κ} {l l₁ l₂ : List α} {k : κ}

/-- Between two elements of a grouped list with the same key there is no other key. -/
theorem Grouped.between {b x y : α} (h : Grouped key (l₁ ++ b :: l₂)) (hx : x ∈ l₁) (hy : y ∈ l₂)
    (hxy : key x = key y) : key b = key x := by
  obtain ⟨pre, g, post, heq, hpre, hg, hpost, -, -⟩ := h.around (key x)
  rw [List.append_assoc] at heq
  rcases List.append_eq_append_iff.1 heq with ⟨c, hc, -⟩ | ⟨c, hc, hrest⟩
  · exact absurd rfl (hpre x (hc ▸ List.mem_append_left c hx))
  · rcases List.append_eq_append_iff.1 hrest with ⟨c', -, hc'⟩ | ⟨c', hc', hpost'⟩
    · refine absurd hxy.symm (hpost y ?_)
      rw [hc']
      simp [hy]
    · cases c' with
      | nil =>
        rw [List.nil_append] at hpost'
        exact absurd hxy.symm (hpost y (hpost' ▸ List.mem_cons_of_mem b hy))
      | cons d ds =>
        cases hpost'
        exact hg b (by simp [hc'])

variable [DecidableEq κ]

/-- The keys of a list, in order. -/
def keyOrder (key : α → κ) : List α → List κ
  | [] => []
  | x :: xs => key x :: (keyOrder key xs).filter (· ≠ key x)

theorem mem_keyOrder : k ∈ keyOrder key l ↔ ∃ x ∈ l, key x = k := by
  induction l with
  | nil => simp [keyOrder]
  | cons x xs ih =>
    rw [keyOrder, List.mem_cons, List.mem_filter, ih]
    by_cases hk : k = key x
    · simp [hk]
    · simp [hk, Ne.symm hk]

theorem nodup_keyOrder (key : α → κ) (l : List α) : (keyOrder key l).Nodup := by
  induction l with
  | nil => exact List.nodup_nil
  | cons x xs ih =>
    rw [keyOrder, List.nodup_cons]
    refine ⟨fun hmem => ?_, ih.filter _⟩
    simp at hmem

theorem keyOrder_append (key : α → κ) (l₁ l₂ : List α) : keyOrder key (l₁ ++ l₂) =
    keyOrder key l₁ ++ (keyOrder key l₂).filter (· ∉ l₁.map key) := by
  induction l₁ with
  | nil =>
    rw [List.nil_append, keyOrder, List.nil_append]
    exact (List.filter_eq_self.2 fun k _ => by simp).symm
  | cons x xs ih =>
    rw [List.cons_append, keyOrder, keyOrder, ih, List.filter_append, List.filter_filter,
      List.cons_append]
    congr 2
    refine List.filter_congr fun k _ => ?_
    by_cases hk : k = key x <;> simp [hk]

/-- Elements of one key. -/
theorem keyOrder_group {g : List α} (hg : ∀ x ∈ g, key x = k) (hne : g ≠ []) :
    keyOrder key g = [k] := by
  cases g with
  | nil => exact absurd rfl hne
  | cons x xs =>
    rw [keyOrder, hg x List.mem_cons_self]
    congr 1
    refine List.filter_eq_nil_iff.2 fun d hd => ?_
    obtain ⟨y, hy, rfl⟩ := mem_keyOrder.1 hd
    simp [hg y (List.mem_cons_of_mem x hy)]

/-- **The elements of a key** are replaced. -/
theorem keyOrder_replace {pre g g' post : List α} (hg : ∀ x ∈ g, key x = k)
    (hg' : ∀ x ∈ g', key x = k) (hne : g ≠ []) (hne' : g' ≠ []) :
    keyOrder key (pre ++ (g' ++ post)) = keyOrder key (pre ++ (g ++ post)) := by
  have hmap : ∀ {os : List α}, (∀ x ∈ os, key x = k) → os ≠ [] → ∀ d, d ∈ os.map key ↔ d = k := by
    intro os hos hneos d
    obtain ⟨x, hx⟩ := List.exists_mem_of_ne_nil os hneos
    rw [List.mem_map]
    constructor
    · rintro ⟨y, hy, rfl⟩
      exact hos y hy
    · rintro rfl
      exact ⟨x, hx, hos x hx⟩
  have hsame : keyOrder key (g' ++ post) = keyOrder key (g ++ post) := by
    rw [keyOrder_append, keyOrder_append, keyOrder_group hg hne, keyOrder_group hg' hne']
    congr 1
    refine List.filter_congr fun d _ => ?_
    rw [decide_eq_decide, hmap hg hne, hmap hg' hne']
  rw [keyOrder_append key pre, keyOrder_append key pre, hsame]

/-- **The keys before that of `b`** have no elements behind the elements before `b`. -/
theorem Grouped.keyOrder_eq {pre d r : List α} {b : α} (h : Grouped key (pre ++ (d ++ b :: r))) :
    ∃ before after, keyOrder key (d ++ b :: r) = before ++ key b :: after ∧
      ∀ x ∈ d ++ b :: r, key x ∈ before → x ∈ d := by
  -- the first element with the key of `b`
  obtain ⟨d₁, c, r₁, heq, hc, hd₁, hsub⟩ : ∃ d₁ c r₁, d ++ b :: r = d₁ ++ c :: r₁ ∧
      key c = key b ∧ (∀ x ∈ d₁, key x ≠ key b) ∧ ∀ x ∈ d₁, x ∈ d := by
    by_cases hmem : ∃ x ∈ d, key x = key b
    · obtain ⟨x, hx, hxb⟩ := hmem
      obtain ⟨c, d₁, d₂, hno, hc, rfl, -⟩ :=
        List.exists_of_eraseP (p := fun y => decide (key y = key b)) hx (decide_eq_true hxb)
      refine ⟨d₁, c, d₂ ++ b :: r, by simp, of_decide_eq_true hc, fun y hy hyb => ?_, fun y hy => ?_⟩
      · exact hno y hy (decide_eq_true hyb)
      · exact List.mem_append_left _ hy
    · exact ⟨d, b, r, rfl, rfl, fun x hx hk => hmem ⟨x, hx, hk⟩, fun _ hx => hx⟩
  have hnot : key b ∉ d₁.map key := by
    rintro hmem
    obtain ⟨x, hx, hxb⟩ := List.mem_map.1 hmem
    exact hd₁ x hx hxb
  rw [heq, keyOrder_append, keyOrder, hc, List.filter_cons, if_pos (decide_eq_true hnot)]
  refine ⟨_, _, rfl, fun x hx hbefore => ?_⟩
  obtain ⟨y, hy, hyx⟩ := mem_keyOrder.1 hbefore
  rcases List.mem_append.1 hx with hx | hx
  · exact hsub x hx
  · rcases List.mem_cons.1 hx with rfl | hx
    · exact absurd (hyx.trans hc) (hd₁ y hy)
    · rw [heq, ← List.append_assoc] at h
      have hcy := h.between (List.mem_append_right pre hy) hx hyx
      exact absurd (hcy.symm.trans hc) (hd₁ y hy)

/-- The keys before and after one. -/
theorem Grouped.keyOrder_around {pre g post : List α} (h : Grouped key (pre ++ (g ++ post)))
    (hpre : ∀ x ∈ pre, key x ≠ k) (hg : ∀ x ∈ g, key x = k) (hpost : ∀ x ∈ post, key x ≠ k)
    (hne : g ≠ []) :
    keyOrder key (pre ++ (g ++ post)) = keyOrder key pre ++ k :: keyOrder key post := by
  obtain ⟨b, gs, rfl⟩ := List.exists_cons_of_ne_nil hne
  have hb := hg b List.mem_cons_self
  rw [keyOrder_append, keyOrder_append, keyOrder_group hg hne, List.singleton_append]
  congr 1
  have hk : k ∉ pre.map key := by
    rintro hmem
    obtain ⟨x, hx, hxk⟩ := List.mem_map.1 hmem
    exact hpre x hx hxk
  rw [List.filter_cons, if_pos (decide_eq_true hk), List.filter_filter]
  congr 1
  refine List.filter_eq_self.2 fun d hd => ?_
  obtain ⟨y, hy, rfl⟩ := mem_keyOrder.1 hd
  have hnotg : key y ∉ (b :: gs).map key := by
    rintro hmem
    obtain ⟨x, hx, hxy⟩ := List.mem_map.1 hmem
    exact hpost y hy (hxy.symm.trans (hg x hx))
  have hnotpre : key y ∉ pre.map key := by
    rintro hmem
    obtain ⟨x, hx, hxy⟩ := List.mem_map.1 hmem
    -- `b` stands between them
    have hbx : key b = key x := by
      refine Grouped.between ?_ hx (List.mem_append_right gs hy) hxy
      exact h
    exact hpre x hx (hbx.symm.trans hb)
  simp only [Bool.and_eq_true, decide_eq_true_eq]
  exact ⟨hnotpre, hnotg⟩

end PonBeam
