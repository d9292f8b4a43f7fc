import Mathlib.Data.List.Pairwise

/-!
# Lists grouped by a key

A list is grouped by a key if the elements of a key stand together. Filtering it, replacing
the elements of one key by others of that key, and appending a list with other keys leave
it grouped.
-/

namespace PonBeam

universe u v

variable {α : Type u} {κ : Type v} {key : α → κ} {l l' : List α}

/-- The elements of each key stand together. -/
def Grouped (key : α → κ) (l : List α) : Prop :=
  ∃ groups : List (List α), groups.flatten = l ∧
    (∀ g ∈ groups, ∀ x ∈ g, ∀ y ∈ g, key x = key y) ∧
    groups.Pairwise fun g h => ∀ x ∈ g, ∀ y ∈ h, key x ≠ key y

theorem Grouped.nil : Grouped key [] :=
  ⟨[], rfl, fun _ hg => absurd hg List.not_mem_nil, List.Pairwise.nil⟩

theorem Grouped.filter (h : Grouped key l) (p : α → Bool) : Grouped key (l.filter p) := by
  obtain ⟨groups, rfl, hsame, hother⟩ := h
  refine ⟨groups.map (List.filter p), (List.filter_flatten ..).symm, ?_, ?_⟩
  · rintro _ hfg x hx y hy
    obtain ⟨g, hg, rfl⟩ := List.mem_map.1 hfg
    exact hsame g hg x (List.mem_filter.1 hx).1 y (List.mem_filter.1 hy).1
  · refine hother.map _ fun g h hgh x hx y hy => ?_
    exact hgh x (List.mem_filter.1 hx).1 y (List.mem_filter.1 hy).1

theorem Grouped.append (h : Grouped key l) (h' : Grouped key l')
    (hkey : ∀ x ∈ l, ∀ y ∈ l', key x ≠ key y) : Grouped key (l ++ l') := by
  obtain ⟨groups, rfl, hsame, hother⟩ := h
  obtain ⟨groups', rfl, hsame', hother'⟩ := h'
  refine ⟨groups ++ groups', List.flatten_append, fun g hg => ?_, ?_⟩
  · rcases List.mem_append.1 hg with hg | hg
    · exact hsame g hg
    · exact hsame' g hg
  · refine List.pairwise_append.2 ⟨hother, hother', fun g hg h hh x hx y hy => ?_⟩
    exact hkey x (List.mem_flatten.2 ⟨g, hg, hx⟩) y (List.mem_flatten.2 ⟨h, hh, hy⟩)

/-- **The elements of a key** stand between the others, and can be replaced. -/
theorem Grouped.around (h : Grouped key l) (k : κ) : ∃ pre g post, l = pre ++ g ++ post ∧
    (∀ x ∈ pre, key x ≠ k) ∧ (∀ x ∈ g, key x = k) ∧ (∀ x ∈ post, key x ≠ k) ∧
    (g = [] → post = []) ∧
    ∀ g' : List α, (∀ x ∈ g', key x = k) → Grouped key (pre ++ g' ++ post) := by
  obtain ⟨groups, rfl, hsame, hother⟩ := h
  by_cases hk : ∃ x ∈ groups.flatten, key x = k
  · obtain ⟨x, hx, hxk⟩ := hk
    obtain ⟨g, hg, hxg⟩ := List.mem_flatten.1 hx
    obtain ⟨before, after, rfl⟩ := List.append_of_mem hg
    have hgk : ∀ y ∈ g, key y = k := fun y hy => (hsame g hg y hy x hxg).trans hxk
    obtain ⟨hb, hga, hba⟩ := List.pairwise_append.1 hother
    obtain ⟨hafter, ha⟩ := List.pairwise_cons.1 hga
    have hbefore : ∀ h ∈ before, ∀ y ∈ h, key y ≠ k := fun h hh y hy =>
      hxk ▸ hba h hh g List.mem_cons_self y hy x hxg
    have hrest : ∀ h ∈ after, ∀ y ∈ h, key y ≠ k := fun h hh y hy =>
      hxk ▸ (hafter h hh x hxg y hy).symm
    refine ⟨before.flatten, g, after.flatten, ?_, ?_, hgk, ?_, ?_, ?_⟩
    · simp
    · intro y hy
      obtain ⟨h, hh, hyh⟩ := List.mem_flatten.1 hy
      exact hbefore h hh y hyh
    · intro y hy
      obtain ⟨h, hh, hyh⟩ := List.mem_flatten.1 hy
      exact hrest h hh y hyh
    · rintro rfl
      exact absurd hxg List.not_mem_nil
    · intro g' hg'
      refine ⟨before ++ g' :: after, by simp, ?_, ?_⟩
      · intro h hh y hy z hz
        rcases List.mem_append.1 hh with hh | hh
        · exact hsame h (List.mem_append_left _ hh) y hy z hz
        · rcases List.mem_cons.1 hh with rfl | hh
          · exact (hg' y hy).trans (hg' z hz).symm
          · exact hsame h (List.mem_append_right _ (List.mem_cons_of_mem _ hh)) y hy z hz
      · refine List.pairwise_append.2 ⟨hb, List.pairwise_cons.2 ⟨?_, ha⟩, ?_⟩
        · intro h hh y hy z hz
          rw [hg' y hy]
          exact (hrest h hh z hz).symm
        · intro h hh h' hh' y hy z hz
          rcases List.mem_cons.1 hh' with rfl | hh'
          · rw [hg' z hz]
            exact hbefore h hh y hy
          · exact hba h hh h' (List.mem_cons_of_mem _ hh') y hy z hz
  · have hnot : ∀ x ∈ groups.flatten, key x ≠ k := fun x hx hxk => hk ⟨x, hx, hxk⟩
    refine ⟨groups.flatten, [], [], by simp, hnot, fun x hx => absurd hx List.not_mem_nil,
      fun x hx => absurd hx List.not_mem_nil, fun _ => rfl, fun g' hg' => ?_⟩
    rw [List.append_nil]
    refine Grouped.append ⟨groups, rfl, hsame, hother⟩ ⟨[g'], by simp, ?_, ?_⟩ ?_
    · intro h hh y hy z hz
      obtain rfl := List.mem_singleton.1 hh
      exact (hg' y hy).trans (hg' z hz).symm
    · exact List.pairwise_singleton _ _
    · intro y hy z hz
      rw [hg' z hz]
      exact hnot y hy

end PonBeam
