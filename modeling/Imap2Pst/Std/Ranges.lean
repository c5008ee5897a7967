import Mathlib.Data.List.Nodup
import Mathlib.Data.List.Pairwise
import Mathlib.Data.List.Perm.Subperm
import Mathlib.Order.Interval.Set.UnorderedInterval
import Mathlib.Order.Lattice.Nat

/-!
# Std.Ranges

Sets of numbers written as ranges. A range is a pair of ends, in either order.

* `covered`          — the set a list of ranges stands for.
* `Gapped`           — ascending ranges, with a number left out between two of them.
* `Gapped.length_le` — no list of fewer ranges stands for the same set.
-/

namespace CxxStd

/-- The numbers in some range of the list. -/
def covered (rs : List (Nat × Nat)) : Set Nat := {n | ∃ r ∈ rs, n ∈ Set.uIcc r.1 r.2}

@[simp] theorem covered_nil : covered [] = ∅ := by
  ext n
  simp [covered]

theorem mem_covered_cons {r : Nat × Nat} {rs : List (Nat × Nat)} {n : Nat} :
    n ∈ covered (r :: rs) ↔ n ∈ Set.uIcc r.1 r.2 ∨ n ∈ covered rs := by
  simp only [covered, Set.mem_ofPred_eq, List.mem_cons, exists_eq_or_imp]

/-- The ends of a range, once where they are the same. -/
def marks (r : Nat × Nat) : List Nat := if r.1 = r.2 then [r.1] else [r.1, r.2]

/-- Ascending ranges, no two of which overlap or touch. -/
structure Gapped (rs : List (Nat × Nat)) : Prop where
  ordered : ∀ r ∈ rs, r.1 ≤ r.2
  apart : rs.Pairwise fun r s => r.2 + 1 < s.1

namespace Gapped

variable {rs ss : List (Nat × Nat)} {r s : Nat × Nat}

theorem mem_covered (h : Gapped rs) {n : Nat} :
    n ∈ covered rs ↔ ∃ r ∈ rs, r.1 ≤ n ∧ n ≤ r.2 := by
  refine exists_congr fun r => and_congr_right fun hr => ?_
  rw [Set.uIcc_of_le (h.ordered r hr), Set.mem_Icc]

theorem compare (h : Gapped rs) (hr : r ∈ rs) (hs : s ∈ rs) :
    r = s ∨ r.2 + 1 < s.1 ∨ s.2 + 1 < r.1 := by
  by_cases heq : r = s
  · exact .inl heq
  · have hsymm : Std.Symm fun r s : Nat × Nat => r.2 + 1 < s.1 ∨ s.2 + 1 < r.1 :=
      ⟨fun _ _ h => h.symm⟩
    have hpair : rs.Pairwise fun r s => r.2 + 1 < s.1 ∨ s.2 + 1 < r.1 := h.apart.imp Or.inl
    exact .inr (hpair.forall hr hs heq)

/-- A range cannot be continued upwards. -/
theorem above (h : Gapped rs) (hr : r ∈ rs) : r.2 + 1 ∉ covered rs := by
  intro hmem
  obtain ⟨s, hs, hlo, hhi⟩ := h.mem_covered.1 hmem
  have hle := h.ordered r hr
  obtain rfl | hlt | hlt := h.compare hr hs <;> omega

/-- A range cannot be continued downwards. -/
theorem below (h : Gapped rs) (hr : r ∈ rs) {n : Nat} (hn : n + 1 = r.1) : n ∉ covered rs := by
  intro hmem
  obtain ⟨s, hs, hlo, hhi⟩ := h.mem_covered.1 hmem
  have hle := h.ordered r hr
  obtain rfl | hlt | hlt := h.compare hr hs <;> omega

theorem starts_nodup (h : Gapped rs) : (rs.map Prod.fst).Nodup := by
  rw [List.Nodup, List.pairwise_map]
  refine h.apart.imp_of_mem fun hr _ hlt heq => ?_
  have hle := h.ordered _ hr
  omega

/-- The lower end of a range is the lower end of a range of any list for the same set. -/
theorem start_mem (h : Gapped rs) (heq : covered rs = covered ss) (hr : r ∈ rs) :
    ∃ s ∈ ss, min s.1 s.2 = r.1 := by
  have hmem : r.1 ∈ covered rs := ⟨r, hr, Set.left_mem_uIcc⟩
  rw [heq] at hmem
  obtain ⟨s, hs, hlo, hhi⟩ := hmem
  refine ⟨s, hs, le_antisymm hlo (not_lt.1 fun hlt => ?_)⟩
  obtain ⟨n, hn⟩ : ∃ n, n + 1 = r.1 := ⟨r.1 - 1, by omega⟩
  have hlo' : min s.1 s.2 ≤ n := by omega
  have hn' : n ≤ r.1 := by omega
  exact h.below hr hn (heq ▸ ⟨s, hs, hlo', hn'.trans hhi⟩)

/-- The upper end, in the same way. -/
theorem end_mem (h : Gapped rs) (heq : covered rs = covered ss) (hr : r ∈ rs) :
    ∃ s ∈ ss, max s.1 s.2 = r.2 := by
  have hmem : r.2 ∈ covered rs := ⟨r, hr, Set.right_mem_uIcc⟩
  rw [heq] at hmem
  obtain ⟨s, hs, hlo, hhi⟩ := hmem
  refine ⟨s, hs, le_antisymm (not_lt.1 fun hlt => ?_) hhi⟩
  exact h.above hr (heq ▸ ⟨s, hs, hlo.trans (Nat.le_succ _), hlt⟩)

/-- No list of fewer ranges stands for the same set. -/
theorem length_le (h : Gapped rs) (heq : covered rs = covered ss) : rs.length ≤ ss.length := by
  have hsub : rs.map Prod.fst ⊆ ss.map fun s => min s.1 s.2 := by
    intro n hn
    obtain ⟨r, hr, rfl⟩ := List.mem_map.1 hn
    obtain ⟨s, hs, hmin⟩ := h.start_mem heq hr
    exact List.mem_map.2 ⟨s, hs, hmin⟩
  have hle := (h.starts_nodup.subperm hsub).length_le
  rwa [List.length_map, List.length_map] at hle

/-! ## The numbers it takes to write a range -/

theorem mem_marks {n : Nat} : n ∈ marks r ↔ n = r.1 ∨ n = r.2 := by
  unfold marks
  split
  · rename_i heq
    rw [List.mem_singleton, ← heq, or_self]
  · rw [List.mem_pair]

theorem marks_nodup (h : Gapped rs) : (rs.flatMap marks).Nodup := by
  rw [List.Nodup, List.pairwise_flatMap]
  refine ⟨fun r _ => ?_, h.apart.imp_of_mem fun hr hs hlt n hn n' hn' => ?_⟩
  · unfold marks
    split
    · exact List.nodup_singleton _
    · rename_i hne
      exact List.nodup_cons.2 ⟨by rwa [List.mem_singleton], List.nodup_singleton _⟩
  · have hle := h.ordered _ hr
    have hle' := h.ordered _ hs
    obtain rfl | rfl := mem_marks.1 hn <;> obtain heq | heq := mem_marks.1 hn' <;> omega

/-- Every number it takes is an end of some range of any list for the same set. -/
theorem marks_mem (h : Gapped rs) (heq : covered rs = covered ss) {n : Nat}
    (hn : n ∈ rs.flatMap marks) : ∃ s ∈ ss, n = s.1 ∨ n = s.2 := by
  obtain ⟨r, hr, hmark⟩ := List.mem_flatMap.1 hn
  obtain rfl | rfl := mem_marks.1 hmark
  · obtain ⟨s, hs, hmin⟩ := h.start_mem heq hr
    exact ⟨s, hs, by omega⟩
  · obtain ⟨s, hs, hmax⟩ := h.end_mem heq hr
    exact ⟨s, hs, by omega⟩

end Gapped

end CxxStd
