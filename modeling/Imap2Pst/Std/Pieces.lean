import Mathlib.Data.List.Basic
import Mathlib.Data.List.Induction

/-!
# Std.Pieces

A list cut into pieces of `n` elements, the last one shorter: what the loop
`for (i = 0; i < l.size(); i += n)` hands on.
-/

namespace CxxStd

variable {α : Type}

/-- The number of passes of `for (i = 0; i < len; i += step)`. -/
def passes (len step : Nat) : Nat := (len + step - 1) / step

theorem lt_passes {len step k : Nat} (hstep : 0 < step) : k < passes len step ↔ k * step < len := by
  rw [passes, Nat.lt_div_iff_mul_lt hstep]
  omega

theorem passes_le {len step m : Nat} (hstep : 0 < step) (h : len ≤ m * step) :
    passes len step ≤ m := by
  by_contra hgt
  have hlt := (lt_passes hstep).1 (Nat.not_le.1 hgt)
  omega

def pieces (n : Nat) (l : List α) : List (List α) :=
  (List.range (passes l.length n)).map fun k => (l.drop (k * n)).take n

@[simp] theorem pieces_length (n : Nat) (l : List α) :
    (pieces n l).length = passes l.length n := by simp [pieces]

theorem getElem_pieces {n k : Nat} {l : List α} (h : k < (pieces n l).length) :
    (pieces n l)[k] = (l.drop (k * n)).take n := by simp [pieces]

theorem pieces_nil {n : Nat} (hn : 0 < n) : pieces n ([] : List α) = [] := by
  have hzero : passes ([] : List α).length n = 0 := Nat.div_eq_of_lt (by simp; omega)
  rw [pieces, hzero]
  rfl

/-- The first piece, and the pieces of the rest. -/
theorem pieces_eq_cons {n : Nat} (hn : 0 < n) {l : List α} (hl : l ≠ []) :
    pieces n l = l.take n :: pieces n (l.drop n) := by
  have hlen : 0 < l.length := List.length_pos_iff.2 hl
  have hsucc : passes l.length n = passes (l.drop n).length n + 1 := by
    rw [passes, passes, List.length_drop]
    by_cases hle : n ≤ l.length
    · rw [show l.length + n - 1 = (l.length - n + n - 1) + n by omega, Nat.add_div_right _ hn]
    · rw [show l.length - n = 0 by omega, Nat.div_eq_of_lt (by omega : 0 + n - 1 < n)]
      exact Nat.div_eq_of_lt_le (by omega) (by omega)
  rw [pieces, hsucc, List.range_succ_eq_map, List.map_cons, List.map_map, Nat.zero_mul,
    List.drop_zero]
  congr 1
  apply List.map_congr_left
  intro k _
  simp [List.drop_drop, Nat.succ_mul, Nat.add_comm]

theorem pieces_flatten {n : Nat} (hn : 0 < n) (l : List α) : (pieces n l).flatten = l := by
  induction hlen : l.length using Nat.strongRecOn generalizing l with
  | ind m ih =>
    by_cases hl : l = []
    · rw [hl, pieces_nil hn]
      rfl
    · have hpos : 0 < l.length := List.length_pos_iff.2 hl
      rw [pieces_eq_cons hn hl, List.flatten_cons,
        ih (l.drop n).length (by rw [List.length_drop]; omega) _ rfl, List.take_append_drop]

theorem flatMap_pieces {β : Type} {n : Nat} (hn : 0 < n) (l : List α) (f : α → List β) :
    ((pieces n l).flatMap fun p => p.flatMap f) = l.flatMap f := by
  have hflat (ps : List (List α)) : (ps.flatMap fun p => p.flatMap f) = ps.flatten.flatMap f := by
    induction ps with
    | nil => rfl
    | cons p ps ih => rw [List.flatMap_cons, ih, List.flatten_cons, List.flatMap_append]
  rw [hflat, pieces_flatten hn]

theorem pieces_drop {n : Nat} (hn : 0 < n) (l : List α) (k : Nat) :
    (pieces n l).drop k = pieces n (l.drop (k * n)) := by
  induction k generalizing l with
  | zero => rw [Nat.zero_mul, List.drop_zero, List.drop_zero]
  | succ k ih =>
    by_cases hl : l = []
    · rw [hl, List.drop_nil, pieces_nil hn, List.drop_nil]
    · rw [pieces_eq_cons hn hl, List.drop_succ_cons, ih, List.drop_drop, Nat.succ_mul, Nat.add_comm]

theorem pieces_take_flatten {n : Nat} (hn : 0 < n) (l : List α) (k : Nat) :
    ((pieces n l).take k).flatten = l.take (k * n) := by
  induction k generalizing l with
  | zero => rw [Nat.zero_mul, List.take_zero, List.take_zero, List.flatten_nil]
  | succ k ih =>
    by_cases hl : l = []
    · rw [hl, List.take_nil, pieces_nil hn, List.take_nil, List.flatten_nil]
    · rw [pieces_eq_cons hn hl, List.take_succ_cons, List.flatten_cons, ih, Nat.succ_mul,
        Nat.add_comm, List.take_add]

/-- Every piece but the last one is whole. -/
theorem length_of_mem_dropLast_pieces {n : Nat} (hn : 0 < n) {l p : List α}
    (h : p ∈ (pieces n l).dropLast) : p.length = n := by
  obtain ⟨k, hk, rfl⟩ := List.mem_iff_getElem.1 h
  rw [List.length_dropLast, pieces_length] at hk
  have hnext := (lt_passes hn).1 (show k + 1 < passes l.length n by omega)
  rw [Nat.succ_mul] at hnext
  rw [List.getElem_dropLast, getElem_pieces, List.length_take, List.length_drop]
  omega

theorem mem_of_mem_pieces {n : Nat} (hn : 0 < n) {l p : List α} (h : p ∈ pieces n l) {a : α}
    (ha : a ∈ p) : a ∈ l := by
  rw [← pieces_flatten hn l]
  exact List.mem_flatten.2 ⟨p, h, ha⟩

/-- A piece is not empty and has at most `n` elements. -/
theorem length_of_mem_pieces {n : Nat} (hn : 0 < n) {l p : List α} (h : p ∈ pieces n l) :
    0 < p.length ∧ p.length ≤ n := by
  obtain ⟨k, hk, rfl⟩ := List.mem_map.1 h
  have hk := (lt_passes hn).1 (List.mem_range.1 hk)
  simp only [List.length_take, List.length_drop]
  omega

theorem pieces_of_length_le {n : Nat} {l : List α} (hsome : l ≠ []) (hle : l.length ≤ n) :
    pieces n l = [l] := by
  have hpos := List.length_pos_iff.2 hsome
  rw [pieces_eq_cons (by omega) hsome, List.take_of_length_le hle,
    List.drop_eq_nil_of_le hle, pieces_nil (by omega)]

theorem pieces_map {β : Type} (f : α → β) (n : Nat) (l : List α) :
    pieces n (l.map f) = (pieces n l).map (List.map f) := by
  simp [pieces, List.map_take, List.map_drop]

/-- Runs of `n` elements and a shorter last one, laid end to end, are cut where they meet. -/
theorem pieces_append_flatten {n : Nat} (hn : 0 < n) {full : List (List α)} {last : List α}
    (hfull : ∀ l ∈ full, l.length = n) (hsome : last ≠ []) (hlast : last.length ≤ n) :
    pieces n (full.flatten ++ last) = full ++ [last] := by
  induction full with
  | nil => exact pieces_of_length_le hsome hlast
  | cons l full ih =>
    have hl := hfull l List.mem_cons_self
    rw [List.flatten_cons, List.append_assoc, pieces_eq_cons hn (by simp [hsome]),
      List.take_left' hl, List.drop_left' hl, ih fun l' hl' => hfull l' (List.mem_cons_of_mem _ hl')]
    rfl

end CxxStd
