import Imap2Pst.Std.Buffer
import Imap2Pst.Std.Rows
import Mathlib.Data.Nat.Basic

/-!
# Std.Blocks

Rows of one size laid out in blocks of one size, so that no row straddles two blocks. Every block
but the last holds as many rows as it has room for, and is padded.

* `Blocked` — the layout.
* `Blocked.rows_eq` — cut into rows block by block, the blocks give the rows back.
* `Blocked.placed` — row `i` lies whole in block `i / perBlock`.
-/

namespace CxxStd

variable {cap size : Nat} {rows leaves : List Bytes}

def padTo (cap : Nat) (b : Bytes) : Bytes := b ++ List.replicate (cap - b.length) 0

/-- The whole rows of a block. -/
def rowsOf (size : Nat) (leaf : Bytes) : List Bytes :=
  (List.range (leaf.length / size)).map fun j => slice leaf (j * size) size

structure Blocked (cap size : Nat) (rows leaves : List Bytes) : Prop where
  split : ∃ (full : List (List Bytes)) (last : List Bytes),
    rows = full.flatten ++ last ∧
      leaves = full.map (fun p => padTo cap p.flatten) ++ [last.flatten] ∧
      (∀ p ∈ full, p.length = cap / size) ∧ 0 < last.length ∧ last.length ≤ cap / size

theorem padTo_length {b : Bytes} (h : b.length ≤ cap) : (padTo cap b).length = cap := by
  rw [padTo, List.length_append, List.length_replicate]
  omega

theorem length_flatten_rows {α : Type} {p : List (List α)} (hsize : ∀ r ∈ p, r.length = size) :
    p.flatten.length = p.length * size := by
  rw [← List.flatMap_id]
  exact length_flatMap_of_forall hsize

/-- A row among the rows of a block, whatever follows them. -/
theorem slice_flatten_append {p : List Bytes} (hsize : ∀ r ∈ p, r.length = size) (tail : Bytes)
    {j : Nat} (hj : j < p.length) : slice (p.flatten ++ tail) (j * size) size = p[j] := by
  have hsplit : p.flatten ++ tail =
      (p.take j).flatten ++ (p[j] ++ ((p.drop (j + 1)).flatten ++ tail)) := by
    conv_lhs => rw [← List.take_append_drop j p, List.drop_eq_getElem_cons hj]
    simp only [List.flatten_append, List.flatten_cons, List.append_assoc]
  have hfront : (p.take j).flatten.length = j * size := by
    rw [length_flatten_rows fun r hr => hsize r (List.mem_of_mem_take hr), List.length_take,
      Nat.min_eq_left hj.le]
  have hslice := slice_of_split hsplit hfront
  rwa [hsize _ (List.getElem_mem hj)] at hslice

/-- The rows of a block with room for no other one. -/
theorem rowsOf_append {p : List Bytes} (hpos : 0 < size) (hsize : ∀ r ∈ p, r.length = size)
    {tail : Bytes} (htail : tail.length < size) : rowsOf size (p.flatten ++ tail) = p := by
  have hcount : (p.flatten ++ tail).length / size = p.length := by
    rw [List.length_append, length_flatten_rows hsize, Nat.mul_comm, Nat.mul_add_div hpos,
      Nat.div_eq_of_lt htail, Nat.add_zero]
  apply List.ext_getElem
  · rw [rowsOf, List.length_map, List.length_range, hcount]
  · intro j h₁ h₂
    simp only [rowsOf, List.getElem_map, List.getElem_range]
    exact slice_flatten_append hsize tail h₂

theorem rowsOf_padTo {p : List Bytes} (hpos : 0 < size) (hsize : ∀ r ∈ p, r.length = size)
    (hfull : p.length = cap / size) : rowsOf size (padTo cap p.flatten) = p := by
  refine rowsOf_append hpos hsize ?_
  have hmod := Nat.mod_lt cap hpos
  have hdiv := Nat.div_add_mod cap size
  rw [List.length_replicate, length_flatten_rows hsize, hfull, Nat.mul_comm]
  omega

theorem rowsOf_flatten {p : List Bytes} (hpos : 0 < size) (hsize : ∀ r ∈ p, r.length = size) :
    rowsOf size p.flatten = p := by
  have h : rowsOf size (p.flatten ++ []) = p := rowsOf_append hpos hsize hpos
  rwa [List.append_nil] at h

/-- Cut into rows block by block, the blocks give the rows back. -/
theorem Blocked.rows_eq (h : Blocked cap size rows leaves) (hpos : 0 < size)
    (hsize : ∀ r ∈ rows, r.length = size) : leaves.flatMap (rowsOf size) = rows := by
  obtain ⟨full, last, rfl, rfl, hfull, _, _⟩ := h.split
  have hin (p) (hp : p ∈ full) (r) (hr : r ∈ p) : r.length = size :=
    hsize r (List.mem_append_left _ (List.mem_flatten.2 ⟨p, hp, hr⟩))
  rw [List.flatMap_append, List.flatMap_singleton, List.flatMap_map,
    rowsOf_flatten hpos fun r hr => hsize r (List.mem_append_right _ hr)]
  congr 1
  rw [List.flatMap_def]
  congr 1
  conv_rhs => rw [← List.map_id full]
  exact List.map_congr_left fun p hp => rowsOf_padTo hpos (hin p hp) (hfull p hp)

/-- Row `i` lies whole in block `i / perBlock`. -/
theorem Blocked.placed (h : Blocked cap size rows leaves)
    (hsize : ∀ r ∈ rows, r.length = size) {i : Nat} {row : Bytes} (hrow : rows[i]? = some row) :
    ∃ leaf, leaves[i / (cap / size)]? = some leaf ∧
      i % (cap / size) * size + size ≤ leaf.length ∧
      slice leaf (i % (cap / size) * size) size = row := by
  obtain ⟨full, last, rfl, rfl, hfull, hsome, hlast⟩ := h.split
  clear h
  have hper : 0 < cap / size := hsome.trans_le hlast
  have hfit : cap / size * size ≤ cap := Nat.div_mul_le_self cap size
  induction full generalizing i with
  | nil =>
    rw [List.flatten_nil, List.nil_append] at hrow hsize
    obtain ⟨hi, rfl⟩ := List.getElem?_eq_some_iff.1 hrow
    have hlt : i < cap / size := hi.trans_le hlast
    refine ⟨last.flatten, by rw [Nat.div_eq_of_lt hlt]; rfl, ?_, ?_⟩
    · rw [Nat.mod_eq_of_lt hlt, length_flatten_rows hsize, ← Nat.succ_mul]
      exact Nat.mul_le_mul_right size hi
    · have hslice := slice_flatten_append hsize [] hi
      rw [List.append_nil] at hslice
      rw [Nat.mod_eq_of_lt hlt]
      exact hslice
  | cons p full ih =>
    have hp := hfull p List.mem_cons_self
    rw [List.flatten_cons, List.append_assoc] at hrow hsize
    have hsizeP (r) (hr : r ∈ p) : r.length = size := hsize r (List.mem_append_left _ hr)
    by_cases hi : i < p.length
    · have hlt : i < cap / size := hp ▸ hi
      rw [List.getElem?_append_left hi] at hrow
      obtain ⟨_, rfl⟩ := List.getElem?_eq_some_iff.1 hrow
      refine ⟨padTo cap p.flatten, by rw [Nat.div_eq_of_lt hlt]; rfl, ?_, ?_⟩
      · have hle : p.flatten.length ≤ cap := by
          rw [length_flatten_rows hsizeP, hp]
          exact hfit
        have hmul := Nat.mul_le_mul_right size (Nat.succ_le_of_lt hlt)
        rw [Nat.mod_eq_of_lt hlt, padTo_length hle]
        rw [Nat.succ_mul] at hmul
        omega
      · rw [Nat.mod_eq_of_lt hlt]
        exact slice_flatten_append hsizeP _ hi
    · rw [List.getElem?_append_right (not_lt.1 hi), hp] at hrow
      obtain ⟨leaf, hleaf, hroom, hslice⟩ := ih (fun r hr => hsize r (List.mem_append_right _ hr))
        hrow fun q hq => hfull q (List.mem_cons_of_mem p hq)
      have hge : cap / size ≤ i := hp ▸ not_lt.1 hi
      have hdiv : i / (cap / size) = (i - cap / size) / (cap / size) + 1 := by
        rw [← Nat.add_div_right _ hper, Nat.sub_add_cancel hge]
      have hmod : i % (cap / size) = (i - cap / size) % (cap / size) := by
        rw [← Nat.add_mod_right (i - cap / size), Nat.sub_add_cancel hge]
      rw [hdiv, hmod]
      exact ⟨leaf, hleaf, hroom, hslice⟩

end CxxStd
