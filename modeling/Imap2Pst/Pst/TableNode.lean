import Imap2Pst.Pst.StreamingTable

/-!
# Pst.TableNode

A table in a node of its own, given row by row.

* `tableCalls` — the calls that make the rows, one after the other.
* `Table.HasRows` — rows as their reader finds them, cell by cell.
* `TableAt` — the table at a node; `TableAt.hasRows`: what a reader makes of it.
* `TableContext.rows_spec_of` — the writer leaves the table at the node.
-/

namespace Imap2Pst
namespace Pst

open CxxStd

/-- The calls that make these rows. -/
def tableCalls (rows : List RowCalls) : List TableCall :=
  rows.zipIdx.flatMap fun (r, i) => .addRow r.rowId :: r.sets.map fun e => .set i e.1 e.2

/-- The setters of the last row. -/
theorem apply_sets (done : List RowSpec) (spec : RowSpec) (sets : List (Nat × CellValue)) :
    (sets.map fun e => TableCall.set done.length e.1 e.2).foldl TableCall.apply (done ++ [spec]) =
      done ++ [sets.foldl (fun spec e => spec.set e.1 e.2) spec] := by
  induction sets generalizing spec with
  | nil => rfl
  | cons e sets ih =>
    rw [List.map_cons, List.foldl_cons, List.foldl_cons, TableCall.apply,
      TableContext.modify_last, ih]

theorem apply_tableCalls (rows : List RowCalls) :
    (tableCalls rows).foldl TableCall.apply [] = rows.map RowCalls.spec := by
  suffices h : ∀ (rows : List RowCalls) (done : List RowSpec),
      ((rows.zipIdx done.length).flatMap fun (r, i) =>
        TableCall.addRow r.rowId :: r.sets.map fun e => .set i e.1 e.2).foldl TableCall.apply done =
      done ++ rows.map RowCalls.spec from h rows []
  intro rows
  induction rows with
  | nil => simp
  | cons r rows ih =>
    intro done
    have hnext := ih (done ++ [r.spec])
    rw [List.length_append, List.length_singleton] at hnext
    rw [List.zipIdx_cons, List.flatMap_cons, List.foldl_append, List.foldl_cons]
    have hrow : (r.sets.map fun e => TableCall.set done.length e.1 e.2).foldl TableCall.apply
        (TableCall.apply done (.addRow r.rowId)) = done ++ [r.spec] := apply_sets done _ r.sets
    rw [hrow, hnext, List.map_cons, List.append_assoc, List.singleton_append]

/-- The table with these columns and rows is at the node. -/
def TableAt (std : StdSort) (w : NdbWriter) (data sub : Nat) (columns : List Nat)
    (rows : List RowCalls) : Prop :=
  ∃ h entries, NodeAt w data sub h entries ∧
    TableIn w h entries std (layout (declared columns)) (rows.map RowCalls.spec)

theorem TableAt.mono {std : StdSort} {w w' : NdbWriter} {data sub : Nat} {columns : List Nat}
    {rows : List RowCalls} (h : TableAt std w data sub columns rows) (hg : Grows w w') :
    TableAt std w' data sub columns rows := by
  obtain ⟨heap, entries, hnode, htable⟩ := h
  exact ⟨heap, entries, hnode.mono hg, htable.mono hg (List.Subset.refl _)⟩

/-! ## Cells -/

theorem mem_declared {columns : List Nat} {tag : Nat} (h : tag ∈ columns) :
    tag ∈ declared columns := by
  suffices hall : ∀ before : List Nat, tag ∈ before ∨ tag ∈ columns →
      tag ∈ columns.foldl addTag before from hall autoTags (.inr h)
  clear h
  induction columns with
  | nil => exact fun before h => h.resolve_right List.not_mem_nil
  | cons tag' columns ih =>
    intro before h
    refine ih _ ?_
    unfold addTag
    split
    · rename_i hold
      rcases h with h | h
      · exact .inl h
      · rcases List.mem_cons.1 h with rfl | h
        · exact .inl hold
        · exact .inr h
    · rcases h with h | h
      · exact .inl (List.mem_append_left _ h)
      · rcases List.mem_cons.1 h with rfl | h
        · exact .inl (List.mem_append_right _ (List.mem_singleton_self _))
        · exact .inr h

namespace Table

/-- The cell of row `i` in the column with this tag. -/
def cell (t : Table) (i tag : Nat) : Option Bytes := do
  let row ← t.rows[i]?
  let j ← t.columns.findIdx? fun c => c.tag = tag
  (row[j]?).join

/-- The rows are these, in this order: a cell has the value it was set to, or none. -/
structure HasRows (columns : List Nat) (t : Table) (rows : List RowCalls) : Prop where
  count : t.rows.length = rows.length
  cell : ∀ i r, rows[i]? = some r → ∀ e ∈ r.sets, t.cell i e.1 = some (e.2.bytes e.1)
  unset : ∀ i r, rows[i]? = some r → ∀ tag ∈ columns, tag ∉ r.sets.map Prod.fst →
    tag ∉ autoTags → t.cell i tag = none
  ordinal : ∀ i r, rows[i]? = some r → t.ordinal r.rowId = some i

/-- The columns of a layout are those that were declared. -/
theorem mem_layout_columns {columns : List Nat} (hfew : columns.length ≤ 253) {tag : Nat}
    (htag : tag ∈ declared columns) : ∃ c ∈ (layout (declared columns)).columns, c.tag = tag := by
  obtain ⟨-, htags⟩ := declared_fits hfew
  rw [← htags] at htag
  exact List.mem_map.1 htag

theorem cell_of (std : StdSort) {columns : List Nat} (hfew : columns.length ≤ 253)
    {specs : List RowSpec} {i tag : Nat} {r : RowSpec} (hr : specs[i]? = some r)
    (htag : tag ∈ declared columns) :
    (Table.of std (layout (declared columns)) specs).cell i tag = r.cells tag := by
  obtain ⟨c, hc, rfl⟩ := mem_layout_columns hfew htag
  have hmem : c ∈ std.sort (byKey Column.tag) (layout (declared columns)).columns :=
    (std.perm _ _).mem_iff.2 hc
  obtain ⟨j, hj⟩ := Option.isSome_iff_exists.1
    (List.findIdx?_isSome.trans (List.any_eq_true.2 ⟨c, hmem, decide_eq_true rfl⟩) :
      ((std.sort (byKey Column.tag) (layout (declared columns)).columns).findIdx?
        fun d => d.tag = c.tag).isSome = true)
  obtain ⟨hlt, htag, -⟩ := List.findIdx?_eq_some_iff_getElem.1 hj
  simp only [cell, Table.of, List.getElem?_map, hr, Option.map_some, Option.bind_eq_bind,
    Option.bind_some, hj, List.getElem?_eq_getElem hlt, of_decide_eq_true htag, Option.join_some]

end Table

/-- The value of a cell that is set once. -/
theorem RowCalls.values_of_mem {r : RowCalls} (hnodup : (r.sets.map Prod.fst).Nodup)
    {e : Nat × CellValue} (he : e ∈ r.sets) : r.spec.values e.1 = some e.2 := by
  obtain ⟨rowId, sets⟩ := r
  suffices h : ∀ (sets : List (Nat × CellValue)) (spec : RowSpec), (sets.map Prod.fst).Nodup →
      (e ∈ sets → (sets.foldl (fun spec e => spec.set e.1 e.2) spec).values e.1 = some e.2) ∧
      (e.1 ∉ sets.map Prod.fst →
        (sets.foldl (fun spec e => spec.set e.1 e.2) spec).values e.1 = spec.values e.1) from
    (h sets (.new rowId) hnodup).1 he
  intro sets
  induction sets with
  | nil => exact fun spec _ => ⟨fun h => absurd h List.not_mem_nil, fun _ => rfl⟩
  | cons d sets ih =>
    intro spec hnodup
    obtain ⟨hnew, hnodup⟩ := List.nodup_cons.1 hnodup
    obtain ⟨hset, hkept⟩ := ih (spec.set d.1 d.2) hnodup
    rw [List.foldl_cons]
    constructor
    · intro hmem
      rcases List.mem_cons.1 hmem with rfl | hmem
      · rw [hkept hnew, RowSpec.values_set_self]
      · exact hset hmem
    · intro hnot
      obtain ⟨hne, hnot⟩ := not_or.1 (mt List.mem_cons.2 hnot)
      rw [hkept hnot, RowSpec.values_set_of_ne _ _ hne]

theorem RowCalls.values_unset {r : RowCalls} {tag : Nat} (h : tag ∉ r.sets.map Prod.fst)
    (hauto : tag ∉ autoTags) : r.spec.values tag = none := by
  obtain ⟨rowId, sets⟩ := r
  have hnew : (RowSpec.new rowId).values tag = none := by
    obtain ⟨hid, hver⟩ := not_or.1 (mt List.mem_cons.2 hauto)
    rw [RowSpec.new, RowSpec.values_set_of_ne _ _ (mt List.mem_singleton.2 hver),
      RowSpec.values_set_of_ne _ _ hid]
  suffices hall : ∀ (sets : List (Nat × CellValue)) (spec : RowSpec), tag ∉ sets.map Prod.fst →
      (sets.foldl (fun spec e => spec.set e.1 e.2) spec).values tag = spec.values tag from
    (hall sets _ h).trans hnew
  intro sets
  induction sets with
  | nil => exact fun _ _ => rfl
  | cons d sets ih =>
    intro spec h
    obtain ⟨hne, h⟩ := not_or.1 (mt List.mem_cons.2 h)
    rw [List.foldl_cons, ih _ h, RowSpec.values_set_of_ne _ _ hne]

/-- What is fixed about a table: its columns, and setters for their types, each cell set once. -/
structure Tabular (columns : List Nat) (rows : List RowCalls) : Prop where
  few : columns.length ≤ 253
  tags : ∀ tag ∈ columns, tag < 2 ^ 32
  ids : ∀ r ∈ rows, r.rowId < 2 ^ 32
  matching : ∀ r ∈ rows, r.Matches
  declared : ∀ r ∈ rows, ∀ e ∈ r.sets, e.1 ∈ columns
  once : ∀ r ∈ rows, (r.sets.map Prod.fst).Nodup

/-- The octets of a fixed-width value, or 0. -/
def CellValue.width : CellValue → Nat
  | .int16 _ => 2
  | .int32 _ => 4
  | .bool _ => 1
  | .int64 _ => 8
  | .string _ | .binary _ => 0

theorem CellValue.matches_iff {tag : Nat} {v : CellValue} :
    v.Matches tag ↔ fixedPropSize (tagType tag) = v.width := by
  cases v <;> rfl

/-- The columns that a row sets, each with the width of its value. -/
def RowCalls.shape (r : RowCalls) : List (Nat × Nat) := r.sets.map fun e => (e.1, e.2.width)

/-- Rows that set the same columns, to values of the same widths. -/
theorem Tabular.of_shape {columns : List Nat} {rows : List RowCalls} (shape : List (Nat × Nat))
    (hfew : columns.length ≤ 253) (htags : ∀ tag ∈ columns, tag < 2 ^ 32)
    (hids : ∀ r ∈ rows, r.rowId < 2 ^ 32) (hshape : ∀ r ∈ rows, r.shape = shape)
    (hmatching : ∀ s ∈ shape, fixedPropSize (tagType s.1) = s.2)
    (hdeclared : shape.map Prod.fst ⊆ columns) (honce : (shape.map Prod.fst).Nodup) :
    Tabular columns rows := by
  have htagsOf (r : RowCalls) (hr : r ∈ rows) : r.sets.map Prod.fst = shape.map Prod.fst := by
    rw [← hshape r hr, RowCalls.shape, List.map_map]
    rfl
  have hmem (r : RowCalls) (hr : r ∈ rows) (e : Nat × CellValue) (he : e ∈ r.sets) :
      (e.1, e.2.width) ∈ shape := hshape r hr ▸ List.mem_map_of_mem he
  refine ⟨hfew, htags, hids, fun r hr e he => ?_, fun r hr e he => ?_, fun r hr => ?_⟩
  · exact CellValue.matches_iff.2 (hmatching _ (hmem r hr e he))
  · exact hdeclared (List.mem_map_of_mem (hmem r hr e he))
  · rw [htagsOf r hr]
    exact honce

/-- What a reader makes of it. -/
theorem TableAt.hasRows {std : StdSort} {w : NdbWriter} {data sub : Nat} {columns : List Nat}
    {rows : List RowCalls} (h : TableAt std w data sub columns rows) (ht : Tabular columns rows)
    (hnodup : (rows.map RowCalls.rowId).Nodup) {store : Store} (hc : Covers store w) :
    ∃ t, readTable store data sub = some t ∧ t.HasRows columns rows := by
  obtain ⟨heap, entries, hnode, htable⟩ := h
  have hids : ((rows.map RowCalls.spec).map RowSpec.rowId).Nodup := by
    rw [List.map_map, List.map_congr_left fun r _ => r.rowId_spec]
    exact hnodup
  have hspec {i : Nat} {r : RowCalls} (hr : rows[i]? = some r) :
      (rows.map RowCalls.spec)[i]? = some r.spec := by rw [List.getElem?_map, hr]; rfl
  refine ⟨_, (htable.reads hnode hc).1, ?_, fun i r hr e he => ?_,
    fun i r hr tag htag hnot hauto => ?_, fun i r hr => ?_⟩
  · rw [Table.of, List.length_map, List.length_map]
  · have hmem := List.mem_of_getElem? hr
    rw [Table.cell_of std ht.few (hspec hr) (mem_declared (ht.declared r hmem e he)), RowSpec.cells,
      RowCalls.values_of_mem (ht.once r hmem) he]
    rfl
  · rw [Table.cell_of std ht.few (hspec hr) (mem_declared htag), RowSpec.cells,
      RowCalls.values_unset hnot hauto]
    rfl
  · rw [← r.rowId_spec]
    exact Table.ordinal_of hids (hspec hr)

namespace TableContext

/-- A row takes so many octets that the ids of rows that fit in a data tree differ. -/
theorem rows_spec_of {std : StdSort} {columns : List Nat} {rows : List RowCalls}
    (ht : Tabular columns rows)
    (hnodup : rows.length * (layout (declared columns)).tciBm ≤ 2 ^ 32 →
      (rows.map RowCalls.rowId).Nodup)
    {n : NodeData} {w w' : NdbWriter} (hrun : node std columns (tableCalls rows) w = .ok n w')
    (hs : Sound w) : Grows w w' ∧ n.Fits ∧ TableAt std w' n.data n.sub columns rows ∧
      rows.length * (layout (declared columns)).tciBm ≤ 2 ^ 32 := by
  have htyped : ∀ r ∈ (tableCalls rows).foldl TableCall.apply [], r.Typed := by
    rw [apply_tableCalls]
    intro spec hspec
    obtain ⟨r, hr, rfl⟩ := List.mem_map.1 hspec
    exact (ht.matching r hr).typed
  have hfew := node_few ht.few htyped hrun hs
  rw [apply_tableCalls, List.length_map] at hfew
  have ha := admissible_of_calls ht.few ht.tags ht.ids (hnodup hfew) ht.matching
  obtain ⟨hg, hfits, hnode⟩ := node_written ((apply_tableCalls rows).symm ▸ ha) hrun hs
  rw [apply_tableCalls] at hnode
  exact ⟨hg, hfits, hnode, hfew⟩

end TableContext

end Pst
end Imap2Pst
