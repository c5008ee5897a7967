import Imap2Pst.Pst.Bth
import Imap2Pst.Pst.Columns
import Imap2Pst.Pst.Node
import Imap2Pst.Pst.Values
import Imap2Pst.Std.Blocks
import Mathlib.Data.List.Forall2

/-!
# Pst.Table

Tables as both writers of `pst/ltp.cpp` and `pst/streaming_table.cpp` leave them, and their reader.

* `RowSpec` — a row as the setters define it: a value for some of the columns.
* `readTable` — the reader: column descriptors, rows, row index.
* `TableIn` — the heap of a node holds a table; `TableIn.reads`: what the reader makes of it.
-/

namespace Imap2Pst
namespace Pst

open CxxStd

/-! ## Cells -/

/-- What a setter is given. -/
inductive CellValue where
  | int16 (v : Nat)
  | int32 (v : Nat)
  | bool (v : Bool)
  | int64 (v : Nat)
  | string (utf8 : Bytes)
  | binary (data : Bytes)
  deriving DecidableEq, Repr

namespace CellValue

/-- The octets of a value in a column of this tag. -/
def bytes (tag : Nat) : CellValue → Bytes
  | .int16 v => le 2 v
  | .int32 v => le 4 v
  | .bool v => [if v then 1 else 0]
  | .int64 v => le 8 v
  | .string utf8 => stringBytes tag utf8
  | .binary data => data

def isVariable : CellValue → Bool
  | .string _ | .binary _ => true
  | _ => false

/-- The setter is one for the type of the column. -/
def Matches (tag : Nat) : CellValue → Prop
  | .int16 _ => fixedPropSize (tagType tag) = 2
  | .int32 _ => fixedPropSize (tagType tag) = 4
  | .bool _ => fixedPropSize (tagType tag) = 1
  | .int64 _ => fixedPropSize (tagType tag) = 8
  | .string _ | .binary _ => fixedPropSize (tagType tag) = 0

theorem Matches.variable {tag : Nat} {v : CellValue} (h : v.Matches tag)
    (hv : v.isVariable = true) : fixedPropSize (tagType tag) = 0 := by
  cases v <;> first | exact h | cases hv

theorem Matches.fixed {tag : Nat} {v : CellValue} (h : v.Matches tag)
    (hv : v.isVariable = false) :
    fixedPropSize (tagType tag) ≠ 0 ∧ (v.bytes tag).length = cellWidth tag := by
  unfold Matches at h
  cases v <;> simp only [isVariable, reduceCtorEq] at hv h <;>
    simp [cellWidth, h, bytes]

end CellValue

/-! ## Rows -/

/-- A row: its id, and the value of each cell that has one, by the tag of its column. -/
structure RowSpec where
  rowId : Nat
  values : Nat → Option CellValue

namespace RowSpec

/-- A value for a cell, in place of any it had. -/
def set (tag : Nat) (v : CellValue) (r : RowSpec) : RowSpec :=
  { r with values := Function.update r.values tag (some v) }

/-- A row as it is begun. -/
def new (rowId : Nat) : RowSpec :=
  .set PidTagLtpRowVer (.int32 1) (.set PidTagLtpRowId (.int32 rowId) ⟨rowId, fun _ => none⟩)

/-- The octets of the cells. -/
def cells (r : RowSpec) (tag : Nat) : Option Bytes := (r.values tag).map (CellValue.bytes tag)

theorem values_set_self (r : RowSpec) (tag : Nat) (v : CellValue) :
    (r.set tag v).values tag = some v := Function.update_self tag _ r.values

theorem values_set_of_ne (r : RowSpec) {tag tag' : Nat} (v : CellValue) (h : tag' ≠ tag) :
    (r.set tag v).values tag' = r.values tag' := Function.update_of_ne h _ r.values

/-- The order of two setters does not matter when they set two cells. -/
theorem set_comm (r : RowSpec) {tag tag' : Nat} (h : tag ≠ tag') (v v' : CellValue) :
    (r.set tag v).set tag' v' = (r.set tag' v').set tag v := by
  unfold set
  rw [Function.update_comm h]

theorem cells_set (r : RowSpec) (tag : Nat) (v : CellValue) :
    (r.set tag v).cells = Function.update r.cells tag (some (v.bytes tag)) := by
  funext tag'
  by_cases h : tag' = tag
  · subst h
    rw [cells, values_set_self, Function.update_self]
    rfl
  · rw [cells, values_set_of_ne r v h, Function.update_of_ne h]
    rfl

/-- Every value was set by a setter for the type of its column. -/
def Typed (r : RowSpec) : Prop := ∀ tag v, r.values tag = some v → v.Matches tag

theorem Typed.set {r : RowSpec} (h : r.Typed) {tag : Nat} {v : CellValue} (hv : v.Matches tag) :
    (r.set tag v).Typed := by
  intro tag' v' hvalue
  by_cases heq : tag' = tag
  · subst heq
    rw [values_set_self] at hvalue
    cases hvalue
    exact hv
  · rw [values_set_of_ne r v heq] at hvalue
    exact h tag' v' hvalue

theorem typed_new (rowId : Nat) : (new rowId).Typed := by
  have hempty : Typed ⟨rowId, fun _ => none⟩ := fun _ _ h => by cases h
  have hid : (set PidTagLtpRowId (.int32 rowId) ⟨rowId, fun _ => none⟩).Typed := hempty.set rfl
  exact hid.set rfl

end RowSpec

/-! ## The reader -/

/-- TCINFO. `rgTCOLDESC` is in tag order. -/
def tcInfo (std : StdSort) (lay : Layout) (hidRowIndex hnidRows : Nat) : Bytes :=
  [kHnSigTC, lay.columns.length.toUInt8] ++
    (le 2 lay.tci4b ++ le 2 lay.tci2b ++ le 2 lay.tci1b ++ le 2 lay.tciBm) ++
    le 4 hidRowIndex ++ le 4 hnidRows ++ le 4 0 ++
    (std.sort (byKey Column.tag) lay.columns).flatMap fun c =>
      le 4 c.tag ++ le 2 c.ib ++ [c.cb.toUInt8, c.ibit.toUInt8]

/-- A table as its reader has it: descriptors, the cells of each row in the order of the
descriptors, and the row index. -/
structure Table where
  columns : List Column
  rows : List (List (Option Bytes))
  ordinal : Nat → Option Nat

/-- A column descriptor. -/
def readColumn (b : Bytes) : Column :=
  ⟨fromLe (slice b 0 4), fromLe (slice b 4 2), (b.getD 6 0).toNat, (b.getD 7 0).toNat⟩

/-- The layout that TCINFO describes. -/
def readLayout (info : Bytes) : Layout where
  columns := (List.range (info.getD 1 0).toNat).map fun i => readColumn (slice info (22 + i * 8) 8)
  tci4b := fromLe (slice info 2 2)
  tci2b := fromLe (slice info 4 2)
  tci1b := fromLe (slice info 6 2)
  tciBm := fromLe (slice info 8 2)

/-- A cell: `some none` when it does not exist. -/
def readCell (store : Store) (n : NodeView) (lay : Layout) (row : Bytes) (c : Column) :
    Option (Option Bytes) :=
  match lay.field row c with
  | none => some none
  | some b =>
    if fixedPropSize (tagType c.tag) ≠ 0 then some (some b)
    else if fromLe b = 0 then some (some [])
    else (n.value store (fromLe b)).map some

def readRow (store : Store) (n : NodeView) (lay : Layout) (row : Bytes) :
    Option (List (Option Bytes)) :=
  lay.columns.mapM (readCell store n lay row)

/-- TCINFO, the row index and the blocks of the row storage. -/
def readTableInfo (store : Store) (n : NodeView) : Option (Layout × Nat × List Bytes) := do
  let root ← heapUserRoot n.blocks
  let info ← heapItem n.blocks root
  if info.getD 0 0 ≠ kHnSigTC then none
  else do
    let hnidRows := fromLe (slice info 14 4)
    let leaves ← if hnidRows = 0 then some [] else n.leaves store hnidRows
    pure (readLayout info, fromLe (slice info 10 4), leaves)

def readTable (store : Store) (data sub : Nat) : Option Table := do
  let n ← readNode store data sub
  let (lay, hidRowIndex, leaves) ← readTableInfo store n
  let rows ← (leaves.flatMap (rowsOf lay.tciBm)).mapM (readRow store n lay)
  pure
    { columns := lay.columns
      rows
      ordinal := fun rowId => (bthLookup (heapItem n.blocks) hidRowIndex rowId).map fromLe }

/-! ## Rows that hold their cells -/

/-- The octets of a row that stand for the octets of a cell. -/
def FieldOf (w : NdbWriter) (blocks : List HeapBlock) (entries : List SubnodeEntry) (tag : Nat)
    (f b : Bytes) : Prop :=
  if fixedPropSize (tagType tag) ≠ 0 then f = b
  else ∃ hnid, f = le 4 hnid ∧ hnid < 2 ^ 32 ∧ (hnid = 0 ∧ b = [] ∨
    hnid ≠ 0 ∧ ∃ leaves, Stored w blocks entries hnid leaves ∧ leaves.flatten = b)

theorem FieldOf.mono {w w' : NdbWriter} {blocks blocks' : List HeapBlock}
    {entries entries' : List SubnodeEntry} {tag : Nat} {f b : Bytes}
    (h : FieldOf w blocks entries tag f b) (hw : Grows w w')
    (hh : ∀ hid item, HasItem blocks hid item → HasItem blocks' hid item)
    (hsub : entries ⊆ entries') : FieldOf w' blocks' entries' tag f b := by
  unfold FieldOf at h ⊢
  split
  · rename_i hfixed
    rwa [if_pos hfixed] at h
  · rename_i hvariable
    rw [if_neg hvariable] at h
    obtain ⟨hnid, hf, hlt, hempty | ⟨hne, leaves, hstored, hflat⟩⟩ := h
    · exact ⟨hnid, hf, hlt, .inl hempty⟩
    · exact ⟨hnid, hf, hlt, .inr ⟨hne, leaves, hstored.mono hw hh hsub, hflat⟩⟩

theorem FieldOf.fixed (w : NdbWriter) (blocks : List HeapBlock) (entries : List SubnodeEntry)
    {tag : Nat} (b : Bytes) (h : fixedPropSize (tagType tag) ≠ 0) :
    FieldOf w blocks entries tag b b := by
  unfold FieldOf
  rw [if_pos h]

theorem FieldOf.variable {w : NdbWriter} {blocks : List HeapBlock} {entries : List SubnodeEntry}
    {tag hnid : Nat} {b : Bytes} (h : fixedPropSize (tagType tag) = 0) (hlt : hnid < 2 ^ 32)
    (hb : hnid = 0 ∧ b = [] ∨
      hnid ≠ 0 ∧ ∃ leaves, Stored w blocks entries hnid leaves ∧ leaves.flatten = b) :
    FieldOf w blocks entries tag (le 4 hnid) b := by
  unfold FieldOf
  rw [if_neg (not_not.2 h)]
  exact ⟨hnid, rfl, hlt, hb⟩

theorem cellWidth_variable {tag : Nat} (h : fixedPropSize (tagType tag) = 0) :
    cellWidth tag = 4 := if_pos h

/-- The row has these cells, and no others. -/
structure RowHolds (w : NdbWriter) (blocks : List HeapBlock) (entries : List SubnodeEntry)
    (lay : Layout) (row : Bytes) (cells : Nat → Option Bytes) : Prop where
  length : row.length = lay.tciBm
  cell : ∀ c ∈ lay.columns,
    Option.Rel (FieldOf w blocks entries c.tag) (lay.field row c) (cells c.tag)

theorem RowHolds.mono {w w' : NdbWriter} {blocks blocks' : List HeapBlock}
    {entries entries' : List SubnodeEntry} {lay : Layout} {row : Bytes}
    {cells : Nat → Option Bytes} (h : RowHolds w blocks entries lay row cells) (hw : Grows w w')
    (hh : ∀ hid item, HasItem blocks hid item → HasItem blocks' hid item)
    (hsub : entries ⊆ entries') : RowHolds w' blocks' entries' lay row cells := by
  refine ⟨h.length, fun c hc => ?_⟩
  have hcell := h.cell c hc
  generalize lay.field row c = field at hcell ⊢
  generalize cells c.tag = cell at hcell ⊢
  cases hcell with
  | none => exact .none
  | some hf => exact .some (hf.mono hw hh hsub)

theorem RowHolds.empty (w : NdbWriter) (blocks : List HeapBlock) (entries : List SubnodeEntry)
    (lay : Layout) : RowHolds w blocks entries lay lay.emptyRow fun _ => none := by
  refine ⟨List.length_replicate, fun c _ => ?_⟩
  rw [Layout.field_emptyRow]
  exact .none

theorem RowHolds.congr {w : NdbWriter} {blocks : List HeapBlock} {entries : List SubnodeEntry}
    {lay : Layout} {row : Bytes} {cells cells' : Nat → Option Bytes}
    (h : RowHolds w blocks entries lay row cells)
    (heq : ∀ c ∈ lay.columns, cells c.tag = cells' c.tag) :
    RowHolds w blocks entries lay row cells' :=
  ⟨h.length, fun c hc => heq c hc ▸ h.cell c hc⟩

/-- One more cell, or another value for a cell. -/
theorem RowHolds.put {w : NdbWriter} {blocks : List HeapBlock} {entries : List SubnodeEntry}
    {lay : Layout} {row f b : Bytes} {cells : Nat → Option Bytes} {c : Column}
    (h : RowHolds w blocks entries lay row cells) (hf : lay.Fits)
    (hnodup : (lay.columns.map Column.tag).Nodup) (hc : c ∈ lay.columns)
    (hfield : FieldOf w blocks entries c.tag f b) (hlen : f.length = c.cb) :
    RowHolds w blocks entries lay (lay.putField c f row)
      (Function.update cells c.tag (some b)) := by
  refine ⟨hf.putField_length h.length hc hlen, fun d hd => ?_⟩
  rw [hf.field_putField h.length hc hd hlen]
  by_cases hcd : c = d
  · subst hcd
    rw [if_pos rfl, Function.update_self]
    exact .some hfield
  · have htag : d.tag ≠ c.tag := fun heq => hcd (List.inj_on_of_nodup_map hnodup hc hd heq.symm)
    rw [if_neg hcd, Function.update_of_ne htag]
    exact h.cell d hd

/-- What a reader makes of such a row, whatever the order of the descriptors. -/
theorem RowHolds.reads {w : NdbWriter} {h : HeapNode} {entries : List SubnodeEntry}
    {lay lay' : Layout} {row : Bytes} {cells : Nat → Option Bytes}
    (hrow : RowHolds w h.blocks entries lay row cells) (hok : h.Ok) {n : NodeView}
    (hn : NodeReads n h entries) {store : Store} (hc : Covers store w)
    (hperm : lay'.columns.Perm lay.columns) (hceb : lay'.tci1b = lay.tci1b) :
    readRow store n lay' row = some (lay'.columns.map fun c => cells c.tag) := by
  refine mapM_eq_some fun c hmem => ?_
  have hfield : lay'.field row c = lay.field row c := by rw [Layout.field, Layout.field, hceb]
  have hcell := hrow.cell c (hperm.mem_iff.1 hmem)
  rw [readCell, hfield]
  generalize lay.field row c = field at hcell ⊢
  generalize cells c.tag = cell at hcell ⊢
  cases hcell with
  | none => rfl
  | some hof =>
    unfold FieldOf at hof
    dsimp only
    by_cases hfixed : fixedPropSize (tagType c.tag) ≠ 0
    · rw [if_pos hfixed] at hof ⊢
      rw [hof]
    · rw [if_neg hfixed] at hof ⊢
      obtain ⟨hnid, rfl, hlt, hcases⟩ := hof
      have hlt' : hnid < 256 ^ 4 := hlt
      rw [fromLe_le_of_lt hlt']
      rcases hcases with ⟨rfl, rfl⟩ | ⟨hne, leaves, hstored, rfl⟩
      · rfl
      · rw [if_neg hne, hstored.value hok hn hc]
        rfl

/-! ## Tables that are there -/

/-- The rows of a matrix, one after the other, have the cells they should. -/
abbrev RowsHold (w : NdbWriter) (blocks : List HeapBlock) (entries : List SubnodeEntry)
    (lay : Layout) : List RowSpec → List Bytes → Prop :=
  List.Forall₂ fun r row => RowHolds w blocks entries lay row r.cells

theorem RowsHold.mono {w w' : NdbWriter} {blocks blocks' : List HeapBlock}
    {entries entries' : List SubnodeEntry} {lay : Layout} {rows : List RowSpec}
    {matrix : List Bytes} (h : RowsHold w blocks entries lay rows matrix) (hw : Grows w w')
    (hh : ∀ hid item, HasItem blocks hid item → HasItem blocks' hid item)
    (hsub : entries ⊆ entries') : RowsHold w' blocks' entries' lay rows matrix :=
  h.imp fun _ _ hr => hr.mono hw hh hsub

theorem RowsHold.size {w : NdbWriter} {blocks : List HeapBlock} {entries : List SubnodeEntry}
    {lay : Layout} {rows : List RowSpec} {matrix : List Bytes}
    (h : RowsHold w blocks entries lay rows matrix) : ∀ row ∈ matrix, row.length = lay.tciBm := by
  induction h with
  | nil =>
    intro row hr
    cases hr
  | cons hr _ ih =>
    intro row hrow
    rcases List.mem_cons.1 hrow with rfl | hrow
    · exact hr.length
    · exact ih row hrow

theorem RowsHold.reads {w : NdbWriter} {h : HeapNode} {entries : List SubnodeEntry}
    {lay lay' : Layout} {rows : List RowSpec} {matrix : List Bytes}
    (hrows : RowsHold w h.blocks entries lay rows matrix) (hok : h.Ok) {n : NodeView}
    (hn : NodeReads n h entries) {store : Store} (hc : Covers store w)
    (hperm : lay'.columns.Perm lay.columns) (hceb : lay'.tci1b = lay.tci1b) :
    matrix.mapM (readRow store n lay') =
      some (rows.map fun r => lay'.columns.map fun c => r.cells c.tag) := by
  induction hrows with
  | nil => rfl
  | cons hr _ ih =>
    rw [List.mapM_cons, hr.reads hok hn hc hperm hceb, ih]
    rfl

/-- The heap of a node holds a table with these rows. -/
structure TableIn (w : NdbWriter) (h : HeapNode) (entries : List SubnodeEntry) (std : StdSort)
    (lay : Layout) (rows : List RowSpec) : Prop where
  fits : lay.Fits
  tags : ∀ c ∈ lay.columns, c.tag < 2 ^ 32
  shape : ∃ (hidRowIndex hnidRows : Nat) (matrix leaves : List Bytes),
    HasItem h.blocks h.userRoot (tcInfo std lay hidRowIndex hnidRows) ∧
      hidRowIndex < 2 ^ 32 ∧ hnidRows < 2 ^ 32 ∧
      RowsHold w h.blocks entries lay rows matrix ∧
      (rows = [] ∧ hnidRows = 0 ∧ leaves = [] ∨ hnidRows ≠ 0 ∧
        Stored w h.blocks entries hnidRows leaves ∧
        Blocked kMaxBlockData lay.tciBm matrix leaves) ∧
      ∀ item, HeapNode.Finds item h → ∀ k, (bthLookup item hidRowIndex k).map fromLe =
        rows.findIdx? fun r => r.rowId = k

theorem TableIn.mono {w w' : NdbWriter} {h : HeapNode} {entries entries' : List SubnodeEntry}
    {std : StdSort} {lay : Layout} {rows : List RowSpec} (ht : TableIn w h entries std lay rows)
    (hw : Grows w w') (hsub : entries ⊆ entries') : TableIn w' h entries' std lay rows := by
  obtain ⟨hid, hnid, matrix, leaves, hinfo, hidlt, hnidlt, hrows, hstore, hindex⟩ := ht.shape
  refine ⟨ht.fits, ht.tags, hid, hnid, matrix, leaves, hinfo, hidlt, hnidlt, ?_, ?_, hindex⟩
  · exact RowsHold.mono hrows hw (fun _ _ hi => hi) hsub
  · exact hstore.imp_right fun ⟨hne, hst, hblk⟩ => ⟨hne, hst.mono hw (fun _ _ hi => hi) hsub, hblk⟩

/-- The table as a reader is to find it. -/
def Table.of (std : StdSort) (lay : Layout) (rows : List RowSpec) : Table where
  columns := std.sort (byKey Column.tag) lay.columns
  rows := rows.map fun r =>
    (std.sort (byKey Column.tag) lay.columns).map fun c => r.cells c.tag
  ordinal := fun k => rows.findIdx? fun r => r.rowId = k

theorem slice_of_drop {s a b : Bytes} {off n : Nat} (h : s.drop off = a ++ b) (hn : a.length = n) :
    slice s off n = a := by rw [slice, h, List.take_left' hn]

theorem drop_of_drop {s a b : Bytes} {off n : Nat} (h : s.drop off = a ++ b) (hn : a.length = n) :
    s.drop (off + n) = b := by rw [← List.drop_drop, h, List.drop_left' hn]

theorem byte_of_lt {n : Nat} (h : n < 256) : n.toUInt8.toNat = n := by
  rw [UInt8.toNat_ofNat']
  exact Nat.mod_eq_of_lt h

theorem readColumn_spec {c : Column} (htag : c.tag < 2 ^ 32) (hib : c.ib < 2 ^ 16)
    (hcb : c.cb < 256) (hibit : c.ibit < 256) :
    readColumn (le 4 c.tag ++ le 2 c.ib ++ [c.cb.toUInt8, c.ibit.toUInt8]) = c := by
  have hrow : (le 4 c.tag ++ le 2 c.ib ++ [c.cb.toUInt8, c.ibit.toUInt8]).drop 0 =
      le 4 c.tag ++ (le 2 c.ib ++ [c.cb.toUInt8, c.ibit.toUInt8]) := by simp
  have hib' := drop_of_drop hrow (le_length 4 _)
  have htag' : c.tag < 256 ^ 4 := htag
  have hib'' : c.ib < 256 ^ 2 := hib
  unfold readColumn
  rw [slice_of_drop hrow (le_length 4 _), slice_of_drop hib' (le_length 2 _),
    fromLe_le_of_lt htag', fromLe_le_of_lt hib'']
  have h6 : (le 4 c.tag ++ le 2 c.ib ++ [c.cb.toUInt8, c.ibit.toUInt8]).getD 6 0 = c.cb.toUInt8 :=
    rfl
  have h7 : (le 4 c.tag ++ le 2 c.ib ++ [c.cb.toUInt8, c.ibit.toUInt8]).getD 7 0 =
    c.ibit.toUInt8 := rfl
  rw [h6, h7, byte_of_lt hcb, byte_of_lt hibit]

theorem Layout.Fits.column_small {lay : Layout} (hf : lay.Fits) {c : Column}
    (hc : c ∈ lay.columns) : c.ib < 2 ^ 16 ∧ c.cb < 256 ∧ c.ibit < 256 := by
  have hin := hf.inside c hc
  have hbm := hf.bitmap
  have hsmall := hf.small
  have hfew := hf.few
  obtain ⟨i, hi⟩ := List.mem_iff_getElem?.1 hc
  obtain ⟨hlt, _⟩ := List.getElem?_eq_some_iff.1 hi
  have hibit := hf.ibit i c hi
  have hwidth := cellWidth_cases c.tag
  rw [← hf.width c hc] at hwidth
  simp only [List.mem_cons, List.not_mem_nil, or_false] at hwidth
  omega

/-- TCINFO reads as it was written. -/
theorem tcInfo_reads (std : StdSort) {lay : Layout} {hid hnid : Nat} (hf : lay.Fits)
    (htags : ∀ c ∈ lay.columns, c.tag < 2 ^ 32) (hidlt : hid < 2 ^ 32) (hnidlt : hnid < 2 ^ 32) :
    (tcInfo std lay hid hnid).getD 0 0 = kHnSigTC ∧
      fromLe (slice (tcInfo std lay hid hnid) 10 4) = hid ∧
      fromLe (slice (tcInfo std lay hid hnid) 14 4) = hnid ∧
      readLayout (tcInfo std lay hid hnid) =
        { lay with columns := std.sort (byKey Column.tag) lay.columns } := by
  have hsmall := hf.small
  have hbm := hf.bitmap
  have hfew := hf.few
  have hends := hf.ends
  generalize hsorted : std.sort (byKey Column.tag) lay.columns = sorted
  have hperm : sorted.Perm lay.columns := hsorted ▸ std.perm _ _
  have hmem (c) (hc : c ∈ sorted) : c ∈ lay.columns := hperm.mem_iff.1 hc
  let row := fun c : Column => le 4 c.tag ++ le 2 c.ib ++ [c.cb.toUInt8, c.ibit.toUInt8]
  have hinfo : (tcInfo std lay hid hnid).drop 2 = le 2 lay.tci4b ++ (le 2 lay.tci2b ++
      (le 2 lay.tci1b ++ (le 2 lay.tciBm ++ (le 4 hid ++ (le 4 hnid ++ (le 4 0 ++
        sorted.flatMap row)))))) := by
    simp only [tcInfo, hsorted, List.append_assoc, List.cons_append, List.nil_append,
      List.drop_succ_cons, List.drop_zero]
    rfl
  have h4 := drop_of_drop hinfo (le_length 2 _)
  have h6 := drop_of_drop h4 (le_length 2 _)
  have h8 := drop_of_drop h6 (le_length 2 _)
  have h10 := drop_of_drop h8 (le_length 2 _)
  have h14 := drop_of_drop h10 (le_length 4 _)
  have h18 := drop_of_drop h14 (le_length 4 _)
  have h22 := drop_of_drop h18 (le_length 4 _)
  have hcount : (tcInfo std lay hid hnid).getD 1 0 = lay.columns.length.toUInt8 := rfl
  have hid' : hid < 256 ^ 4 := hidlt
  have hnid' : hnid < 256 ^ 4 := hnidlt
  refine ⟨rfl, ?_, ?_, ?_⟩
  · rw [slice_of_drop h10 (le_length 4 _), fromLe_le_of_lt hid']
  · rw [slice_of_drop h14 (le_length 4 _), fromLe_le_of_lt hnid']
  · have h4b : lay.tci4b < 256 ^ 2 := by omega
    have h2b : lay.tci2b < 256 ^ 2 := by omega
    have h1b : lay.tci1b < 256 ^ 2 := by omega
    have hBm : lay.tciBm < 256 ^ 2 := by omega
    have hrow (c) (_ : c ∈ sorted) : (row c).length = 8 := rfl
    have hcolumns : (List.range sorted.length).map
        (fun i => readColumn (slice (tcInfo std lay hid hnid) (22 + i * 8) 8)) = sorted := by
      apply List.ext_getElem
      · rw [List.length_map, List.length_range]
      · intro i _ hi
        have hslice : slice (tcInfo std lay hid hnid) (22 + i * 8) 8 = row sorted[i] := by
          rw [slice, ← List.drop_drop, h22]
          exact drop_take_flatMap hrow hi
        have hc := hmem _ (List.getElem_mem hi)
        obtain ⟨hib, hcb, hibit⟩ := hf.column_small hc
        rw [List.getElem_map, List.getElem_range, hslice]
        exact readColumn_spec (htags _ hc) hib hcb hibit
    have hlen : ((tcInfo std lay hid hnid).getD 1 0).toNat = sorted.length := by
      rw [hcount, byte_of_lt (by omega), hperm.length_eq]
    unfold readLayout
    rw [hlen, hcolumns, slice_of_drop hinfo (le_length 2 _), slice_of_drop h4 (le_length 2 _),
      slice_of_drop h6 (le_length 2 _), slice_of_drop h8 (le_length 2 _), fromLe_le_of_lt h4b,
      fromLe_le_of_lt h2b, fromLe_le_of_lt h1b, fromLe_le_of_lt hBm]

/-- Row `i` lies whole in block `i / perBlock` of the row storage. -/
def RowsPlaced (store : Store) (data sub : Nat) (t : Table) : Prop :=
  ∃ n lay hid leaves, readNode store data sub = some n ∧
    readTableInfo store n = some (lay, hid, leaves) ∧
    ∀ (i : Nat) (cells : List (Option Bytes)), t.rows[i]? = some cells →
      let perBlock := kMaxBlockData / lay.tciBm
      ∃ leaf, leaves[i / perBlock]? = some leaf ∧
        i % perBlock * lay.tciBm + lay.tciBm ≤ leaf.length ∧
        readRow store n lay (slice leaf (i % perBlock * lay.tciBm) lay.tciBm) = some cells

theorem readTableInfo_spec {w : NdbWriter} {h : HeapNode} {entries : List SubnodeEntry}
    {std : StdSort} {lay : Layout} {hid hnid : Nat} {leaves : List Bytes} (hok : h.Ok)
    (hf : lay.Fits) (htags : ∀ c ∈ lay.columns, c.tag < 2 ^ 32)
    (hinfo : HasItem h.blocks h.userRoot (tcInfo std lay hid hnid)) (hidlt : hid < 2 ^ 32)
    (hnidlt : hnid < 2 ^ 32) (hstore : hnid = 0 ∧ leaves = [] ∨ hnid ≠ 0 ∧
      Stored w h.blocks entries hnid leaves) {n : NodeView} (hn : NodeReads n h entries)
    {store : Store} (hc : Covers store w) :
    readTableInfo store n =
      some ({ lay with columns := std.sort (byKey Column.tag) lay.columns }, hid, leaves) := by
  obtain ⟨hsig, hhid, hhnid, hlay⟩ := tcInfo_reads std hf htags hidlt hnidlt
  simp only [readTableInfo, hn.root, hn.finds _ _ hinfo, Option.bind_eq_bind, Option.bind_some,
    hsig, ne_eq, not_true_eq_false, if_false, hhid, hhnid, hlay]
  rcases hstore with ⟨rfl, rfl⟩ | ⟨hne, hstored⟩
  · rfl
  · rw [if_neg hne, hstored.leaves hok hn hc]
    rfl

/-- A table that was written is what its readers find, each row in its place. -/
theorem TableIn.reads {w : NdbWriter} {data sub : Nat} {h : HeapNode}
    {entries : List SubnodeEntry} {std : StdSort} {lay : Layout} {rows : List RowSpec}
    (ht : TableIn w h entries std lay rows) (hnode : NodeAt w data sub h entries) {store : Store}
    (hc : Covers store w) :
    readTable store data sub = some (.of std lay rows) ∧
      RowsPlaced store data sub (.of std lay rows) := by
  obtain ⟨n, hread, hn⟩ := hnode.reads hc
  obtain ⟨hid, hnid, matrix, leaves, hinfo, hidlt, hnidlt, hrows, hstore, hindex⟩ := ht.shape
  have hpos : 0 < lay.tciBm := by
    have hstart := ht.fits.start
    have hbm := ht.fits.bitmap
    omega
  have hsize := RowsHold.size hrows
  have hmatrix : leaves.flatMap (rowsOf lay.tciBm) = matrix := by
    rcases hstore with ⟨rfl, -, rfl⟩ | ⟨-, -, hblocked⟩
    · cases hrows
      rfl
    · exact hblocked.rows_eq hpos hsize
  have htable := readTableInfo_spec hnode.ok ht.fits ht.tags hinfo hidlt hnidlt
    (hstore.imp (fun h => ⟨h.2.1, h.2.2⟩) fun h => ⟨h.1, h.2.1⟩) hn hc
  generalize hlay : { lay with columns := std.sort (byKey Column.tag) lay.columns } = lay' at htable
  have hbm : lay'.tciBm = lay.tciBm := by rw [← hlay]
  have hperm : lay'.columns.Perm lay.columns := by
    subst hlay
    exact std.perm _ _
  have hceb : lay'.tci1b = lay.tci1b := by rw [← hlay]
  refine ⟨?_, n, lay', hid, leaves, hread, htable, ?_⟩
  · have hall := RowsHold.reads hrows hnode.ok hn hc hperm hceb
    simp only [readTable, hread, htable, Option.bind_eq_bind, Option.bind_some, hbm, hmatrix, hall]
    subst hlay
    congr 2
    funext k
    exact hindex _ hn.finds k
  · intro i cells hcells
    rw [hbm]
    have hsome : ∃ r, rows[i]? = some r ∧ cells = lay'.columns.map fun c => r.cells c.tag := by
      simp only [Table.of, List.getElem?_map] at hcells
      cases hr : rows[i]? with
      | none => simp [hr] at hcells
      | some r =>
        refine ⟨r, rfl, ?_⟩
        rw [hr] at hcells
        subst hlay
        exact (Option.some.inj hcells).symm
    obtain ⟨r, hr, rfl⟩ := hsome
    rcases hstore with ⟨rfl, -, -⟩ | ⟨-, -, hblocked⟩
    · cases hr
    · obtain ⟨hi, hri⟩ := List.getElem?_eq_some_iff.1 hr
      have hi' : i < matrix.length := hrows.length_eq ▸ hi
      obtain ⟨leaf, hleaf, hroom, hslice⟩ :=
        hblocked.placed hsize (List.getElem?_eq_getElem hi')
      refine ⟨leaf, hleaf, hroom, ?_⟩
      rw [hslice]
      have hget := hrows.get hi hi'
      rw [List.get_eq_getElem, List.get_eq_getElem, hri] at hget
      exact hget.reads hnode.ok hn hc hperm hceb

end Pst
end Imap2Pst
