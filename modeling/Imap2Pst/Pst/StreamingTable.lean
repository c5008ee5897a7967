import Imap2Pst.Pst.BthShape
import Imap2Pst.Pst.RowLayout
import Imap2Pst.Pst.TableContext

/-!
# Pst.StreamingTable

The table of `pst/streaming_table.cpp`: it holds one row at a time. A full block of rows is handed
to the block writer, and so are the blocks of the heap that the cells go to.

* `StreamingTable` — the state; `beginRow`, the setters, `endRow`, `finish`.
* `Streams` — what has been written stands for the finished rows; one lemma for each call.
* `finish_spec` — the node that `finish` leaves has the table.
* `streaming_table_is_in_memory_table` — both writers leave the same table.
-/

namespace Imap2Pst
namespace Pst

open CxxStd

/-- The writer: the format of its rows, and what there is of them. -/
structure StreamingTable extends TableContextWriter where
  heap : StreamingHeap := { clientSig := kHnSigTC }
  subnodes : SubnodeAllocator := {}
  /-- The block of rows in progress. -/
  rowBlock : Bytes := []
  rowLeaves : List Nat := []
  rowBytes : Nat := 0
  currentRow : Bytes := []
  inRow : Bool := false
  rowCount : Nat := 0
  /-- Row ids and ordinals. -/
  rowIndex : List (Nat × Nat) := []

/-- A node's data and subnode BIDs. -/
structure NodeData where
  data : Nat
  sub : Nat
  deriving DecidableEq, Repr

structure NodeData.Fits (n : NodeData) : Prop where
  data : n.data < 256 ^ 8
  sub : n.sub < 256 ^ 8

/-- `rgib` and the columns, as TCINFO has them. -/
def TableContextWriter.toLayout (w : TableContextWriter) : Layout :=
  ⟨w.columns, w.rgib.1, w.rgib.2.1, w.rgib.2.2.1, w.rgib.2.2.2⟩

theorem TableContextWriter.Agrees.toLayout_eq {w : TableContextWriter} {lay : Layout}
    (h : w.Agrees lay) : w.toLayout = lay := by
  obtain ⟨hcolumns, hrgib, -, -⟩ := h
  rw [TableContextWriter.toLayout, hcolumns, hrgib]

/-- The comparison of pairs. -/
def pairLess (a b : Nat × Nat) : Bool := a.1 < b.1 || (a.1 = b.1 && a.2 < b.2)

def markPresent (row : Bytes) (cebOff ibit : Nat) : Bytes :=
  row.modify (cebOff + ibit / 8) (· ||| bitMask ibit)

namespace StreamingTable

def create (columns : List Nat) : StreamingTable :=
  { toTableContextWriter := TableContextWriter.create columns }

section

variable {α : Type}

def onHeap (x : Streaming StreamingHeap α) : Streaming StreamingTable α :=
  onto (fun p => (p.1, p.2.heap)) (fun q p => (q.1, { p.2 with heap := q.2 })) x

def onSubnodes (x : Streaming SubnodeAllocator α) : Streaming StreamingTable α :=
  onto (fun p => (p.1, p.2.subnodes)) (fun q p => (q.1, { p.2 with subnodes := q.2 })) x

end

/-- `columns_[columnIndex(tag)]`. -/
def column (tag : Nat) : Streaming StreamingTable Column := do
  let (_, t) ← get
  match t.columns.find? fun c => c.tag = tag with
  | some c => return c
  | none => throw ⟨"table column not declared: " ++ toString tag⟩

/-- The end of every setter: the octets of a cell and its bit. -/
def putCell (c : Column) (b : Bytes) : Streaming StreamingTable Unit :=
  modify fun (w, t) =>
    (w, { t with currentRow := markPresent (poke t.currentRow c.ib b) t.cebOff c.ibit })

def setFixed (tag : Nat) (b : Bytes) : Streaming StreamingTable Unit := do
  let c ← column tag
  putCell c b

def setInt16 (tag v : Nat) := setFixed tag (le 2 v)
def setInt32 (tag v : Nat) := setFixed tag (le 4 v)
def setBool (tag : Nat) (v : Bool) := setFixed tag [if v then 1 else 0]
def setInt64 (tag v : Nat) := setFixed tag (le 8 v)
def setTime (tag filetime : Nat) := setInt64 tag filetime

/-- HNID 0 stands for an empty value of variable width. -/
def storeCell (data : Bytes) : Streaming StreamingTable Nat :=
  if data = [] then pure 0
  else if data.length ≤ maxAllocSize then onHeap (StreamingHeap.alloc data)
  else onSubnodes (SubnodeAllocator.spill data)

def setBinary (tag : Nat) (data : Bytes) : Streaming StreamingTable Unit := do
  let c ← column tag
  let hnid ← storeCell data
  putCell c (le 4 hnid)

def setString (tag : Nat) (utf8 : Bytes) := setBinary tag (stringBytes tag utf8)

def setValue (tag : Nat) : CellValue → Streaming StreamingTable Unit
  | .int16 v => setInt16 tag v
  | .int32 v => setInt32 tag v
  | .bool v => setBool tag v
  | .int64 v => setInt64 tag v
  | .string utf8 => setString tag utf8
  | .binary data => setBinary tag data

def beginRow (rowId : Nat) : Streaming StreamingTable Unit := do
  let (w, t) ← get
  if t.inRow then throw ⟨"beginRow called inside a row"⟩
  set (w, { t with
    inRow := true
    currentRow := List.replicate t.rowSize 0
    rowIndex := t.rowIndex ++ [(rowId, t.rowCount % 2 ^ 32)] })
  setInt32 PidTagLtpRowId rowId
  setInt32 PidTagLtpRowVer 1

def flushRowBlock (last : Bool) : Streaming StreamingTable Unit := do
  let (w, t) ← get
  if t.rowBlock = [] then return
  let block := if last then t.rowBlock else padTo kMaxBlockData t.rowBlock
  set (w, { t with rowBlock := block })
  let bid ← onNdb (writeLeafChunk block)
  modify fun (w, t) =>
    (w, { t with
      rowLeaves := t.rowLeaves ++ [bid]
      rowBytes := t.rowBytes + block.length
      rowBlock := [] })

def endRow : Streaming StreamingTable Unit := do
  let (w, t) ← get
  if !t.inRow then throw ⟨"endRow without beginRow"⟩
  set (w, { t with inRow := false })
  if t.rowsPerBlock * t.rowSize < t.rowBlock.length + t.rowSize then flushRowBlock false
  modify fun (w, t) =>
    (w, { t with rowBlock := t.rowBlock ++ t.currentRow, rowCount := t.rowCount + 1 })

section

variable (std : StdSort)

/-- The rows as the value of a subnode. -/
def adoptRows : Streaming StreamingTable Nat := do
  let (_, t) ← get
  if t.rowLeaves = [] then return 0
  let rowsBid ← onNdb (assembleDataTree t.rowLeaves t.rowBytes)
  onSubnodes (SubnodeAllocator.adopt rowsBid)

/-- The row index. The ids come in ascending order, but are sorted anyway. -/
def buildIndex : Streaming StreamingTable Nat := do
  let (w, t) ← get
  let index := (std.sort pairLess t.rowIndex).map fun e => indexRecord e.1 e.2
  set (w, { t with rowIndex := [] })
  onHeap (buildBthInto std StreamingHeap.alloc 4 4 index)

def finish : Streaming StreamingTable NodeData := do
  flushRowBlock true
  let hnidRows ← adoptRows
  let hidRowIndex ← buildIndex std
  let (_, t) ← get
  let root ← onHeap (StreamingHeap.alloc (tcInfo std t.toLayout hidRowIndex hnidRows))
  modify fun (w, t) => (w, { t with heap := t.heap.setUserRoot root })
  let data ← onHeap StreamingHeap.finish
  let (_, t) ← get
  let sub ← onNdb (writeSubnodes std t.subnodes.entries)
  return ⟨data, sub⟩

end

/-! ## Parts of the state -/

theorem onHeap_eq_ok {α : Type} {x : Streaming StreamingHeap α} {w w' : NdbWriter}
    {t t' : StreamingTable} {a : α} :
    onHeap x (w, t) = .ok a (w', t') ↔
      ∃ s, x (w, t.heap) = .ok a (w', s) ∧ t' = { t with heap := s } := by
  unfold onHeap
  rw [onto_eq_ok]
  constructor
  · rintro ⟨⟨w₁, s⟩, hx, heq⟩
    cases heq
    exact ⟨s, hx, rfl⟩
  · rintro ⟨s, hx, rfl⟩
    exact ⟨(w', s), hx, rfl⟩

theorem onSubnodes_eq_ok {α : Type} {x : Streaming SubnodeAllocator α} {w w' : NdbWriter}
    {t t' : StreamingTable} {a : α} :
    onSubnodes x (w, t) = .ok a (w', t') ↔
      ∃ s, x (w, t.subnodes) = .ok a (w', s) ∧ t' = { t with subnodes := s } := by
  unfold onSubnodes
  rw [onto_eq_ok]
  constructor
  · rintro ⟨⟨w₁, s⟩, hx, heq⟩
    cases heq
    exact ⟨s, hx, rfl⟩
  · rintro ⟨s, hx, rfl⟩
    exact ⟨(w', s), hx, rfl⟩

/-! ## What the writer stands for -/

/-- The rows of `matrix` are in the blocks handed over and the block in progress. -/
structure Blocks (lay : Layout) (w : NdbWriter) (t : StreamingTable) (matrix : List Bytes) :
    Prop where
  split : ∃ (full : List (List Bytes)) (last : List Bytes), matrix = full.flatten ++ last ∧
    t.rowBlock = last.flatten ∧ t.rowBytes = full.length * kMaxBlockData ∧
    (∀ p ∈ full, p.length = kMaxBlockData / lay.tciBm) ∧
    last.length ≤ kMaxBlockData / lay.tciBm ∧ (last = [] → full = []) ∧
    List.Forall₂ (fun bid p => Leaf w bid (padTo kMaxBlockData p.flatten)) t.rowLeaves full

/-- The state while the rows `specs` are finished and the row ids `ids` are in the index. The heap
stands where the in-memory heap `h` stands. -/
structure Streams (lay : Layout) (specs : List RowSpec) (ids : List Nat) (w : NdbWriter)
    (t : StreamingTable) (h : HeapNode) : Prop where
  sound : Sound w
  agrees : t.toTableContextWriter.Agrees lay
  perBlock : t.rowsPerBlock = kMaxBlockData / lay.tciBm
  follows : StreamingHeap.Follows w t.heap h
  ok : h.Ok
  subnodes : t.subnodes.Ok
  count : t.rowCount = specs.length
  index : t.rowIndex = ids.zipIdx.map fun e => (e.1, e.2 % 2 ^ 32)
  rows : ∃ matrix, RowsHold w h.blocks t.subnodes.entries lay specs matrix ∧
    Blocks lay w t matrix

/-- Inside the row `spec`. -/
structure Writing (lay : Layout) (specs : List RowSpec) (spec : RowSpec) (w : NdbWriter)
    (t : StreamingTable) (h : HeapNode) : Prop where
  streams : Streams lay specs (specs.map RowSpec.rowId ++ [spec.rowId]) w t h
  inRow : t.inRow = true
  row : RowHolds w h.blocks t.subnodes.entries lay t.currentRow spec.cells

/-- What a call on the heap or the subnodes leaves alone. -/
theorem Streams.stores {lay : Layout} {specs : List RowSpec} {ids : List Nat} {w w' : NdbWriter}
    {t : StreamingTable} {h h' : HeapNode} (hst : Streams lay specs ids w t h)
    {heap : StreamingHeap} {subnodes : SubnodeAllocator}
    (hf : StreamingHeap.Follows w' heap h')
    (hext : Extends ((w, t.subnodes), h) ((w', subnodes), h')) :
    Streams lay specs ids w' { t with heap, subnodes } h' := by
  obtain ⟨matrix, hrows, full, last, hsplit, hblock, hbytes, hfull, hlast, hnone, hleaves⟩ := hst.rows
  refine ⟨hext.grows.sound, hst.agrees, hst.perBlock, hf, hext.heap.ok, hext.ok, hst.count,
    hst.index, matrix, hrows.mono hext.grows hext.heap.items hext.entries, full, last, hsplit,
    hblock, hbytes, hfull, hlast, hnone, ?_⟩
  exact hleaves.imp fun _ _ hleaf => hleaf.mono hext.grows

/-- The row in progress is not among the rows. -/
theorem Streams.withRow {lay : Layout} {specs : List RowSpec} {ids : List Nat} {w : NdbWriter}
    {t : StreamingTable} {h : HeapNode} (hst : Streams lay specs ids w t h) (currentRow : Bytes)
    (inRow : Bool) : Streams lay specs ids w { t with currentRow, inRow } h := by
  obtain ⟨matrix, hrows, ⟨hsplit⟩⟩ := hst.rows
  exact ⟨hst.sound, hst.agrees, hst.perBlock, hst.follows, hst.ok, hst.subnodes, hst.count,
    hst.index, matrix, hrows, ⟨hsplit⟩⟩

theorem storeCell_spec {lay : Layout} {specs : List RowSpec} {ids : List Nat} {data : Bytes}
    {hnid : Nat} {w w' : NdbWriter} {t t' : StreamingTable} {h : HeapNode}
    (hrun : storeCell data (w, t) = .ok hnid (w', t')) (hst : Streams lay specs ids w t h) :
    ∃ heap subnodes h', t' = { t with heap, subnodes } ∧
      Extends ((w, t.subnodes), h) ((w', t'.subnodes), h') ∧ Streams lay specs ids w' t' h' ∧
      hnid < 2 ^ 32 ∧ (hnid = 0 ∧ data = [] ∨ hnid ≠ 0 ∧ ∃ leaves,
        Stored w' h'.blocks t'.subnodes.entries hnid leaves ∧ leaves.flatten = data) := by
  unfold storeCell at hrun
  rcases ite_eq_ok.1 hrun with ⟨hempty, hrun⟩ | ⟨_, hrun⟩
  · obtain ⟨rfl, heq⟩ := pure_eq_ok.1 hrun
    cases heq
    exact ⟨_, _, h, rfl, .refl hst.sound hst.subnodes hst.ok, hst, by decide, .inl ⟨rfl, hempty⟩⟩
  rcases ite_eq_ok.1 hrun with ⟨_, hrun⟩ | ⟨_, hrun⟩
  · obtain ⟨heap, halloc, rfl⟩ := onHeap_eq_ok.1 hrun
    obtain ⟨hg, hmem, hf⟩ := StreamingHeap.alloc_follows halloc hst.sound hst.follows
    obtain ⟨hgrows, hitem, -⟩ := HeapNode.alloc_spec hmem hst.ok
    obtain ⟨hpos, hlt, -⟩ := hgrows.ok.hid hitem
    have hext : Extends ((w, t.subnodes), h) ((w', t.subnodes), h.add data) :=
      ⟨hg, hgrows, List.Subset.refl _, hst.subnodes⟩
    exact ⟨heap, _, _, rfl, hext, hst.stores hf hext, hlt,
      .inr ⟨hpos.ne', _, .heap hitem, by simp⟩⟩
  · obtain ⟨subnodes, hspill, rfl⟩ := onSubnodes_eq_ok.1 hrun
    obtain ⟨hext, hne, hlt, hstored⟩ :=
      TableContext.spilled_spec hspill hst.sound hst.subnodes hst.ok
    exact ⟨_, subnodes, h, rfl, hext, hst.stores (hst.follows.mono hext.grows) hext, hlt,
      .inr ⟨hne, _, hstored, leavesOf_flatten data⟩⟩

/-! ## Setters -/

theorem column_eq_ok {tag : Nat} {c : Column} {w w' : NdbWriter} {t t' : StreamingTable}
    (hrun : column tag (w, t) = .ok c (w', t')) :
    c ∈ t.columns ∧ c.tag = tag ∧ w = w' ∧ t = t' := by
  unfold column at hrun
  obtain ⟨_, _, hget, hrun⟩ := bind_eq_ok.1 hrun
  cases hget
  dsimp only at hrun
  cases hfind : t.columns.find? fun c => c.tag = tag with
  | none =>
    rw [hfind] at hrun
    cases hrun
  | some c' =>
    rw [hfind] at hrun
    cases hrun
    exact ⟨List.mem_of_find?_eq_some hfind, by simpa using List.find?_some hfind, rfl, rfl⟩

/-- A cell is put into the row, its value being stored. -/
theorem Writing.put {lay : Layout} {specs : List RowSpec} {spec : RowSpec} {w w' : NdbWriter}
    {t t' : StreamingTable} {h : HeapNode} {c : Column} {f : Bytes} {v : CellValue} {u : Unit}
    (hw : Writing lay specs spec w t h) (hf : lay.Fits)
    (hnodup : (lay.columns.map Column.tag).Nodup) (hc : c ∈ lay.columns)
    (hfield : FieldOf w h.blocks t.subnodes.entries c.tag f (v.bytes c.tag))
    (hlen : f.length = c.cb) (hrun : putCell c f (w, t) = .ok u (w', t')) :
    w = w' ∧ t.subnodes = t'.subnodes ∧ Writing lay specs (spec.set c.tag v) w' t' h := by
  cases modify_eq_ok.1 hrun
  have hrow := hw.row.put hf hnodup hc hfield hlen
  refine ⟨rfl, rfl, hw.streams.withRow _ _, hw.inRow, ?_⟩
  rw [RowSpec.cells_set, show t.cebOff = lay.tci1b from hw.streams.agrees.2.2.1]
  exact hrow

theorem setFixed_spec {lay : Layout} {specs : List RowSpec} {spec : RowSpec} {tag : Nat}
    {v : CellValue} {w w' : NdbWriter} {t t' : StreamingTable} {h : HeapNode} {u : Unit}
    (hrun : setFixed tag (v.bytes tag) (w, t) = .ok u (w', t')) (hw : Writing lay specs spec w t h)
    (hf : lay.Fits) (hnodup : (lay.columns.map Column.tag).Nodup) (hm : v.Matches tag)
    (hfixed : v.isVariable = false) :
    w = w' ∧ t.subnodes = t'.subnodes ∧ Writing lay specs (spec.set tag v) w' t' h := by
  obtain ⟨c, ⟨w₁, t₁⟩, hcol, hput⟩ := bind_eq_ok.1 hrun
  obtain ⟨hc, rfl, rfl, rfl⟩ := column_eq_ok hcol
  rw [hw.streams.agrees.1] at hc
  obtain ⟨hnarrow, hlen⟩ := hm.fixed hfixed
  exact hw.put hf hnodup hc (.fixed _ _ _ _ hnarrow) (hlen.trans (hf.width c hc).symm) hput

theorem setBinary_spec {lay : Layout} {specs : List RowSpec} {spec : RowSpec} {tag : Nat}
    {v : CellValue} {w w' : NdbWriter} {t t' : StreamingTable} {h : HeapNode} {u : Unit}
    (hrun : setBinary tag (v.bytes tag) (w, t) = .ok u (w', t')) (hw : Writing lay specs spec w t h)
    (hf : lay.Fits) (hnodup : (lay.columns.map Column.tag).Nodup) (hm : v.Matches tag)
    (hvar : v.isVariable = true) :
    ∃ h', Extends ((w, t.subnodes), h) ((w', t'.subnodes), h') ∧
      Writing lay specs (spec.set tag v) w' t' h' := by
  obtain ⟨c, ⟨w₁, t₁⟩, hcol, hrun⟩ := bind_eq_ok.1 hrun
  obtain ⟨hc, rfl, rfl, rfl⟩ := column_eq_ok hcol
  rw [hw.streams.agrees.1] at hc
  obtain ⟨hnid, ⟨w₂, t₂⟩, hstore, hput⟩ := bind_eq_ok.1 hrun
  obtain ⟨heap, subnodes, h', rfl, hext, hst, hlt, hstored⟩ := storeCell_spec hstore hw.streams
  have hwide := hm.variable hvar
  have hw₂ : Writing lay specs spec w₂ { t with heap, subnodes } h' :=
    ⟨hst, hw.inRow, hw.row.mono hext.grows hext.heap.items hext.entries⟩
  obtain ⟨rfl, hsubs, hdone⟩ := hw₂.put hf hnodup hc (.variable hwide hlt hstored)
    (by rw [le_length, hf.width c hc, cellWidth_variable hwide]) hput
  exact ⟨h', hsubs ▸ hext, hdone⟩

/-- One setter. -/
theorem setValue_spec {lay : Layout} {specs : List RowSpec} {spec : RowSpec} {tag : Nat}
    {v : CellValue} {w w' : NdbWriter} {t t' : StreamingTable} {h : HeapNode} {u : Unit}
    (hrun : setValue tag v (w, t) = .ok u (w', t')) (hw : Writing lay specs spec w t h)
    (hf : lay.Fits) (hnodup : (lay.columns.map Column.tag).Nodup) (hm : v.Matches tag) :
    ∃ h', Extends ((w, t.subnodes), h) ((w', t'.subnodes), h') ∧
      Writing lay specs (spec.set tag v) w' t' h' := by
  have hfixed (hrun : setFixed tag (v.bytes tag) (w, t) = .ok u (w', t'))
      (hv : v.isVariable = false) : ∃ h', Extends ((w, t.subnodes), h) ((w', t'.subnodes), h') ∧
        Writing lay specs (spec.set tag v) w' t' h' := by
    obtain ⟨rfl, hsubs, hdone⟩ := setFixed_spec hrun hw hf hnodup hm hv
    exact ⟨h, hsubs ▸ .refl hw.streams.sound hw.streams.subnodes hw.streams.ok, hdone⟩
  cases v with
  | int16 v => exact hfixed hrun rfl
  | int32 v => exact hfixed hrun rfl
  | bool v => exact hfixed hrun rfl
  | int64 v => exact hfixed hrun rfl
  | string utf8 => exact setBinary_spec hrun hw hf hnodup hm rfl
  | binary data => exact setBinary_spec hrun hw hf hnodup hm rfl

/-! ## Rows -/

theorem beginRow_spec {lay : Layout} {specs : List RowSpec} {rowId : Nat} {w w' : NdbWriter}
    {t t' : StreamingTable} {h : HeapNode} {u : Unit}
    (hrun : beginRow rowId (w, t) = .ok u (w', t'))
    (hst : Streams lay specs (specs.map RowSpec.rowId) w t h) (hf : lay.Fits)
    (hnodup : (lay.columns.map Column.tag).Nodup) :
    w = w' ∧ t.subnodes = t'.subnodes ∧ Writing lay specs (.new rowId) w' t' h := by
  unfold beginRow at hrun
  obtain ⟨_, _, hget, hrun⟩ := bind_eq_ok.1 hrun
  cases hget
  rcases ite_eq_ok.1 hrun with ⟨_, hrun⟩ | ⟨_, hrun⟩
  · obtain ⟨_, _, hthrow, _⟩ := bind_eq_ok.1 hrun
    cases hthrow
  obtain ⟨_, _, hset, hrun⟩ := bind_eq_ok.1 hrun
  cases set_eq_ok.1 hset
  obtain ⟨_, ⟨w₁, t₁⟩, hid, hver⟩ := bind_eq_ok.1 hrun
  have hstart : Writing lay specs ⟨rowId, fun _ => none⟩ w
      { t with
        inRow := true
        currentRow := List.replicate t.rowSize 0
        rowIndex := t.rowIndex ++ [(rowId, t.rowCount % 2 ^ 32)] } h := by
    obtain ⟨matrix, hrows, ⟨hsplit⟩⟩ := hst.rows
    refine ⟨⟨hst.sound, hst.agrees, hst.perBlock, hst.follows, hst.ok, hst.subnodes, hst.count,
      ?_, matrix, hrows, ⟨hsplit⟩⟩, rfl, ?_⟩
    · show t.rowIndex ++ [(rowId, t.rowCount % 2 ^ 32)] = _
      rw [hst.index, List.zipIdx_append, List.map_append, hst.count]
      simp
    · show RowHolds _ _ _ lay (List.replicate t.rowSize 0) _
      rw [show t.rowSize = lay.tciBm from hst.agrees.2.2.2]
      exact RowHolds.empty _ _ _ lay
  have hmId : (CellValue.int32 rowId).Matches PidTagLtpRowId := rfl
  have hmVer : (CellValue.int32 1).Matches PidTagLtpRowVer := rfl
  change setFixed _ ((CellValue.int32 rowId).bytes PidTagLtpRowId) _ = _ at hid
  change setFixed _ ((CellValue.int32 1).bytes PidTagLtpRowVer) _ = _ at hver
  obtain ⟨hw₁, hs₁, hwrite₁⟩ := setFixed_spec hid hstart hf hnodup hmId rfl
  obtain ⟨hw₂, hs₂, hwrite₂⟩ := setFixed_spec hver hwrite₁ hf hnodup hmVer rfl
  exact ⟨hw₁.trans hw₂, hs₁.trans hs₂, hwrite₂⟩

theorem flushRowBlock_eq_ok {last : Bool} {w w' : NdbWriter} {t t' : StreamingTable} {u : Unit} :
    flushRowBlock last (w, t) = .ok u (w', t') ↔ t.rowBlock = [] ∧ w = w' ∧ t = t' ∨
      t.rowBlock ≠ [] ∧ ∃ block bid,
        block = (if last then t.rowBlock else padTo kMaxBlockData t.rowBlock) ∧
        writeLeafChunk block w = .ok bid w' ∧ t' = { t with
          rowLeaves := t.rowLeaves ++ [bid]
          rowBytes := t.rowBytes + block.length
          rowBlock := [] } := by
  unfold flushRowBlock
  rw [bind_eq_ok]
  constructor
  · rintro ⟨_, _, hget, hrun⟩
    cases hget
    rcases ite_eq_ok.1 hrun with ⟨hnone, hrun⟩ | ⟨hsome, hrun⟩
    · cases hrun
      exact .inl ⟨hnone, rfl, rfl⟩
    · obtain ⟨_, _, hset, hrun⟩ := bind_eq_ok.1 hrun
      cases set_eq_ok.1 hset
      obtain ⟨bid, ⟨w₁, t₁⟩, hwrite, hrun⟩ := bind_eq_ok.1 hrun
      obtain ⟨hchunk, rfl⟩ := onNdb_eq_ok.1 hwrite
      cases modify_eq_ok.1 hrun
      exact .inr ⟨hsome, _, bid, rfl, hchunk, rfl⟩
  · rintro (⟨hnone, rfl, rfl⟩ | ⟨hsome, block, bid, rfl, hchunk, rfl⟩)
    · exact ⟨_, _, rfl, ite_eq_ok.2 (.inl ⟨hnone, rfl⟩)⟩
    · refine ⟨_, _, rfl, ite_eq_ok.2 (.inr ⟨hsome, ?_⟩)⟩
      exact bind_eq_ok.2 ⟨_, _, rfl, bind_eq_ok.2 ⟨bid, _, onNdb_eq_ok.2 ⟨hchunk, rfl⟩, rfl⟩⟩

/-- A full block is handed over. -/
theorem flush_blocks {lay : Layout} {w w' : NdbWriter} {t : StreamingTable} {bid : Nat}
    {full : List (List Bytes)} {last : List Bytes} (hs : Sound w)
    (hsize : ∀ row ∈ last, row.length = lay.tciBm)
    (hwrite : writeLeafChunk (padTo kMaxBlockData t.rowBlock) w = .ok bid w')
    (hblock : t.rowBlock = last.flatten) (hbytes : t.rowBytes = full.length * kMaxBlockData)
    (hlast : last.length = kMaxBlockData / lay.tciBm)
    (hleaves : List.Forall₂ (fun bid p => Leaf w bid (padTo kMaxBlockData p.flatten))
      t.rowLeaves full) :
    Grows w w' ∧
      t.rowBytes + (padTo kMaxBlockData t.rowBlock).length =
        (full ++ [last]).length * kMaxBlockData ∧
      List.Forall₂ (fun bid p => Leaf w' bid (padTo kMaxBlockData p.flatten))
        (t.rowLeaves ++ [bid]) (full ++ [last]) := by
  obtain ⟨hg, hleaf⟩ := writeLeafChunk_leaf hwrite hs
  have hwhole : last.flatten.length ≤ kMaxBlockData := by
    rw [length_flatten_rows hsize, hlast]
    exact Nat.div_mul_le_self _ _
  refine ⟨hg, ?_, List.rel_append (hleaves.imp fun _ _ h => h.mono hg) (.cons ?_ .nil)⟩
  · rw [hblock, padTo_length hwhole, hbytes, List.length_append, List.length_singleton,
      Nat.succ_mul]
  · rw [← hblock]
    exact hleaf

/-- The row joins the others, in a block that has room for it. -/
theorem endRow_spec {lay : Layout} {specs : List RowSpec} {spec : RowSpec} {w w' : NdbWriter}
    {t t' : StreamingTable} {h : HeapNode} {u : Unit} (hrun : endRow (w, t) = .ok u (w', t'))
    (hw : Writing lay specs spec w t h) (hf : lay.Fits) :
    Grows w w' ∧ t.subnodes = t'.subnodes ∧ t'.inRow = false ∧
      Streams lay (specs ++ [spec]) ((specs ++ [spec]).map RowSpec.rowId) w' t' h := by
  have hst := hw.streams
  obtain ⟨matrix, hrows, full, last, rfl, hblock, hbytes, hfull, hlast, hnone, hleaves⟩ := hst.rows
  have hpos := hf.rowSize_pos
  have hper : 0 < kMaxBlockData / lay.tciBm := Nat.div_pos (hf.small.trans (by decide)) hpos
  have hsize (row) (hr : row ∈ last) : row.length = lay.tciBm :=
    hrows.size row (List.mem_append_right _ hr)
  have hlen : t.rowBlock.length = last.length * lay.tciBm := by
    rw [hblock, length_flatten_rows hsize]
  have hcount : t.rowCount + 1 = (specs ++ [spec]).length := by
    rw [hst.count, List.length_append, List.length_singleton]
  have hids : t.rowIndex = ((specs ++ [spec]).map RowSpec.rowId).zipIdx.map
      fun e => (e.1, e.2 % 2 ^ 32) := by
    rw [hst.index, List.map_append]
    rfl
  unfold endRow at hrun
  obtain ⟨_, _, hget, hrun⟩ := bind_eq_ok.1 hrun
  cases hget
  rcases ite_eq_ok.1 hrun with ⟨_, hrun⟩ | ⟨_, hrun⟩
  · obtain ⟨_, _, hthrow, _⟩ := bind_eq_ok.1 hrun
    cases hthrow
  obtain ⟨_, _, hset, hrun⟩ := bind_eq_ok.1 hrun
  cases set_eq_ok.1 hset
  have hroom : t.rowsPerBlock * t.rowSize < t.rowBlock.length + t.rowSize ↔
      kMaxBlockData / lay.tciBm ≤ last.length := by
    rw [hst.perBlock, show t.rowSize = lay.tciBm from hst.agrees.2.2.2, hlen, ← Nat.succ_mul,
      Nat.mul_lt_mul_right hpos]
    exact Nat.lt_succ_iff
  rcases ite_eq_ok.1 hrun with ⟨hover, hrun⟩ | ⟨hover, hrun⟩
  · have heq : last.length = kMaxBlockData / lay.tciBm := le_antisymm hlast (hroom.1 hover)
    obtain ⟨_, ⟨w₁, t₁⟩, hflush, hrun⟩ := bind_eq_ok.1 hrun
    cases modify_eq_ok.1 hrun
    rcases flushRowBlock_eq_ok.1 hflush with ⟨hempty, -, -⟩ | ⟨_, block, bid, rfl, hwrite, rfl⟩
    · change t.rowBlock = [] at hempty
      rw [hempty, List.length_nil] at hlen
      have hzero := Nat.mul_pos (heq ▸ hper) hpos
      omega
    change writeLeafChunk (padTo kMaxBlockData t.rowBlock) w = _ at hwrite
    obtain ⟨hg, hbytes', hleaves'⟩ :=
      flush_blocks hst.sound hsize hwrite hblock hbytes heq hleaves
    refine ⟨hg, rfl, rfl, hg.sound, hst.agrees, hst.perBlock, hst.follows.mono hg, hst.ok,
      hst.subnodes, hcount, hids, full.flatten ++ last ++ [t.currentRow], ?_, full ++ [last],
      [t.currentRow], ?_, ?_, hbytes', ?_, hper, ?_, hleaves'⟩
    · have hrow := hw.row.mono hg (fun _ _ hi => hi) (List.Subset.refl _)
      exact List.rel_append (hrows.mono hg (fun _ _ hi => hi) (List.Subset.refl _))
        (.cons hrow .nil)
    · simp
    · simp
    · intro p hp
      rcases List.mem_append.1 hp with hp | hp
      · exact hfull p hp
      · rw [List.mem_singleton.1 hp, heq]
    · intro hno
      cases hno
  · cases modify_eq_ok.1 hrun
    have hlt : last.length < kMaxBlockData / lay.tciBm := not_le.1 fun hle => hover (hroom.2 hle)
    refine ⟨Grows.refl hst.sound, rfl, rfl, hst.sound, hst.agrees, hst.perBlock, hst.follows,
      hst.ok, hst.subnodes, hcount, hids, full.flatten ++ last ++ [t.currentRow], ?_, full,
      last ++ [t.currentRow], ?_, ?_, hbytes, hfull, ?_, ?_, hleaves⟩
    · exact List.rel_append hrows (.cons hw.row .nil)
    · rw [List.append_assoc]
    · show t.rowBlock ++ t.currentRow = _
      rw [hblock]
      simp
    · rw [List.length_append]
      exact hlt
    · intro hno
      simp at hno

/-! ## The end -/

/-- After the last flush the rows are in the leaves. -/
structure Flushed (lay : Layout) (specs : List RowSpec) (w : NdbWriter) (t : StreamingTable)
    (h : HeapNode) (matrix leaves : List Bytes) : Prop where
  rows : RowsHold w h.blocks t.subnodes.entries lay specs matrix
  blocks : matrix = [] ∧ leaves = [] ∨ Blocked kMaxBlockData lay.tciBm matrix leaves
  held : List.Forall₂ (Leaf w) t.rowLeaves leaves
  bytes : t.rowBytes = leaves.flatten.length

theorem flush_spec {lay : Layout} {specs : List RowSpec} {ids : List Nat} {w w' : NdbWriter}
    {t t' : StreamingTable} {h : HeapNode} {u : Unit}
    (hrun : flushRowBlock true (w, t) = .ok u (w', t')) (hst : Streams lay specs ids w t h)
    (hf : lay.Fits) :
    ∃ rowBlock rowLeaves rowBytes matrix leaves, t' = { t with rowBlock, rowLeaves, rowBytes } ∧
      Grows w w' ∧ Flushed lay specs w' t' h matrix leaves := by
  obtain ⟨matrix, hrows, full, last, rfl, hblock, hbytes, hfull, hlast, hnone, hleaves⟩ := hst.rows
  have hpos := hf.rowSize_pos
  have hsize (row) (hr : row ∈ last) : row.length = lay.tciBm :=
    hrows.size row (List.mem_append_right _ hr)
  rcases flushRowBlock_eq_ok.1 hrun with ⟨hempty, rfl, rfl⟩ | ⟨hsome, block, bid, rfl, hwrite, rfl⟩
  · have hlen : last.length * lay.tciBm = 0 := by
      rw [← length_flatten_rows hsize, ← hblock, hempty, List.length_nil]
    obtain rfl : last = [] := by
      rcases Nat.mul_eq_zero.1 hlen with hzero | hzero
      · exact List.eq_nil_of_length_eq_zero hzero
      · omega
    obtain rfl := hnone rfl
    cases hl : t.rowLeaves with
    | cons _ _ =>
      rw [hl] at hleaves
      cases hleaves
    | nil =>
      refine ⟨_, _, _, _, [], rfl, Grows.refl hst.sound, hrows, .inl ⟨rfl, rfl⟩, ?_, ?_⟩
      · rw [hl]
        exact .nil
      · rw [hbytes]
        simp
  · rw [if_pos rfl] at hwrite ⊢
    obtain ⟨hg, hleaf⟩ := writeLeafChunk_leaf hwrite hst.sound
    have hlastPos : 0 < last.length := by
      refine List.length_pos_iff.2 fun hno => hsome ?_
      rw [hblock, hno]
      rfl
    have hwhole (p) (hp : p ∈ full) : (padTo kMaxBlockData p.flatten).length = kMaxBlockData := by
      have hin (r) (hr : r ∈ p) : r.length = lay.tciBm :=
        hrows.size r (List.mem_append_left _ (List.mem_flatten.2 ⟨p, hp, hr⟩))
      refine padTo_length ?_
      rw [length_flatten_rows hin, hfull p hp]
      exact Nat.div_mul_le_self _ _
    refine ⟨_, _, _, full.flatten ++ last, full.map (fun p => padTo kMaxBlockData p.flatten) ++
      [last.flatten], rfl, hg, hrows.mono hg (fun _ _ hi => hi) (List.Subset.refl _),
      .inr ⟨full, last, rfl, rfl, hfull, hlastPos, hlast⟩, ?_, ?_⟩
    · refine List.rel_append ?_ (.cons (hblock ▸ hleaf) .nil)
      exact List.forall₂_map_right_iff.2 (hleaves.imp fun _ _ h => h.mono hg)
    · have hall : ∀ b ∈ full.map (fun p => padTo kMaxBlockData p.flatten),
          b.length = kMaxBlockData := by
        intro b hb
        obtain ⟨p, hp, rfl⟩ := List.mem_map.1 hb
        exact hwhole p hp
      show t.rowBytes + t.rowBlock.length = _
      rw [List.flatten_append, List.length_append, length_flatten_rows hall, List.length_map,
        hbytes, hblock, List.flatten_singleton]

/-- Rows of at least one octet are no more than the octets. -/
theorem Flushed.count {lay : Layout} {specs : List RowSpec} {w : NdbWriter} {t : StreamingTable}
    {h : HeapNode} {matrix leaves : List Bytes} (hfl : Flushed lay specs w t h matrix leaves)
    (hf : lay.Fits) : matrix.length ≤ leaves.flatten.length ∧
      (leaves.length ≤ 1 → matrix.length ≤ kMaxBlockData) := by
  have hpos := hf.rowSize_pos
  have hsize := hfl.rows.size
  rcases hfl.blocks with ⟨rfl, rfl⟩ | ⟨full, last, rfl, rfl, hfull, hsome, hlast⟩
  · exact ⟨le_rfl, fun _ => Nat.zero_le _⟩
  have hlastLe : last.length ≤ kMaxBlockData := hlast.trans (Nat.div_le_self _ _)
  have hlastLen : last.length ≤ last.flatten.length := by
    rw [length_flatten_rows fun r hr => hsize r (List.mem_append_right _ hr)]
    exact Nat.le_mul_of_pos_right _ hpos
  have hfullLen : full.flatten.length ≤ (full.map fun p => padTo kMaxBlockData p.flatten).flatten.length := by
    rw [length_flatten_rows hfull]
    have hge : full.length * kMaxBlockData ≤
        (full.map fun p => padTo kMaxBlockData p.flatten).flatten.length := by
      clear hfl hsize hfull
      induction full with
      | nil => exact Nat.zero_le _
      | cons p full ih =>
        have hp : kMaxBlockData ≤ (padTo kMaxBlockData p.flatten).length := by
          rw [padTo, List.length_append, List.length_replicate]
          omega
        rw [List.map_cons, List.flatten_cons, List.length_append, List.length_cons, Nat.succ_mul]
        omega
    exact (Nat.mul_le_mul_left _ (Nat.div_le_self _ _)).trans hge
  refine ⟨?_, fun hone => ?_⟩
  · rw [List.flatten_append, List.length_append, List.length_append, List.flatten_singleton]
    exact Nat.add_le_add hfullLen hlastLen
  · rw [List.length_append, List.length_map, List.length_singleton] at hone
    obtain rfl : full = [] := List.eq_nil_of_length_eq_zero (by omega)
    exact hlastLe

theorem adoptRows_spec {lay : Layout} {specs : List RowSpec} {hnid : Nat} {w w' : NdbWriter}
    {t t' : StreamingTable} {h : HeapNode} {matrix leaves : List Bytes}
    (hrun : adoptRows (w, t) = .ok hnid (w', t')) (hs : Sound w) (hok : h.Ok)
    (hsub : t.subnodes.Ok) (hf : lay.Fits) (hfl : Flushed lay specs w t h matrix leaves) :
    ∃ subnodes, t' = { t with subnodes } ∧
      Extends ((w, t.subnodes), h) ((w', subnodes), h) ∧ hnid < 2 ^ 32 ∧
      specs.length ≤ 2 ^ 32 ∧ (specs = [] ∧ hnid = 0 ∧ leaves = [] ∨ hnid ≠ 0 ∧
        Stored w' h.blocks subnodes.entries hnid leaves ∧
        Blocked kMaxBlockData lay.tciBm matrix leaves) := by
  have hlen := hfl.held.length_eq
  have hspecs : specs.length = matrix.length := hfl.rows.length_eq
  obtain ⟨hcount, hfew⟩ := hfl.count hf
  unfold adoptRows at hrun
  obtain ⟨_, _, hget, hrun⟩ := bind_eq_ok.1 hrun
  cases hget
  rcases ite_eq_ok.1 hrun with ⟨hnone, hrun⟩ | ⟨hsome, hrun⟩
  · cases hrun
    obtain rfl : leaves = [] := by
      rw [hnone] at hlen
      exact List.eq_nil_of_length_eq_zero hlen.symm
    rw [List.flatten_nil, List.length_nil, ← hspecs] at hcount
    refine ⟨_, rfl, .refl hs hsub hok, by decide, by omega, .inl ⟨?_, rfl, rfl⟩⟩
    exact List.eq_nil_of_length_eq_zero (by omega)
  · obtain ⟨bid, ⟨w₁, t₁⟩, htree, hadopt⟩ := bind_eq_ok.1 hrun
    obtain ⟨hassemble, rfl⟩ := onNdb_eq_ok.1 htree
    obtain ⟨subnodes, hadopted, rfl⟩ := onSubnodes_eq_ok.1 hadopt
    obtain ⟨rfl, rfl, rfl⟩ := SubnodeAllocator.adopt_eq_ok.1 hadopted
    have hleaf : ∀ (k b : Nat) (p : Bytes), t.rowLeaves[k]? = some b → leaves[k]? = some p →
        Leaf w b p := by
      intro k b p hb hp
      obtain ⟨hk, rfl⟩ := List.getElem?_eq_some_iff.1 hb
      obtain ⟨hk', rfl⟩ := List.getElem?_eq_some_iff.1 hp
      exact hfl.held.get hk hk'
    obtain ⟨hg, hread⟩ := assembleDataTree_reads hassemble hs hsome hlen hleaf
    have hblocked : Blocked kMaxBlockData lay.tciBm matrix leaves := by
      refine hfl.blocks.resolve_left fun hno => hsome ?_
      rw [hno.2] at hlen
      exact List.eq_nil_of_length_eq_zero hlen
    have htype : hnidIsHid (makeNid kNidTypeLtp t.subnodes.nextIndex) = false := by
      refine hnidIsHid_eq_false ?_
      rw [nidType_makeNid (by decide)]
      decide
    refine ⟨_, rfl, ⟨hg, HeapNode.Grows.refl hok, List.subset_append_left _ _,
      hsub.adopted (hread.bid_lt hg.sound)⟩, makeNid_lt _ _, ?_, .inr ⟨?_,
      .subnode (List.mem_append_right _ List.mem_cons_self) rfl htype hread, hblocked⟩⟩
    · rw [hspecs]
      by_cases hone : leaves.length ≤ 1
      · exact (hfew hone).trans (by decide)
      · have hmany : 1 < t.rowLeaves.length := by omega
        rw [assembleDataTree_of_many hmany] at hassemble
        rcases ite_eq_ok.1 hassemble with ⟨_, hthrow⟩ | ⟨hsmall, _⟩
        · obtain ⟨_, _, hthrow, _⟩ := bind_eq_ok.1 hthrow
          cases hthrow
        · have hbytes := hfl.bytes
          omega
    · intro hzero
      rw [hzero] at htype
      cases htype

theorem buildIndex_spec {std : StdSort} {specs : List RowSpec} {hid : Nat} {w w' : NdbWriter}
    {t t' : StreamingTable} {h : HeapNode} (hrun : buildIndex std (w, t) = .ok hid (w', t'))
    (hs : Sound w) (hok : h.Ok) (hf : StreamingHeap.Follows w t.heap h)
    (hindex : t.rowIndex = (specs.map RowSpec.rowId).zipIdx.map fun e => (e.1, e.2 % 2 ^ 32))
    (hids : ∀ r ∈ specs, r.rowId < 2 ^ 32) (hnodup : (specs.map RowSpec.rowId).Nodup)
    (hfew : specs.length ≤ 2 ^ 32) :
    ∃ heap h', t' = { t with rowIndex := [], heap } ∧ Grows w w' ∧ h.Grows h' ∧
      StreamingHeap.Follows w' heap h' ∧ hid < 2 ^ 32 ∧ ∀ item, HeapNode.Finds item h' → ∀ k,
        (bthLookup item hid k).map fromLe = specs.findIdx? fun r => r.rowId = k := by
  unfold buildIndex at hrun
  obtain ⟨_, _, hget, hrun⟩ := bind_eq_ok.1 hrun
  cases hget
  obtain ⟨_, _, hset, hrun⟩ := bind_eq_ok.1 hrun
  cases set_eq_ok.1 hset
  obtain ⟨heap, hbth, rfl⟩ := onHeap_eq_ok.1 hrun
  have hrecords : IndexOf specs
      ((std.sort pairLess t.rowIndex).map fun e => indexRecord e.1 e.2) := by
    refine ⟨?_, hids, hnodup, hfew⟩
    refine ((std.perm pairLess t.rowIndex).map _).trans ?_
    rw [hindex, List.map_map]
    refine List.Perm.of_eq (List.map_congr_left fun e he => ?_)
    have hlt := List.snd_lt_of_mem_zipIdx he
    rw [List.length_map] at hlt
    have hmod : e.2 % 2 ^ 32 = e.2 := Nat.mod_eq_of_lt (by omega)
    rw [Function.comp_apply, hmod]
  -- the in-memory heap gets the same tree
  have halloc (data : Bytes) : Simulates
      (fun (p : NdbWriter × StreamingHeap) h => Grows w p.1 ∧ HeapNode.Ok h ∧
        StreamingHeap.Follows p.1 p.2 h) (StreamingHeap.alloc data) (HeapNode.alloc data) := by
    rintro ⟨w₁, s₁⟩ h₁ a ⟨w₂, s₂⟩ ⟨hg, hok₁, hf₁⟩ hone
    obtain ⟨hg', hmem, hf₂⟩ := StreamingHeap.alloc_follows hone hg.sound hf₁
    exact ⟨_, hmem, hg.trans hg', (HeapNode.alloc_spec hmem hok₁).1.ok, hf₂⟩
  obtain ⟨h', hmem, hg, -, hf'⟩ := buildBthInto_simulates std halloc 4 4 _ _ _ _ _
    ⟨Grows.refl hs, hok, hf⟩ hbth
  obtain ⟨hgrows, hidlt, hfinds⟩ := buildBth_spec hmem hok (by decide) (by decide) hrecords.fits
    ((hrecords.perm.map BthRecord.num).nodup_iff.2 hrecords.nums)
  refine ⟨heap, h', rfl, hg, hgrows, hf', hidlt.2, fun item hitem k => ?_⟩
  rw [hfinds item hitem k]
  exact hrecords.find k

/-- The node that `finish` leaves has the table. -/
theorem finish_spec {std : StdSort} {lay : Layout} {specs : List RowSpec} {n : NodeData}
    {w w' : NdbWriter} {t t' : StreamingTable} {h : HeapNode}
    (hrun : finish std (w, t) = .ok n (w', t')) (hf : lay.Fits)
    (htags : ∀ c ∈ lay.columns, c.tag < 2 ^ 32) (hids : ∀ r ∈ specs, r.rowId < 2 ^ 32)
    (hnodup : (specs.map RowSpec.rowId).Nodup)
    (hst : Streams lay specs (specs.map RowSpec.rowId) w t h) :
    Grows w w' ∧ ∃ h' entries, NodeAt w' n.data n.sub h' entries ∧
      TableIn w' h' entries std lay specs := by
  unfold finish at hrun
  obtain ⟨_, ⟨w₁, t₁⟩, hflush, hrun⟩ := bind_eq_ok.1 hrun
  obtain ⟨rowBlock, rowLeaves, rowBytes, matrix, leaves, rfl, hg₁, hfl⟩ := flush_spec hflush hst hf
  obtain ⟨hnid, ⟨w₂, t₂⟩, hadopt, hrun⟩ := bind_eq_ok.1 hrun
  obtain ⟨subnodes, rfl, hext₂, hnidlt, hfew, hstore⟩ :=
    adoptRows_spec hadopt hg₁.sound hst.ok hst.subnodes hf hfl
  have hg₂ := hext₂.grows
  obtain ⟨hid, ⟨w₃, t₃⟩, hbuild, hrun⟩ := bind_eq_ok.1 hrun
  obtain ⟨heap₃, h₃, rfl, hg₃, hgrows₃, hf₃, hidlt, hindex⟩ := buildIndex_spec hbuild hg₂.sound
    hst.ok ((hst.follows.mono hg₁).mono hg₂) hst.index hids hnodup hfew
  obtain ⟨_, _, hget, hrun⟩ := bind_eq_ok.1 hrun
  cases hget
  obtain ⟨root, ⟨w₄, t₄⟩, hinfo, hrun⟩ := bind_eq_ok.1 hrun
  obtain ⟨heap₄, halloc, rfl⟩ := onHeap_eq_ok.1 hinfo
  change StreamingHeap.alloc (tcInfo std t.toLayout hid hnid) (w₃, heap₃) = _ at halloc
  rw [hst.agrees.toLayout_eq] at halloc
  obtain ⟨hg₄, hmem, hf₄⟩ := StreamingHeap.alloc_follows halloc hg₃.sound hf₃
  obtain ⟨hgrows₄, hitem, -⟩ := HeapNode.alloc_spec hmem hgrows₃.ok
  generalize h₃.add (tcInfo std lay hid hnid) = h₄ at hf₄ hgrows₄ hitem
  obtain ⟨-, hrootlt, -⟩ := hgrows₄.ok.hid hitem
  obtain ⟨_, _, hset, hrun⟩ := bind_eq_ok.1 hrun
  cases modify_eq_ok.1 hset
  obtain ⟨data, ⟨w₅, t₅⟩, hfinish, hrun⟩ := bind_eq_ok.1 hrun
  obtain ⟨heap₅, hheap, rfl⟩ := onHeap_eq_ok.1 hfinish
  obtain ⟨hg₅, htree⟩ := StreamingHeap.finish_tree hheap hg₄.sound (hf₄.setUserRoot root)
  obtain ⟨_, _, hget, hrun⟩ := bind_eq_ok.1 hrun
  cases hget
  obtain ⟨sub, ⟨w₆, t₆⟩, hsubs, hrun⟩ := bind_eq_ok.1 hrun
  obtain ⟨hwrite, rfl⟩ := onNdb_eq_ok.1 hsubs
  cases hrun
  obtain ⟨hg₆, hcount, -, hreads⟩ := writeSubnodes_reads hwrite hg₅.sound hext₂.ok.fits
  have hlate := ((hg₃.trans hg₄).trans hg₅).trans hg₆
  have hitems (i : Nat) (item : Bytes) (hi : HasItem h.blocks i item) : HasItem h₄.blocks i item :=
    hgrows₄.items i item (hgrows₃.items i item hi)
  have hsome : h₄.blocks ≠ [] := by simp [HeapNode.blocks]
  refine ⟨(hg₁.trans hg₂).trans hlate, h₄.setUserRoot root, subnodes.entries,
    ⟨⟨_, htree.mono hg₆, ?_, ?_⟩, hgrows₄.ok.setUserRoot root, ⟨_, std.perm _ _, hreads⟩,
      hext₂.ok.nodup hcount⟩,
    hf, htags, hid, hnid, matrix, leaves, hitem, hidlt, hnidlt, ?_, ?_, ?_⟩
  · exact renderAll_image hgrows₄.ok.packed StreamingHeap.fillLevels_length
  · exact heapUserRoot_renderAll hgrows₄.ok.packed hsome StreamingHeap.fillLevels_length hrootlt
  · exact (hfl.rows.mono hg₂ (fun _ _ hi => hi) hext₂.entries).mono hlate hitems
      (List.Subset.refl _)
  · exact hstore.imp_right fun hrows =>
      ⟨hrows.1, hrows.2.1.mono hlate hitems (List.Subset.refl _), hrows.2.2⟩
  · intro item hfinds k
    exact hindex item (fun i data hi => hfinds i data (hgrows₄.items i data hi)) k

end StreamingTable

/-! ## Both writers -/

/-- A row as its caller writes it: the id and the setters. -/
structure RowCalls where
  rowId : Nat
  sets : List (Nat × CellValue)

/-- The row these calls ask for. -/
def RowCalls.spec (r : RowCalls) : RowSpec :=
  r.sets.foldl (fun spec e => spec.set e.1 e.2) (.new r.rowId)

/-- Each setter is one for the type of its column. -/
def RowCalls.Matches (r : RowCalls) : Prop := ∀ e ∈ r.sets, e.2.Matches e.1

theorem RowCalls.rowId_spec (r : RowCalls) : r.spec.rowId = r.rowId := by
  suffices ∀ spec : RowSpec, (r.sets.foldl (fun spec e => spec.set e.1 e.2) spec).rowId =
      spec.rowId from this (.new r.rowId)
  induction r.sets with
  | nil => exact fun _ => rfl
  | cons e sets ih => exact fun spec => ih (spec.set e.1 e.2)

theorem RowCalls.Matches.typed {r : RowCalls} (h : r.Matches) : r.spec.Typed := by
  obtain ⟨rowId, sets⟩ := r
  unfold RowCalls.Matches at h
  suffices ∀ spec : RowSpec, spec.Typed →
      (sets.foldl (fun spec e => spec.set e.1 e.2) spec).Typed from
    this (.new rowId) (RowSpec.typed_new rowId)
  induction sets with
  | nil => exact fun _ hspec => hspec
  | cons e sets ih =>
    intro spec hspec
    exact ih (fun e' he' => h e' (List.mem_cons_of_mem _ he')) _
      (hspec.set (h e List.mem_cons_self))

theorem admissible_of_calls {columns : List Nat} {rows : List RowCalls}
    (hfew : columns.length ≤ 253) (htags : ∀ tag ∈ columns, tag < 2 ^ 32)
    (hids : ∀ r ∈ rows, r.rowId < 2 ^ 32) (hnodup : (rows.map RowCalls.rowId).Nodup)
    (hm : ∀ r ∈ rows, r.Matches) : Admissible columns (rows.map RowCalls.spec) := by
  have hmap : (rows.map RowCalls.spec).map RowSpec.rowId = rows.map RowCalls.rowId := by
    rw [List.map_map]
    exact List.map_congr_left fun r _ => r.rowId_spec
  refine ⟨hfew, htags, fun spec hspec => ?_, hmap ▸ hnodup, fun spec hspec => ?_⟩
  · obtain ⟨r, hr, rfl⟩ := List.mem_map.1 hspec
    exact r.rowId_spec ▸ hids r hr
  · obtain ⟨r, hr, rfl⟩ := List.mem_map.1 hspec
    exact (hm r hr).typed

namespace StreamingTable

def writeRow (r : RowCalls) : Streaming StreamingTable Unit := do
  beginRow r.rowId
  let _ ← each (fun e => setValue e.1 e.2) r.sets
  endRow

/-- The node of a table: the constructor, the rows, `finish`. -/
def node (std : StdSort) (columns : List Nat) (rows : List RowCalls) : Ndb NodeData := do
  let (n, _) ← withLocal (create columns) do
    let _ ← each writeRow rows
    finish std
  return n

theorem setters_spec {lay : Layout} (hf : lay.Fits) (hnodup : (lay.columns.map Column.tag).Nodup)
    {sets : List (Nat × CellValue)} (hm : ∀ e ∈ sets, e.2.Matches e.1) {specs : List RowSpec}
    {spec : RowSpec} {w w' : NdbWriter} {t t' : StreamingTable} {h : HeapNode} {us : List Unit}
    (hrun : each (fun e => setValue e.1 e.2) sets (w, t) = .ok us (w', t'))
    (hw : Writing lay specs spec w t h) :
    ∃ h', Extends ((w, t.subnodes), h) ((w', t'.subnodes), h') ∧
      Writing lay specs (sets.foldl (fun spec e => spec.set e.1 e.2) spec) w' t' h' := by
  induction sets generalizing w t h spec us with
  | nil =>
    cases hrun
    exact ⟨h, .refl hw.streams.sound hw.streams.subnodes hw.streams.ok, hw⟩
  | cons e sets ih =>
    obtain ⟨_, ⟨w₁, t₁⟩, _, hone, hrest, rfl⟩ := each_cons_eq_ok.1 hrun
    obtain ⟨h₁, hext, hw₁⟩ := setValue_spec hone hw hf hnodup (hm e List.mem_cons_self)
    obtain ⟨h', hext', hw'⟩ := ih (fun e' he' => hm e' (List.mem_cons_of_mem _ he')) hrest hw₁
    exact ⟨h', hext.trans hext', hw'⟩

/-- One row. -/
theorem writeRow_spec {lay : Layout} (hf : lay.Fits) (hnodup : (lay.columns.map Column.tag).Nodup)
    {r : RowCalls} (hm : r.Matches) {specs : List RowSpec} {w w' : NdbWriter}
    {t t' : StreamingTable} {h : HeapNode} {u : Unit}
    (hrun : writeRow r (w, t) = .ok u (w', t'))
    (hst : Streams lay specs (specs.map RowSpec.rowId) w t h) :
    Grows w w' ∧ ∃ h', Streams lay (specs ++ [r.spec]) ((specs ++ [r.spec]).map RowSpec.rowId)
      w' t' h' := by
  obtain ⟨_, ⟨w₁, t₁⟩, hbegin, hrun⟩ := bind_eq_ok.1 hrun
  obtain ⟨_, ⟨w₂, t₂⟩, hsets, hend⟩ := bind_eq_ok.1 hrun
  obtain ⟨rfl, -, hw₁⟩ := beginRow_spec hbegin hst hf hnodup
  obtain ⟨h₂, hext, hw₂⟩ := setters_spec hf hnodup hm hsets hw₁
  obtain ⟨hg, -, -, hst'⟩ := endRow_spec hend hw₂ hf
  exact ⟨hext.grows.trans hg, h₂, hst'⟩

/-- The rows, one after the other. -/
theorem writeRows_spec {lay : Layout} (hf : lay.Fits) (hnodup : (lay.columns.map Column.tag).Nodup)
    {rows : List RowCalls} (hm : ∀ r ∈ rows, r.Matches) {specs : List RowSpec} {w w' : NdbWriter}
    {t t' : StreamingTable} {h : HeapNode} {us : List Unit}
    (hrun : each writeRow rows (w, t) = .ok us (w', t'))
    (hst : Streams lay specs (specs.map RowSpec.rowId) w t h) :
    Grows w w' ∧ ∃ h', Streams lay (specs ++ rows.map RowCalls.spec)
      ((specs ++ rows.map RowCalls.spec).map RowSpec.rowId) w' t' h' := by
  induction rows generalizing w t h specs us with
  | nil =>
    cases hrun
    rw [List.map_nil, List.append_nil]
    exact ⟨Grows.refl hst.sound, h, hst⟩
  | cons r rows ih =>
    obtain ⟨_, ⟨w₁, t₁⟩, _, hone, hrest, rfl⟩ := each_cons_eq_ok.1 hrun
    obtain ⟨hg, h₁, hst₁⟩ := writeRow_spec hf hnodup (hm r List.mem_cons_self) hone hst
    obtain ⟨hg', hall⟩ := ih (fun r' hr' => hm r' (List.mem_cons_of_mem _ hr')) hrest hst₁
    rw [List.append_assoc] at hall
    exact ⟨hg.trans hg', hall⟩

theorem streams_new {columns : List Nat} {w : NdbWriter} (hs : Sound w) :
    Streams (layout (declared columns)) [] [] w (create columns) { clientSig := kHnSigTC } := by
  obtain ⟨hagrees, hper⟩ := create_agrees columns
  refine ⟨hs, hagrees, hper, StreamingHeap.follows_new w kHnSigTC, HeapNode.ok_new kHnSigTC,
    SubnodeAllocator.ok_new, rfl, rfl, [], .nil, [], [], rfl, rfl, rfl, ?_, Nat.zero_le _,
    fun _ => rfl, .nil⟩
  intro p hp
  cases hp

/-- The streaming writer leaves the table that was asked for. -/
theorem node_spec {std : StdSort} {columns : List Nat} {rows : List RowCalls}
    (ha : Admissible columns (rows.map RowCalls.spec)) (hm : ∀ r ∈ rows, r.Matches) {n : NodeData}
    {w w' : NdbWriter} (hrun : node std columns rows w = .ok n w') (hs : Sound w) :
    Grows w w' ∧ ∃ h entries, NodeAt w' n.data n.sub h entries ∧
      TableIn w' h entries std (layout (declared columns)) (rows.map RowCalls.spec) := by
  obtain ⟨hf, htags⟩ := declared_fits ha.few
  obtain ⟨-, -, -, -, hnodup⟩ := declared_eq columns
  unfold node at hrun
  obtain ⟨⟨n', t'⟩, w₁, hlocal, hpure⟩ := bind_eq_ok.1 hrun
  obtain ⟨rfl, rfl⟩ := pure_eq_ok.1 hpure
  have hbody := withLocal_eq_ok.1 hlocal
  obtain ⟨_, ⟨w₂, t₂⟩, hrows, hfinish⟩ := bind_eq_ok.1 hbody
  have hdistinct : ((layout (declared columns)).columns.map Column.tag).Nodup := by
    rw [htags]
    exact hnodup
  obtain ⟨hg, h, hst⟩ := writeRows_spec hf hdistinct hm hrows (streams_new hs)
  rw [List.nil_append] at hst
  obtain ⟨hg', hnode⟩ := finish_spec hfinish hf
    (fun c hc => declared_lt ha.tags c.tag (htags ▸ List.mem_map_of_mem hc)) ha.ids ha.nodup hst
  exact ⟨hg.trans hg', hnode⟩

end StreamingTable

namespace TableContext

/-- The node of a table: the columns and the calls, `serialize`, and what is written of it. -/
def node (std : StdSort) (columns : List Nat) (calls : List TableCall) : Ndb NodeData := do
  let (_, t) ← withLocal {} (onLocal (filled columns calls))
  let (heap, subs) ← withLocal {} (t.serialize std)
  let data ← writeData heap
  let sub ← writeSubnodes std subs.entries
  return ⟨data, sub⟩

/-- The table in memory is serialized, and the node is written. -/
theorem node_eq_ok {std : StdSort} {columns : List Nat} {calls : List TableCall} {n : NodeData}
    {w w' : NdbWriter} (hrun : node std columns calls w = .ok n w') :
    ∃ (c : TableContext) (heap : Bytes) (subs : SubnodeAllocator) (w₁ w₂ : NdbWriter),
      Holds (declared columns) (calls.foldl TableCall.apply []) c ∧
      c.serialize std (w, {}) = .ok heap (w₁, subs) ∧ writeData heap w₁ = .ok n.data w₂ ∧
      writeSubnodes std subs.entries w₂ = .ok n.sub w' := by
  unfold node at hrun
  obtain ⟨⟨_, t⟩, w₁, hfilled, hrun⟩ := bind_eq_ok.1 hrun
  obtain ⟨hfill, rfl⟩ := onLocal_eq_ok.1 (withLocal_eq_ok.1 hfilled)
  obtain ⟨_, t₁, hset, hcalls⟩ := bind_eq_ok.1 hfill
  cases set_eq_ok.1 hset
  obtain ⟨_, t₂, hcalls, hpure⟩ := bind_eq_ok.1 hcalls
  cases hpure
  obtain ⟨⟨heap, subs⟩, w₂, hlocal, hrun⟩ := bind_eq_ok.1 hrun
  obtain ⟨data, w₃, hdata, hrun⟩ := bind_eq_ok.1 hrun
  obtain ⟨sub, w₄, hsub, hpure⟩ := bind_eq_ok.1 hrun
  obtain ⟨rfl, rfl⟩ := pure_eq_ok.1 hpure
  exact ⟨t, heap, subs, w₂, w₃, calls_hold hcalls (holds_columns columns),
    withLocal_eq_ok.1 hlocal, hdata, hsub⟩

/-- The in-memory writer leaves the table that was asked for, under BIDs of eight octets. -/
theorem node_written {std : StdSort} {columns : List Nat} {calls : List TableCall}
    (ha : Admissible columns (calls.foldl TableCall.apply [])) {n : NodeData} {w w' : NdbWriter}
    (hrun : node std columns calls w = .ok n w') (hs : Sound w) :
    Grows w w' ∧ n.Fits ∧ ∃ h entries, NodeAt w' n.data n.sub h entries ∧
      TableIn w' h entries std (layout (declared columns)) (calls.foldl TableCall.apply []) := by
  obtain ⟨c, heap, subs, w₁, w₂, hholds, hserialize, hdata, hsub⟩ := node_eq_ok hrun
  obtain ⟨h, rfl, hok, hroot, hg, -, hsok, htable⟩ :=
    serialize_spec ha hholds hserialize hs SubnodeAllocator.ok_new
  obtain ⟨hg', hnode, hfits⟩ := nodeAt_of_writes hdata hsub hg.sound hok hroot hsok
  exact ⟨hg.trans hg', ⟨hfits.1, hfits.2⟩, h, subs.entries, hnode,
    htable.mono hg' (List.Subset.refl _)⟩

/-- The in-memory writer leaves the table that was asked for. -/
theorem node_spec {std : StdSort} {columns : List Nat} {calls : List TableCall}
    (ha : Admissible columns (calls.foldl TableCall.apply [])) {n : NodeData} {w w' : NdbWriter}
    (hrun : node std columns calls w = .ok n w') (hs : Sound w) :
    Grows w w' ∧ ∃ h entries, NodeAt w' n.data n.sub h entries ∧
      TableIn w' h entries std (layout (declared columns)) (calls.foldl TableCall.apply []) := by
  obtain ⟨hg, -, htable⟩ := node_written ha hrun hs
  exact ⟨hg, htable⟩

/-- There are no more rows than a data tree can hold. -/
theorem node_few {std : StdSort} {columns : List Nat} {calls : List TableCall}
    (hfew : columns.length ≤ 253) (htyped : ∀ r ∈ calls.foldl TableCall.apply [], r.Typed)
    {n : NodeData} {w w' : NdbWriter} (hrun : node std columns calls w = .ok n w')
    (hs : Sound w) : (calls.foldl TableCall.apply []).length *
      (layout (declared columns)).tciBm ≤ 2 ^ 32 := by
  obtain ⟨c, heap, subs, w₁, w₂, hholds, hserialize, -, -⟩ := node_eq_ok hrun
  exact serialize_few hfew htyped hholds hserialize hs

end TableContext

/-- What a reader finds of a table, in one node and in the other. -/
structure SameTable (std : StdSort) (columns : List Nat) (rows : List RowCalls)
    (store : Store) (n : NodeData) (store' : Store) (n' : NodeData) (table : Table) : Prop where
  asked : table = .of std (layout (declared columns)) (rows.map RowCalls.spec)
  first : readTable store n.data n.sub = some table
  second : readTable store' n'.data n'.sub = some table
  ordinals : ∀ (i : Nat) (r : RowCalls), rows[i]? = some r → table.ordinal r.rowId = some i
  firstPlaced : RowsPlaced store n.data n.sub table
  secondPlaced : RowsPlaced store' n'.data n'.sub table

theorem Table.ordinal_of {std : StdSort} {lay : Layout} {specs : List RowSpec}
    (hnodup : (specs.map RowSpec.rowId).Nodup) {i : Nat} {r : RowSpec} (hr : specs[i]? = some r) :
    (Table.of std lay specs).ordinal r.rowId = some i := by
  obtain ⟨hi, rfl⟩ := List.getElem?_eq_some_iff.1 hr
  show specs.findIdx? (fun r => r.rowId = specs[i].rowId) = some i
  rw [List.findIdx?_eq_some_iff_getElem]
  refine ⟨hi, decide_eq_true rfl, fun j hj hsame => ?_⟩
  have hj' : j < specs.length := hj.trans hi
  have heq : specs[j] = specs[i] :=
    List.inj_on_of_nodup_map hnodup (List.getElem_mem hj') (List.getElem_mem hi)
      (of_decide_eq_true hsame)
  have hji := (hnodup.of_map _).getElem_inj_iff.1 heq
  omega

/-- The streaming writer and the in-memory writer, given the same columns and the same values for
the cells of the same rows, by setters in any order, leave the same table, each row in its place. -/
theorem streaming_table_is_in_memory_table {std : StdSort} {columns : List Nat}
    {rows : List RowCalls} {calls : List TableCall} (hfew : columns.length ≤ 253)
    (htags : ∀ tag ∈ columns, tag < 2 ^ 32) (hids : ∀ r ∈ rows, r.rowId < 2 ^ 32)
    (hnodup : (rows.map RowCalls.rowId).Nodup) (hm : ∀ r ∈ rows, r.Matches)
    (hsame : calls.foldl TableCall.apply [] = rows.map RowCalls.spec)
    {v v' w w' : NdbWriter} {n n' : NodeData} (hv : Sound v) (hw : Sound w)
    (hmem : TableContext.node std columns calls v = .ok n v')
    (hstream : StreamingTable.node std columns rows w = .ok n' w') :
    ∃ table, SameTable std columns rows v'.store n w'.store n' table := by
  have ha := admissible_of_calls hfew htags hids hnodup hm
  obtain ⟨hg, h, entries, hnode, htable⟩ := TableContext.node_spec (hsame ▸ ha) hmem hv
  obtain ⟨hg', h', entries', hnode', htable'⟩ := StreamingTable.node_spec ha hm hstream hw
  rw [hsame] at htable
  obtain ⟨hread, hplaced⟩ := htable.reads hnode hg.sound.covers
  obtain ⟨hread', hplaced'⟩ := htable'.reads hnode' hg'.sound.covers
  refine ⟨_, rfl, hread, hread', fun i r hr => ?_, hplaced, hplaced'⟩
  have hspec : (rows.map RowCalls.spec)[i]? = some r.spec := by rw [List.getElem?_map, hr]; rfl
  rw [← r.rowId_spec]
  exact Table.ordinal_of ha.nodup hspec

/-- The columns of a name, a key and a flag. -/
def threeColumns : List Nat := [0x3001001F, 0x0FF90102, 0x0E1B000B]

/-- Three rows, for the writer that takes one at a time. -/
def threeRows : List RowCalls :=
  [⟨7, [(0x3001001F, .string [65]), (0x0E1B000B, .bool true)]⟩,
    ⟨3, [(0x3001001F, .string [66, 67])]⟩,
    ⟨9, [(0x0FF90102, .binary [1, 2, 3]), (0x3001001F, .string [68, 69, 70])]⟩]

/-- The same rows, for the writer that takes them in any order. -/
def threeRowCalls : List TableCall :=
  [.addRow 7, .addRow 3, .addRow 9, .set 2 0x0FF90102 (.binary [1, 2, 3]),
    .set 0 0x0E1B000B (.bool true), .set 1 0x3001001F (.string [66, 67]),
    .set 0 0x3001001F (.string [65]), .set 2 0x3001001F (.string [68, 69, 70])]

theorem three_rows_same_table : ∃ v v' w w' n n',
    TableContext.node .insertion threeColumns threeRowCalls v = .ok n v' ∧
    StreamingTable.node .insertion threeColumns threeRows w = .ok n' w' ∧
    ∃ table, SameTable .insertion threeColumns threeRows v'.store n w'.store n' table := by
  have hmem : succeeded ((do
      openWriter
      TableContext.node .insertion threeColumns threeRowCalls) { fate := fun _ => true }) = true := by
    decide +kernel
  have hstream : succeeded ((do
      openWriter
      StreamingTable.node .insertion threeColumns threeRows) { fate := fun _ => true }) = true := by
    decide +kernel
  obtain ⟨n, v', hmem⟩ := succeeded_iff.1 hmem
  obtain ⟨n', w', hstream⟩ := succeeded_iff.1 hstream
  obtain ⟨_, v, hopen, hmem⟩ := bind_eq_ok.1 hmem
  obtain ⟨_, w, hopen', hstream⟩ := bind_eq_ok.1 hstream
  refine ⟨v, v', w, w', n, n', hmem, hstream, streaming_table_is_in_memory_table (by decide)
    (by decide) (by decide) (by decide) ?_ ?_ (openWriter_spec hopen).sound
    (openWriter_spec hopen').sound hmem hstream⟩
  · simp only [threeRows, List.forall_mem_cons, RowCalls.Matches]
    exact ⟨⟨rfl, rfl, by simp⟩, ⟨rfl, by simp⟩, ⟨rfl, rfl, by simp⟩, by simp⟩
  · show [((RowSpec.new 7).set 0x0E1B000B _).set _ _, _, _] =
      [((RowSpec.new 7).set 0x3001001F _).set _ _, _, _]
    rw [RowSpec.set_comm _ (by decide)]
    rfl

end Pst
end Imap2Pst
