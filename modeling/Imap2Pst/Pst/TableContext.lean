import Imap2Pst.Pst.DataTree
import Imap2Pst.Pst.Table
import Mathlib.Data.List.Find

/-!
# Pst.TableContext

The table context of `pst/ltp.cpp`, held in memory until it is serialized.

* `TableContext` — the columns and rows; the setters.
* `TableContext.serialize` — the heap of the table; rows that do not fit in it go to a subnode.
* `TableContext.Holds` — what a run of setters leaves; `calls_hold`.
* `IndexOf`, `IndexOf.find` — the records of a row index, and what a reader finds in it.
* `TableContext.serialize_spec` — the table is in the heap, or in the heap and a subnode.
-/

namespace Imap2Pst
namespace Pst

open CxxStd

inductive Cell where
  | absent
  | fixed (bytes : Bytes)
  | variable (bytes : Bytes)
  deriving DecidableEq, Repr

/-- What a setter makes of a cell. -/
def CellValue.cell (tag : Nat) (v : CellValue) : Cell :=
  if v.isVariable then .variable (v.bytes tag) else .fixed (v.bytes tag)

structure TableRow where
  rowId : Nat
  cells : List Cell

structure TableContext where
  tags : List Nat := autoTags
  rows : List TableRow := []

/-- HNID 0 stands for an empty value of variable width. -/
def storeCell (bytes : Bytes) : Building Nat := if bytes = [] then pure 0 else storeBytes bytes

/-- The octets that go into the row for a cell, if any. -/
def cellField (c : Column) : Cell → Building (Option Bytes)
  | .absent => pure none
  | .fixed bytes => pure (some (bytes.take c.cb))
  | .variable bytes => do
    let hnid ← storeCell bytes
    pure (some (le 4 hnid))

/-- The loop over the columns of one row. -/
def fillRow (lay : Layout) : List (Column × Cell) → Bytes → Building Bytes
  | [], row => pure row
  | (c, cell) :: rest, row => do
    match ← cellField c cell with
    | none => fillRow lay rest row
    | some b => fillRow lay rest (lay.putField c b row)

/-- Blocks of rows for a subnode; all but the last are padded. -/
def paddedRows (rowSize : Nat) (matrix : List Bytes) : Bytes :=
  let perBlock := kMaxBlockData / rowSize
  (pieces perBlock matrix).zipIdx.flatMap fun (piece, k) =>
    if k * perBlock + piece.length < matrix.length then padTo kMaxBlockData piece.flatten
    else piece.flatten

/-- Where the rows are kept: nowhere, in the heap or in a subnode. -/
def storeRows (rowSize : Nat) (matrix : List Bytes) : Building Nat :=
  if matrix = [] then pure 0
  else if matrix.flatten.length ≤ maxAllocSize then onLocal (HeapNode.alloc matrix.flatten)
  else onOuter (SubnodeAllocator.spill (paddedRows rowSize matrix))

def indexRecord (rowId ordinal : Nat) : BthRecord := ⟨le 4 rowId, le 4 ordinal⟩

namespace TableContext

def addColumn (tag : Nat) (t : TableContext) : TableContext :=
  let tags := addTag t.tags tag
  { tags
    rows := t.rows.map fun r =>
      { r with cells := r.cells ++ List.replicate (tags.length - r.cells.length) .absent } }

/-- `cell(row, tag)` is made to hold `c`. -/
def setCell (row tag : Nat) (c : Cell) : EStateM PstError TableContext Unit := do
  let t ← get
  if t.rows.length ≤ row then throw ⟨"table row index out of range"⟩
  if tag ∉ t.tags then throw ⟨"table column not declared: " ++ toString tag⟩
  set { t with
    rows := t.rows.modify row fun r => { r with cells := r.cells.set (t.tags.idxOf tag) c } }

def setValue (row tag : Nat) (v : CellValue) : EStateM PstError TableContext Unit :=
  setCell row tag (v.cell tag)

def setInt16 (row tag v : Nat) := setValue row tag (.int16 v)
def setInt32 (row tag v : Nat) := setValue row tag (.int32 v)
def setBool (row tag : Nat) (v : Bool) := setValue row tag (.bool v)
def setInt64 (row tag v : Nat) := setValue row tag (.int64 v)
def setTime (row tag filetime : Nat) := setInt64 row tag filetime
def setString (row tag : Nat) (utf8 : Bytes) := setValue row tag (.string utf8)
def setBinary (row tag : Nat) (data : Bytes) := setValue row tag (.binary data)

/-- The index of the new row. -/
def addRow (rowId : Nat) : EStateM PstError TableContext Nat := do
  let t ← get
  set { t with rows := t.rows ++ [TableRow.mk rowId (List.replicate t.tags.length .absent)] }
  let row := t.rows.length
  setInt32 row PidTagLtpRowId rowId
  setInt32 row PidTagLtpRowVer 1
  return row

section

variable (std : StdSort)

def build (t : TableContext) : Building Unit := do
  let lay := layout t.tags
  let matrix ← each (fun r : TableRow => fillRow lay (lay.columns.zip r.cells) lay.emptyRow) t.rows
  let hnidRows ← storeRows lay.tciBm matrix
  let index := t.rows.zipIdx.map fun (r, i) => indexRecord r.rowId i
  let hidRowIndex ← onLocal (buildBth std 4 4 index)
  let root ← onLocal (HeapNode.alloc (tcInfo std lay hidRowIndex hnidRows))
  modify fun (ws, hn) => (ws, hn.setUserRoot root)

/-- The heap of the table. -/
def serialize (t : TableContext) : Streaming SubnodeAllocator Bytes := do
  let (_, hn) ← withLocal ({ clientSig := kHnSigTC } : HeapNode) (t.build std)
  return hn.serialize

end

/-! ## Runs of setters -/

/-- The cell of a column that holds this value, if any. -/
def cellOf (tag : Nat) : Option CellValue → Cell
  | none => .absent
  | some v => v.cell tag

/-- A row of the context stands for these values. -/
structure RowIs (tags : List Nat) (spec : RowSpec) (r : TableRow) : Prop where
  rowId : r.rowId = spec.rowId
  length : r.cells.length = tags.length
  cell : ∀ tag ∈ tags, r.cells[tags.idxOf tag]? = some (cellOf tag (spec.values tag))

/-- The columns and rows of a context. -/
structure Holds (tags : List Nat) (specs : List RowSpec) (t : TableContext) : Prop where
  tags_eq : t.tags = tags
  rows : List.Forall₂ (RowIs tags) specs t.rows

theorem RowIs.set {tags : List Nat} {spec : RowSpec} {r : TableRow} (h : RowIs tags spec r)
    {tag : Nat} (htag : tag ∈ tags) (v : CellValue) :
    RowIs tags (spec.set tag v)
      { r with cells := r.cells.set (tags.idxOf tag) (v.cell tag) } := by
  have hlt : tags.idxOf tag < r.cells.length := by
    rw [h.length]
    exact List.idxOf_lt_length_of_mem htag
  refine ⟨h.rowId, ?_, fun tag' htag' => ?_⟩
  · rw [List.length_set]
    exact h.length
  · by_cases heq : tag' = tag
    · subst heq
      rw [List.getElem?_set_self hlt, RowSpec.values_set_self]
      rfl
    · have hne : tags.idxOf tag ≠ tags.idxOf tag' := fun hidx =>
        heq ((List.idxOf_inj htag).1 hidx).symm
      rw [List.getElem?_set_ne hne, RowSpec.values_set_of_ne _ _ heq]
      exact h.cell tag' htag'

theorem forall₂_modify {α β : Type} {R : α → β → Prop} {f : α → α} {g : β → β} {l : List α}
    {m : List β} (i : Nat) (h : List.Forall₂ R l m) (hfg : ∀ a b, R a b → R (f a) (g b)) :
    List.Forall₂ R (l.modify i f) (m.modify i g) := by
  induction h generalizing i with
  | nil =>
    rw [List.modify_nil, List.modify_nil]
    exact .nil
  | cons hab htail ih =>
    cases i with
    | zero => exact .cons (hfg _ _ hab) htail
    | succ i => exact .cons hab (ih i)

theorem modify_last {α : Type} (l : List α) (a : α) (f : α → α) :
    (l ++ [a]).modify l.length f = l ++ [f a] := by
  induction l with
  | nil => rfl
  | cons b l ih => rw [List.cons_append, List.length_cons, List.modify_succ_cons, ih]; rfl

theorem setValue_holds {tags : List Nat} {specs : List RowSpec} {t t' : TableContext}
    {row tag : Nat} {v : CellValue} {u : Unit} (hrun : setValue row tag v t = .ok u t')
    (h : Holds tags specs t) : Holds tags (specs.modify row (RowSpec.set tag v)) t' := by
  unfold setValue setCell at hrun
  obtain ⟨_, _, hget, hrun⟩ := bind_eq_ok.1 hrun
  obtain ⟨rfl, rfl⟩ := get_eq_ok.1 hget
  rcases ite_eq_ok.1 hrun with ⟨_, hrun⟩ | ⟨_, hrun⟩
  · obtain ⟨_, _, hthrow, _⟩ := bind_eq_ok.1 hrun
    cases hthrow
  rcases ite_eq_ok.1 hrun with ⟨_, hrun⟩ | ⟨htag, hrun⟩
  · obtain ⟨_, _, hthrow, _⟩ := bind_eq_ok.1 hrun
    cases hthrow
  cases set_eq_ok.1 hrun
  rw [not_not, h.tags_eq] at htag
  refine ⟨h.tags_eq, ?_⟩
  rw [h.tags_eq]
  exact forall₂_modify row h.rows fun _ _ hr => hr.set htag v

theorem addRow_holds {tags : List Nat} {specs : List RowSpec} {t t' : TableContext}
    {rowId row : Nat} (hrun : addRow rowId t = .ok row t') (h : Holds tags specs t) :
    row = specs.length ∧ Holds tags (specs ++ [.new rowId]) t' := by
  unfold addRow at hrun
  obtain ⟨_, _, hget, hrun⟩ := bind_eq_ok.1 hrun
  obtain ⟨rfl, rfl⟩ := get_eq_ok.1 hget
  obtain ⟨_, t₁, hset, hrun⟩ := bind_eq_ok.1 hrun
  obtain ⟨_, t₂, hid, hrun⟩ := bind_eq_ok.1 hrun
  obtain ⟨_, t₃, hver, hrun⟩ := bind_eq_ok.1 hrun
  obtain ⟨rfl, rfl⟩ := pure_eq_ok.1 hrun
  have hlen := h.rows.length_eq
  have hempty : RowIs tags ⟨rowId, fun _ => none⟩
      (TableRow.mk rowId (List.replicate tags.length .absent)) := by
    refine ⟨rfl, List.length_replicate, fun tag htag => ?_⟩
    rw [List.getElem?_replicate_of_lt (List.idxOf_lt_length_of_mem htag)]
    rfl
  have hnew : Holds tags (specs ++ [⟨rowId, fun _ => none⟩]) t₁ := by
    cases set_eq_ok.1 hset
    refine ⟨h.tags_eq, List.rel_append h.rows (.cons ?_ .nil)⟩
    rw [h.tags_eq]
    exact hempty
  have hdone := setValue_holds hver (setValue_holds hid hnew)
  refine ⟨hlen.symm, ?_⟩
  rwa [← hlen, modify_last, modify_last] at hdone

end TableContext

/-- A call on a table. -/
inductive TableCall where
  | addRow (rowId : Nat)
  | set (row tag : Nat) (v : CellValue)

/-- What a call asks for. -/
def TableCall.apply (rows : List RowSpec) : TableCall → List RowSpec
  | .addRow rowId => rows ++ [.new rowId]
  | .set row tag v => rows.modify row (.set tag v)

namespace TableContext

def call : TableCall → EStateM PstError TableContext Unit
  | .addRow rowId => discard (addRow rowId)
  | .set row tag v => setValue row tag v

/-- The table with these columns, and the calls on it. -/
def filled (columns : List Nat) (calls : List TableCall) : EStateM PstError TableContext Unit := do
  set (columns.foldl (fun t tag => addColumn tag t) {})
  discard (each call calls)

theorem holds_columns (columns : List Nat) :
    Holds (declared columns) [] (columns.foldl (fun t tag => addColumn tag t) {}) := by
  have hrows (tags : List Nat) : columns.foldl (fun t tag => addColumn tag t) ⟨tags, []⟩ =
      ⟨columns.foldl addTag tags, []⟩ := by
    induction columns generalizing tags with
    | nil => rfl
    | cons tag columns ih => exact ih (addTag tags tag)
  exact hrows autoTags ▸ ⟨rfl, .nil⟩

theorem calls_hold {tags : List Nat} {specs : List RowSpec} {t t' : TableContext}
    {calls : List TableCall} {u : List Unit} (hrun : each call calls t = .ok u t')
    (h : Holds tags specs t) : Holds tags (calls.foldl TableCall.apply specs) t' := by
  induction calls generalizing t specs u with
  | nil =>
    cases hrun
    exact h
  | cons c calls ih =>
    obtain ⟨_, t₁, _, hone, hrest, rfl⟩ := each_cons_eq_ok.1 hrun
    refine ih hrest ?_
    cases c with
    | addRow rowId =>
      obtain ⟨row, t₂, hadd, hpure⟩ := bind_eq_ok.1 hone
      obtain ⟨-, rfl⟩ := pure_eq_ok.1 hpure
      exact (addRow_holds hadd h).2
    | set row tag v => exact setValue_holds hone h

/-! ## Serialization -/

theorem storeCell_spec {data : Bytes} {hnid : Nat}
    {t t' : (NdbWriter × SubnodeAllocator) × HeapNode} (hrun : storeCell data t = .ok hnid t')
    (hs : Sound t.1.1) (hsub : t.1.2.Ok) (hok : t.2.Ok) :
    Extends t t' ∧ hnid < 2 ^ 32 ∧ (hnid = 0 ∧ data = [] ∨
      hnid ≠ 0 ∧ ∃ leaves, StoredIn t' hnid leaves ∧ leaves.flatten = data) := by
  unfold storeCell at hrun
  rcases ite_eq_ok.1 hrun with ⟨hempty, hrun⟩ | ⟨_, hrun⟩
  · obtain ⟨rfl, rfl⟩ := pure_eq_ok.1 hrun
    exact ⟨.refl hs hsub hok, by decide, .inl ⟨rfl, hempty⟩⟩
  · obtain ⟨hext, hne, hlt, hstored⟩ := storeBytes_spec hrun hs hsub hok
    exact ⟨hext, hlt, .inr ⟨hne, hstored⟩⟩

/-- What goes into the row for a cell with this value, if any. -/
theorem cellField_spec {c : Column} {value : Option CellValue} {f : Option Bytes}
    {t t' : (NdbWriter × SubnodeAllocator) × HeapNode}
    (hrun : cellField c (cellOf c.tag value) t = .ok f t') (hs : Sound t.1.1)
    (hsub : t.1.2.Ok) (hok : t.2.Ok) (hcb : c.cb = cellWidth c.tag)
    (hm : ∀ v, value = some v → v.Matches c.tag) :
    Extends t t' ∧ Option.Rel (fun f v => f.length = c.cb ∧
      FieldOf t'.1.1 t'.2.blocks t'.1.2.entries c.tag f (v.bytes c.tag)) f value := by
  cases value with
  | none =>
    obtain ⟨rfl, rfl⟩ := pure_eq_ok.1 hrun
    exact ⟨.refl hs hsub hok, .none⟩
  | some v =>
    cases hv : v.isVariable with
    | true =>
      have hwide := (hm v rfl).variable hv
      rw [show cellOf c.tag (some v) = .variable (v.bytes c.tag) from if_pos hv] at hrun
      obtain ⟨hnid, t₁, hstore, hpure⟩ := bind_eq_ok.1 hrun
      obtain ⟨rfl, rfl⟩ := pure_eq_ok.1 hpure
      obtain ⟨hext, hlt, hstored⟩ := storeCell_spec hstore hs hsub hok
      refine ⟨hext, .some ⟨?_, .variable hwide hlt hstored⟩⟩
      rw [le_length, hcb, cellWidth_variable hwide]
    | false =>
      obtain ⟨hnarrow, hlen⟩ := (hm v rfl).fixed hv
      have hcell : cellOf c.tag (some v) = .fixed (v.bytes c.tag) :=
        if_neg (by rw [hv]; decide)
      rw [hcell] at hrun
      obtain ⟨rfl, rfl⟩ := pure_eq_ok.1 hrun
      rw [← hcb] at hlen
      rw [List.take_of_length_le hlen.le]
      exact ⟨.refl hs hsub hok, .some ⟨hlen, .fixed _ _ _ _ hnarrow⟩⟩

/-- The cells of some of the columns. -/
def cellsOn (r : RowSpec) (tags : List Nat) (tag : Nat) : Option Bytes :=
  if tag ∈ tags then r.cells tag else none

theorem cellsOn_none {r : RowSpec} {done : List Nat} {tag : Nat} (h : r.values tag = none) :
    cellsOn r (done ++ [tag]) = cellsOn r done := by
  funext tag'
  unfold cellsOn
  by_cases hdone : tag' ∈ done
  · rw [if_pos (List.mem_append_left _ hdone), if_pos hdone]
  · rw [if_neg hdone]
    split
    · rename_i hmem
      rw [List.mem_singleton.1 ((List.mem_append.1 hmem).resolve_left hdone), RowSpec.cells, h]
      rfl
    · rfl

theorem cellsOn_some {r : RowSpec} {done : List Nat} {tag : Nat} {v : CellValue}
    (h : r.values tag = some v) :
    cellsOn r (done ++ [tag]) = Function.update (cellsOn r done) tag (some (v.bytes tag)) := by
  funext tag'
  by_cases heq : tag' = tag
  · subst heq
    rw [Function.update_self, cellsOn, if_pos (by simp), RowSpec.cells, h]
    rfl
  · rw [Function.update_of_ne heq]
    simp only [cellsOn, List.mem_append, List.mem_singleton, heq, or_false]

/-- The rest of a row: the cells of the columns `done` are in place. -/
theorem fillRow_spec {lay : Layout} (hf : lay.Fits) (hnodup : (lay.columns.map Column.tag).Nodup)
    {r : RowSpec} (hr : r.Typed) {ps : List (Column × Cell)} {done : List Nat}
    {row row' : Bytes} {t t' : (NdbWriter × SubnodeAllocator) × HeapNode}
    (hps : ∀ p ∈ ps, p.1 ∈ lay.columns ∧ p.2 = cellOf p.1.tag (r.values p.1.tag))
    (hrun : fillRow lay ps row t = .ok row' t') (hs : Sound t.1.1) (hsub : t.1.2.Ok)
    (hok : t.2.Ok) (hrow : RowHolds t.1.1 t.2.blocks t.1.2.entries lay row (cellsOn r done)) :
    Extends t t' ∧ RowHolds t'.1.1 t'.2.blocks t'.1.2.entries lay row'
      (cellsOn r (done ++ ps.map fun p => p.1.tag)) := by
  induction ps generalizing done row t with
  | nil =>
    obtain ⟨rfl, rfl⟩ := pure_eq_ok.1 hrun
    rw [List.map_nil, List.append_nil]
    exact ⟨.refl hs hsub hok, hrow⟩
  | cons p ps ih =>
    obtain ⟨c, cell⟩ := p
    obtain ⟨hc, hcell⟩ := hps _ List.mem_cons_self
    dsimp only at hc hcell
    subst hcell
    have hps' (p) (hp : p ∈ ps) := hps p (List.mem_cons_of_mem _ hp)
    unfold fillRow at hrun
    obtain ⟨f, t₁, hfield, hrun⟩ := bind_eq_ok.1 hrun
    obtain ⟨hext, hrel⟩ := cellField_spec hfield hs hsub hok (hf.width c hc) (hr c.tag)
    have hrow₁ := hrow.mono hext.grows hext.heap.items hext.entries
    have hstep : ∃ row₁, fillRow lay ps row₁ t₁ = .ok row' t' ∧
        RowHolds t₁.1.1 t₁.2.blocks t₁.1.2.entries lay row₁ (cellsOn r (done ++ [c.tag])) := by
      generalize hvalue : r.values c.tag = value at hrel
      cases hrel with
      | none =>
        rw [cellsOn_none hvalue]
        exact ⟨row, hrun, hrow₁⟩
      | some hof =>
        rw [cellsOn_some hvalue]
        exact ⟨_, hrun, hrow₁.put hf hnodup hc hof.2 hof.1⟩
    obtain ⟨row₁, hrest, hrow₂⟩ := hstep
    obtain ⟨hext', hdone⟩ := ih hps' hrest hext.grows.sound hext.ok hext.heap.ok hrow₂
    rw [List.append_assoc] at hdone
    exact ⟨hext.trans hext', hdone⟩

end TableContext

/-! ## The row index -/

/-- The position of a key, found in a list or in the list numbered from `n` on. -/
theorem find?_zipIdx_findIdx? {α : Type} (key : α → Nat) (l : List α) (n k : Nat) :
    ((l.zipIdx n).find? fun p => key p.1 = k).map Prod.snd =
      (l.findIdx? fun a => key a = k).map (· + n) := by
  induction l generalizing n with
  | nil => rfl
  | cons a l ih =>
    rw [List.zipIdx_cons, List.find?_cons, List.findIdx?_cons]
    by_cases ha : key a = k
    · simp [ha]
    · simp only [ha, decide_false]
      rw [ih (n + 1)]
      cases l.findIdx? fun a => key a = k with
      | none => rfl
      | some i => simp; omega

/-- The records of the row index, in whatever order. -/
structure IndexOf (rows : List RowSpec) (records : List BthRecord) : Prop where
  perm : records.Perm ((rows.map RowSpec.rowId).zipIdx.map fun p => indexRecord p.1 p.2)
  ids : ∀ r ∈ rows, r.rowId < 2 ^ 32
  nodup : (rows.map RowSpec.rowId).Nodup
  few : rows.length ≤ 2 ^ 32

theorem IndexOf.num {rows : List RowSpec} {records : List BthRecord} (h : IndexOf rows records)
    {p : Nat × Nat} (hp : p ∈ (rows.map RowSpec.rowId).zipIdx) :
    (indexRecord p.1 p.2).num = p.1 ∧ fromLe (indexRecord p.1 p.2).value = p.2 := by
  have hid : p.1 ∈ rows.map RowSpec.rowId := List.fst_mem_of_mem_zipIdx hp
  obtain ⟨r, hr, heq⟩ := List.mem_map.1 hid
  have hlt : p.1 < 256 ^ 4 := heq ▸ h.ids r hr
  have hpos := List.snd_lt_of_mem_zipIdx hp
  have hfew := h.few
  rw [List.length_map] at hpos
  have hlt' : p.2 < 256 ^ 4 := by omega
  exact ⟨fromLe_le_of_lt hlt, fromLe_le_of_lt hlt'⟩

theorem IndexOf.fits {rows : List RowSpec} {records : List BthRecord} (h : IndexOf rows records) :
    ∀ r ∈ records, r.Fits 4 4 := by
  intro r hr
  obtain ⟨p, -, rfl⟩ := List.mem_map.1 (h.perm.mem_iff.1 hr)
  exact ⟨le_length 4 _, le_length 4 _⟩

theorem IndexOf.nums {rows : List RowSpec} {records : List BthRecord} (h : IndexOf rows records) :
    (((rows.map RowSpec.rowId).zipIdx.map fun p => indexRecord p.1 p.2).map BthRecord.num).Nodup := by
  have heq : ((rows.map RowSpec.rowId).zipIdx.map fun p => indexRecord p.1 p.2).map BthRecord.num =
      rows.map RowSpec.rowId := by
    rw [List.map_map]
    conv_rhs => rw [← List.zipIdx_map_fst 0 (rows.map RowSpec.rowId)]
    exact List.map_congr_left fun p hp => (h.num hp).1
  rw [heq]
  exact h.nodup

/-- Looking up a row id gives its ordinal. -/
theorem IndexOf.find {rows : List RowSpec} {records : List BthRecord} (h : IndexOf rows records)
    (k : Nat) : ((records.find? fun r => r.num = k).map BthRecord.value).map fromLe =
      rows.findIdx? fun r => r.rowId = k := by
  have hnums := (h.perm.map BthRecord.num).nodup_iff.2 h.nums
  rw [find?_key_perm h.perm hnums, List.find?_map, Option.map_map, Option.map_map]
  have hfind : (rows.map RowSpec.rowId).zipIdx.find?
      ((fun r : BthRecord => decide (r.num = k)) ∘ fun p => indexRecord p.1 p.2) =
      (rows.map RowSpec.rowId).zipIdx.find? fun p => p.1 = k := by
    refine List.find?_congr fun p hp => ?_
    rw [Function.comp_apply, (h.num hp).1]
  have hsnd := find?_zipIdx_findIdx? id (rows.map RowSpec.rowId) 0 k
  rw [hfind]
  simp only [id_eq, Nat.add_zero, Option.map_id'] at hsnd
  rw [List.findIdx?_map] at hsnd
  rw [show (rows.findIdx? fun r => r.rowId = k) = _ from hsnd.symm]
  cases hp : (rows.map RowSpec.rowId).zipIdx.find? fun p => p.1 = k with
  | none => rfl
  | some p =>
    have hmem := List.mem_of_find?_eq_some hp
    exact congrArg some (h.num hmem).2

/-! ## The rows -/

/-- What the callers promise of a table: few columns, row ids that are all different, and setters
for the types of their columns. -/
structure Admissible (columns : List Nat) (rows : List RowSpec) : Prop where
  few : columns.length ≤ 253
  tags : ∀ tag ∈ columns, tag < 2 ^ 32
  ids : ∀ r ∈ rows, r.rowId < 2 ^ 32
  nodup : (rows.map RowSpec.rowId).Nodup
  typed : ∀ r ∈ rows, r.Typed

theorem Layout.Fits.rowSize_pos {lay : Layout} (hf : lay.Fits) : 0 < lay.tciBm := by
  have hstart := hf.start
  have hbitmap := hf.bitmap
  omega

namespace TableContext

/-- The cells of a row beside the columns they stand in. -/
theorem RowIs.zip {lay : Layout} {tags : List Nat} {spec : RowSpec} {r : TableRow}
    (h : RowIs tags spec r) (htags : lay.columns.map Column.tag = tags) (hnodup : tags.Nodup) :
    (∀ p ∈ lay.columns.zip r.cells,
      p.1 ∈ lay.columns ∧ p.2 = cellOf p.1.tag (spec.values p.1.tag)) ∧
      (lay.columns.zip r.cells).map (fun p => p.1.tag) = tags := by
  have hlen : lay.columns.length = r.cells.length := by
    rw [h.length, ← htags, List.length_map]
  constructor
  · rintro ⟨c, cell⟩ hp
    obtain ⟨i, hi⟩ := List.mem_iff_getElem?.1 hp
    obtain ⟨hc, hcell⟩ := List.getElem?_zip_eq_some.1 hi
    have htag : tags[i]? = some c.tag := by rw [← htags, List.getElem?_map, hc]; rfl
    obtain ⟨hlt, htag⟩ := List.getElem?_eq_some_iff.1 htag
    have hat := h.cell c.tag (htag ▸ List.getElem_mem hlt)
    rw [← htag, hnodup.idxOf_getElem i hlt, hcell] at hat
    refine ⟨List.mem_of_getElem? hc, ?_⟩
    rw [htag] at hat
    exact Option.some.inj hat
  · rw [← htags]
    conv_rhs => rw [← List.map_fst_zip hlen.le, List.map_map]
    rfl

/-- One row. -/
theorem row_spec {lay : Layout} (hf : lay.Fits) {tags : List Nat}
    (htags : lay.columns.map Column.tag = tags) (hnodup : tags.Nodup) {spec : RowSpec}
    {r : TableRow} (h : RowIs tags spec r) (htyped : spec.Typed) {row : Bytes}
    {t t' : (NdbWriter × SubnodeAllocator) × HeapNode}
    (hrun : fillRow lay (lay.columns.zip r.cells) lay.emptyRow t = .ok row t') (hs : Sound t.1.1)
    (hsub : t.1.2.Ok) (hok : t.2.Ok) :
    Extends t t' ∧ RowHolds t'.1.1 t'.2.blocks t'.1.2.entries lay row spec.cells := by
  obtain ⟨hps, hzip⟩ := h.zip htags hnodup
  have hempty : RowHolds t.1.1 t.2.blocks t.1.2.entries lay lay.emptyRow (cellsOn spec []) :=
    (RowHolds.empty _ _ _ lay).congr fun _ _ => rfl
  obtain ⟨hext, hrow⟩ := fillRow_spec hf (htags ▸ hnodup) htyped hps hrun hs hsub hok hempty
  refine ⟨hext, hrow.congr fun c hc => if_pos ?_⟩
  rw [List.nil_append, hzip, ← htags]
  exact List.mem_map_of_mem hc

/-- The loop over the rows. -/
theorem rows_spec {lay : Layout} (hf : lay.Fits) {tags : List Nat}
    (htags : lay.columns.map Column.tag = tags) (hnodup : tags.Nodup) {specs : List RowSpec}
    {rows : List TableRow} (hrows : List.Forall₂ (RowIs tags) specs rows)
    (htyped : ∀ r ∈ specs, r.Typed) {matrix : List Bytes}
    {t t' : (NdbWriter × SubnodeAllocator) × HeapNode}
    (hrun : each (fun r : TableRow => fillRow lay (lay.columns.zip r.cells) lay.emptyRow) rows t =
      .ok matrix t') (hs : Sound t.1.1) (hsub : t.1.2.Ok) (hok : t.2.Ok) :
    Extends t t' ∧ RowsHold t'.1.1 t'.2.blocks t'.1.2.entries lay specs matrix := by
  induction hrows generalizing t matrix with
  | nil =>
    cases hrun
    exact ⟨.refl hs hsub hok, .nil⟩
  | cons hr _ ih =>
    obtain ⟨row, t₁, rest, hone, hrest, rfl⟩ := each_cons_eq_ok.1 hrun
    obtain ⟨hext, hrow⟩ :=
      row_spec hf htags hnodup hr (htyped _ List.mem_cons_self) hone hs hsub hok
    obtain ⟨hext', hall⟩ := ih (fun r hr => htyped r (List.mem_cons_of_mem _ hr)) hrest
      hext.grows.sound hext.ok hext.heap.ok
    exact ⟨hext.trans hext', .cons (hrow.mono hext'.grows hext'.heap.items hext'.entries) hall⟩

/-! ## Row storage -/

theorem padded_blocks {cap per total : Nat} {full : List (List Bytes)} {last : List Bytes}
    (hfull : ∀ p ∈ full, p.length = per) (hsome : 0 < last.length) (k : Nat)
    (htotal : (k + full.length) * per + last.length = total) :
    ((full ++ [last]).zipIdx k).flatMap (fun (piece, k) =>
      if k * per + piece.length < total then padTo cap piece.flatten else piece.flatten) =
        (full.map fun p => padTo cap p.flatten).flatten ++ last.flatten := by
  induction full generalizing k with
  | nil =>
    rw [List.length_nil, Nat.add_zero] at htotal
    simp [htotal]
  | cons p full ih =>
    have hp := hfull p List.mem_cons_self
    have hrest := ih (fun q hq => hfull q (List.mem_cons_of_mem p hq)) (k + 1)
      (by rw [← htotal, List.length_cons]; ring)
    have hmore : k * per + p.length < total := by
      rw [← htotal, hp, List.length_cons]
      have hle : k * per + per ≤ (k + (full.length + 1)) * per := by
        rw [← Nat.succ_mul]
        exact Nat.mul_le_mul_right per (by omega)
      omega
    rw [List.cons_append, List.zipIdx_cons, List.flatMap_cons, hrest]
    simp only [hmore, if_true, List.map_cons, List.flatten_cons, List.append_assoc]

/-- A value that goes to a subnode while a heap is being built. -/
theorem spilled_spec {data : Bytes} {nid : Nat} {w w' : NdbWriter} {s s' : SubnodeAllocator}
    {h : HeapNode} (hrun : SubnodeAllocator.spill data (w, s) = .ok nid (w', s')) (hs : Sound w)
    (hsub : s.Ok) (hok : h.Ok) :
    Extends ((w, s), h) ((w', s'), h) ∧ nid ≠ 0 ∧ nid < 2 ^ 32 ∧
      StoredIn ((w', s'), h) nid (leavesOf data) := by
  obtain ⟨hg, hsok, hentries, hlt, hstored⟩ := SubnodeAllocator.spill_stored hrun hs hsub
  refine ⟨⟨hg, HeapNode.Grows.refl hok, hentries, hsok⟩, ?_, hlt, hstored h.blocks⟩
  rintro rfl
  have hzero := hstored h.blocks
  generalize leavesOf data = leaves at hzero
  cases hzero with
  | heap hitem => exact lt_irrefl 0 (hok.hid hitem).1
  | subnode _ _ htype _ => cases htype

/-- Rows in blocks of a subnode, as a reader of the data tree has them. -/
theorem paddedRows_blocked {size : Nat} {matrix : List Bytes} (hpos : 0 < size)
    (hsmall : size ≤ kMaxBlockData) (hsize : ∀ row ∈ matrix, row.length = size)
    (hsome : matrix ≠ []) :
    Blocked kMaxBlockData size matrix (leavesOf (paddedRows size matrix)) ∧
      matrix.length * size ≤ (paddedRows size matrix).length := by
  have hper : 0 < kMaxBlockData / size := Nat.div_pos hsmall hpos
  generalize hdiv : kMaxBlockData / size = per at hper
  have hfit : per * size ≤ kMaxBlockData := hdiv ▸ Nat.div_mul_le_self kMaxBlockData size
  obtain ⟨full, last, hsplit⟩ : ∃ full last, pieces per matrix = full ++ [last] :=
    ⟨_, _, (List.dropLast_append_getLast (pieces_ne_nil hper hsome)).symm⟩
  have hfull (p) (hp : p ∈ full) : p.length = per :=
    length_of_mem_dropLast_pieces hper (by rw [hsplit, List.dropLast_concat]; exact hp)
  obtain ⟨hlast, hlast'⟩ :=
    length_of_mem_pieces hper (show last ∈ pieces per matrix by rw [hsplit]; simp)
  have hmatrix : matrix = full.flatten ++ last := by
    rw [← pieces_flatten hper matrix, hsplit]
    simp
  have hsizeFull (p) (hp : p ∈ full) (r) (hr : r ∈ p) : r.length = size :=
    hsize r (hmatrix ▸ List.mem_append_left _ (List.mem_flatten.2 ⟨p, hp, hr⟩))
  have hsizeLast (r) (hr : r ∈ last) : r.length = size :=
    hsize r (hmatrix ▸ List.mem_append_right _ hr)
  have hlen : (0 + full.length) * per + last.length = matrix.length := by
    rw [hmatrix, List.length_append, Nat.zero_add, length_flatten_rows hfull]
  have hpadded : paddedRows size matrix =
      (full.map fun p => padTo kMaxBlockData p.flatten).flatten ++ last.flatten := by
    unfold paddedRows
    rw [hdiv]
    show ((pieces per matrix).zipIdx).flatMap _ = _
    rw [hsplit]
    exact padded_blocks hfull hlast 0 hlen
  have hrows (p : List Bytes) (hp : p.length ≤ per) (hin : ∀ r ∈ p, r.length = size) :
      p.flatten.length ≤ kMaxBlockData := by
    rw [length_flatten_rows hin]
    exact (Nat.mul_le_mul_right size hp).trans hfit
  have hblock : ∀ b ∈ full.map (fun p => padTo kMaxBlockData p.flatten),
      b.length = kMaxBlockData := by
    intro b hb
    obtain ⟨p, hp, rfl⟩ := List.mem_map.1 hb
    exact padTo_length (hrows p (hfull p hp).le (hsizeFull p hp))
  have hlastLen : last.flatten.length = last.length * size := length_flatten_rows hsizeLast
  have hlastPos : 0 < last.flatten.length := hlastLen ▸ Nat.mul_pos hlast hpos
  have hleaves : leavesOf (paddedRows size matrix) =
      full.map (fun p => padTo kMaxBlockData p.flatten) ++ [last.flatten] := by
    have hne : last.flatten ≠ [] := List.length_pos_iff.1 hlastPos
    rw [hpadded, leavesOf, if_neg (by simp [hne])]
    exact pieces_append_flatten (by decide) hblock hne (hrows last hlast' hsizeLast)
  refine ⟨⟨full, last, hmatrix, hleaves, fun p hp => (hfull p hp).trans hdiv.symm, hlast,
    hlast'.trans_eq hdiv.symm⟩, ?_⟩
  have hwide : (full.map fun p => padTo kMaxBlockData p.flatten).flatten.length =
      full.length * kMaxBlockData := by
    rw [length_flatten_rows hblock, List.length_map]
  rw [hpadded, List.length_append, hwide, hlastLen, ← hlen, Nat.zero_add, Nat.add_mul,
    Nat.mul_assoc]
  exact Nat.add_le_add_right (Nat.mul_le_mul_left _ hfit) _

/-- Where the rows went: nowhere, into the heap or into a subnode. -/
theorem storeRows_spec {size hnid : Nat} {matrix : List Bytes} (hpos : 0 < size)
    (hsmall : size ≤ kMaxBlockData) (hsize : ∀ row ∈ matrix, row.length = size)
    {t t' : (NdbWriter × SubnodeAllocator) × HeapNode}
    (hrun : storeRows size matrix t = .ok hnid t') (hs : Sound t.1.1) (hsub : t.1.2.Ok)
    (hok : t.2.Ok) :
    Extends t t' ∧ hnid < 2 ^ 32 ∧ matrix.length * size ≤ 2 ^ 32 ∧ ∃ leaves,
      (matrix = [] ∧ hnid = 0 ∧ leaves = [] ∨ hnid ≠ 0 ∧ StoredIn t' hnid leaves ∧
        Blocked kMaxBlockData size matrix leaves) := by
  obtain ⟨⟨w, s⟩, h⟩ := t
  obtain ⟨⟨w', s'⟩, h'⟩ := t'
  unfold storeRows at hrun
  rcases ite_eq_ok.1 hrun with ⟨hnone, hrun⟩ | ⟨hsome, hrun⟩
  · obtain ⟨rfl, heq⟩ := pure_eq_ok.1 hrun
    cases heq
    subst hnone
    exact ⟨.refl hs hsub hok, by decide, by simp, [], .inl ⟨rfl, rfl, rfl⟩⟩
  have hpos' : 0 < matrix.length := List.length_pos_iff.2 hsome
  rcases ite_eq_ok.1 hrun with ⟨hle, hrun⟩ | ⟨_, hrun⟩
  · obtain ⟨halloc, heq⟩ := onLocal_eq_ok.1 hrun
    cases heq
    obtain ⟨hg, hitem, -⟩ := HeapNode.alloc_spec halloc hok
    obtain ⟨hid, hlt, -⟩ := hg.ok.hid hitem
    have hbound : maxAllocSize ≤ kMaxBlockData := by decide
    rw [length_flatten_rows hsize] at hle
    have hcount : matrix.length ≤ kMaxBlockData / size :=
      (Nat.le_div_iff_mul_le hpos).2 (hle.trans hbound)
    refine ⟨.of_heap hs hsub hg, hlt, hle.trans (by decide), _, .inr ⟨hid.ne', .heap hitem, ?_⟩⟩
    exact ⟨[], matrix, rfl, rfl, fun _ hp => (List.not_mem_nil hp).elim, hpos', hcount⟩
  · obtain ⟨hspill, rfl⟩ := onOuter_eq_ok.1 hrun
    obtain ⟨bid, hwrite, -, -⟩ := SubnodeAllocator.spill_eq_ok.1 hspill
    have hbytes := (writeData_roundTrips hwrite hs).small
    obtain ⟨hblocked, hcount⟩ := paddedRows_blocked hpos hsmall hsize hsome
    obtain ⟨hext, hne, hlt, hstored⟩ := spilled_spec hspill hs hsub hok
    exact ⟨hext, hlt, (hcount.trans hbytes.le), _, .inr ⟨hne, hstored, hblocked⟩⟩

/-! ## The whole table -/

theorem build_eq_ok {std : StdSort} {c : TableContext}
    {t t' : (NdbWriter × SubnodeAllocator) × HeapNode} (hrun : c.build std t = .ok () t') :
    ∃ matrix t₁ hnidRows ws h₂ hid h₃ root h₄,
      each (fun r : TableRow => fillRow (layout c.tags) ((layout c.tags).columns.zip r.cells)
        (layout c.tags).emptyRow) c.rows t = .ok matrix t₁ ∧
      storeRows (layout c.tags).tciBm matrix t₁ = .ok hnidRows (ws, h₂) ∧
      buildBth std 4 4 (c.rows.zipIdx.map fun (r, i) => indexRecord r.rowId i) h₂ = .ok hid h₃ ∧
      HeapNode.alloc (tcInfo std (layout c.tags) hid hnidRows) h₃ = .ok root h₄ ∧
      t' = (ws, h₄.setUserRoot root) := by
  unfold build at hrun
  obtain ⟨matrix, t₁, hrows, hrun⟩ := bind_eq_ok.1 hrun
  obtain ⟨hnidRows, ⟨ws, h₂⟩, hstore, hrun⟩ := bind_eq_ok.1 hrun
  obtain ⟨hid, ⟨ws₃, h₃⟩, hbth, hrun⟩ := bind_eq_ok.1 hrun
  obtain ⟨root, ⟨ws₄, h₄⟩, hinfo, hrun⟩ := bind_eq_ok.1 hrun
  obtain ⟨htree, rfl⟩ := onLocal_eq_ok.1 hbth
  obtain ⟨halloc, rfl⟩ := onLocal_eq_ok.1 hinfo
  cases modify_eq_ok.1 hrun
  exact ⟨matrix, t₁, hnidRows, ws, h₂, hid, h₃, root, h₄, hrows, hstore, htree, halloc, rfl⟩

theorem rowIds_eq {tags : List Nat} {specs : List RowSpec} {rows : List TableRow}
    (h : List.Forall₂ (RowIs tags) specs rows) :
    rows.map TableRow.rowId = specs.map RowSpec.rowId := by
  induction h with
  | nil => rfl
  | cons hr _ ih => rw [List.map_cons, List.map_cons, hr.rowId, ih]

/-- The heap holds the table, whose rows are in the heap or in a subnode. -/
theorem build_spec {std : StdSort} {columns : List Nat} {specs : List RowSpec}
    (ha : Admissible columns specs) {c : TableContext} (hholds : Holds (declared columns) specs c)
    {t t' : (NdbWriter × SubnodeAllocator) × HeapNode} (hrun : c.build std t = .ok () t')
    (hs : Sound t.1.1) (hsub : t.1.2.Ok) (hok : t.2.Ok) :
    t'.2.Ok ∧ t'.2.userRoot < 2 ^ 32 ∧ Grows t.1.1 t'.1.1 ∧ t.1.2.entries ⊆ t'.1.2.entries ∧
      t'.1.2.Ok ∧ TableIn t'.1.1 t'.2 t'.1.2.entries std (layout (declared columns)) specs := by
  obtain ⟨matrix, t₁, hnidRows, ws, h₂, hid, h₃, root, h₄, hrows, hstore, hbth, halloc, rfl⟩ :=
    build_eq_ok hrun
  obtain ⟨hf, htags⟩ := declared_fits ha.few
  obtain ⟨-, -, -, -, hnodup⟩ := declared_eq columns
  rw [hholds.tags_eq] at hrows hstore halloc
  obtain ⟨hext, hmatrix⟩ := rows_spec hf htags hnodup hholds.rows ha.typed hrows hs hsub hok
  have hpos := hf.rowSize_pos
  have hsmall : (layout (declared columns)).tciBm ≤ kMaxBlockData :=
    hf.small.trans (by decide)
  obtain ⟨hext', hnidlt, hbytes, leaves, hleaves⟩ := storeRows_spec hpos hsmall hmatrix.size hstore
    hext.grows.sound hext.ok hext.heap.ok
  have hfew : matrix.length ≤ 2 ^ 32 := (Nat.le_mul_of_pos_right _ hpos).trans hbytes
  have hindex : IndexOf specs (c.rows.zipIdx.map fun (r, i) => indexRecord r.rowId i) := by
    refine ⟨?_, ha.ids, ha.nodup, hmatrix.length_eq ▸ hfew⟩
    rw [← rowIds_eq hholds.rows, ← List.map_zipIdx, List.map_map]
    exact .refl _
  obtain ⟨hg, hidlt, hfinds⟩ := buildBth_spec hbth hext'.heap.ok (by decide) (by decide)
    hindex.fits ((hindex.perm.map BthRecord.num).nodup_iff.2 hindex.nums)
  obtain ⟨hg', hitem, -⟩ := HeapNode.alloc_spec halloc hg.ok
  obtain ⟨-, hrootlt, -⟩ := hg'.ok.hid hitem
  have hall := hext.trans hext'
  have hitems (i : Nat) (item : Bytes) (h : HasItem h₂.blocks i item) : HasItem h₄.blocks i item :=
    hg'.items i item (hg.items i item h)
  have hkeep : Grows ws.1 ws.1 := Grows.refl hall.grows.sound
  refine ⟨hg'.ok.setUserRoot root, hrootlt, hall.grows, hall.entries, hall.ok, hf, ?_, hid,
    hnidRows, matrix, leaves, hitem, hidlt.2, hnidlt, ?_, ?_, ?_⟩
  · intro c hc
    exact declared_lt ha.tags c.tag (htags ▸ List.mem_map_of_mem hc)
  · exact (hmatrix.mono hext'.grows hext'.heap.items hext'.entries).mono hkeep hitems
      (List.Subset.refl _)
  · rcases hleaves with ⟨rfl, rfl, rfl⟩ | ⟨hne, hstored, hblocked⟩
    · cases hmatrix
      exact .inl ⟨rfl, rfl, rfl⟩
    · exact .inr ⟨hne, hstored.mono hkeep hitems (List.Subset.refl _), hblocked⟩
  · intro item hitem k
    have hbefore : HeapNode.Finds item h₃ := fun i data hi => hitem i data (hg'.items i data hi)
    rw [hfinds item hbefore k]
    exact hindex.find k

theorem serialize_eq_ok {std : StdSort} {c : TableContext} {heap : Bytes}
    {t t' : NdbWriter × SubnodeAllocator} (hrun : c.serialize std t = .ok heap t') :
    ∃ h : HeapNode, c.build std (t, { clientSig := kHnSigTC }) = .ok () (t', h) ∧
      heap = h.serialize := by
  unfold serialize at hrun
  obtain ⟨⟨_, h⟩, t₁, hlocal, hrun⟩ := bind_eq_ok.1 hrun
  obtain ⟨rfl, heq⟩ := pure_eq_ok.1 hrun
  cases heq
  exact ⟨h, withLocal_eq_ok.1 hlocal, rfl⟩

/-- There are no more rows than a data tree can hold. -/
theorem serialize_few {std : StdSort} {columns : List Nat} {specs : List RowSpec}
    (hfew : columns.length ≤ 253) (htyped : ∀ r ∈ specs, r.Typed) {c : TableContext}
    (hholds : Holds (declared columns) specs c) {heap : Bytes} {w w' : NdbWriter}
    {s' : SubnodeAllocator} (hrun : c.serialize std (w, {}) = .ok heap (w', s'))
    (hs : Sound w) : specs.length * (layout (declared columns)).tciBm ≤ 2 ^ 32 := by
  obtain ⟨h, hbuild, -⟩ := serialize_eq_ok hrun
  obtain ⟨matrix, t₁, hnidRows, ws, h₂, hid, h₃, root, h₄, hrows, hstore, -, -, -⟩ :=
    build_eq_ok hbuild
  obtain ⟨hf, htags⟩ := declared_fits hfew
  obtain ⟨-, -, -, -, hnodup⟩ := declared_eq columns
  rw [hholds.tags_eq] at hrows hstore
  obtain ⟨hext, hmatrix⟩ := rows_spec hf htags hnodup hholds.rows htyped hrows hs
    SubnodeAllocator.ok_new (HeapNode.ok_new kHnSigTC)
  obtain ⟨-, -, hbytes, -⟩ := storeRows_spec hf.rowSize_pos (hf.small.trans (by decide))
    hmatrix.size hstore hext.grows.sound hext.ok hext.heap.ok
  rw [hmatrix.length_eq]
  exact hbytes

/-- The heap of a table, as `serialize` leaves it. -/
theorem serialize_spec {std : StdSort} {columns : List Nat} {specs : List RowSpec}
    (ha : Admissible columns specs) {c : TableContext} (hholds : Holds (declared columns) specs c)
    {heap : Bytes} {w w' : NdbWriter} {s s' : SubnodeAllocator}
    (hrun : c.serialize std (w, s) = .ok heap (w', s')) (hs : Sound w) (hsub : s.Ok) :
    ∃ h : HeapNode, heap = h.serialize ∧ h.Ok ∧ h.userRoot < 2 ^ 32 ∧ Grows w w' ∧
      s.entries ⊆ s'.entries ∧ s'.Ok ∧
      TableIn w' h s'.entries std (layout (declared columns)) specs := by
  obtain ⟨h, hbuild, rfl⟩ := serialize_eq_ok hrun
  exact ⟨h, rfl, build_spec ha hholds hbuild hs hsub (HeapNode.ok_new kHnSigTC)⟩

end TableContext

end Pst
end Imap2Pst
