import Imap2Pst.Pst.Columns

/-!
# Pst.RowLayout

How `TableContextWriter` of `pst/streaming_table.cpp` lays out a row. The streaming writer walks
its columns by index; the layout is that of `TableContext`, cell by cell.

* `layout_agrees`     — the two copies of the packing assign the same cells and the same ends.
* `layout_aligned`    — packed widest first, every value stays aligned.
* `row_layout_spec`   — cells apart and below the bitmap, which has room; a block holds a row.
-/

namespace Imap2Pst
namespace Pst

open CxxStd

/-- The members of the streaming writer that fix the format of its rows. -/
structure TableContextWriter where
  columnTags : List Nat
  columns : List Column := []
  rowSize : Nat := 0
  /-- TCI_4b, TCI_2b, TCI_1b and TCI_bm. -/
  rgib : Nat × Nat × Nat × Nat := (0, 0, 0, 0)
  cebOff : Nat := 0
  rowsPerBlock : Nat := 0
  deriving DecidableEq, Repr

namespace TableContextWriter

/-- One column in one pass; `off` is a 16-bit value. -/
def placeColumn (width : Nat) (s : Nat × List Column) (i : Nat) : Nat × List Column :=
  match s.2[i]? with
  | some c =>
    if c.cb = width then ((s.1 + width) % 2 ^ 16, s.2.set i { c with ib := s.1 }) else s
  | none => s

/-- One pass over the columns behind the two pinned ones. -/
def placeWidth (s : Nat × List Column) (width : Nat) : Nat × List Column :=
  (List.range' 2 (s.2.length - 2)).foldl (placeColumn width) s

def layout (w : TableContextWriter) : TableContextWriter :=
  let columns := w.columnTags.zipIdx.map fun (tag, i) =>
    (⟨tag, 0, cellWidth tag, i % 2 ^ 8⟩ : Column)
  -- PidTagLtpRowId and PidTagLtpRowVer are pinned
  let columns := columns.modify 0 fun c => { c with ib := 0 }
  let columns := columns.modify 1 fun c => { c with ib := 4 }
  let (tci4b, columns) := [8, 4].foldl placeWidth (8, columns)
  let (tci2b, columns) := placeWidth (tci4b, columns) 2
  let (tci1b, columns) := placeWidth (tci2b, columns) 1
  let rowSize := (tci1b + (columns.length + 7) / 8) % 2 ^ 16
  { w with columns, rgib := (tci4b, tci2b, tci1b, rowSize), cebOff := tci1b, rowSize }

/-- The constructor. -/
def create (columns : List Nat) : TableContextWriter :=
  let w := layout { columnTags := declared columns }
  { w with rowsPerBlock := kMaxBlockData / w.rowSize }

end TableContextWriter

open TableContextWriter (placeColumn placeWidth)

/-! ## The two copies -/

/-- The loop by index is the recursion over the columns. -/
theorem place_loop (width off : Nat) (front columns : List Column) :
    (List.range' front.length columns.length).foldl (placeColumn width) (off, front ++ columns)
      = ((packWidth width off columns).1, front ++ (packWidth width off columns).2) := by
  induction columns generalizing off front with
  | nil => rfl
  | cons c cs ih =>
    have hat : (front ++ c :: cs)[front.length]? = some c := by simp
    have hrest (off : Nat) (d : Column) := ih off (front ++ [d])
    simp only [List.length_append, List.length_singleton, List.append_assoc,
      List.singleton_append] at hrest
    rw [List.length_cons, List.range'_succ, List.foldl_cons]
    unfold packWidth
    by_cases hc : c.cb = width
    · have hplace : placeColumn width (off, front ++ c :: cs) front.length
          = ((off + width) % 2 ^ 16, front ++ { c with ib := off } :: cs) := by
        simp only [placeColumn, hat, if_pos hc]
        simp
      rw [hplace, hrest, if_pos hc]
    · have hplace : placeColumn width (off, front ++ c :: cs) front.length
          = (off, front ++ c :: cs) := by
        simp only [placeColumn, hat, if_neg hc]
      rw [hplace, hrest, if_neg hc]

theorem placeWidth_eq (width off : Nat) (c d : Column) (columns : List Column) :
    placeWidth (off, c :: d :: columns) width
      = ((packWidth width off columns).1, c :: d :: (packWidth width off columns).2) :=
  place_loop width off [c, d] columns

/-- The same offset, width and bit for every column, and the same ends. -/
def TableContextWriter.Agrees (w : TableContextWriter) (lay : Layout) : Prop :=
  w.columns = lay.columns ∧ w.rgib = (lay.tci4b, lay.tci2b, lay.tci1b, lay.tciBm) ∧
    w.cebOff = lay.tci1b ∧ w.rowSize = lay.tciBm

theorem layout_agrees (tags : List Nat) :
    (TableContextWriter.layout { columnTags := autoTags ++ tags }).Agrees
      (layout (autoTags ++ tags)) := by
  obtain ⟨p8, h8⟩ : ∃ p, p = packWidth 8 8 (looseColumns tags) := ⟨_, rfl⟩
  obtain ⟨p4, h4⟩ : ∃ p, p = packWidth 4 p8.1 p8.2 := ⟨_, rfl⟩
  obtain ⟨p2, h2⟩ : ∃ p, p = packWidth 2 p4.1 p4.2 := ⟨_, rfl⟩
  obtain ⟨p1, h1⟩ : ∃ p, p = packWidth 1 p2.1 p2.2 := ⟨_, rfl⟩
  have hcolumns : (((autoTags ++ tags).zipIdx.map
      fun (tag, i) => (⟨tag, 0, cellWidth tag, i % 2 ^ 8⟩ : Column)).modify 0
        fun c => { c with ib := 0 }).modify 1 (fun c => { c with ib := 4 }) =
      ⟨PidTagLtpRowId, 0, 4, 0⟩ :: ⟨PidTagLtpRowVer, 4, 4, 1⟩ :: looseColumns tags := rfl
  have hlen : p1.2.length = tags.length := by
    rw [h1, packWidth_length, h2, packWidth_length, h4, packWidth_length, h8, packWidth_length]
    simp [looseColumns]
  rw [layout_auto tags h8 h4 h2 h1]
  unfold TableContextWriter.layout TableContextWriter.Agrees
  simp only [hcolumns, List.foldl_cons, List.foldl_nil, placeWidth_eq, ← h8, ← h4, ← h2, ← h1,
    List.length_cons, hlen, and_self]

/-! ## Alignment -/

/-- A pass that starts at a multiple of its width keeps every cell at a multiple of its own. -/
theorem packWidth_aligned {width off : Nat} {columns : List Column} (hwidth : width ∣ 2 ^ 16)
    (hoff : width ∣ off) (hcells : ∀ c ∈ columns, c.cb ∣ c.ib) :
    width ∣ (packWidth width off columns).1 ∧ ∀ c ∈ (packWidth width off columns).2, c.cb ∣ c.ib := by
  induction columns generalizing off with
  | nil => exact ⟨hoff, hcells⟩
  | cons c cs ih =>
    have htail : ∀ d ∈ cs, d.cb ∣ d.ib := fun d hd => hcells d (List.mem_cons_of_mem c hd)
    unfold packWidth
    by_cases hc : c.cb = width
    · have hnext : width ∣ (off + width) % 2 ^ 16 :=
        (Nat.dvd_mod_iff hwidth).2 (Nat.dvd_add hoff (Nat.dvd_refl width))
      obtain ⟨hend, hrest⟩ := ih hnext htail
      rw [if_pos hc]
      refine ⟨hend, fun d hd => ?_⟩
      rcases List.mem_cons.1 hd with rfl | hd
      · rw [← hc] at hoff
        exact hoff
      · exact hrest d hd
    · obtain ⟨hend, hrest⟩ := ih hoff htail
      rw [if_neg hc]
      refine ⟨hend, fun d hd => ?_⟩
      rcases List.mem_cons.1 hd with rfl | hd
      · exact hcells d List.mem_cons_self
      · exact hrest d hd

/-- Packed widest first, every value stays aligned. -/
theorem layout_aligned (tags : List Nat) :
    ∀ c ∈ (layout (autoTags ++ tags)).columns, c.cb ∣ c.ib := by
  obtain ⟨p8, h8⟩ : ∃ p, p = packWidth 8 8 (looseColumns tags) := ⟨_, rfl⟩
  obtain ⟨p4, h4⟩ : ∃ p, p = packWidth 4 p8.1 p8.2 := ⟨_, rfl⟩
  obtain ⟨p2, h2⟩ : ∃ p, p = packWidth 2 p4.1 p4.2 := ⟨_, rfl⟩
  obtain ⟨p1, h1⟩ : ∃ p, p = packWidth 1 p2.1 p2.2 := ⟨_, rfl⟩
  have hloose : ∀ c ∈ looseColumns tags, c.cb ∣ c.ib := by
    intro c hc
    obtain ⟨x, -, rfl⟩ := List.mem_map.1 hc
    exact Nat.dvd_zero _
  obtain ⟨hend8, hcells8⟩ := packWidth_aligned (by decide) (Nat.dvd_refl 8) hloose
  rw [← h8] at hend8 hcells8
  -- the end of one pass is a multiple of the next, narrower, width
  obtain ⟨hend4, hcells4⟩ := @packWidth_aligned 4 _ _ (by decide)
    (Nat.dvd_trans (by decide) hend8) hcells8
  rw [← h4] at hend4 hcells4
  obtain ⟨hend2, hcells2⟩ := @packWidth_aligned 2 _ _ (by decide)
    (Nat.dvd_trans (by decide) hend4) hcells4
  rw [← h2] at hend2 hcells2
  obtain ⟨-, hcells1⟩ := @packWidth_aligned 1 _ _ (by decide) (Nat.one_dvd _) hcells2
  rw [← h1] at hcells1
  rw [layout_auto tags h8 h4 h2 h1]
  intro c hc
  rcases List.mem_cons.1 hc with rfl | hc
  · exact Nat.dvd_zero _
  rcases List.mem_cons.1 hc with rfl | hc
  · exact Nat.dvd_refl 4
  · exact hcells1 c hc

/-! ## Rows -/

theorem create_agrees (tags : List Nat) :
    (TableContextWriter.create tags).Agrees (layout (declared tags)) ∧
      (TableContextWriter.create tags).rowsPerBlock =
        kMaxBlockData / (layout (declared tags)).tciBm := by
  obtain ⟨extra, heq, -, -, -⟩ := declared_eq tags
  have hagrees := layout_agrees extra
  rw [← heq] at hagrees
  unfold TableContextWriter.create
  generalize TableContextWriter.layout { columnTags := declared tags } = w at hagrees ⊢
  exact ⟨hagrees, congrArg (kMaxBlockData / ·) hagrees.2.2.2⟩

/-- For every list of at most 253 tags behind the pinned two, both writers lay out the same row: no
two cells overlap, each is aligned, all lie below the bitmap, the bitmap has a bit for each, and the
row, whose width is not cut to 16 bits, fits a block. -/
theorem row_layout_spec {tags : List Nat} (hfew : tags.length ≤ 253) :
    (TableContextWriter.create tags).Agrees (layout (declared tags)) ∧
    ((layout (declared tags)).columns.map Column.tag = declared tags ∧
      ((autoTags ++ tags).Nodup → declared tags = autoTags ++ tags)) ∧
    (layout (declared tags)).columns.Pairwise Column.Apart ∧
    (∀ c ∈ (layout (declared tags)).columns,
      c.cb = cellWidth c.tag ∧ c.cb ∣ c.ib ∧ c.ib + c.cb ≤ (layout (declared tags)).tci1b) ∧
    (∀ (i : Nat) (c : Column), (layout (declared tags)).columns[i]? = some c →
      c.ibit = i ∧
        (layout (declared tags)).tci1b + c.ibit / 8 < (layout (declared tags)).tciBm) ∧
    ((layout (declared tags)).tciBm = (layout (declared tags)).tci1b +
        ((layout (declared tags)).columns.length + 7) / 8 ∧
      (layout (declared tags)).tciBm < 2 ^ 16) ∧
    1 ≤ (TableContextWriter.create tags).rowsPerBlock := by
  obtain ⟨hagrees, hrows⟩ := create_agrees tags
  obtain ⟨extra, heq, -, -, -⟩ := declared_eq tags
  have haligned := layout_aligned extra
  rw [← heq] at haligned
  obtain ⟨hfits, htags⟩ := declared_fits hfew
  generalize layout (declared tags) = lay at hagrees hrows haligned hfits htags ⊢
  have hbitmap := hfits.bitmap
  have hsmall := hfits.small
  have hstart := hfits.start
  refine ⟨hagrees, ⟨htags, declared_of_nodup⟩, hfits.apart,
    fun c hc => ⟨hfits.width c hc, haligned c hc, hfits.inside c hc⟩, ?_, ⟨hbitmap, by omega⟩, ?_⟩
  · intro i c hc
    have hibit := hfits.ibit i c hc
    obtain ⟨hlt, -⟩ := List.getElem?_eq_some_iff.1 hc
    exact ⟨hibit, by omega⟩
  · rw [hrows]
    exact Nat.div_pos (hsmall.trans (by decide)) (by omega)

/-- Tags of all four widths, not in the order of their widths. -/
theorem mixed_row_spec :
    (TableContextWriter.create [makeTag 0x0E07 kPtBoolean, makeTag 0x0E08 kPtShort,
      makeTag 0x0037 kPtUnicode, makeTag 0x0E06 kPtSystime]).rgib = (20, 22, 23, 24) := by
  rw [(row_layout_spec (by decide)).1.2.1]
  decide

end Pst
end Imap2Pst
