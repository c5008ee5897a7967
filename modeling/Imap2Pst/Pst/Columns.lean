import Imap2Pst.Pst.Space
import Imap2Pst.Pst.Tags
import Imap2Pst.Std.Buffer
import Mathlib.Data.List.Pairwise

/-!
# Pst.Columns

The columns of a table and where their cells lie in a row, after `TableContext::layout` of
`pst/ltp.cpp`; `Pst.RowLayout` has the copy of `pst/streaming_table.cpp`.

* `layout` — the columns with their offsets, and the row in its four parts.
* `layout_fits` — no two cells overlap, and none reaches into the cell-existence bitmap.
* `putField`, `field` — a cell written into a row and read from it.
-/

namespace Imap2Pst
namespace Pst

open CxxStd

structure Column where
  tag : Nat
  ib : Nat
  cb : Nat
  ibit : Nat
  deriving DecidableEq, Repr

/-- Values of variable width are addressed by an HNID of 4 octets. -/
def cellWidth (tag : Nat) : Nat :=
  if fixedPropSize (tagType tag) = 0 then 4 else fixedPropSize (tagType tag)

/-- `rgib`: the ends of the parts of a row. -/
structure Layout where
  columns : List Column
  tci4b : Nat
  tci2b : Nat
  /-- The start of the cell-existence bitmap. -/
  tci1b : Nat
  /-- The width of a row. -/
  tciBm : Nat
  deriving DecidableEq, Repr

/-- A column is declared once. -/
def addTag (tags : List Nat) (tag : Nat) : List Nat := if tag ∈ tags then tags else tags ++ [tag]

/-- The columns every table starts with. -/
def autoTags : List Nat := [PidTagLtpRowId, PidTagLtpRowVer]

/-- The columns of a table these are added to. -/
def declared (columns : List Nat) : List Nat := columns.foldl addTag autoTags

/-- One pass: the columns of this width get their offsets, in 16 bits. -/
def packWidth (width : Nat) : Nat → List Column → Nat × List Column
  | off, [] => (off, [])
  | off, c :: cs =>
    if c.cb = width then
      let (stop, cs) := packWidth width ((off + width) % 2 ^ 16) cs
      (stop, { c with ib := off } :: cs)
    else
      let (stop, cs) := packWidth width off cs
      (stop, c :: cs)

/-- The first two columns are pinned to offsets 0 and 4; the others are packed widest first. -/
def layout (tags : List Nat) : Layout :=
  let columns := tags.zipIdx.map fun (tag, i) => (⟨tag, 0, cellWidth tag, i % 2 ^ 8⟩ : Column)
  let pinned := (columns.take 2).zipIdx.map fun (c, i) => { c with ib := 4 * i }
  let (off, rest) := packWidth 8 8 (columns.drop 2)
  let (tci4b, rest) := packWidth 4 off rest
  let (tci2b, rest) := packWidth 2 tci4b rest
  let (tci1b, rest) := packWidth 1 tci2b rest
  ⟨pinned ++ rest, tci4b, tci2b, tci1b, (tci1b + (columns.length + 7) / 8) % 2 ^ 16⟩

/-- Two cells that do not overlap. -/
def Column.Apart (c d : Column) : Prop := c.ib + c.cb ≤ d.ib ∨ d.ib + d.cb ≤ c.ib

instance : Std.Symm Column.Apart := ⟨fun _ _ h => h.symm⟩

/-- The columns of the widths `done` lie between `lo` and `hi`, and none overlaps another. -/
structure PackedIn (done : List Nat) (lo hi : Nat) (columns : List Column) : Prop where
  inside : ∀ c ∈ columns, c.cb ∈ done → lo ≤ c.ib ∧ c.ib + c.cb ≤ hi
  apart : columns.Pairwise fun c d => c.cb ∈ done → d.cb ∈ done → c.Apart d

theorem PackedIn.tail {done : List Nat} {lo hi : Nat} {c : Column} {cs : List Column}
    (h : PackedIn done lo hi (c :: cs)) : PackedIn done lo hi cs :=
  ⟨fun d hd => h.inside d (List.mem_cons_of_mem c hd), (List.pairwise_cons.1 h.apart).2⟩

/-- A pass changes offsets only. -/
theorem packWidth_shape (width off : Nat) (columns : List Column) :
    (packWidth width off columns).2.map (fun c => (c.tag, c.cb, c.ibit)) =
      columns.map fun c => (c.tag, c.cb, c.ibit) := by
  induction columns generalizing off with
  | nil => rfl
  | cons c cs ih =>
    unfold packWidth
    split
    · simp [ih]
    · simp [ih]

theorem packWidth_length (width off : Nat) (columns : List Column) :
    (packWidth width off columns).2.length = columns.length := by
  have h := congrArg List.length (packWidth_shape width off columns)
  rwa [List.length_map, List.length_map] at h

/-- What one pass does. -/
theorem packWidth_spec {width off lo hi : Nat} {done : List Nat} {columns : List Column}
    (hp : PackedIn done lo hi columns) (hlo : lo ≤ off) (hhi : hi ≤ off)
    (hwrap : off + width * columns.length < 2 ^ 16) :
    off ≤ (packWidth width off columns).1 ∧
      (packWidth width off columns).1 ≤ off + width * columns.length ∧
      PackedIn (width :: done) lo (packWidth width off columns).1
        (packWidth width off columns).2 ∧
      ∀ c ∈ (packWidth width off columns).2, (c.cb = width → off ≤ c.ib) ∧
        (c.cb ≠ width → c ∈ columns) := by
  induction columns generalizing off with
  | nil =>
    refine ⟨le_rfl, le_rfl, ⟨?_, List.Pairwise.nil⟩, ?_⟩
    · intro c hc
      cases hc
    · intro c hc
      cases hc
  | cons c cs ih =>
    rw [List.length_cons, Nat.mul_succ] at hwrap ⊢
    have hin (d) (hd : d ∈ cs) (hdone : d.cb ∈ done) := hp.inside d (List.mem_cons_of_mem c hd) hdone
    unfold packWidth
    by_cases hc : c.cb = width
    · have hoff : (off + width) % 2 ^ 16 = off + width := Nat.mod_eq_of_lt (by omega)
      obtain ⟨hstart, hstop, hpacked, hold⟩ := @ih (off + width) hp.tail (by omega) (by omega)
        (by omega)
      rw [if_pos hc, hoff]
      generalize packWidth width (off + width) cs = r at hstart hstop hpacked hold ⊢
      refine ⟨by dsimp only; omega, by dsimp only; omega, ⟨?_, ?_⟩, ?_⟩
      · intro d hd hdone
        rcases List.mem_cons.1 hd with rfl | hd
        · exact ⟨hlo, by dsimp only; omega⟩
        · exact hpacked.inside d hd hdone
      · -- what this pass places lies behind, what earlier ones placed lies before
        refine List.pairwise_cons.2 ⟨fun d hd _ hdone => ?_, hpacked.apart⟩
        by_cases hcb : d.cb = width
        · have hle := (hold d hd).1 hcb
          exact .inl (by dsimp only; omega)
        · have hle := hin d ((hold d hd).2 hcb) ((List.mem_cons.1 hdone).resolve_left hcb)
          exact .inr (by dsimp only; omega)
      · intro d hd
        rcases List.mem_cons.1 hd with rfl | hd
        · exact ⟨fun _ => le_rfl, fun hne => absurd hc hne⟩
        · obtain ⟨hnew, hsame⟩ := hold d hd
          exact ⟨fun hcb => (by omega : off ≤ off + width).trans (hnew hcb),
            fun hne => List.mem_cons_of_mem c (hsame hne)⟩
    · obtain ⟨hstart, hstop, hpacked, hold⟩ := ih hp.tail hlo hhi (by omega)
      rw [if_neg hc]
      generalize packWidth width off cs = r at hstart hstop hpacked hold ⊢
      refine ⟨hstart, by dsimp only; omega, ⟨?_, ?_⟩, ?_⟩
      · intro d hd hdone
        rcases List.mem_cons.1 hd with rfl | hd
        · have hle := hp.inside d List.mem_cons_self ((List.mem_cons.1 hdone).resolve_left hc)
          exact ⟨hle.1, by dsimp only; omega⟩
        · exact hpacked.inside d hd hdone
      · refine List.pairwise_cons.2 ⟨fun d hd hcdone hdone => ?_, hpacked.apart⟩
        have hcold := (List.mem_cons.1 hcdone).resolve_left hc
        by_cases hcb : d.cb = width
        · have hle := (hold d hd).1 hcb
          have hle' := hp.inside c List.mem_cons_self hcold
          exact .inl (by omega)
        · exact (List.pairwise_cons.1 hp.apart).1 d ((hold d hd).2 hcb) hcold
            ((List.mem_cons.1 hdone).resolve_left hcb)
      · intro d hd
        rcases List.mem_cons.1 hd with rfl | hd
        · exact ⟨fun heq => absurd heq hc, fun _ => List.mem_cons_self⟩
        · obtain ⟨hnew, hsame⟩ := hold d hd
          exact ⟨hnew, fun hne => List.mem_cons_of_mem c (hsame hne)⟩

/-- A layout as its readers and writers rely on it. -/
structure Layout.Fits (lay : Layout) : Prop where
  inside : ∀ c ∈ lay.columns, c.ib + c.cb ≤ lay.tci1b
  apart : lay.columns.Pairwise Column.Apart
  width : ∀ c ∈ lay.columns, c.cb = cellWidth c.tag
  ibit : ∀ (i : Nat) (c : Column), lay.columns[i]? = some c → c.ibit = i
  few : lay.columns.length ≤ 255
  bitmap : lay.tciBm = lay.tci1b + (lay.columns.length + 7) / 8
  start : 8 ≤ lay.tci1b
  ends : lay.tci4b ≤ lay.tci2b ∧ lay.tci2b ≤ lay.tci1b
  small : lay.tciBm ≤ 4096

theorem cellWidth_cases (tag : Nat) : cellWidth tag ∈ [1, 2, 4, 8] := by
  have hcases := fixedPropSize_cases (tagType tag)
  unfold cellWidth
  split
  · simp
  · rename_i hne
    simpa [hne] using hcases

/-- The columns besides the automatic ones, before they are packed. -/
def looseColumns (tags : List Nat) : List Column :=
  (tags.zipIdx 2).map fun (tag, i) => ⟨tag, 0, cellWidth tag, i % 2 ^ 8⟩

/-- One pass over `n` columns, the widths before it having been placed. -/
theorem packWidth_next (width : Nat) {off n : Nat} {done : List Nat} {columns : List Column}
    (hp : PackedIn done 8 off columns) (hlen : columns.length = n) (hlo : 8 ≤ off)
    (hwrap : off + width * n < 2 ^ 16) :
    off ≤ (packWidth width off columns).1 ∧ (packWidth width off columns).1 ≤ off + width * n ∧
      PackedIn (width :: done) 8 (packWidth width off columns).1
        (packWidth width off columns).2 ∧
      (packWidth width off columns).2.length = n := by
  subst hlen
  obtain ⟨hstart, hstop, hpacked, -⟩ := packWidth_spec hp hlo le_rfl hwrap
  exact ⟨hstart, hstop, hpacked, packWidth_length width off columns⟩

/-- The four passes. -/
theorem passes_spec {tags : List Nat} (hfew : tags.length ≤ 253) {p8 p4 p2 p1 : Nat × List Column}
    (h8 : p8 = packWidth 8 8 (looseColumns tags)) (h4 : p4 = packWidth 4 p8.1 p8.2)
    (h2 : p2 = packWidth 2 p4.1 p4.2) (h1 : p1 = packWidth 1 p2.1 p2.2) :
    8 ≤ p1.1 ∧ p1.1 ≤ 4000 ∧ (p4.1 ≤ p2.1 ∧ p2.1 ≤ p1.1) ∧ PackedIn [1, 2, 4, 8] 8 p1.1 p1.2 ∧
      p1.2.map (fun c => (c.tag, c.cb, c.ibit)) =
        (looseColumns tags).map fun c => (c.tag, c.cb, c.ibit) := by
  have hlen : (looseColumns tags).length = tags.length := by simp [looseColumns]
  have hnone : PackedIn [] 8 8 (looseColumns tags) := by
    refine ⟨fun c _ hno => absurd hno List.not_mem_nil, ?_⟩
    exact List.pairwise_of_forall fun c d hno => absurd hno List.not_mem_nil
  obtain ⟨hs8, ht8, hp8, hlen8⟩ := packWidth_next 8 hnone hlen le_rfl (by omega)
  rw [← h8] at hs8 ht8 hp8 hlen8
  obtain ⟨hs4, ht4, hp4, hlen4⟩ := packWidth_next 4 hp8 hlen8 hs8 (by omega)
  rw [← h4] at hs4 ht4 hp4 hlen4
  obtain ⟨hs2, ht2, hp2, hlen2⟩ := packWidth_next 2 hp4 hlen4 (by omega) (by omega)
  rw [← h2] at hs2 ht2 hp2 hlen2
  obtain ⟨hs1, ht1, hp1, -⟩ := packWidth_next 1 hp2 hlen2 (by omega) (by omega)
  rw [← h1] at hs1 ht1 hp1
  refine ⟨by omega, by omega, ⟨hs2, hs1⟩, hp1, ?_⟩
  rw [h1, packWidth_shape, h2, packWidth_shape, h4, packWidth_shape, h8, packWidth_shape]

theorem layout_auto (tags : List Nat) {p8 p4 p2 p1 : Nat × List Column}
    (h8 : p8 = packWidth 8 8 (looseColumns tags)) (h4 : p4 = packWidth 4 p8.1 p8.2)
    (h2 : p2 = packWidth 2 p4.1 p4.2) (h1 : p1 = packWidth 1 p2.1 p2.2) :
    layout (autoTags ++ tags) =
      ⟨⟨PidTagLtpRowId, 0, 4, 0⟩ :: ⟨PidTagLtpRowVer, 4, 4, 1⟩ :: p1.2, p4.1, p2.1, p1.1,
        (p1.1 + (tags.length + 2 + 7) / 8) % 2 ^ 16⟩ := by
  have hcolumns : (autoTags ++ tags).zipIdx.map
      (fun (tag, i) => (⟨tag, 0, cellWidth tag, i % 2 ^ 8⟩ : Column)) =
      ⟨PidTagLtpRowId, 0, 4, 0⟩ :: ⟨PidTagLtpRowVer, 0, 4, 1⟩ :: looseColumns tags := rfl
  have hlen : (looseColumns tags).length = tags.length := by simp [looseColumns]
  unfold layout
  rw [hcolumns]
  simp only [List.drop_succ_cons, List.drop_zero, List.length_cons, hlen, ← h8, ← h4, ← h2, ← h1]
  rfl

theorem getElem?_looseColumns {tags : List Nat} (hfew : tags.length ≤ 253) {columns : List Column}
    (hshape : columns.map (fun c => (c.tag, c.cb, c.ibit)) =
      (looseColumns tags).map fun c => (c.tag, c.cb, c.ibit)) {i : Nat} {c : Column}
    (hc : columns[i]? = some c) : tags[i]? = some c.tag ∧ c.cb = cellWidth c.tag ∧ c.ibit = i + 2 := by
  have hat : (columns.map fun c => (c.tag, c.cb, c.ibit))[i]? = _ := congrArg (·[i]?) hshape
  rw [List.getElem?_map, hc, List.getElem?_map, looseColumns, List.getElem?_map,
    List.getElem?_zipIdx] at hat
  cases htag : tags[i]? with
  | none => simp [htag] at hat
  | some tag =>
    obtain ⟨hlt, _⟩ := List.getElem?_eq_some_iff.1 htag
    simp only [htag, Option.map_some, Option.some.injEq, Prod.mk.injEq] at hat
    obtain ⟨rfl, hcb, hibit⟩ := hat
    exact ⟨rfl, hcb, by omega⟩

/-- With at most 253 columns besides the automatic ones, no two cells of a row overlap. -/
theorem layout_fits {tags : List Nat} (hfew : tags.length ≤ 253) :
    (layout (autoTags ++ tags)).Fits ∧
      (layout (autoTags ++ tags)).columns.map Column.tag = autoTags ++ tags := by
  obtain ⟨p8, h8⟩ : ∃ p, p = packWidth 8 8 (looseColumns tags) := ⟨_, rfl⟩
  obtain ⟨p4, h4⟩ : ∃ p, p = packWidth 4 p8.1 p8.2 := ⟨_, rfl⟩
  obtain ⟨p2, h2⟩ : ∃ p, p = packWidth 2 p4.1 p4.2 := ⟨_, rfl⟩
  obtain ⟨p1, h1⟩ : ∃ p, p = packWidth 1 p2.1 p2.2 := ⟨_, rfl⟩
  obtain ⟨hstart, hstop, hends, hpacked, hshape⟩ := passes_spec hfew h8 h4 h2 h1
  rw [layout_auto tags h8 h4 h2 h1]
  have hlen : p1.2.length = tags.length := by
    have h := congrArg List.length hshape
    simpa [looseColumns] using h
  have hat (i : Nat) (c : Column) (hc : p1.2[i]? = some c) := getElem?_looseColumns hfew hshape hc
  have hwidth (c) (hc : c ∈ p1.2) : c.cb = cellWidth c.tag := by
    obtain ⟨i, hi⟩ := List.mem_iff_getElem?.1 hc
    exact (hat i c hi).2.1
  have hdone (c) (hc : c ∈ p1.2) : c.cb ∈ [1, 2, 4, 8] := hwidth c hc ▸ cellWidth_cases c.tag
  have hin (c) (hc : c ∈ p1.2) := hpacked.inside c hc (hdone c hc)
  have hpast (c) (hc : c ∈ p1.2) : 8 ≤ c.ib := (hin c hc).1
  refine ⟨⟨?_, ?_, ?_, ?_, ?_, ?_, hstart, hends, ?_⟩, ?_⟩
  · intro c hc
    rcases List.mem_cons.1 hc with rfl | hc
    · exact (by decide : 0 + 4 ≤ 8).trans hstart
    rcases List.mem_cons.1 hc with rfl | hc
    · exact hstart
    · exact (hin c hc).2
  · refine List.pairwise_cons.2 ⟨fun d hd => ?_, List.pairwise_cons.2 ⟨fun d hd => ?_, ?_⟩⟩
    · rcases List.mem_cons.1 hd with rfl | hd
      · exact .inl le_rfl
      · exact .inl ((by decide : 0 + 4 ≤ 8).trans (hpast d hd))
    · exact .inl (hpast d hd)
    · exact hpacked.apart.imp_of_mem fun hc hd h => h (hdone _ hc) (hdone _ hd)
  · intro c hc
    rcases List.mem_cons.1 hc with rfl | hc
    · rfl
    rcases List.mem_cons.1 hc with rfl | hc
    · rfl
    · exact hwidth c hc
  · intro i c hc
    cases i with
    | zero => cases hc; rfl
    | succ i =>
      cases i with
      | zero => cases hc; rfl
      | succ i => exact (hat i c hc).2.2
  · simp only [List.length_cons]
    omega
  · simp only [List.length_cons, hlen]
    omega
  · show (p1.1 + (tags.length + 2 + 7) / 8) % 2 ^ 16 ≤ 4096
    omega
  · show PidTagLtpRowId :: PidTagLtpRowVer :: p1.2.map Column.tag = _
    have htags : p1.2.map Column.tag = tags := by
      apply List.ext_getElem?
      intro i
      rw [List.getElem?_map]
      cases hc : p1.2[i]? with
      | none =>
        have hge := List.getElem?_eq_none_iff.1 hc
        exact (List.getElem?_eq_none (by omega)).symm
      | some c => exact (hat i c hc).1.symm
    rw [htags]
    rfl

/-- No column twice, and the automatic ones first. -/
theorem declared_eq (columns : List Nat) : ∃ extra, declared columns = autoTags ++ extra ∧
    extra.length ≤ columns.length ∧ extra ⊆ columns ∧ (declared columns).Nodup := by
  suffices ∀ before : List Nat, (autoTags ++ before).Nodup →
      ∃ extra, columns.foldl addTag (autoTags ++ before) = autoTags ++ (before ++ extra) ∧
        extra.length ≤ columns.length ∧ extra ⊆ columns ∧
          (autoTags ++ (before ++ extra)).Nodup by
    obtain ⟨extra, heq, hlen, hsub, hnodup⟩ := this [] (by decide)
    exact ⟨extra, heq, hlen, hsub, (show declared columns = _ from heq) ▸ hnodup⟩
  induction columns with
  | nil =>
    intro before hnodup
    refine ⟨[], ?_, le_rfl, List.Subset.refl _, ?_⟩
    · rw [List.append_nil]
      rfl
    · rwa [List.append_nil]
  | cons tag columns ih =>
    intro before hnodup
    rw [List.foldl_cons, addTag]
    split
    · obtain ⟨extra, heq, hlen, hsub, hnodup'⟩ := ih before hnodup
      exact ⟨extra, heq, hlen.trans (Nat.le_succ _), List.Subset.trans hsub (List.subset_cons_self _ _),
        hnodup'⟩
    · rename_i hnew
      have hone : ((autoTags ++ before) ++ [tag]).Nodup := by
        refine List.nodup_append.2 ⟨hnodup, List.nodup_singleton _, fun a ha b hb => ?_⟩
        rw [List.mem_singleton.1 hb]
        rintro rfl
        exact hnew ha
      rw [List.append_assoc] at hone ⊢
      obtain ⟨extra, heq, hlen, hsub, hnodup'⟩ := ih (before ++ [tag]) hone
      rw [List.append_assoc] at heq hnodup'
      exact ⟨tag :: extra, heq, Nat.succ_le_succ hlen, List.cons_subset_cons _ hsub, hnodup'⟩

/-- Distinct columns are declared in their order. -/
theorem declared_of_nodup {columns : List Nat} (h : (autoTags ++ columns).Nodup) :
    declared columns = autoTags ++ columns := by
  suffices ∀ before : List Nat, (before ++ columns).Nodup →
      columns.foldl addTag before = before ++ columns from this autoTags h
  clear h
  induction columns with
  | nil =>
    intro before _
    exact (List.append_nil before).symm
  | cons tag columns ih =>
    intro before hnodup
    rw [List.append_cons] at hnodup ⊢
    have hnew : tag ∉ before := by
      intro hmem
      have hone := (List.nodup_append.1 hnodup).1
      exact (List.nodup_append.1 hone).2.2 tag hmem tag (List.mem_singleton_self tag) rfl
    rw [List.foldl_cons, addTag, if_neg hnew]
    exact ih _ hnodup

/-- At most 253 columns fit. -/
theorem declared_fits {columns : List Nat} (hfew : columns.length ≤ 253) :
    (layout (declared columns)).Fits ∧
      (layout (declared columns)).columns.map Column.tag = declared columns := by
  obtain ⟨extra, heq, hlen, -, -⟩ := declared_eq columns
  rw [heq]
  exact layout_fits (hlen.trans hfew)

theorem declared_lt {columns : List Nat} (htags : ∀ tag ∈ columns, tag < 2 ^ 32) :
    ∀ tag ∈ declared columns, tag < 2 ^ 32 := by
  obtain ⟨extra, heq, -, hsub, -⟩ := declared_eq columns
  rw [heq]
  intro tag hmem
  rcases List.mem_append.1 hmem with hauto | hextra
  · exact (by decide : ∀ tag ∈ autoTags, tag < 2 ^ 32) tag hauto
  · exact htags tag (hsub hextra)

/-! ## The cells of a row -/

namespace Layout

def markPresent (lay : Layout) (ibit : Nat) (row : Bytes) : Bytes :=
  row.modify (lay.tci1b + ibit / 8) (· ||| bitMask ibit)

/-- A cell of a row is filled in. -/
def putField (lay : Layout) (c : Column) (b : Bytes) (row : Bytes) : Bytes :=
  lay.markPresent c.ibit (poke row c.ib b)

/-- The octets of a cell, when it exists. -/
def field (lay : Layout) (row : Bytes) (c : Column) : Option Bytes :=
  if row.getD (lay.tci1b + c.ibit / 8) 0 &&& bitMask c.ibit ≠ 0 then some (slice row c.ib c.cb)
  else none

def emptyRow (lay : Layout) : Bytes := List.replicate lay.tciBm 0

variable {lay : Layout} {row b : Bytes} {c d : Column}

theorem field_emptyRow (lay : Layout) (c : Column) : lay.field lay.emptyRow c = none := by
  have hzero : lay.emptyRow.getD (lay.tci1b + c.ibit / 8) 0 = 0 := by
    simp only [emptyRow, List.getD_eq_getElem?_getD, List.getElem?_replicate]
    split <;> rfl
  rw [field, hzero, if_neg (by simp)]

theorem Fits.field_inside (hf : lay.Fits) (hrow : row.length = lay.tciBm) (hc : c ∈ lay.columns) :
    c.ib + c.cb ≤ row.length := by
  have hle := hf.inside c hc
  have hbm := hf.bitmap
  omega

theorem Fits.putField_length (hf : lay.Fits) (hrow : row.length = lay.tciBm)
    (hc : c ∈ lay.columns) (hb : b.length = c.cb) : (lay.putField c b row).length = lay.tciBm := by
  have hle := hf.field_inside hrow hc
  rw [putField, markPresent, List.length_modify, poke_length (by omega), hrow]

/-- The bitmap octet of a column lies in the row. -/
theorem Fits.bitmap_inside (hf : lay.Fits) (hrow : row.length = lay.tciBm) (hc : c ∈ lay.columns) :
    lay.tci1b + c.ibit / 8 < row.length := by
  obtain ⟨i, hi⟩ := List.mem_iff_getElem?.1 hc
  have hibit := hf.ibit i c hi
  obtain ⟨hlt, _⟩ := List.getElem?_eq_some_iff.1 hi
  have hbm := hf.bitmap
  omega

theorem slice_markPresent (hf : lay.Fits) (hd : d ∈ lay.columns) (ibit : Nat) (row : Bytes) :
    slice (lay.markPresent ibit row) d.ib d.cb = slice row d.ib d.cb := by
  have hin := hf.inside d hd
  refine slice_congr fun i _ hlt => ?_
  rw [markPresent, List.getElem?_modify_ne _ _ (by omega)]

theorem Fits.ibit_inj (hf : lay.Fits) (hc : c ∈ lay.columns) (hd : d ∈ lay.columns)
    (h : c.ibit = d.ibit) : c = d := by
  obtain ⟨i, hi⟩ := List.mem_iff_getElem?.1 hc
  obtain ⟨j, hj⟩ := List.mem_iff_getElem?.1 hd
  have hci := hf.ibit i c hi
  have hdj := hf.ibit j d hj
  have hij : i = j := by omega
  rw [hij, hj] at hi
  exact (Option.some.inj hi).symm

theorem Fits.apart_of_ne (hf : lay.Fits) (hc : c ∈ lay.columns) (hd : d ∈ lay.columns)
    (h : c ≠ d) : c.Apart d :=
  hf.apart.forall hc hd h

/-- The bit of a column is set by putting into it, and by putting into no other. -/
theorem Fits.bit_putField (hf : lay.Fits) (hrow : row.length = lay.tciBm)
    (hc : c ∈ lay.columns) (hd : d ∈ lay.columns) (hb : b.length = c.cb) :
    (lay.putField c b row).getD (lay.tci1b + d.ibit / 8) 0 &&& bitMask d.ibit ≠ 0 ↔
      c = d ∨ row.getD (lay.tci1b + d.ibit / 8) 0 &&& bitMask d.ibit ≠ 0 := by
  have hle := hf.inside c hc
  have hfield := hf.field_inside hrow hc
  have hbit := hf.bitmap_inside hrow hd
  have hpoke : (poke row c.ib b)[lay.tci1b + d.ibit / 8]? = row[lay.tci1b + d.ibit / 8]? :=
    getElem?_poke_of_out (by omega) (.inr (by omega))
  simp only [putField, markPresent, List.getD_eq_getElem?_getD, List.getElem?_modify, hpoke]
  rw [List.getElem?_eq_getElem hbit]
  by_cases hbyte : c.ibit / 8 = d.ibit / 8
  · simp only [hbyte, if_true, Option.map_eq_map, Option.map_some, Option.getD_some]
    rw [or_bitMask, or_comm]
    refine or_congr_left ⟨fun h => hf.ibit_inj hc hd (by omega), ?_⟩
    rintro rfl
    rfl
  · have hne : ¬c = d := by
      rintro rfl
      exact hbyte rfl
    simp [hbyte, hne]

/-- What was put into a cell is in it, and in no other. -/
theorem Fits.field_putField (hf : lay.Fits) (hrow : row.length = lay.tciBm)
    (hc : c ∈ lay.columns) (hd : d ∈ lay.columns) (hb : b.length = c.cb) :
    lay.field (lay.putField c b row) d = if c = d then some b else lay.field row d := by
  have hbit := hf.bit_putField hrow hc hd hb
  have hfield := hf.field_inside hrow hc
  have hslice : slice (lay.putField c b row) d.ib d.cb = slice (poke row c.ib b) d.ib d.cb :=
    slice_markPresent hf hd _ _
  by_cases hcd : c = d
  · subst hcd
    rw [if_pos rfl, field, if_pos (hbit.2 (.inl rfl)), hslice, ← hb, slice_poke (by omega)]
  · have hapart := hf.apart_of_ne hc hd hcd
    have hsame : slice (poke row c.ib b) d.ib d.cb = slice row d.ib d.cb :=
      slice_poke_of_apart (by omega) (by unfold Column.Apart at hapart; omega)
    rw [if_neg hcd, field, field, hslice, hsame]
    by_cases hset : row.getD (lay.tci1b + d.ibit / 8) 0 &&& bitMask d.ibit ≠ 0
    · rw [if_pos hset, if_pos (hbit.2 (.inr hset))]
    · rw [if_neg hset, if_neg fun h => (hbit.1 h).elim hcd hset]

end Layout

end Pst
end Imap2Pst
