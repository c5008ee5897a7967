import Imap2Pst.Pst.Finish
import Imap2Pst.Pst.Trees

/-!
# Pst.Room

Calls that do not throw: on a stream that never fails, with room left for the blocks and pages a
call writes, the call returns and leaves room for the rest.

* `writeData_returns`  — a value that a data tree can hold is written.
* `buildBTree_returns` — up to 15 * 20 ^ 7 entries, a B-tree stays within its levels.
* `finish_returns`     — the session closes.
-/

namespace Imap2Pst
namespace Pst

open CxxStd

/-! ## The stream -/

/-- The stream has not failed and will not. -/
def Steady (w : NdbWriter) : Prop := w.good = true ∧ ∀ k, w.fate k = true

theorem put_returns {what : String} {ib : Nat} {data : Bytes} {w : NdbWriter} (hw : Steady w)
    (hfit : ib + data.length < 2 ^ 63) : Returns (put what ib data) w fun _ w' =>
      w' = { w with fate := fun k => w.fate (k + 1), file := w.file.write ib data } ∧ Steady w' :=
  ⟨(), _, put_eq_ok.2 ⟨⟨hw.1, hw.2 0, hfit⟩, rfl⟩, rfl, hw.1, fun k => hw.2 (k + 1)⟩

theorem writeAt_steady {ib : Nat} {data : Bytes} {w : NdbWriter} (hw : Steady w)
    (hfit : ib + data.length < 2 ^ 63) : Returns (writeAt ib data) w fun _ w' => Steady w' :=
  (put_returns hw hfit).mono fun _ _ h => h.2

theorem padFile_returns {w : NdbWriter} (hs : Sound w) (hw : Steady w)
    (hsmall : amapPage w.amaps.length < 2 ^ 63) : Returns padFile w fun _ w' => Steady w' := by
  have hmapped := hs.mapped
  have hend : max (kFirstAMapPos + w.amaps.length * kAMapSpan) w.cursor =
      amapPage w.amaps.length := max_eq_left hmapped
  refine returns_bind ⟨w, w, rfl, returns_bind ⟨(), _, rfl, ?_⟩⟩
  rw [hend]
  by_cases hlt : w.cursor < amapPage w.amaps.length
  · rw [if_pos hlt]
    refine writeAt_steady ?_ ?_
    · exact ⟨hw.1, hw.2⟩
    · rw [List.length_replicate]
      omega
  · rw [if_neg hlt]
    exact ⟨(), _, rfl, hw.1, hw.2⟩

theorem emitFixedPages_returns {w w₁ : NdbWriter} (hs : Sound w) (hw : Steady w₁)
    (hamaps : w₁.amaps = w.amaps) (hend : w₁.fileEnd = amapPage w.amaps.length)
    (hsmall : amapPage w.amaps.length < 2 ^ 63) :
    Returns emitFixedPages w₁ fun _ w' => Steady w' := by
  have hin {e : Nat × Bytes} (he : e ∈ fixedPages w₁) : e.1 + e.2.length < 2 ^ 63 := by
    obtain ⟨_, hlen, hle⟩ := shape_fixedPages (hamaps ▸ hs.some_map) (hamaps ▸ hend)
      (hamaps ▸ hs.maps.sizes) he
    rw [hlen]
    rw [hamaps] at hle
    omega
  unfold fixedPages at hin
  refine returns_bind ⟨(), _, rfl, returns_bind ⟨_, _, takeBid_eq_ok.2 ⟨rfl, rfl⟩, ?_⟩⟩
  refine returns_bind ((put_returns ?_ (hin (e := dlistWrite _) ?_)).mono ?_)
  · exact hw
  · exact List.mem_append_left _ List.mem_cons_self
  rintro _ _ ⟨rfl, hw₁⟩
  refine returns_bind ⟨_, _, rfl, returns_bind ((returns_each (I := Steady) hw₁ ?_).mono ?_)⟩
  · rintro ⟨bits, i⟩ hi s hs
    exact writeAt_steady hs (hin (e := amapWrite (bits, i))
      (List.mem_append_left _ (List.mem_cons_of_mem _ (List.mem_map_of_mem hi))))
  · intro _ w₂ hw₂
    refine returns_bind ⟨(), _, rfl, returns_bind ((returns_each (I := Steady) ?_ ?_).mono ?_)⟩
    · exact hw₂
    · intro k hk s hs
      exact writeAt_steady hs (hin (e := pmapWrite k)
        (List.mem_append_right _ (List.mem_map_of_mem hk)))
    · intro _ w₃ hw₃
      exact ⟨(), w₃, rfl, hw₃⟩

/-! ## Blocks and pages -/

/-- One block or page was written, at the cursor or a little way behind it. -/
structure Takes (w w' : NdbWriter) : Prop where
  above : w.cursor ≤ w'.cursor
  near : w'.cursor ≤ w.cursor + 32768
  spans : ∃ ib, kFirstDataPos ≤ ib ∧ ib ≤ w'.cursor ∧
    w'.amaps.length = max w.amaps.length (spanOf ib + 1)
  steady : Steady w → Steady w'

theorem emitBlock_takes {data : Bytes} {internal : Bool} {w w' : NdbWriter} {bid : Nat}
    (h : emitBlock data internal w = .ok bid w') (hs : Sound w) : Takes w w' := by
  unfold emitBlock at h
  rcases ite_eq_ok.1 h with ⟨_, h⟩ | ⟨hle, h⟩
  · obtain ⟨_, _, h, _⟩ := bind_eq_ok.1 h
    cases h
  obtain ⟨hdvd, hroom, hsize⟩ := blockSize_spec (not_lt.1 hle)
  simp only [bind_eq_ok, takeBid_eq_ok, writeAt, put_eq_ok, modify_eq_ok, pure_eq_ok] at h
  obtain ⟨ib, w₁, halloc, _, _, ⟨rfl, rfl⟩, _, _, ⟨_, rfl⟩, _, _, rfl, rfl, rfl⟩ := h
  obtain ⟨hall, _⟩ := allocate_spec halloc hs.maps hs.cursor hdvd (by omega) hsize
  have habove := hall.above
  have hnear := hall.near
  have hspans := hall.spans
  obtain ⟨⟨amaps, last, rfl⟩, -⟩ := id hall
  refine ⟨habove.trans (Nat.le_add_right _ _), ?_, ⟨ib, hs.cursor.first.trans habove,
    Nat.le_add_right _ _, hspans⟩, fun hw => ⟨hw.1, fun k => hw.2 (k + 1)⟩⟩
  show ib + alignUp (data.length + 16) kBlockAlign ≤ w.cursor + 32768
  omega

theorem finishBTPage_takes {body : Bytes} {ptype : Byte} {w w' : NdbWriter} {r : Bref}
    (h : finishBTPage body ptype w = .ok r w') (hs : Sound w) : Takes w w' := by
  unfold finishBTPage at h
  simp only [bind_eq_ok, takeBid_eq_ok, writeAt, put_eq_ok, modify_eq_ok, pure_eq_ok] at h
  obtain ⟨ib, w₁, halloc, _, _, ⟨rfl, rfl⟩, _, _, ⟨_, rfl⟩, _, _, rfl, rfl, rfl⟩ := h
  obtain ⟨hall, _⟩ := allocatePage_spec halloc hs.maps hs.cursor
  have hup := alignUp_lt (v := w.cursor) (a := kPageSize) (by decide)
  have habove := (le_alignUp (by decide)).trans hall.above
  have hnear := hall.near
  have hspans := hall.spans
  obtain ⟨⟨amaps, last, rfl⟩, -⟩ := id hall
  have hpage : kPageSize = 512 := rfl
  dsimp only at hnear habove
  refine ⟨habove.trans (Nat.le_add_right _ _), ?_, ⟨ib, hs.cursor.first.trans habove,
    Nat.le_add_right _ _, hspans⟩, fun hw => ⟨hw.1, fun k => hw.2 (k + 1)⟩⟩
  show ib + kPageSize ≤ w.cursor + 32768
  omega

/-- The stream does not fail, and `n` more blocks stay clear of the largest offset. -/
structure Room (n : Nat) (w : NdbWriter) : Prop where
  sound : Sound w
  steady : Steady w
  cursor : w.cursor + 32768 * n ≤ 2 ^ 62

theorem Room.le {m n : Nat} {w : NdbWriter} (h : Room n w) (hle : m ≤ n) : Room m w := by
  have hcursor := h.cursor
  have hmul := Nat.mul_le_mul_left 32768 hle
  exact ⟨h.sound, h.steady, by omega⟩

theorem Takes.room {n : Nat} {w w' : NdbWriter} (h : Takes w w') (hs : Sound w')
    (hroom : Room (n + 1) w) : Room n w' := by
  have hcursor := hroom.cursor
  have hnear := h.near
  exact ⟨hs, h.steady hroom.steady, by omega⟩

theorem emitBlock_returns {n : Nat} {data : Bytes} {internal : Bool} {w : NdbWriter}
    (h : Room (n + 1) w) (hlen : data.length ≤ kMaxBlockData) :
    Returns (emitBlock data internal) w fun _ w' => Room n w' := by
  obtain ⟨hs, hw, hcursor⟩ := id h
  obtain ⟨hdvd, hroom, hsize⟩ := blockSize_spec hlen
  obtain ⟨ib, w₁, halloc⟩ : ∃ ib w₁,
    allocate (alignUp (data.length + 16) kBlockAlign) w = .ok ib w₁ := ⟨_, _, rfl⟩
  obtain ⟨hall, _⟩ := allocate_spec halloc hs.maps hs.cursor hdvd (by omega) hsize
  have hnear := hall.near
  obtain ⟨⟨amaps, last, rfl⟩, -⟩ := id hall
  obtain ⟨bid, w', hrun, -⟩ : Returns (emitBlock data internal) w fun _ _ => True := by
    unfold emitBlock
    rw [if_neg (not_lt.2 hlen)]
    refine returns_bind ⟨ib, _, halloc, returns_bind ⟨_, _, takeBid_eq_ok.2 ⟨rfl, rfl⟩, ?_⟩⟩
    refine returns_bind ((put_returns ?_ ?_).mono ?_)
    · exact hw
    · rw [blockImage_length]
      omega
    · rintro _ _ ⟨rfl, hw'⟩
      exact returns_bind ⟨(), _, modify_eq_ok.2 rfl, _, _, rfl, trivial⟩
  exact ⟨bid, w', hrun, (emitBlock_takes hrun hs).room (emitBlock_spec hrun hs).1 h⟩

theorem finishBTPage_returns {n : Nat} {body : Bytes} (ptype : Byte) {w : NdbWriter}
    (h : Room (n + 1) w) (hbody : body.length = 496) :
    Returns (finishBTPage body ptype) w fun _ w' => Room n w' := by
  obtain ⟨hs, hw, hcursor⟩ := id h
  obtain ⟨ib, w₁, halloc⟩ : ∃ ib w₁, allocatePage w = .ok ib w₁ := ⟨_, _, rfl⟩
  obtain ⟨hall, _⟩ := allocatePage_spec halloc hs.maps hs.cursor
  have hup := alignUp_lt (v := w.cursor) (a := kPageSize) (by decide)
  have hnear := hall.near
  obtain ⟨⟨amaps, last, rfl⟩, -⟩ := id hall
  have hpage : kPageSize = 512 := rfl
  dsimp only at hnear halloc
  obtain ⟨r, w', hrun, -⟩ : Returns (finishBTPage body ptype) w fun _ _ => True := by
    refine returns_bind ⟨ib, _, halloc, returns_bind ⟨_, _, takeBid_eq_ok.2 ⟨rfl, rfl⟩, ?_⟩⟩
    refine returns_bind ((put_returns ?_ ?_).mono ?_)
    · exact hw
    · rw [pageImage_size hbody]
      omega
    · rintro _ _ ⟨rfl, hw'⟩
      exact returns_bind ⟨(), _, modify_eq_ok.2 rfl, _, _, rfl, trivial⟩
  exact ⟨r, w', hrun, (finishBTPage_takes hrun hs).room (finishBTPage_spec hrun hbody hs).1 h⟩

theorem emitXBlock_returns {n level totalBytes : Nat} {children : List Nat} {w : NdbWriter}
    (h : Room (n + 1) w) (hcount : children.length ≤ kXBlockFanout) :
    Returns (emitXBlock children level totalBytes) w fun _ w' => Room n w' := by
  refine emitBlock_returns h ?_
  have hrows := length_flatMap_of_forall (l := children) fun bid _ => le_length 8 bid
  have hfanout : kXBlockFanout = 1021 := rfl
  simp only [xBlockData, List.length_append, List.length_cons, List.length_nil, le_length, hrows]
  unfold kMaxBlockData
  omega

/-- Up to an XXBLOCK's worth of leaves, a data tree is assembled. -/
theorem assembleDataTree_returns {n totalBytes : Nat} {leaves : List Nat} {w : NdbWriter}
    (h : Room (leaves.length + n + 2) w) (hbytes : totalBytes ≤ 0xFFFFFFFF)
    (hcount : leaves.length ≤ kXBlockFanout * kXBlockFanout) :
    Returns (assembleDataTree leaves totalBytes) w fun _ w' => Room n w' := by
  have hfanout : kXBlockFanout = 1021 := rfl
  have hsquare : kXBlockFanout * kXBlockFanout = 1042441 := rfl
  by_cases hmany : 1 < leaves.length
  · rw [assembleDataTree_of_many hmany, if_neg (not_lt.2 hbytes)]
    by_cases hone : leaves.length ≤ kXBlockFanout
    · rw [if_pos hone]
      exact emitXBlock_returns (h.le (by omega)) hone
    rw [if_neg hone]
    have hpasses : (pieces kXBlockFanout leaves).zipIdx.length ≤ kXBlockFanout := by
      rw [List.length_zipIdx, pieces_length, passes, hfanout]
      omega
    have hloop : Returns (each
        (fun x : List Nat × Nat =>
          emitXBlock x.1 1 (coveredBytes totalBytes (x.2 * kXBlockFanout) x.1.length))
        (pieces kXBlockFanout leaves).zipIdx) w fun _ v => Room (n + 1) v := by
      refine returns_each_budget (h.le (by omega)) ?_
      rintro ⟨slice, k⟩ hslice m v hv
      exact emitXBlock_returns hv (length_of_mem_pieces (by decide)
        (List.fst_mem_of_mem_zipIdx hslice)).2
    obtain ⟨xblocks, v, hrun, hv⟩ := hloop
    have hlen : xblocks.length ≤ kXBlockFanout := by
      rw [each_length hrun]
      exact hpasses
    refine returns_bind ⟨xblocks, v, hrun, ?_⟩
    dsimp only
    rw [if_neg (not_lt.2 hlen)]
    exact emitXBlock_returns hv hlen
  · cases leaves with
    | nil =>
      have hnone : ([] : Bytes).length ≤ kMaxBlockData := Nat.zero_le _
      exact emitBlock_returns (h.le (m := n + 1) (by simp)) hnone
    | cons leaf leaves =>
      cases leaves with
      | nil => exact ⟨leaf, w, rfl, h.le (by simp; omega)⟩
      | cons leaf' leaves => simp at hmany

/-- A value handed over one chunk at a time. -/
theorem leaves_returns {n : Nat} {data : Bytes} {w : NdbWriter}
    (h : Room (2 * passes data.length kMaxBlockData + n + 2) w)
    (hlen : data.length ≤ 0xFFFFFFFF) : Returns (do
      let leaves ← each writeLeafChunk (pieces kMaxBlockData data)
      assembleDataTree leaves data.length) w fun _ w' => Room n w' := by
  obtain ⟨leaves, v, hrun, hv⟩ : Returns (each writeLeafChunk (pieces kMaxBlockData data)) w
      fun _ v => Room (passes data.length kMaxBlockData + n + 2) v := by
    refine returns_each_budget (h.le (by rw [pieces_length]; omega)) ?_
    intro chunk hchunk m v hv
    exact emitBlock_returns hv (length_of_mem_pieces (by decide) hchunk).2
  have hcount := each_length hrun
  rw [pieces_length] at hcount
  refine returns_bind ⟨leaves, v, hrun, assembleDataTree_returns (hcount ▸ hv) hlen ?_⟩
  rw [hcount, passes]
  have hsquare : kXBlockFanout * kXBlockFanout = 1042441 := rfl
  have hmax : kMaxBlockData = 8176 := rfl
  rw [hmax, hsquare]
  omega

theorem writeData_returns {n : Nat} {data : Bytes} {w : NdbWriter}
    (h : Room (2 * passes data.length kMaxBlockData + n + 3) w)
    (hlen : data.length ≤ 0xFFFFFFFF) : Returns (writeData data) w fun _ w' => Room n w' := by
  unfold writeData
  by_cases hone : data.length ≤ kMaxBlockData
  · rw [if_pos hone]
    exact emitBlock_returns (h.le (by omega)) hone
  · rw [if_neg hone]
    exact leaves_returns (h.le (by omega)) hlen

/-! ## B-trees -/

/-- There are no more allocation maps than the cursor needs. -/
def Tight (w : NdbWriter) : Prop := amapPage w.amaps.length ≤ w.cursor + kAMapSpan

theorem Takes.tight {w w' : NdbWriter} (h : Takes w w') (ht : Tight w) : Tight w' := by
  obtain ⟨habove, -, ⟨ib, hfirst, hend, hspans⟩, -⟩ := h
  unfold Tight amapPage at *
  rw [hspans]
  rcases Nat.le_total w.amaps.length (spanOf ib + 1) with hle | hle
  · have hspan : spanOf ib * kAMapSpan ≤ ib - kFirstAMapPos := Nat.div_mul_le_self _ _
    have hbase : kFirstAMapPos ≤ kFirstDataPos := by decide
    rw [Nat.max_eq_right hle, Nat.succ_mul]
    omega
  · rw [Nat.max_eq_left hle]
    omega

/-- Room for pages, and no map too many. -/
def Pages (n : Nat) (w : NdbWriter) : Prop := Room n w ∧ Tight w

theorem Pages.le {m n : Nat} {w : NdbWriter} (h : Pages n w) (hle : m ≤ n) : Pages m w :=
  ⟨h.1.le hle, h.2⟩

theorem page_returns {n : Nat} {entries : List Bytes} {size level : Nat} {ptype : Byte}
    {w : NdbWriter} (h : Pages (n + 1) w) (hsize : ∀ e ∈ entries, e.length = size)
    (hcount : entries.length ≤ entriesPerPage size) :
    Returns (finishBTPage (pageBody entries size level) ptype) w fun _ w' => Pages n w' := by
  obtain ⟨r, w', hrun, hroom⟩ := finishBTPage_returns ptype h.1
    (pageBody_length level hsize hcount)
  exact ⟨r, w', hrun, hroom, (finishBTPage_takes hrun h.1.sound).tight h.2⟩

theorem branchPage_returns {n level : Nat} {entries : List BranchEntry} (ptype : Byte)
    {w : NdbWriter} (h : Pages (n + 1) w) (hcount : entries.length ≤ entriesPerPage kSizeBTEntry) :
    Returns (emitBranchPage ptype entries level) w fun _ w' => Pages n w' := by
  refine page_returns h ?_ (by rwa [List.length_map])
  intro e he
  obtain ⟨b, _, rfl⟩ := List.mem_map.1 he
  exact branchBytes_length b

/-- A level has at most half as many pages as entries, so the branch levels together have fewer
pages than the level below them. -/
theorem growLevels_returns {left n : Nat} {entries : List BranchEntry} (ptype : Byte)
    {w : NdbWriter} (h : Pages (entries.length + n) w) (hcount : entries.length ≤ 20 ^ left) :
    Returns (growLevels ptype left entries) w fun _ w' => Pages n w' := by
  have hper : entriesPerPage kSizeBTEntry = 20 := rfl
  induction left generalizing entries w with
  | zero =>
    rw [pow_zero] at hcount
    unfold growLevels
    rw [if_pos hcount]
    exact ⟨_, w, rfl, h.le (Nat.le_add_left _ _)⟩
  | succ left ih =>
    unfold growLevels
    by_cases hone : entries.length ≤ 1
    · rw [if_pos hone]
      exact ⟨_, w, rfl, h.le (Nat.le_add_left _ _)⟩
    rw [if_neg hone]
    have hhalf : 2 * passes entries.length 20 ≤ entries.length := by
      unfold passes
      omega
    have hnext : passes entries.length 20 ≤ 20 ^ left :=
      passes_le (by decide) (by rwa [pow_succ] at hcount)
    refine returns_bind ?_
    obtain ⟨next, w₁, hrun, hpages⟩ : Returns (each (fun piece => do
        let child ← emitBranchPage ptype piece (8 - (left + 1))
        pure (⟨(piece.headD ⟨0, 0, 0⟩).key, child.bid, child.ib⟩ : BranchEntry))
        (pieces (entriesPerPage kSizeBTEntry) entries)) w
        fun _ w' => Pages (passes entries.length 20 + n) w' := by
      refine returns_each_budget (h.le (by rw [pieces_length, hper]; omega)) ?_
      intro piece hpiece m v hv
      have hle := (length_of_mem_pieces (by decide) hpiece).2
      exact returns_bind ((branchPage_returns ptype hv hle).mono fun child v' hv' =>
        ⟨_, v', rfl, hv'⟩)
    have hlen := each_length hrun
    rw [pieces_length, hper] at hlen
    exact ⟨next, w₁, hrun, ih (hlen ▸ hpages) (hlen ▸ hnext)⟩

theorem buildBTree_returns {size n : Nat} (ptype : Byte) (items : List (Nat × Bytes))
    {w : NdbWriter} (h : Pages (2 * items.length + 1 + n) w) (hpos : 0 < entriesPerPage size)
    (hlen : ∀ e ∈ items, e.2.length = size)
    (hcount : items.length ≤ 20 ^ 7 * entriesPerPage size) :
    Returns (buildBTree ptype size items) w fun _ w' => Pages n w' := by
  unfold buildBTree
  by_cases hnone : items = []
  · rw [if_pos hnone]
    exact page_returns (h.le (by omega)) (by simp) (Nat.zero_le _)
  rw [if_neg hnone]
  have hleaves : passes items.length (entriesPerPage size) ≤ 20 ^ 7 := passes_le hpos hcount
  have hfew : passes items.length (entriesPerPage size) ≤ items.length :=
    passes_le hpos (Nat.le_mul_of_pos_right _ hpos)
  obtain ⟨leaves, w₁, hrun, hpages⟩ : Returns (each (fun piece => do
      let child ← emitLeafPage ptype size (piece.map Prod.snd)
      pure (⟨(piece.headD (0, [])).1, child.bid, child.ib⟩ : BranchEntry))
      (pieces (entriesPerPage size) items)) w
      fun _ w' => Pages (passes items.length (entriesPerPage size) + n) w' := by
    refine returns_each_budget (h.le (by rw [pieces_length]; omega)) ?_
    intro piece hpiece m v hv
    have hle := (length_of_mem_pieces hpos hpiece).2
    refine returns_bind ((page_returns hv ?_ (by rwa [List.length_map])).mono fun child v' hv' =>
      ⟨_, v', rfl, hv'⟩)
    intro e he
    obtain ⟨x, hx, rfl⟩ := List.mem_map.1 he
    exact hlen x (mem_of_mem_pieces hpos hpiece hx)
  have hcount' := each_length hrun
  rw [pieces_length] at hcount'
  refine returns_bind ⟨leaves, w₁, hrun, returns_bind ?_⟩
  refine (growLevels_returns ptype (n := n) (hcount' ▸ hpages) (hcount' ▸ hleaves)).mono ?_
  intro roots w₂ hpages'
  exact ⟨_, w₂, rfl, hpages'⟩

/-! ## The constructor and the close -/

theorem openWriter_returns : Returns openWriter { fate := fun _ => true } fun _ w =>
    Started (fun _ => true) w ∧ Steady w := by
  obtain ⟨u, w, hrun, -⟩ : Returns openWriter { fate := fun _ => true } fun _ _ => True := by
    refine returns_bind ((put_returns ⟨rfl, fun _ => rfl⟩ (by decide)).mono ?_)
    rintro _ w ⟨-, hw⟩
    refine returns_bind ((put_returns hw ?_).mono ?_)
    · rw [List.length_replicate]
      decide
    · intro _ w' _
      exact ⟨(), _, modify_eq_ok.2 rfl, trivial⟩
  have hstart := openWriter_spec hrun
  exact ⟨u, w, hrun, hstart, hstart.good, fun k => congrFun hstart.fate k⟩

theorem Started.tight {fate : Nat → Bool} {w : NdbWriter} (h : Started fate w) : Tight w := by
  unfold Tight
  rw [h.amaps, h.cursor]
  decide

/-- With the trees in place, the rest of the close writes at most up to the end of the maps. -/
theorem close_returns (nbt bbt : Bref) {n : Nat} {w : NdbWriter} (h : Pages n w) :
    Returns (do
      padFile
      emitFixedPages
      writeHeader nbt bbt
      put "failed flushing PST file" 0 []) w fun _ _ => True := by
  obtain ⟨⟨hs, hw, hcursor⟩, htight⟩ := h
  have hspan : kAMapSpan = 253952 := rfl
  have hsmall : amapPage w.amaps.length < 2 ^ 63 := by
    unfold Tight at htight
    omega
  obtain ⟨_, w₁, hpad, hw₁⟩ := padFile_returns hs hw hsmall
  obtain ⟨_, fate, rfl⟩ := padFile_spec hpad hs.mapped hs.size hs.small
  refine returns_bind ⟨(), _, hpad, returns_bind ?_⟩
  refine (emitFixedPages_returns hs hw₁ rfl rfl hsmall).mono fun _ w₂ hw₂ => ?_
  refine returns_bind (returns_bind ⟨w₂, w₂, rfl, ?_⟩)
  refine (writeAt_steady hw₂ ?_).mono fun _ w₃ hw₃ => ?_
  · rw [headerImage_length]
    decide
  · exact (put_returns hw₃ (by decide)).mono fun _ _ _ => trivial

theorem finish_returns (std : StdSort) {w : NdbWriter}
    (h : Pages (2 * w.nbt.length + 2 * w.bbt.length + 2) w) (hopen : w.finished = false)
    (hnbt : w.nbt.length ≤ 20 ^ 7 * entriesPerPage kSizeNBTEntry)
    (hbbt : w.bbt.length ≤ 20 ^ 7 * entriesPerPage kSizeBBTEntry) :
    Returns (finish std) w fun _ _ => True := by
  have hsorted : Pages (2 * w.nbt.length + 1 + (2 * w.bbt.length + 1))
      { w with
        finished := true
        bbt := std.sort (byKey BbtEntry.bid) w.bbt
        nbt := std.sort (byKey NbtEntry.nid) w.nbt } := by
    obtain ⟨⟨hs, hw, hcursor⟩, htight⟩ := h.le (m := 2 * w.nbt.length + 1 +
      (2 * w.bbt.length + 1)) (by omega)
    exact ⟨⟨hs.reindex (std.perm _ _) _ _, hw, hcursor⟩, htight⟩
  obtain ⟨nbtRoot, w₁, hnbtRun, h₁⟩ := buildBTree_returns (n := 2 * w.bbt.length + 1) kPTypeNBT
    ((std.sort (byKey NbtEntry.nid) w.nbt).map fun e => (e.nid, nbtBytes e))
    (by simpa using hsorted) (by decide) nbtLeaves_length (by simpa using hnbt)
  obtain ⟨bbtRoot, w₂, hbbtRun, h₂⟩ := buildBTree_returns (n := 0) kPTypeBBT
    ((std.sort (byKey BbtEntry.bid) w.bbt).map fun e => (e.bid, bbtBytes e))
    (by simpa using h₁) (by decide) bbtLeaves_length (by simpa using hbbt)
  obtain ⟨u, w₃, hclose, -⟩ := close_returns nbtRoot bbtRoot h₂
  refine ⟨u, w₃, bind_eq_ok.2 ⟨w, w, rfl, ite_eq_ok.2 (.inr ⟨by rw [hopen]; decide, ?_⟩)⟩, trivial⟩
  exact bind_eq_ok.2 ⟨(), _, rfl, bind_eq_ok.2 ⟨_, _, rfl, bind_eq_ok.2 ⟨nbtRoot, w₁, hnbtRun,
    bind_eq_ok.2 ⟨bbtRoot, w₂, hbbtRun, hclose⟩⟩⟩⟩

end Pst
end Imap2Pst
