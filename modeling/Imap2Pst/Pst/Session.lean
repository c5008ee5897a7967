import Imap2Pst.Pst.Room

/-!
# Pst.Session

A session of the node database writer: the constructor, any sequence of operations, `finish`.

* `session_spec` — the state before and after the close, for every session that returns.
* `Ready` — what every operation keeps on a stream that does not fail.
* `layout_safe` — no block or B-tree page of the finished file meets another, a page at a fixed
  position, the header region or the end of its span, and each still verifies.
-/

namespace Imap2Pst
namespace Pst

open CxxStd

/-- One call on the writer. -/
inductive NdbOp where
  | writeData (data : Bytes)
  | writeLeafChunk (data : Bytes)
  | assembleDataTree (leaves : List Nat) (totalBytes : Nat)
  | writeSubnodes (entries : List SubnodeEntry)
  | addNode (nid data sub parent : Nat)
  deriving DecidableEq, Repr

section

variable (std : StdSort)

def NdbOp.run : NdbOp → Ndb Unit
  | .writeData data => do let _ ← Pst.writeData data
  | .writeLeafChunk data => do let _ ← Pst.writeLeafChunk data
  | .assembleDataTree leaves totalBytes => do let _ ← Pst.assembleDataTree leaves totalBytes
  | .writeSubnodes entries => do let _ ← Pst.writeSubnodes std entries
  | .addNode nid data sub parent => Pst.addNode nid data sub parent

/-- The constructor and some operations. -/
def opened (ops : List NdbOp) : Ndb Unit := do
  openWriter
  let _ ← each (NdbOp.run std) ops

def session (ops : List NdbOp) : Ndb Unit := do
  openWriter
  let _ ← each (NdbOp.run std) ops
  finish std

end

/-! ## What every session leaves behind -/

/-- An operation moves the state as its blocks and nodes do. -/
theorem NdbOp.run_moves {R : NdbWriter → NdbWriter → Prop} [IsPreorder NdbWriter R]
    (hblock : ∀ data internal, Moves R (emitBlock data internal))
    (hnode : ∀ nid data sub parent, Moves R (Pst.addNode nid data sub parent)) (std : StdSort)
    (op : NdbOp) : Moves R (op.run std) := by
  cases op with
  | writeData data => exact moves_bind (writeData_moves hblock data) fun _ => moves_pure _
  | writeLeafChunk data => exact moves_bind (hblock data false) fun _ => moves_pure _
  | assembleDataTree leaves n =>
    exact moves_bind (assembleDataTree_moves hblock leaves n) fun _ => moves_pure _
  | writeSubnodes entries =>
    exact moves_bind (writeSubnodes_moves hblock std entries) fun _ => moves_pure _
  | addNode nid data sub parent => exact hnode nid data sub parent

/-- What no operation breaks. -/
structure Open (w : NdbWriter) : Prop where
  sound : Sound w
  unfinished : w.finished = false

theorem emitBlock_open (data : Bytes) (internal : Bool) :
    Moves (Preserves Open) (emitBlock data internal) := by
  intro w bid w' h hw
  have hgrow := emitBlock_grows data internal w bid w' h hw.sound
  exact ⟨hgrow.sound, hgrow.finished.trans hw.unfinished⟩

theorem addNode_open (nid data sub parent : Nat) :
    Moves (Preserves Open) (addNode nid data sub parent) := by
  intro w u w' h hw
  cases modify_eq_ok.1 h
  exact ⟨hw.sound.reindex (List.Perm.refl _) _ _, hw.unfinished⟩

theorem opened_open {std : StdSort} {ops : List NdbOp} {fate : Nat → Bool} {w : NdbWriter} {u : Unit}
    (h : opened std ops { fate } = .ok u w) : Open w := by
  obtain ⟨_, w₀, hopen, h⟩ := bind_eq_ok.1 h
  obtain ⟨_, w₁, hops, h⟩ := bind_eq_ok.1 h
  obtain ⟨_, rfl⟩ := pure_eq_ok.1 h
  have hstart := openWriter_spec hopen
  exact moves_each (fun op _ => NdbOp.run_moves emitBlock_open addNode_open std op) _ _ _ hops
    ⟨hstart.sound, hstart.finished⟩

/-- A session is some operations and the close. -/
theorem session_opened {std : StdSort} {ops : List NdbOp} {fate : Nat → Bool} {w : NdbWriter}
    {u : Unit} (h : session std ops { fate } = .ok u w) :
    ∃ w₁, opened std ops { fate } = .ok () w₁ ∧ finish std w₁ = .ok u w := by
  obtain ⟨_, w₀, hopen, h⟩ := bind_eq_ok.1 h
  obtain ⟨_, w₁, hops, h⟩ := bind_eq_ok.1 h
  exact ⟨w₁, bind_eq_ok.2 ⟨_, w₀, hopen, bind_eq_ok.2 ⟨_, w₁, hops, rfl⟩⟩, h⟩

theorem session_spec {std : StdSort} {ops : List NdbOp} {fate : Nat → Bool} {w : NdbWriter}
    {u : Unit} (h : session std ops { fate } = .ok u w) :
    ∃ w₁ w₂ nbt bbt fate', Sound w₁ ∧ Finished std w₁ w₂ nbt bbt ∧
      w = { headerState w₂ with fate := fate', file := closedFile w₂ nbt bbt } := by
  obtain ⟨w₁, hopened, h⟩ := session_opened h
  have hw₁ := opened_open hopened
  obtain ⟨w₂, nbt, bbt, fate', hfinished, rfl⟩ := finish_spec h hw₁.sound hw₁.unfinished
  exact ⟨w₁, w₂, nbt, bbt, fate', hw₁.sound, hfinished, rfl⟩

/-! ## A stream that does not fail -/

/-- What a session on such a stream has after each operation. -/
structure Ready (w : NdbWriter) : Prop extends Open w where
  steady : Steady w
  tight : Tight w
  near : w.cursor ≤ kFirstDataPos + 32768 * w.bbt.length

theorem emitBlock_ready (data : Bytes) (internal : Bool) :
    Moves (Preserves Ready) (emitBlock data internal) := by
  intro w bid w' h hw
  have htakes := emitBlock_takes h hw.sound
  obtain ⟨_, _, _, ib, _, hbbt, _⟩ := emitBlock_spec h hw.sound
  refine ⟨emitBlock_open data internal w bid w' h hw.toOpen, htakes.steady hw.steady,
    htakes.tight hw.tight, ?_⟩
  rw [hbbt, List.length_append, List.length_singleton, Nat.mul_succ, ← Nat.add_assoc]
  exact htakes.near.trans (Nat.add_le_add_right hw.near _)

theorem addNode_ready (nid data sub parent : Nat) :
    Moves (Preserves Ready) (addNode nid data sub parent) := by
  intro w u w' h hw
  have hopen := addNode_open nid data sub parent w u w' h hw.toOpen
  cases modify_eq_ok.1 h
  exact ⟨hopen, hw.steady, hw.tight, hw.near⟩

theorem opened_ready {std : StdSort} {ops : List NdbOp} {w : NdbWriter} {u : Unit}
    (h : opened std ops { fate := fun _ => true } = .ok u w) : Ready w := by
  obtain ⟨_, w₀, hopen, h⟩ := bind_eq_ok.1 h
  obtain ⟨_, w₁, hops, h⟩ := bind_eq_ok.1 h
  obtain ⟨_, rfl⟩ := pure_eq_ok.1 h
  have hstart := openWriter_spec hopen
  refine moves_each (fun op _ => NdbOp.run_moves emitBlock_ready addNode_ready std op) _ _ _ hops
    ⟨⟨hstart.sound, hstart.finished⟩, ⟨hstart.good, fun k => congrFun hstart.fate k⟩,
      hstart.tight, ?_⟩
  rw [hstart.cursor]
  exact Nat.le_add_right _ _

theorem Ready.pages {w : NdbWriter} (h : Ready w) (hfew : w.bbt.length < 2 ^ 32) {n : Nat}
    (hn : n ≤ 2 ^ 40) : Pages n w := by
  have hnear := h.near
  have hfirst : kFirstDataPos = 0x4800 := rfl
  exact ⟨⟨h.sound, h.steady, by omega⟩, h.tight⟩

/-- On such a stream a session returns, however many operations it has. -/
theorem session_returns {std : StdSort} {ops : List NdbOp} {w : NdbWriter}
    (h : opened std ops { fate := fun _ => true } = .ok () w) (hbbt : w.bbt.length < 2 ^ 32)
    (hnbt : w.nbt.length < 2 ^ 32) :
    ∃ w', session std ops { fate := fun _ => true } = .ok () w' := by
  have hready := opened_ready h
  have hnbtPer : entriesPerPage kSizeNBTEntry = 15 := rfl
  have hbbtPer : entriesPerPage kSizeBBTEntry = 20 := rfl
  obtain ⟨_, w', hfinish, -⟩ := finish_returns std (hready.pages hbbt (by omega))
    hready.unfinished (by rw [hnbtPer]; omega) (by rw [hbbtPer]; omega)
  obtain ⟨_, w₀, hopen, h⟩ := bind_eq_ok.1 h
  obtain ⟨us, w₁, hops, h⟩ := bind_eq_ok.1 h
  obtain ⟨_, rfl⟩ := pure_eq_ok.1 h
  exact ⟨w', bind_eq_ok.2 ⟨(), w₀, hopen, bind_eq_ok.2 ⟨us, w₁, hops, hfinish⟩⟩⟩

/-! ## Layout -/

/-- The octets of the file a block or page takes: a block with its padding and trailer, a page. -/
def Written.extent (x : Written) : Nat × Nat :=
  match x.kind with
  | .inl cb => (x.ib, alignUp (cb + 16) kBlockAlign)
  | .inr _ => (x.ib, kPageSize)

theorem WellMade.extent {x : Written} (h : WellMade x) : x.extent = x.range := by
  obtain ⟨bid, ib, image, kind⟩ := x
  cases kind with
  | inl cb =>
    obtain ⟨data, rfl, _, himage⟩ := h
    simp only at himage
    simp only [Written.extent, Written.range, himage, blockImage_length]
  | inr ptype =>
    obtain ⟨body, hbody, himage⟩ := h
    simp only at himage
    simp only [Written.extent, Written.range, himage, pageImage_size hbody]

/-- What a reader relies on in the finished file. -/
structure LayoutSafe (w : NdbWriter) : Prop where
  /-- The blocks are those of the block tree. -/
  blocks : (w.history.filterMap Written.entry).Perm w.bbt
  apart : w.history.Pairwise fun x y => File.Apart x.extent y.extent
  block_aligned : ∀ x ∈ w.history, kBlockAlign ∣ x.ib
  page_aligned : ∀ x ∈ w.history, x.kind.isRight → kPageSize ∣ x.ib
  header : ∀ x ∈ w.history, File.Apart (0, kFirstDataPos) x.extent
  dlist : ∀ x ∈ w.history, File.Apart (kDListPos, kPageSize) x.extent
  amaps : ∀ x ∈ w.history, ∀ k, File.Apart (0x4400 + k * 0x3E000, kPageSize) x.extent
  pmaps : ∀ x ∈ w.history, ∀ k, File.Apart (0x4600 + k * 0x1F0000, kPageSize) x.extent
  one_span : ∀ x ∈ w.history, ∃ map, 0x4400 + map * 0x3E000 ≤ x.extent.1 ∧
    x.extent.1 + x.extent.2 ≤ 0x4400 + (map + 1) * 0x3E000
  inside : ∀ x ∈ w.history, x.extent.1 + x.extent.2 ≤ (readRoot w.file).ibFileEof
  kept : ∀ x ∈ w.history, w.file.read x.ib x.image.length = x.image
  verifies : ∀ x ∈ w.history, Verifies w.file x

/-! ## A session that returns -/

/-- A value in one block, one in two under a data tree, a subnode with the first, and a node with
both. -/
def fiveOps : List NdbOp :=
  [.writeData [7], .writeLeafChunk [8, 9], .writeLeafChunk [10], .assembleDataTree [8, 12] 3,
    .writeSubnodes [⟨0x8025, 4, 0⟩], .addNode 0x8044 18 22 0x122]

theorem fiveOps_opened :
    (finalState (opened .insertion fiveOps { fate := fun _ => true })).map
      (fun w => (w.bbt.map BbtEntry.bid, w.nbt.length)) = some ([4, 8, 12, 18, 22], 1) := by
  decide +kernel

theorem fiveOps_returns :
    ∃ w, session .insertion fiveOps { fate := fun _ => true } = .ok () w := by
  obtain ⟨w, hopened, hcounts⟩ := Option.map_eq_some_iff.1 fiveOps_opened
  obtain ⟨_, hrun⟩ := finalState_eq_some.1 hopened
  obtain ⟨hbids, hnodes⟩ := Prod.mk.inj hcounts
  have hblocks : w.bbt.length = 5 := by rw [← List.length_map, hbids]; rfl
  exact session_returns hrun (by omega) (by omega)

theorem layout_safe {std : StdSort} {ops : List NdbOp} {fate : Nat → Bool} {w : NdbWriter}
    {u : Unit} (h : session std ops { fate } = .ok u w) : LayoutSafe w := by
  obtain ⟨w₁, w₂, nbt, bbt, fate', _, hfin, rfl⟩ := session_spec h
  have hs := hfin.sound
  have hextent (x) (hx : x ∈ w₂.history) : x.extent = x.range := (hs.made x hx).extent
  have hclear (x) (hx : x ∈ w₂.history) {p : Nat} (hp : isReservedPage p = true) :
      File.Apart (p, kPageSize) x.extent := by
    rw [hextent x hx]
    exact (hs.placed x hx).1.free p hp
  have hkept (x) (hx : x ∈ w₂.history) := read_closedFile nbt bbt hs hx
  have hend := hfin.readRoot
  refine ⟨hs.blocks, ?_, fun x hx => (hs.placed x hx).1.aligned,
    fun x hx => (hs.placed x hx).1.page, ?_, fun x hx => hclear x hx rfl,
    fun x hx k => hclear x hx (isReservedPage_amapPage k),
    fun x hx k => hclear x hx (isReservedPage_pmapPage k), ?_, ?_, hkept, ?_⟩
  · refine hs.apart.imp_of_mem fun {x y} hx hy hxy => ?_
    rw [hextent x hx, hextent y hy]
    exact hxy
  · intro x hx
    rw [hextent x hx]
    exact .inl ((Nat.zero_add _).trans_le (hs.placed x hx).1.first)
  · intro x hx
    have hp := (hs.placed x hx).1
    have hspan := inSpan_of_unreserved hp.aligned hp.whole hp.some hp.first hp.free
    rw [hextent x hx]
    exact ⟨_, hspan.start, hspan.stop⟩
  · intro x hx
    rw [hextent x hx]
    show _ ≤ (readRoot (closedFile w₂ nbt bbt)).ibFileEof
    rw [hend]
    exact (hs.placed x hx).2.trans hs.mapped
  · intro x hx
    have hfresh := hs.fresh x hx
    have hindex := hs.index_lt
    exact verifies_of_read (hs.made x hx) (by omega) (hkept x hx)

theorem five_ops_layout_safe : ∃ w,
    session .insertion fiveOps { fate := fun _ => true } = .ok () w ∧ LayoutSafe w := by
  obtain ⟨w, h⟩ := fiveOps_returns
  exact ⟨w, h, layout_safe h⟩

end Pst
end Imap2Pst
