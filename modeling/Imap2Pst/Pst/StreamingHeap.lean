import Imap2Pst.Pst.Heap
import Imap2Pst.Pst.Room

/-!
# Pst.StreamingHeap

The streaming heap of `pst/streaming_table.cpp`. It hands a block to the block writer as soon as
it is full, keeps only the block in progress, and holds block 0 back until `finish` because its
header names the user root.

* `StreamingHeap` — the state; calls work on it together with the block writer.
* `Follows` — the streaming heap stands where the in-memory heap of the same allocations stands.
* `alloc_follows`, `finish_tree` — one allocation, and the data tree at the end.
-/

namespace Imap2Pst
namespace Pst

open CxxStd

structure StreamingHeap where
  clientSig : Byte
  userRoot : Nat := 0
  /-- Held back until `finish`. -/
  block0 : HeapBlock := {}
  /-- The block being filled, when `currentIndex > 0`. -/
  current : HeapBlock := {}
  currentIndex : Nat := 0
  /-- `leaves[0]` is reserved for block 0. -/
  leaves : List Nat := [0]
  totalBytes : Nat := 0
  finished : Bool := false

namespace StreamingHeap

def fits (s : StreamingHeap) (index len : Nat) : Bool :=
  (if index = 0 then s.block0 else s.current).fits index len

/-- Only the code of block 0 is filled in. -/
def fillLevels (freeBytes : Nat) : Bytes :=
  setFillNibble (List.replicate 4 0xFF) 0 (fillLevelCode freeBytes)

def render (s : StreamingHeap) (b : HeapBlock) (index : Nat) (last : Bool) : Bytes :=
  renderBlock s.clientSig s.userRoot fillLevels b index last

def flushCurrent (last : Bool) : Streaming StreamingHeap Unit := do
  let (_, s) ← get
  let blk := s.render s.current s.currentIndex last
  let bid ← onNdb (writeLeafChunk blk)
  modify fun (w, s) =>
    (w, { s with
      leaves := s.leaves ++ [bid]
      totalBytes := s.totalBytes + blk.length
      current := {} })

def alloc (data : Bytes) : Streaming StreamingHeap Nat := do
  if maxAllocSize < data.length then
    throw ⟨"heap allocation of " ++ toString data.length ++
      " bytes exceeds the HN block capacity"⟩
  let (w, s) ← get
  -- everything goes into block 0 until it is full, then into a rolling block
  if s.currentIndex = 0 ∧ s.fits 0 data.length ∧ s.block0.items.length < 2047 then
    let block0 := s.block0.push data
    set (w, { s with block0 })
    return makeHid 0 block0.items.length
  if s.currentIndex = 0 then set (w, { s with currentIndex := 1 })
  else if !s.fits s.currentIndex data.length || 2047 ≤ s.current.items.length then
    flushCurrent false
    modify fun (w, s) => (w, { s with currentIndex := s.currentIndex + 1 })
    if 0xFFFF < s.currentIndex + 1 then throw ⟨"heap grew beyond 65535 blocks"⟩
  let (w, s) ← get
  let current := s.current.push data
  set (w, { s with current })
  return makeHid s.currentIndex current.items.length

def setUserRoot (hid : Nat) (s : StreamingHeap) : StreamingHeap := { s with userRoot := hid }

/-- The end of `finish`: block 0, and the data tree over all blocks. -/
def finishFirst (onlyBlock0 : Bool) : Streaming StreamingHeap Nat := do
  let (_, s) ← get
  let blk0 := s.render s.block0 0 onlyBlock0
  let bid ← onNdb (writeLeafChunk blk0)
  let leaves := s.leaves.set 0 bid
  let totalBytes := s.totalBytes + blk0.length
  modify fun (w, s) => (w, { s with leaves, totalBytes })
  onNdb (assembleDataTree leaves totalBytes)

def finish : Streaming StreamingHeap Nat := do
  let (w, s) ← get
  if s.finished then throw ⟨"StreamingHeap::finish called twice"⟩
  set (w, { s with finished := true })
  if s.currentIndex = 0 then finishFirst true
  else
    flushCurrent true
    finishFirst false

/-! ## What one call does -/

/-- The state after a flush. -/
def flushed (s : StreamingHeap) (last : Bool) (bid : Nat) : StreamingHeap :=
  { s with
    leaves := s.leaves ++ [bid]
    totalBytes := s.totalBytes + (s.render s.current s.currentIndex last).length
    current := {} }

theorem flushCurrent_eq_ok {last : Bool} {w w' : NdbWriter} {s s' : StreamingHeap} {u : Unit} :
    flushCurrent last (w, s) = .ok u (w', s') ↔ ∃ bid,
      writeLeafChunk (s.render s.current s.currentIndex last) w = .ok bid w' ∧
        s.flushed last bid = s' := by
  unfold flushCurrent
  simp only [bind_eq_ok, get_eq_ok, modify_eq_ok]
  constructor
  · rintro ⟨_, _, ⟨rfl, rfl⟩, bid, _, hwrite, heq⟩
    obtain ⟨w₁, hrun, rfl⟩ := onto_eq_ok.1 hwrite
    cases heq
    exact ⟨bid, hrun, rfl⟩
  · rintro ⟨bid, hrun, rfl⟩
    exact ⟨_, _, ⟨rfl, rfl⟩, bid, (w', s), onto_eq_ok.2 ⟨w', hrun, rfl⟩, rfl⟩

/-- Whether block 0 takes the allocation. -/
def first (s : StreamingHeap) (len : Nat) : Prop :=
  s.currentIndex = 0 ∧ s.fits 0 len = true ∧ s.block0.items.length < 2047

instance (s : StreamingHeap) (len : Nat) : Decidable (s.first len) :=
  inferInstanceAs (Decidable (_ ∧ _))

/-- Whether the block in progress has to be flushed first. -/
def full (s : StreamingHeap) (len : Nat) : Bool :=
  !s.fits s.currentIndex len || 2047 ≤ s.current.items.length

/-- The allocation goes into the block in progress, of index `index`. -/
def pushed (s : StreamingHeap) (index : Nat) (data : Bytes) : StreamingHeap :=
  { s with currentIndex := index, current := s.current.push data }

/-- The ways an allocation can return. -/
inductive Allocates (data : Bytes) (w : NdbWriter) (s : StreamingHeap) :
    Nat → NdbWriter → StreamingHeap → Prop
  | first (h : s.first data.length) :
      Allocates data w s (makeHid 0 (s.block0.items.length + 1)) w
        { s with block0 := s.block0.push data }
  | second (h0 : s.currentIndex = 0) (h : ¬s.first data.length) :
      Allocates data w s (makeHid 1 (s.current.items.length + 1)) w (s.pushed 1 data)
  | current (h0 : s.currentIndex ≠ 0) (h : s.full data.length = false) :
      Allocates data w s (makeHid s.currentIndex (s.current.items.length + 1)) w
        (s.pushed s.currentIndex data)
  | next {bid : Nat} {w' : NdbWriter} (h0 : s.currentIndex ≠ 0) (h : s.full data.length = true)
      (hcount : s.currentIndex + 1 ≤ 0xFFFF)
      (hwrite : writeLeafChunk (s.render s.current s.currentIndex false) w = .ok bid w') :
      Allocates data w s (makeHid (s.currentIndex + 1) 1) w'
        ((s.flushed false bid).pushed (s.currentIndex + 1) data)

theorem items_push (b : HeapBlock) (data : Bytes) :
    (b.push data).items.length = b.items.length + 1 := List.length_append

theorem alloc_allocates {data : Bytes} {w w' : NdbWriter} {s s' : StreamingHeap} {hid : Nat}
    (h : alloc data (w, s) = .ok hid (w', s')) :
    data.length ≤ maxAllocSize ∧ Allocates data w s hid w' s' := by
  unfold alloc at h
  rcases ite_eq_ok.1 h with ⟨_, h⟩ | ⟨hlen, h⟩
  · cases h
  refine ⟨not_lt.1 hlen, ?_⟩
  replace h : (ite (s.first data.length) _ _ : Streaming StreamingHeap Nat) (w, s) = _ := h
  rcases ite_eq_ok.1 h with ⟨hfirst, h⟩ | ⟨hfirst, h⟩
  · cases h
    rw [items_push]
    exact .first hfirst
  rcases ite_eq_ok.1 h with ⟨h0, h⟩ | ⟨h0, h⟩
  · cases h
    rw [items_push]
    exact .second h0 hfirst
  replace h : (ite (s.full data.length = true) _ _ : Streaming StreamingHeap Nat) (w, s) = _ := h
  rcases ite_eq_ok.1 h with ⟨hfull, h⟩ | ⟨hfull, h⟩
  · obtain ⟨_, ⟨w₁, s₁⟩, hflush, h⟩ := bind_eq_ok.1 h
    obtain ⟨bid, hwrite, rfl⟩ := flushCurrent_eq_ok.1 hflush
    obtain ⟨_, _, hmod, h⟩ := bind_eq_ok.1 h
    cases modify_eq_ok.1 hmod
    rcases ite_eq_ok.1 h with ⟨_, h⟩ | ⟨hcount, h⟩
    · cases h
    · cases h
      exact .next h0 hfull (not_lt.1 hcount) hwrite
  · cases h
    rw [items_push]
    exact .current h0 (eq_false_of_ne_true hfull)

/-! ## In step with the in-memory heap -/

theorem fillLevels_length (freeBytes : Nat) : (fillLevels freeBytes).length = 4 :=
  HeapNode.setFillNibble_length _ _ _

/-- The header of a block after block 0 does not depend on the heap. -/
theorem renderBlock_later {index : Nat} (h : index ≠ 0) (clientSig clientSig' : Byte)
    (userRoot userRoot' : Nat) (fill fill' : Nat → Bytes) (b : HeapBlock) (last : Bool) :
    renderBlock clientSig userRoot fill b index last =
      renderBlock clientSig' userRoot' fill' b index last := by
  unfold renderBlock
  simp only [if_neg h]

def laterBlock (b : HeapBlock) (index : Nat) (last : Bool) : Bytes :=
  renderBlock 0 0 fillLevels b index last

/-- What has been flushed, and which block is in progress. -/
inductive Stage (w : NdbWriter) (s : StreamingHeap) (h : HeapNode) : Prop
  | first (hindex : s.currentIndex = 0) (hcurrent : s.current = {}) (hleaves : s.leaves = [0])
      (hbytes : s.totalBytes = 0) (hfull : h.full = []) (hlast : h.last = s.block0)
  | later (ps : List (Nat × HeapBlock)) (hindex : s.currentIndex = ps.length + 1)
      (hleaves : s.leaves = 0 :: ps.map Prod.fst) (hbytes : s.totalBytes = ps.length * kMaxBlockData)
      (hfull : h.full = s.block0 :: ps.map Prod.snd) (hlast : h.last = s.current)
      (hps : ∀ k p, ps[k]? = some p → Leaf w p.1 (laterBlock p.2 (k + 1) false))

/-- The streaming heap stands where the in-memory heap stands. -/
structure Follows (w : NdbWriter) (s : StreamingHeap) (h : HeapNode) : Prop where
  sig : s.clientSig = h.clientSig
  open_ : s.finished = false
  packed : Packed h.blocks
  stage : Stage w s h

theorem follows_new (w : NdbWriter) (clientSig : Byte) :
    Follows w { clientSig } { clientSig } :=
  ⟨rfl, rfl, HeapNode.packed_new clientSig, .first rfl rfl rfl rfl rfl rfl⟩

/-- Blocks written meanwhile by others do not matter. -/
theorem Follows.mono {w w' : NdbWriter} {s : StreamingHeap} {h : HeapNode} (hf : Follows w s h)
    (hg : Grows w w') : Follows w' s h := by
  refine ⟨hf.sig, hf.open_, hf.packed, ?_⟩
  cases hf.stage with
  | first hindex hcurrent hleaves hbytes hfull hlast =>
    exact .first hindex hcurrent hleaves hbytes hfull hlast
  | later ps hindex hleaves hbytes hfull hlast hps =>
    exact .later ps hindex hleaves hbytes hfull hlast fun k p hp => (hps k p hp).mono hg

theorem Follows.setUserRoot {w : NdbWriter} {s : StreamingHeap} {h : HeapNode} (hf : Follows w s h)
    (userRoot : Nat) : Follows w (s.setUserRoot userRoot) h := by
  refine ⟨hf.sig, hf.open_, hf.packed, ?_⟩
  cases hf.stage with
  | first hindex hcurrent hleaves hbytes hfull hlast =>
    exact .first hindex hcurrent hleaves hbytes hfull hlast
  | later ps hindex hleaves hbytes hfull hlast hps =>
    exact .later ps hindex hleaves hbytes hfull hlast hps

/-! ## One allocation -/

/-- Index and content of the block in progress. -/
structure Mirrors (s : StreamingHeap) (h : HeapNode) : Prop where
  index : s.currentIndex = h.full.length
  first : s.currentIndex = 0 → h.last = s.block0 ∧ s.current = {}
  later : s.currentIndex ≠ 0 → h.last = s.current

theorem Follows.mirrors {w : NdbWriter} {s : StreamingHeap} {h : HeapNode} (hf : Follows w s h) :
    Mirrors s h := by
  cases hf.stage with
  | first hindex hcurrent hleaves hbytes hfull hlast =>
    exact ⟨by rw [hindex, hfull]; rfl, fun _ => ⟨hlast, hcurrent⟩, fun h0 => absurd hindex h0⟩
  | later ps hindex hleaves hbytes hfull hlast hps =>
    refine ⟨?_, fun h0 => ?_, fun _ => hlast⟩
    · rw [hfull, hindex, List.length_cons, List.length_map]
    · omega

theorem Mirrors.full_eq_nil {s : StreamingHeap} {h : HeapNode} (hm : Mirrors s h)
    (h0 : s.currentIndex = 0) : h.full = [] := List.eq_nil_of_length_eq_zero (hm.index ▸ h0)

/-- Block 0 takes what the in-memory heap puts into its first block. -/
theorem Mirrors.first_iff {s : StreamingHeap} {h : HeapNode} {len : Nat} (hm : Mirrors s h)
    (h0 : s.currentIndex = 0) : s.first len ↔ ¬h.opens len = true := by
  simp only [StreamingHeap.first, fits, HeapNode.opens, hm.full_eq_nil h0, (hm.first h0).1, h0, if_true,
    true_and, List.length_nil, Bool.or_eq_true, Bool.not_eq_true', decide_eq_true_eq, not_or,
    Bool.not_eq_false, not_le]

theorem Mirrors.full_eq {s : StreamingHeap} {h : HeapNode} {len : Nat} (hm : Mirrors s h)
    (h0 : s.currentIndex ≠ 0) : s.full len = h.opens len := by
  rw [HeapNode.opens, ← hm.index, hm.later h0, full, fits, if_neg h0]

/-- Both heaps return the same HID. -/
theorem Allocates.mirrors {data : Bytes} {w w' : NdbWriter} {s s' : StreamingHeap} {h : HeapNode}
    {hid : Nat} (hall : Allocates data w s hid w' s') (hm : Mirrors s h) :
    (h.opens data.length = true → h.blocks.length ≤ 0xFFFF) ∧ (h.add data).lastHid = hid ∧
      Mirrors s' (h.add data) := by
  cases hall with
  | first hfirst =>
    have h0 := hfirst.1
    have hopen := (hm.first_iff h0).1 hfirst
    rw [HeapNode.add_of_fits hopen]
    refine ⟨fun ho => absurd ho hopen, ?_, ⟨hm.index, fun _ => ⟨?_, (hm.first h0).2⟩,
      fun hne => absurd h0 hne⟩⟩
    · rw [HeapNode.lastHid, hm.full_eq_nil h0, (hm.first h0).1, items_push]
      rfl
    · exact congrArg (HeapBlock.push · data) (hm.first h0).1
  | second h0 hfirst =>
    have hopen : h.opens data.length = true :=
      by_contra fun hno => hfirst ((hm.first_iff h0).2 hno)
    have hblocks : h.blocks = [s.block0] := by
      rw [HeapNode.blocks, hm.full_eq_nil h0, (hm.first h0).1]
      rfl
    rw [HeapNode.add_of_opens hopen, hblocks]
    refine ⟨fun _ => (by decide : 1 ≤ 0xFFFF), ?_, ⟨rfl, fun hz => absurd hz one_ne_zero,
      fun _ => ?_⟩⟩
    · rw [HeapNode.lastHid, items_push, (hm.first h0).2]
      rfl
    · exact congrArg (HeapBlock.push · data) (hm.first h0).2.symm
  | current h0 hfull =>
    have hopen : ¬h.opens data.length = true := by
      rw [← hm.full_eq h0, hfull]
      decide
    rw [HeapNode.add_of_fits hopen]
    refine ⟨fun ho => absurd ho hopen, ?_, ⟨hm.index, fun hz => absurd hz h0, fun _ => ?_⟩⟩
    · rw [HeapNode.lastHid, ← hm.index, hm.later h0, items_push]
    · exact congrArg (HeapBlock.push · data) (hm.later h0)
  | next h0 hfull hcount hwrite =>
    have hopen : h.opens data.length = true := by rw [← hm.full_eq h0, hfull]
    have hlength : h.blocks.length = s.currentIndex + 1 := by
      rw [HeapNode.blocks, List.length_append, hm.index]
      rfl
    rw [HeapNode.add_of_opens hopen]
    refine ⟨fun _ => hlength.trans_le hcount, ?_, ⟨hlength.symm, fun hz => absurd hz ?_,
      fun _ => rfl⟩⟩
    · rw [HeapNode.lastHid, hlength]
      rfl
    · exact Nat.succ_ne_zero s.currentIndex

/-- The block in progress is written and the next one begun. -/
theorem flush_follows {bid : Nat} {w w' : NdbWriter} {s : StreamingHeap} {h : HeapNode}
    (h0 : s.currentIndex ≠ 0)
    (hwrite : writeLeafChunk (s.render s.current s.currentIndex false) w = .ok bid w')
    (hs : Sound w) (hf : Follows w s h) :
    Grows w w' ∧ Follows w' { s.flushed false bid with currentIndex := s.currentIndex + 1 }
      { h with full := h.blocks, last := {} } := by
  have hroomy : s.current.Roomy s.currentIndex :=
    hf.packed _ _ (HeapNode.getElem?_blocks.2
      (.inr ⟨hf.mirrors.index, hf.mirrors.later h0⟩))
  obtain ⟨hg, hleaf⟩ := writeLeafChunk_leaf hwrite hs
  refine ⟨hg, hf.sig, hf.open_, HeapNode.packed_opened hf.packed, ?_⟩
  cases hf.stage with
  | first hindex => exact absurd hindex h0
  | later ps hindex hleaves hbytes hfull hlast hps =>
    refine .later (ps ++ [(bid, s.current)]) ?_ ?_ ?_ ?_ rfl ?_
    · show s.currentIndex + 1 = _
      rw [hindex, List.length_append]
      rfl
    · show s.leaves ++ [bid] = _
      rw [hleaves, List.map_append]
      rfl
    · show s.totalBytes + _ = _
      rw [hbytes, render, renderBlock_whole hroomy fillLevels_length, List.length_append,
        Nat.add_mul]
      simp
    · show h.full ++ [h.last] = s.block0 :: _
      rw [hfull, hlast, List.map_append]
      rfl
    · intro k p hp
      rcases Nat.lt_trichotomy k ps.length with hk | rfl | hk
      · rw [List.getElem?_append_left hk] at hp
        exact (hps k p hp).mono hg
      · rw [List.getElem?_concat_length] at hp
        cases hp
        rw [render, renderBlock_later h0 _ 0 _ 0 _ fillLevels, hindex] at hleaf
        exact hleaf
      · rw [List.getElem?_eq_none (by simp; omega)] at hp
        cases hp

/-- One allocation: both heaps return the same HID and stay in step. -/
theorem alloc_follows {data : Bytes} {w w' : NdbWriter} {s s' : StreamingHeap} {h : HeapNode}
    {hid : Nat} (hrun : alloc data (w, s) = .ok hid (w', s')) (hs : Sound w) (hf : Follows w s h) :
    Grows w w' ∧ HeapNode.alloc data h = .ok hid (h.add data) ∧ Follows w' s' (h.add data) := by
  obtain ⟨hlen, hall⟩ := alloc_allocates hrun
  have hpacked := HeapNode.add_packed hf.packed hlen
  have hm := hf.mirrors
  obtain ⟨hcount, hhid, hm'⟩ := hall.mirrors hm
  have halloc := HeapNode.alloc_eq_ok.2 ⟨hlen, hcount, rfl, hhid⟩
  have hsig : s.clientSig = (h.add data).clientSig := hf.sig.trans (HeapNode.add_fixed h data).1.symm
  have hstage := hf.stage
  cases hall with
  | first hfirst =>
    have hadd := HeapNode.add_of_fits ((hm.first_iff hfirst.1).1 hfirst)
    refine ⟨Grows.refl hs, halloc, hsig, hf.open_, hpacked, ?_⟩
    cases hstage with
    | later ps hindex => exact absurd hfirst.1 (by omega)
    | first hindex hcurrent hleaves hbytes hfull hlast =>
      exact .first hindex hcurrent hleaves hbytes (by rw [hadd]; exact hfull) (hm'.first hindex).1
  | second h0 hfirst =>
    have hopen : h.opens data.length = true :=
      by_contra fun hno => hfirst ((hm.first_iff h0).2 hno)
    refine ⟨Grows.refl hs, halloc, hsig, hf.open_, hpacked, ?_⟩
    cases hstage with
    | later ps hindex => omega
    | first hindex hcurrent hleaves hbytes hfull hlast =>
      refine .later [] rfl hleaves (hbytes.trans (Nat.zero_mul _).symm) ?_ (hm'.later one_ne_zero)
        (by simp)
      rw [HeapNode.add_of_opens hopen, HeapNode.blocks, hfull, hlast]
      rfl
  | current h0 hfits =>
    have hopen : ¬h.opens data.length = true := by
      rw [← hm.full_eq h0, hfits]
      decide
    refine ⟨Grows.refl hs, halloc, hsig, hf.open_, hpacked, ?_⟩
    cases hstage with
    | first hindex => exact absurd hindex h0
    | later ps hindex hleaves hbytes hfull hlast hps =>
      refine .later ps hindex hleaves hbytes ?_ (hm'.later h0) hps
      rw [HeapNode.add_of_fits hopen]
      exact hfull
  | next h0 hfull hfew hwrite =>
    have hopen : h.opens data.length = true := by rw [← hm.full_eq h0, hfull]
    obtain ⟨hg, hf'⟩ := flush_follows h0 hwrite hs hf
    refine ⟨hg, halloc, hsig, hf.open_, hpacked, ?_⟩
    cases hf'.stage with
    | first hindex => exact absurd hindex (Nat.succ_ne_zero s.currentIndex)
    | later ps hindex hleaves hbytes hblocks hlast hps =>
      refine .later ps hindex hleaves hbytes ?_ (hm'.later (Nat.succ_ne_zero s.currentIndex)) hps
      rw [HeapNode.add_of_opens hopen]
      exact hblocks

/-- The blocks as they are written, once `finish` knows the user root. -/
def images (s : StreamingHeap) (h : HeapNode) : List Bytes :=
  renderAll s.clientSig s.userRoot fillLevels h.blocks

theorem finishFirst_spec {onlyBlock0 : Bool} {w w' : NdbWriter} {s s' : StreamingHeap} {bid : Nat}
    (h : finishFirst onlyBlock0 (w, s) = .ok bid (w', s')) :
    ∃ bid0 w₁ totalBytes, writeLeafChunk (s.render s.block0 0 onlyBlock0) w = .ok bid0 w₁ ∧
      assembleDataTree (s.leaves.set 0 bid0) totalBytes w₁ = .ok bid w' := by
  unfold finishFirst at h
  obtain ⟨_, _, hget, h⟩ := bind_eq_ok.1 h
  cases hget
  obtain ⟨bid0, _, hwrite, h⟩ := bind_eq_ok.1 h
  obtain ⟨w₁, hrun, rfl⟩ := onto_eq_ok.1 hwrite
  obtain ⟨_, _, hmod, h⟩ := bind_eq_ok.1 h
  cases modify_eq_ok.1 hmod
  obtain ⟨w₂, htree, heq⟩ := onto_eq_ok.1 h
  cases heq
  exact ⟨bid0, w₁, _, hrun, htree⟩

/-- The data tree of the finished heap reads as the blocks of the heap. -/
theorem finish_tree {w w' : NdbWriter} {s s' : StreamingHeap} {h : HeapNode} {bid : Nat}
    (hrun : finish (w, s) = .ok bid (w', s')) (hs : Sound w) (hf : Follows w s h) :
    Grows w w' ∧ Tree w' bid (s.images h) := by
  unfold finish at hrun
  obtain ⟨_, _, hget, hrun⟩ := bind_eq_ok.1 hrun
  cases hget
  rcases ite_eq_ok.1 hrun with ⟨_, hrun⟩ | ⟨_, hrun⟩
  · obtain ⟨_, _, hrun, _⟩ := bind_eq_ok.1 hrun
    cases hrun
  obtain ⟨_, _, hset, hrun⟩ := bind_eq_ok.1 hrun
  cases set_eq_ok.1 hset
  have hlen : (s.images h).length = h.full.length + 1 := by
    simp [images, renderAll, HeapNode.blocks]
  have himage {k : Nat} {b : HeapBlock} (hb : h.blocks[k]? = some b) : (s.images h)[k]? =
      some (s.render b k (k + 1 = h.full.length + 1)) := by
    rw [images, getElem?_renderAll hb, HeapNode.blocks, List.length_append]
    rfl
  rcases ite_eq_ok.1 hrun with ⟨h0, hrun⟩ | ⟨h0, hrun⟩
  · obtain ⟨bid0, w₁, n, hwrite, htree⟩ := finishFirst_spec hrun
    dsimp only at hwrite htree
    obtain ⟨hg, hleaf⟩ := writeLeafChunk_leaf hwrite hs
    cases hf.stage with
    | later ps hindex => omega
    | first hindex hcurrent hleaves hbytes hfull hlast =>
      rw [hleaves] at htree
      rw [hfull] at hlen
      obtain ⟨hg', hread⟩ := assembleDataTree_reads htree hg.sound (by simp) hlen.symm
        (by
          intro k b p hb hp
          cases k with
          | succ k => cases hb
          | zero =>
            cases hb
            rw [himage (HeapNode.getElem?_blocks.2 (.inr ⟨by rw [hfull]; rfl, hlast⟩)), hfull] at hp
            cases hp
            exact hleaf)
      exact ⟨hg.trans hg', hread⟩
  · obtain ⟨_, ⟨w₀, s₀⟩, hflush, hrun⟩ := bind_eq_ok.1 hrun
    obtain ⟨bidL, hwriteL, rfl⟩ := flushCurrent_eq_ok.1 hflush
    obtain ⟨bid0, w₁, n, hwrite, htree⟩ := finishFirst_spec hrun
    obtain ⟨hgL, hleafL⟩ := writeLeafChunk_leaf hwriteL hs
    obtain ⟨hg, hleaf⟩ := writeLeafChunk_leaf hwrite hgL.sound
    cases hf.stage with
    | first hindex => exact absurd hindex h0
    | later ps hindex hleaves hbytes hfull hlast hps =>
      have hcount : h.full.length = ps.length + 1 := by rw [hfull]; simp
      have hbids : (s.leaves ++ [bidL]).set 0 bid0 = bid0 :: ps.map Prod.fst ++ [bidL] := by
        rw [hleaves]
        rfl
      rw [flushed, hbids] at htree
      obtain ⟨hg', hread⟩ := assembleDataTree_reads htree hg.sound (by simp)
        (by rw [hlen, hcount]; simp)
        (by
          intro k b p hb hp
          rcases Nat.lt_trichotomy k (ps.length + 1) with hk | rfl | hk
          · rw [List.getElem?_append_left (by simpa using hk)] at hb
            have hlast' : decide (k + 1 = h.full.length + 1) = false := by simp; omega
            cases k with
            | zero =>
              cases hb
              have hblock : h.blocks[0]? = some s.block0 := by rw [HeapNode.blocks, hfull]; rfl
              rw [himage hblock, hlast'] at hp
              cases hp
              exact hleaf
            | succ k =>
              rw [List.getElem?_cons_succ, List.getElem?_map, Option.map_eq_some_iff] at hb
              obtain ⟨q, hq, rfl⟩ := hb
              have hblock : h.blocks[k + 1]? = some q.2 := by
                refine HeapNode.getElem?_blocks.2 (.inl ?_)
                rw [hfull, List.getElem?_cons_succ, List.getElem?_map, hq]
                rfl
              rw [himage hblock, hlast', render, renderBlock_later (Nat.succ_ne_zero k) _ 0 _ 0 _
                fillLevels] at hp
              cases hp
              exact ((hps k q hq).mono hgL).mono hg
          · have hblock : h.blocks[ps.length + 1]? = some s.current :=
              HeapNode.getElem?_blocks.2 (.inr ⟨hcount.symm, hlast⟩)
            rw [himage hblock, hcount, decide_eq_true rfl] at hp
            rw [List.getElem?_append_right (by simp)] at hb
            simp only [List.length_cons, List.length_map, Nat.sub_self, List.getElem?_cons_zero,
              Option.some.injEq] at hb
            cases hp
            rw [← hb, ← hindex]
            exact hleafL.mono hg
          · rw [List.getElem?_eq_none (by simp; omega)] at hb
            cases hb)
      exact ⟨(hgL.trans hg).trans hg', hread⟩

/-- A run of allocations. -/
theorem allocs_follow {items : List Bytes} {w w' : NdbWriter} {s s' : StreamingHeap}
    {h : HeapNode} {hids : List Nat} (hrun : each alloc items (w, s) = .ok hids (w', s'))
    (hs : Sound w) (hf : Follows w s h) :
    Grows w w' ∧ each HeapNode.alloc items h = .ok hids (h.addAll items) ∧
      Follows w' s' (h.addAll items) := by
  induction items generalizing w s h hids with
  | nil =>
    cases hrun
    exact ⟨Grows.refl hs, rfl, hf⟩
  | cons item items ih =>
    obtain ⟨hid, ⟨w₁, s₁⟩, hids', hone, hrest, rfl⟩ := each_cons_eq_ok.1 hrun
    obtain ⟨hg, halloc, hf₁⟩ := alloc_follows hone hs hf
    obtain ⟨hg', hall, hf'⟩ := ih hrest hg.sound hf₁
    exact ⟨hg.trans hg', each_cons_eq_ok.2 ⟨hid, _, hids', halloc, hall, rfl⟩, hf'⟩

/-! ## Calls that return -/

theorem render_size (s : StreamingHeap) {b : HeapBlock} {index : Nat} (last : Bool)
    (h : b.Roomy index) : (s.render b index last).length ≤ kMaxBlockData :=
  (renderBlock_reads h fillLevels_length).size

theorem flushCurrent_returns {n : Nat} (last : Bool) {w : NdbWriter} {s : StreamingHeap}
    (h : Room (n + 1) w) (hroomy : s.current.Roomy s.currentIndex) :
    Returns (flushCurrent last) (w, s) fun _ t => Room n t.1 ∧ ∃ bid, t.2 = s.flushed last bid := by
  obtain ⟨bid, w', hrun, hroom⟩ := @emitBlock_returns _ _ false _ h
    (s.render_size last hroomy)
  exact ⟨(), (w', _), flushCurrent_eq_ok.2 ⟨bid, hrun, rfl⟩, hroom, bid, rfl⟩

/-- An allocation returns as long as 65536 blocks do. -/
theorem alloc_returns {n : Nat} {data : Bytes} {w : NdbWriter} {s : StreamingHeap} {h : HeapNode}
    (hroom : Room (n + 1) w) (hf : Follows w s h) (hlen : data.length ≤ maxAllocSize)
    (hcount : (h.add data).blocks.length ≤ 2 ^ 16) :
    Returns (alloc data) (w, s) fun _ t => Room n t.1 := by
  have hkeep : Room n w := hroom.le (Nat.le_succ n)
  unfold alloc
  rw [if_neg (not_lt.2 hlen)]
  refine returns_bind ⟨(w, s), (w, s), rfl, ?_⟩
  show Returns (ite (s.first data.length) _ _ : Streaming StreamingHeap Nat) _ _
  by_cases hfirst : s.first data.length
  · rw [if_pos hfirst]
    exact ⟨_, _, rfl, hkeep⟩
  rw [if_neg hfirst]
  by_cases h0 : s.currentIndex = 0
  · rw [if_pos h0]
    exact ⟨_, _, rfl, hkeep⟩
  rw [if_neg h0]
  show Returns (ite (s.full data.length = true) _ _ : Streaming StreamingHeap Nat) _ _
  by_cases hfull : s.full data.length = true
  · rw [if_pos hfull]
    have hm := hf.mirrors
    have hopen : h.opens data.length = true := hm.full_eq h0 ▸ hfull
    have hadd := HeapNode.add_opens_length hopen
    have hfew : s.currentIndex + 1 ≤ 0xFFFF := by
      rw [HeapNode.blocks, HeapNode.blocks, List.length_append, List.length_append, ← hm.index]
        at hadd
      rw [HeapNode.blocks, List.length_append] at hcount
      simp only [List.length_singleton] at hadd hcount
      omega
    have hroomy : s.current.Roomy s.currentIndex :=
      hf.packed _ _ (HeapNode.getElem?_blocks.2 (.inr ⟨hm.index, hm.later h0⟩))
    refine returns_bind ((flushCurrent_returns false hroom hroomy).mono ?_)
    rintro _ ⟨w₁, s₁⟩ ⟨hroom₁, bid, rfl⟩
    refine returns_bind ⟨(), _, rfl, ?_⟩
    dsimp only
    rw [if_neg (not_lt.2 hfew)]
    exact ⟨_, _, rfl, hroom₁⟩
  · rw [if_neg hfull]
    exact ⟨_, _, rfl, hkeep⟩

theorem allocs_return {n : Nat} {items : List Bytes} {w : NdbWriter} {s : StreamingHeap}
    {h : HeapNode} (hroom : Room (items.length + n) w) (hf : Follows w s h)
    (hlen : ∀ item ∈ items, item.length ≤ maxAllocSize)
    (hcount : (h.addAll items).blocks.length ≤ 2 ^ 16) :
    Returns (each alloc items) (w, s) fun _ t => Room n t.1 := by
  induction items generalizing w s h with
  | nil => exact ⟨[], _, rfl, by simpa using hroom⟩
  | cons item items ih =>
    have hroom' : Room (items.length + n + 1) w := hroom.le (by rw [List.length_cons]; omega)
    have hone := (HeapNode.addAll_blocks_length_le (h.add item) items).trans hcount
    obtain ⟨hid, ⟨w₁, s₁⟩, hrun, hroom₁⟩ :=
      alloc_returns hroom' hf (hlen item List.mem_cons_self) hone
    obtain ⟨_, _, hf₁⟩ := alloc_follows hrun hroom.sound hf
    obtain ⟨hids, t, hrest, hroom₂⟩ := ih hroom₁ hf₁
      (fun i hi => hlen i (List.mem_cons_of_mem _ hi)) hcount
    exact ⟨_, t, each_cons_eq_ok.2 ⟨hid, _, hids, hrun, hrest, rfl⟩, hroom₂⟩

theorem finishFirst_returns {n : Nat} {onlyBlock0 : Bool} {w : NdbWriter} {s : StreamingHeap}
    (hroom : Room (s.leaves.length + n + 3) w) (hroomy : s.block0.Roomy 0)
    (hbytes : s.totalBytes + kMaxBlockData ≤ 0xFFFFFFFF)
    (hcount : s.leaves.length ≤ kXBlockFanout * kXBlockFanout) :
    Returns (finishFirst onlyBlock0) (w, s) fun _ t => Room n t.1 := by
  have hsize := s.render_size onlyBlock0 hroomy
  unfold finishFirst
  refine returns_bind ⟨(w, s), (w, s), rfl, ?_⟩
  refine returns_bind ((returns_onto (emitBlock_returns (n := s.leaves.length + n + 2)
    hroom hsize)).mono ?_)
  rintro bid _ ⟨w₁, hroom₁, rfl⟩
  refine returns_bind ⟨(), _, rfl, ?_⟩
  refine (returns_onto (assembleDataTree_returns (n := n) ?_ ?_ ?_)).mono ?_
  · rw [List.length_set]
    exact hroom₁
  · omega
  · rw [List.length_set]
    exact hcount
  · rintro root _ ⟨w₂, hroom₂, rfl⟩
    exact hroom₂

theorem finish_returns {n : Nat} {w : NdbWriter} {s : StreamingHeap} {h : HeapNode}
    (hroom : Room (h.blocks.length + n + 4) w) (hf : Follows w s h)
    (hcount : h.blocks.length ≤ 2 ^ 16) : Returns finish (w, s) fun _ t => Room n t.1 := by
  have hsquare : kXBlockFanout * kXBlockFanout = 1042441 := rfl
  have hmax : kMaxBlockData = 8176 := rfl
  unfold finish
  refine returns_bind ⟨(w, s), (w, s), rfl, ?_⟩
  dsimp only
  rw [if_neg (by rw [hf.open_]; decide)]
  refine returns_bind ⟨(), _, rfl, ?_⟩
  cases hf.stage with
  | first hindex hcurrent hleaves hbytes hfull hlast =>
    have hroomy : s.block0.Roomy 0 :=
      hf.packed 0 _ (HeapNode.getElem?_blocks.2 (.inr ⟨by rw [hfull]; rfl, hlast⟩))
    rw [if_pos hindex]
    refine finishFirst_returns (hroom.le ?_) hroomy ?_ ?_
    · show s.leaves.length + n + 3 ≤ _
      rw [hleaves]
      simp
      omega
    · show s.totalBytes + _ ≤ _
      omega
    · show s.leaves.length ≤ _
      rw [hleaves, hsquare]
      decide
  | later ps hindex hleaves hbytes hfull hlast hps =>
    have hlength : h.blocks.length = ps.length + 2 := by
      rw [HeapNode.blocks, hfull]
      simp
    have hroomy : s.block0.Roomy 0 := by
      refine hf.packed 0 _ (HeapNode.getElem?_blocks.2 (.inl ?_))
      rw [hfull]
      rfl
    have hcurrent : s.current.Roomy s.currentIndex := by
      refine hf.packed _ _ (HeapNode.getElem?_blocks.2 (.inr ⟨?_, hlast⟩))
      rw [hfull, hindex]
      simp
    have hlast' := s.render_size true hcurrent
    rw [if_neg (by show s.currentIndex ≠ 0; omega)]
    obtain ⟨_, ⟨w₁, s₁⟩, hrun, hroom₁, bid, rfl⟩ :=
      flushCurrent_returns (s := { s with finished := true }) (n := h.blocks.length + n + 3) true
        hroom hcurrent
    refine returns_bind ⟨_, _, hrun, finishFirst_returns (hroom₁.le ?_) hroomy ?_ ?_⟩
    · show (s.leaves ++ [bid]).length + n + 3 ≤ _
      rw [hleaves]
      simp
      omega
    · show s.totalBytes + (s.render s.current s.currentIndex true).length + _ ≤ _
      rw [hmax] at hbytes hlast' ⊢
      omega
    · show (s.leaves ++ [bid]).length ≤ _
      rw [hleaves, hsquare]
      simp
      omega

end StreamingHeap

/-! ## The two heaps -/

/-- The calls of a user of the in-memory heap. -/
def HeapNode.store (items : List Bytes) (userRoot : Nat) :
    EStateM PstError HeapNode (List Nat × Bytes) := do
  let hids ← each alloc items
  modify (setUserRoot userRoot)
  let h ← get
  return (hids, h.serialize)

/-- The calls of a user of the streaming heap. -/
def StreamingHeap.store (items : List Bytes) (userRoot : Nat) :
    Streaming StreamingHeap (List Nat × Nat) := do
  let hids ← each alloc items
  modify fun (w, s) => (w, s.setUserRoot userRoot)
  let bid ← finish
  return (hids, bid)

/-- The same blocks, but for the four octets of `rgbFillLevel` at offset 8 of block 0. -/
structure SameButFill (a b : List Bytes) : Prop where
  tail : a.tail = b.tail
  head : ∃ x y, a.head? = some x ∧ b.head? = some y ∧ x.length = y.length ∧
    x.take 8 = y.take 8 ∧ x.drop 12 = y.drop 12

theorem renderAll_sameButFill {clientSig : Byte} {userRoot : Nat} {fill fill' : Nat → Bytes}
    {blocks : List HeapBlock} (hp : Packed blocks) (hsome : blocks ≠ [])
    (hfill : ∀ n, (fill n).length = 4) (hfill' : ∀ n, (fill' n).length = 4) :
    SameButFill (renderAll clientSig userRoot fill blocks)
      (renderAll clientSig userRoot fill' blocks) := by
  constructor
  · apply List.ext_getElem?
    intro i
    rw [List.getElem?_tail, List.getElem?_tail]
    cases hb : blocks[i + 1]? with
    | none =>
      have hlen := List.getElem?_eq_none_iff.1 hb
      rw [List.getElem?_eq_none (by simpa [renderAll] using hlen),
        List.getElem?_eq_none (by simpa [renderAll] using hlen)]
    | some b =>
      rw [getElem?_renderAll hb, getElem?_renderAll hb]
      exact congrArg some (StreamingHeap.renderBlock_later (Nat.succ_ne_zero i) _ _ _ _ _ _ _ _)
  · obtain ⟨b, rest, rfl⟩ := List.exists_cons_of_ne_nil hsome
    have hb : (b :: rest)[0]? = some b := rfl
    have hroomy := hp 0 b hb
    have hfront (m : Nat) : (hnHdrFront clientSig userRoot m).length = 8 := by simp [hnHdrFront]
    refine ⟨_, _, List.head?_eq_getElem?.trans (getElem?_renderAll hb),
      List.head?_eq_getElem?.trans (getElem?_renderAll hb), ?_, ?_, ?_⟩
    · rw [renderBlock_length hroomy hfill, renderBlock_length hroomy hfill']
    · rw [renderBlock_first _ _ _ hroomy hfill, renderBlock_first _ _ _ hroomy hfill',
        List.take_left' (hfront _), List.take_left' (hfront _)]
    · rw [renderBlock_first _ _ _ hroomy hfill, renderBlock_first _ _ _ hroomy hfill',
        show 12 = 8 + 4 from rfl, ← List.drop_drop, ← List.drop_drop, List.drop_left' (hfront _),
        List.drop_left' (hfront _), List.drop_left' (hfill _), List.drop_left' (hfill' _)]

/-- What a reader of a heap relies on: the blocks hold the allocations in order, each block as
`BlockReads` and `whole` say, and every HID leads to what was allocated under it. -/
structure HeapReads (images items : List Bytes) (hids : List Nat) : Prop where
  length : hids.length = items.length
  blocks : ∃ blocks : List HeapBlock, blocks.flatMap (·.items) = items ∧ HeapImage images blocks
  item : ∀ (k hid : Nat) (item : Bytes), hids[k]? = some hid → items[k]? = some item →
    heapItem images hid = some item

theorem heapReads_of_image {clientSig : Byte} {items images : List Bytes}
    (hlen : ∀ item ∈ items, item.length ≤ maxAllocSize)
    (hcount : (HeapNode.addAll { clientSig } items).blocks.length ≤ 2 ^ 16)
    (himage : HeapImage images (HeapNode.addAll { clientSig } items).blocks) :
    HeapReads images items (HeapNode.hidsOf { clientSig } items) := by
  have hpacked := HeapNode.addAll_packed (HeapNode.packed_new clientSig) hlen
  refine ⟨HeapNode.hidsOf_length _ items, ⟨_, HeapNode.addAll_items _ items, himage⟩,
    fun k hid item hhid hitem => ?_⟩
  exact himage.item hpacked hcount (HeapNode.hasItem_hidsOf hhid hitem)

/-- What the streaming heap makes of `items`, next to the in-memory heap's `hids` and `stream`. -/
structure SameHeap (clientSig : Byte) (userRoot : Nat) (items : List Bytes) (w : NdbWriter)
    (hids : List Nat) (stream : Bytes) : Prop where
  /-- Every call returns the same HID. -/
  same : ∀ hids' t, each StreamingHeap.alloc items (w, { clientSig }) = .ok hids' t → hids' = hids
  /-- The data tree, read back from the file, has the same blocks. -/
  tree : ∀ hids' bid t, StreamingHeap.store items userRoot (w, { clientSig }) =
    .ok (hids', bid) t → ∃ leaves, readTree t.1.store bid = some leaves ∧
      SameButFill leaves (pieces kMaxBlockData stream) ∧ HeapReads leaves items hids
  /-- Nothing but the stream stops it. -/
  returns : Steady w → w.cursor ≤ 2 ^ 61 →
    ∃ hids' bid t, StreamingHeap.store items userRoot (w, { clientSig }) = .ok (hids', bid) t

theorem packed_items_length_le {blocks : List HeapBlock} (hp : Packed blocks) :
    (blocks.flatMap (·.items)).length ≤ 2047 * blocks.length := by
  have hslots (b : HeapBlock) (hb : b ∈ blocks) : b.items.length ≤ 2047 := by
    obtain ⟨i, hi, rfl⟩ := List.mem_iff_getElem.1 hb
    exact (hp i _ (List.getElem?_eq_getElem hi)).slots
  clear hp
  induction blocks with
  | nil => exact le_rfl
  | cons b blocks ih =>
    have hone := hslots b List.mem_cons_self
    have hrest := ih fun b' hb' => hslots b' (List.mem_cons_of_mem _ hb')
    rw [List.flatMap_cons, List.length_append, List.length_cons]
    omega

theorem streaming_heap_is_in_memory_heap {clientSig : Byte} {userRoot : Nat} {items : List Bytes}
    {w : NdbWriter} (hlen : ∀ item ∈ items, item.length ≤ maxAllocSize)
    (hcount : (HeapNode.addAll { clientSig } items).blocks.length ≤ 65536) (hs : Sound w) :
    ∃ hids stream h, HeapNode.store items userRoot { clientSig } = .ok (hids, stream) h ∧
      HeapReads (pieces kMaxBlockData stream) items hids ∧
      SameHeap clientSig userRoot items w hids stream := by
  let h := HeapNode.addAll { clientSig } items
  have hpacked : Packed h.blocks := HeapNode.addAll_packed (HeapNode.packed_new clientSig) hlen
  have hsig : h.clientSig = clientSig := (HeapNode.addAll_fixed _ items).1
  have hblocks : h.blocks ≠ [] := by simp [HeapNode.blocks]
  have hstream : pieces kMaxBlockData (h.setUserRoot userRoot).serialize =
      renderAll clientSig userRoot (HeapNode.fillLevels h.blocks.length) h.blocks := by
    rw [HeapNode.pieces_serialize (by exact hpacked), ← hsig]
    rfl
  have hfollows := StreamingHeap.follows_new w clientSig
  refine ⟨_, _, _, bind_eq_ok.2 ⟨_, _, HeapNode.alloc_all hlen hcount, rfl⟩, ?_, ?_, ?_, ?_⟩
  · rw [hstream]
    exact heapReads_of_image hlen hcount (renderAll_image hpacked (HeapNode.fillLevels_length _))
  · intro hids t hrun
    obtain ⟨w', s'⟩ := t
    obtain ⟨_, hall, _⟩ := StreamingHeap.allocs_follow hrun hs hfollows
    rw [HeapNode.alloc_all hlen hcount] at hall
    cases hall
    rfl
  · intro hids bid t hrun
    obtain ⟨hids', ⟨w₁, s₁⟩, hallocs, hrun⟩ := bind_eq_ok.1 hrun
    obtain ⟨hg, _, hf⟩ := StreamingHeap.allocs_follow hallocs hs hfollows
    obtain ⟨_, _, hmod, hrun⟩ := bind_eq_ok.1 hrun
    cases modify_eq_ok.1 hmod
    obtain ⟨bid', ⟨w₂, s₂⟩, hfinish, hrun⟩ := bind_eq_ok.1 hrun
    cases hrun
    have hf' := hf.setUserRoot userRoot
    obtain ⟨hg', htree⟩ := StreamingHeap.finish_tree hfinish hg.sound hf'
    have himages : (s₁.setUserRoot userRoot).images h =
        renderAll clientSig userRoot StreamingHeap.fillLevels h.blocks := by
      rw [StreamingHeap.images, ← hsig, ← hf'.sig]
      rfl
    rw [himages] at htree
    refine ⟨_, htree _ hg'.sound.covers, ?_, ?_⟩
    · rw [hstream]
      exact renderAll_sameButFill hpacked hblocks StreamingHeap.fillLevels_length
        (HeapNode.fillLevels_length _)
    · exact heapReads_of_image hlen hcount
        (renderAll_image hpacked StreamingHeap.fillLevels_length)
  · intro hsteady hcursor
    have hfew := packed_items_length_le hpacked
    rw [HeapNode.addAll_items] at hfew
    have hitems : items.length ≤ 2047 * 65536 := by
      refine (?_ : items.length ≤ _).trans (hfew.trans (Nat.mul_le_mul_left 2047 hcount))
      simp
    have hcount' : h.blocks.length ≤ 65536 := hcount
    have hroom : Room (items.length + (h.blocks.length + 0 + 4)) w :=
      ⟨hs, hsteady, by omega⟩
    obtain ⟨hids, ⟨w₁, s₁⟩, hallocs, hroom₁⟩ :=
      StreamingHeap.allocs_return hroom hfollows hlen hcount
    obtain ⟨_, _, hf⟩ := StreamingHeap.allocs_follow hallocs hs hfollows
    obtain ⟨bid, t, hfinish, _⟩ :=
      StreamingHeap.finish_returns (n := 0) (h := h) hroom₁ (hf.setUserRoot userRoot) hcount
    exact ⟨hids, bid, t, bind_eq_ok.2 ⟨_, _, hallocs, bind_eq_ok.2 ⟨_, _, rfl,
      bind_eq_ok.2 ⟨_, _, hfinish, rfl⟩⟩⟩⟩

/-- An empty string and a value, on a file just opened. -/
theorem streaming_heap_is_in_memory_heap_two : ∃ w, Sound w ∧ ∃ hids stream h,
    HeapNode.store [[], [1, 2, 3]] 0x20 { clientSig := kHnSigTC } = .ok (hids, stream) h ∧
      HeapReads (pieces kMaxBlockData stream) [[], [1, 2, 3]] hids ∧
      SameHeap kHnSigTC 0x20 [[], [1, 2, 3]] w hids stream := by
  obtain ⟨_, w, _, hw⟩ := openWriter_returns
  exact ⟨w, hw.1.sound, streaming_heap_is_in_memory_heap (by decide) (by decide) hw.1.sound⟩

end Pst
end Imap2Pst
