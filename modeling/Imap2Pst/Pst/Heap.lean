import Imap2Pst.Pst.Ndb
import Imap2Pst.Std.Buffer
import Imap2Pst.Std.Rows

/-!
# Pst.Heap

The heap-on-node, translated from `pst/heap.cpp`: an allocator whose blocks become the data blocks
of a node. The streaming heap of `pst/streaming_table.cpp` repeats the constants and the layout of
a block word for word; both heaps take them from here.

* `HeapNode` — the in-memory heap: `alloc`, `patch`, `serialize`.
* `renderBlock_eq` — a block as rendered: header, allocations, padding, page map.
* `heapItem` — the reader; it finds every allocation of the blocks rendered
  (`heapItem_render`).
-/

namespace Imap2Pst
namespace Pst

open CxxStd

/-! ## Blocks -/

def kHnHdrSize : Nat := 12
def kHnPageHdrSize : Nat := 2
def kHnBitmapHdrSize : Nat := 2 + 64

/-- Advisory for readers. -/
def fillLevelCode (freeBytes : Nat) : Byte :=
  if 3584 ≤ freeBytes then 0x0
  else if 2560 ≤ freeBytes then 0x1
  else if 2048 ≤ freeBytes then 0x2
  else if 1792 ≤ freeBytes then 0x3
  else if 1536 ≤ freeBytes then 0x4
  else if 1280 ≤ freeBytes then 0x5
  else if 1024 ≤ freeBytes then 0x6
  else if 768 ≤ freeBytes then 0x7
  else if 512 ≤ freeBytes then 0x8
  else if 256 ≤ freeBytes then 0x9
  else 0xF

def pageMapSize (allocCount : Nat) : Nat := 4 + 2 * (allocCount + 1)

/-- Blocks 8, 136, 264, ... carry an HNBITMAPHDR instead of an HNPAGEHDR. -/
def isBitmapBlock (index : Nat) : Bool := 8 ≤ index && (index - 8) % 128 = 0

def blockHeaderSize (index : Nat) : Nat :=
  if index = 0 then kHnHdrSize
  else if isBitmapBlock index then kHnBitmapHdrSize else kHnPageHdrSize

/-- The largest allocation: a bitmap block that holds nothing else. -/
def maxAllocSize : Nat := kMaxBlockData - kHnBitmapHdrSize - pageMapSize 1 - 1

theorem nothing_used : 0 = ([] : List Bytes).flatten.length := rfl

/-- The allocations of one block and the octets they take. -/
structure HeapBlock where
  items : List Bytes := []
  used : Nat := 0
  used_eq : used = items.flatten.length := by exact nothing_used

namespace HeapBlock

def push (b : HeapBlock) (data : Bytes) : HeapBlock where
  items := b.items ++ [data]
  used := b.used + data.length
  used_eq := by simp [b.used_eq]

/-- An allocation is rewritten at its size. -/
def rewrite (b : HeapBlock) (i : Nat) (data : Bytes) : HeapBlock where
  items := b.items.set i data
  used := (b.items.set i data).flatten.length
  used_eq := rfl

/-- The pad octet that may align the page map is counted. -/
def fits (b : HeapBlock) (index len : Nat) : Bool :=
  blockHeaderSize index + b.used + len + pageMapSize (b.items.length + 1) + 1 ≤ kMaxBlockData

end HeapBlock

/-- `offsets`: where each allocation starts and the last one ends, in 16 bits. -/
def offsetsFrom (off : Nat) : List Bytes → List Nat
  | [] => [off % 2 ^ 16]
  | item :: items => off % 2 ^ 16 :: offsetsFrom (off + item.length) items

/-- HNHDR without `ibHnpm`. -/
def hnHdrRest (clientSig : Byte) (userRoot : Nat) (fill : Bytes) : Bytes :=
  [kHnSignature, clientSig] ++ le 4 userRoot ++ fill

/-- HNPAGEMAP. `cFree` counts the zero-length allocations. -/
def pageMap (items : List Bytes) (offsets : List Nat) : Bytes :=
  le 2 items.length ++ le 2 (items.countP (·.isEmpty)) ++ offsets.flatMap (le 2)

/-- One block; `fill` gives `rgbFillLevel` for the free octets of block 0. -/
def renderBlock (clientSig : Byte) (userRoot : Nat) (fill : Nat → Bytes) (b : HeapBlock)
    (index : Nat) (last : Bool) : Bytes :=
  let header := blockHeaderSize index
  let mapSize := pageMapSize b.items.length
  let offsets := offsetsFrom header b.items
  let off := header + b.items.flatten.length
  -- the page map is pushed to the end of a block that is not the last one
  let blockSize := if last then alignUp off 2 + mapSize else kMaxBlockData
  let ibHnpm := if last then alignUp off 2 else blockSize - mapSize
  let blk := poke (List.replicate blockSize 0) 0 (le 2 ibHnpm)
  let blk :=
    if index = 0 then poke blk 2 (hnHdrRest clientSig userRoot (fill (ibHnpm - off)))
    else if isBitmapBlock index then poke blk 2 (List.replicate 64 0xFF)
    else blk
  let blk := (offsets.zip b.items).foldl (fun blk (off, item) => poke blk off item) blk
  poke blk ibHnpm (pageMap b.items offsets)

/-- The blocks of a heap. -/
def renderAll (clientSig : Byte) (userRoot : Nat) (fill : Nat → Bytes) (blocks : List HeapBlock) :
    List Bytes :=
  blocks.zipIdx.map fun (b, i) =>
    renderBlock clientSig userRoot fill b i (i + 1 = blocks.length)

/-! ## The in-memory heap -/

/-- The blocks are `full` and then `last`, so there is always one. -/
structure HeapNode where
  clientSig : Byte
  userRoot : Nat := 0
  full : List HeapBlock := []
  last : HeapBlock := {}

/-- One nibble of `rgbFillLevel`, low nibble first. -/
def setFillNibble (fill : Bytes) (k : Nat) (code : Byte) : Bytes :=
  if k % 2 = 0 then fill.modify (k / 2) fun b : Byte => (b &&& (0xF0 : Byte)) ||| code
  else fill.modify (k / 2) fun b : Byte => (b &&& (0x0F : Byte)) ||| code <<< 4

namespace HeapNode

def blocks (h : HeapNode) : List HeapBlock := h.full ++ [h.last]

def alloc (data : Bytes) : EStateM PstError HeapNode Nat := do
  if maxAllocSize < data.length then
    throw ⟨"heap allocation of " ++ toString data.length ++
      " bytes exceeds the HN block capacity"⟩
  let h ← get
  -- the allocation index of an HID is 11 bits wide
  if !h.last.fits h.full.length data.length || 2047 ≤ h.last.items.length then
    set { h with full := h.blocks, last := {} }
    if 0xFFFF < h.blocks.length then throw ⟨"heap grew beyond 65535 blocks"⟩
  let h ← get
  let last := h.last.push data
  set { h with last }
  return makeHid h.full.length last.items.length

/-- The new content has the size of the old. -/
def patch (hid : Nat) (data : Bytes) : EStateM PstError HeapNode Unit := do
  let h ← get
  let block := hidBlockIndex hid
  let index := hidAllocIndex hid
  let items := (h.blocks.getD block {}).items
  if h.blocks.length ≤ block ∨ index = 0 ∨ items.length < index then
    throw ⟨"patch of an unknown HID"⟩
  if (items.getD (index - 1) []).length ≠ data.length then
    throw ⟨"patch would change an allocation's size"⟩
  if block < h.full.length then
    set { h with full := h.full.modify block fun b => b.rewrite (index - 1) data }
  else set { h with last := h.last.rewrite (index - 1) data }

def setUserRoot (hid : Nat) (h : HeapNode) : HeapNode := { h with userRoot := hid }

/-- 0xF ("full") for blocks that do not exist. -/
def fillLevels (nblocks freeBytes : Nat) : Bytes :=
  (List.range 8).foldl
    (fun fill k =>
      setFillNibble fill k (if k < nblocks then if k = 0 then fillLevelCode freeBytes else 0 else 0xF))
    (List.replicate 4 0xFF)

/-- The blocks of the stream. -/
def rendered (h : HeapNode) : List Bytes :=
  renderAll h.clientSig h.userRoot (fillLevels h.blocks.length) h.blocks

def serialize (h : HeapNode) : Bytes := h.rendered.flatten

end HeapNode

/-! ## A block as rendered -/

/-- What `fits` and the slot limit keep: room for the page map and its pad octet. -/
structure HeapBlock.Roomy (b : HeapBlock) (index : Nat) : Prop where
  room : blockHeaderSize index + b.used + pageMapSize b.items.length + 1 ≤ kMaxBlockData
  slots : b.items.length ≤ 2047

/-- Where the page map starts. -/
def HeapBlock.ibHnpm (b : HeapBlock) (index : Nat) (last : Bool) : Nat :=
  if last then alignUp (blockHeaderSize index + b.used) 2
  else kMaxBlockData - pageMapSize b.items.length

/-- HNHDR, HNBITMAPHDR or HNPAGEHDR. -/
def headerBytes (clientSig : Byte) (userRoot : Nat) (fill : Bytes) (index ibHnpm : Nat) : Bytes :=
  le 2 ibHnpm ++
    if index = 0 then hnHdrRest clientSig userRoot fill
    else if isBitmapBlock index then List.replicate 64 0xFF else []

theorem headerBytes_length (clientSig : Byte) (userRoot index ibHnpm : Nat) {fill : Bytes}
    (hfill : fill.length = 4) :
    (headerBytes clientSig userRoot fill index ibHnpm).length = blockHeaderSize index := by
  unfold headerBytes blockHeaderSize
  split
  · simp [hnHdrRest, hfill, kHnHdrSize]
  · split
    · simp [kHnBitmapHdrSize]
    · simp [kHnPageHdrSize]

@[simp] theorem offsetsFrom_length (off : Nat) (items : List Bytes) :
    (offsetsFrom off items).length = items.length + 1 := by
  induction items generalizing off with
  | nil => rfl
  | cons item items ih => rw [offsetsFrom, List.length_cons, ih, List.length_cons]

theorem pageMap_length (off : Nat) (items : List Bytes) :
    (pageMap items (offsetsFrom off items)).length = pageMapSize items.length := by
  rw [pageMap, List.length_append, List.length_append,
    length_flatMap_of_forall fun n _ => le_length 2 n, offsetsFrom_length, le_length, le_length,
    pageMapSize]
  omega

/-- The offset of an allocation, when none wraps. -/
theorem getElem_offsetsFrom (off : Nat) {items : List Bytes} (k : Nat) (hk : k ≤ items.length)
    (hsmall : off + items.flatten.length < 2 ^ 16) :
    (offsetsFrom off items)[k]? = some (off + (items.take k).flatten.length) := by
  induction items generalizing off k with
  | nil =>
    obtain rfl : k = 0 := Nat.le_zero.1 hk
    simp only [List.flatten_nil, List.length_nil] at hsmall
    simp [offsetsFrom]
    omega
  | cons item items ih =>
    rw [List.flatten_cons, List.length_append] at hsmall
    cases k with
    | zero =>
      simp [offsetsFrom]
      omega
    | succ k =>
      rw [offsetsFrom, List.getElem?_cons_succ, ih _ k (by simpa using hk) (by omega),
        List.take_succ_cons, List.flatten_cons, List.length_append, Nat.add_assoc]

/-- The allocations, copied behind the header one after the other. -/
theorem poke_items {items : List Bytes} {front : Bytes} {off n : Nat} (hoff : front.length = off)
    (hroom : items.flatten.length ≤ n) (hsmall : off + n < 2 ^ 16) :
    ((offsetsFrom off items).zip items).foldl (fun blk p => poke blk p.1 p.2)
      (front ++ List.replicate n 0) =
    front ++ items.flatten ++ List.replicate (n - items.flatten.length) 0 := by
  induction items generalizing front off n with
  | nil => simp [offsetsFrom]
  | cons item items ih =>
    rw [List.flatten_cons, List.length_append] at hroom
    have hoff' : (front ++ item).length = off + item.length := by rw [List.length_append, hoff]
    have hrest := ih (n := n - item.length) hoff' (by omega) (by omega)
    rw [offsetsFrom, List.zip_cons_cons, List.foldl_cons]
    dsimp only
    rw [Nat.mod_eq_of_lt (by omega : off < 2 ^ 16), ← hoff, poke_behind _ (by omega), hoff, hrest,
      List.flatten_cons, List.length_append, Nat.sub_sub, List.append_assoc front]

theorem HeapBlock.Roomy.map_le {b : HeapBlock} {index : Nat} (h : b.Roomy index) (last : Bool) :
    blockHeaderSize index + b.used ≤ b.ibHnpm index last ∧
      b.ibHnpm index last + pageMapSize b.items.length ≤ kMaxBlockData := by
  have hroom := h.room
  have hle := le_alignUp (v := blockHeaderSize index + b.used) (a := 2) (by decide)
  have hlt := alignUp_lt (v := blockHeaderSize index + b.used) (a := 2) (by decide)
  unfold HeapBlock.ibHnpm
  split <;> omega

/-- The header, poked into a clear block. -/
theorem poke_header {clientSig : Byte} {userRoot index ibHnpm size : Nat} {fill : Bytes}
    (hfill : fill.length = 4) (hsize : blockHeaderSize index ≤ size) :
    (if index = 0 then
      poke (poke (List.replicate size 0) 0 (le 2 ibHnpm)) 2 (hnHdrRest clientSig userRoot fill)
    else if isBitmapBlock index then
      poke (poke (List.replicate size 0) 0 (le 2 ibHnpm)) 2 (List.replicate 64 0xFF)
    else poke (List.replicate size 0) 0 (le 2 ibHnpm)) =
      headerBytes clientSig userRoot fill index ibHnpm ++
        List.replicate (size - blockHeaderSize index) 0 := by
  have hlen := headerBytes_length clientSig userRoot index ibHnpm hfill
  rw [← hlen] at hsize ⊢
  have hrest : (headerBytes clientSig userRoot fill index ibHnpm).length =
      2 + (if index = 0 then hnHdrRest clientSig userRoot fill
        else if isBitmapBlock index then List.replicate 64 0xFF else []).length := by
    rw [headerBytes, List.length_append, le_length]
  have hfirst : poke (List.replicate size 0) 0 (le 2 ibHnpm) =
      le 2 ibHnpm ++ List.replicate (size - 2) 0 := by
    have hfit : (le 2 ibHnpm).length ≤ size := by rw [le_length]; omega
    simpa using poke_behind [] hfit
  have hsecond {rest : Bytes} (hle : rest.length ≤ size - 2) :
      poke (le 2 ibHnpm ++ List.replicate (size - 2) 0) 2 rest =
        le 2 ibHnpm ++ rest ++ List.replicate (size - 2 - rest.length) 0 := by
    have h := poke_behind (le 2 ibHnpm) hle
    rwa [le_length] at h
  rw [hrest] at hsize ⊢
  rw [hfirst, headerBytes, ← Nat.sub_sub]
  split
  · rename_i h0
    rw [if_pos h0] at hsize
    exact hsecond (by omega)
  · rename_i h0
    rw [if_neg h0] at hsize
    split
    · rename_i hbit
      rw [if_pos hbit] at hsize
      exact hsecond (by omega)
    · simp

/-- Header, allocations, padding, page map: nothing overlaps and no offset wraps. -/
theorem renderBlock_eq (clientSig : Byte) (userRoot : Nat) {index : Nat} {fill : Nat → Bytes}
    {b : HeapBlock} (last : Bool) (h : b.Roomy index) (hfill : ∀ n, (fill n).length = 4) :
    renderBlock clientSig userRoot fill b index last =
      headerBytes clientSig userRoot
          (fill (b.ibHnpm index last - (blockHeaderSize index + b.used))) index
          (b.ibHnpm index last) ++
        b.items.flatten ++
        List.replicate (b.ibHnpm index last - (blockHeaderSize index + b.used)) 0 ++
        pageMap b.items (offsetsFrom (blockHeaderSize index) b.items) := by
  obtain ⟨hfront, hend⟩ := h.map_le last
  have hkmax : kMaxBlockData < 2 ^ 16 := by decide
  let m := b.ibHnpm index last
  let size := m + pageMapSize b.items.length
  have hsize : (if last then alignUp (blockHeaderSize index + b.used) 2 +
      pageMapSize b.items.length else kMaxBlockData) = size := by
    have hroom := h.room
    cases last with
    | false => simp only [size, m, HeapBlock.ibHnpm, Bool.false_eq_true, if_false]; omega
    | true => rfl
  have hmap : (if last then alignUp (blockHeaderSize index + b.used) 2
      else size - pageMapSize b.items.length) = m := by
    cases last with
    | false => simp only [Bool.false_eq_true, if_false, size, Nat.add_sub_cancel]
    | true => rfl
  have hlen := headerBytes_length clientSig userRoot index m
    (hfill (m - (blockHeaderSize index + b.used)))
  have hused := b.used_eq
  unfold renderBlock
  simp only [← hused, hsize, hmap]
  rw [poke_header (hfill _) (by omega), poke_items hlen (by omega) (by omega),
    poke_clear (by rw [List.length_append, hlen]; omega)
      (by rw [List.length_append, hlen, pageMap_length]; omega),
    pageMap_length, List.length_append, hlen, ← hused]
  have hnone : blockHeaderSize index + b.used +
      (size - blockHeaderSize index - b.used) - (m + pageMapSize b.items.length) = 0 := by omega
  rw [hnone, List.replicate_zero, List.append_nil]

/-- HNHDR before `rgbFillLevel`. -/
def hnHdrFront (clientSig : Byte) (userRoot ibHnpm : Nat) : Bytes :=
  le 2 ibHnpm ++ ([kHnSignature, clientSig] ++ le 4 userRoot)

/-- Block 0, around `rgbFillLevel`. -/
theorem renderBlock_first (clientSig : Byte) (userRoot : Nat) {fill : Nat → Bytes} {b : HeapBlock}
    (last : Bool) (h : b.Roomy 0) (hfill : ∀ n, (fill n).length = 4) :
    renderBlock clientSig userRoot fill b 0 last =
      hnHdrFront clientSig userRoot (b.ibHnpm 0 last) ++
        (fill (b.ibHnpm 0 last - (blockHeaderSize 0 + b.used)) ++ (b.items.flatten ++
          (List.replicate (b.ibHnpm 0 last - (blockHeaderSize 0 + b.used)) 0 ++
            pageMap b.items (offsetsFrom (blockHeaderSize 0) b.items)))) := by
  rw [renderBlock_eq _ _ _ h hfill, headerBytes, if_pos rfl, hnHdrRest, hnHdrFront]
  simp only [List.append_assoc]

theorem renderBlock_length {clientSig : Byte} {userRoot index : Nat} {fill : Nat → Bytes}
    {b : HeapBlock} {last : Bool} (h : b.Roomy index) (hfill : ∀ n, (fill n).length = 4) :
    (renderBlock clientSig userRoot fill b index last).length =
      b.ibHnpm index last + pageMapSize b.items.length := by
  obtain ⟨hfront, _⟩ := h.map_le last
  rw [renderBlock_eq _ _ _ h hfill, List.length_append, List.length_append, List.length_append,
    headerBytes_length _ _ _ _ (hfill _), List.length_replicate, pageMap_length, ← b.used_eq]
  omega

/-- A block that is not the last one takes a whole data block. -/
theorem renderBlock_whole {clientSig : Byte} {userRoot index : Nat} {fill : Nat → Bytes}
    {b : HeapBlock} (h : b.Roomy index) (hfill : ∀ n, (fill n).length = 4) :
    (renderBlock clientSig userRoot fill b index false).length = kMaxBlockData := by
  have hroom := h.room
  rw [renderBlock_length h hfill]
  show kMaxBlockData - pageMapSize b.items.length + _ = _
  omega

/-! ## The reader -/

/-- A 16-bit field of a block. -/
def field16 (blk : Bytes) (off : Nat) : Nat := fromLe (slice blk off 2)

/-- The allocation an HID stands for, in a heap of these blocks. -/
def heapItem (blocks : List Bytes) (hid : Nat) : Option Bytes := do
  let blk ← blocks[hidBlockIndex hid]?
  let ibHnpm := field16 blk 0
  let slot := hidAllocIndex hid
  if hnidIsHid hid ∧ 0 < slot ∧ slot ≤ field16 blk ibHnpm then
    let start := field16 blk (ibHnpm + 2 + 2 * slot)
    let stop := field16 blk (ibHnpm + 4 + 2 * slot)
    pure (slice blk start (stop - start))
  else none

/-- What a reader relies on in a block with these allocations. -/
structure BlockReads (blk : Bytes) (items : List Bytes) (header : Nat) : Prop where
  size : blk.length ≤ kMaxBlockData
  /-- The page map ends the block. -/
  map : field16 blk 0 + pageMapSize items.length = blk.length
  cAlloc : field16 blk (field16 blk 0) = items.length
  cFree : field16 blk (field16 blk 0 + 2) = items.countP (·.isEmpty)
  /-- The allocations lie one after the other, between the header and the page map. -/
  offset : ∀ k ≤ items.length,
    field16 blk (field16 blk 0 + 4 + 2 * k) = header + (items.take k).flatten.length
  clear : header + items.flatten.length ≤ field16 blk 0
  item : ∀ k (hk : k < items.length),
    slice blk (header + (items.take k).flatten.length) items[k].length = items[k]

theorem field16_of_split {blk a c : Bytes} {off v : Nat} (h : blk = a ++ (le 2 v ++ c))
    (hoff : a.length = off) (hv : v < 256 ^ 2) : field16 blk off = v := by
  have hslice := slice_of_split h hoff
  rw [le_length] at hslice
  rw [field16, hslice, fromLe_le_of_lt hv]

theorem flatten_split {items : List Bytes} {k : Nat} (hk : k < items.length) :
    items.flatten = (items.take k).flatten ++ items[k] ++ (items.drop (k + 1)).flatten := by
  have h := flatMap_split (f := id) hk
  simpa only [List.flatMap_id, id_eq] using h

theorem renderBlock_reads {clientSig : Byte} {userRoot index : Nat} {fill : Nat → Bytes}
    {b : HeapBlock} {last : Bool} (h : b.Roomy index) (hfill : ∀ n, (fill n).length = 4) :
    BlockReads (renderBlock clientSig userRoot fill b index last) b.items
      (blockHeaderSize index) := by
  obtain ⟨hfront, hend⟩ := h.map_le last
  have hslots := h.slots
  have hused := b.used_eq
  have hkmax : kMaxBlockData = 8176 := rfl
  have hmapSize : pageMapSize b.items.length = 4 + 2 * (b.items.length + 1) := rfl
  have himage := renderBlock_eq clientSig userRoot last h hfill
  have hhdr := headerBytes_length clientSig userRoot index (b.ibHnpm index last)
    (hfill (b.ibHnpm index last - (blockHeaderSize index + b.used)))
  have hmap := pageMap_length (blockHeaderSize index) b.items
  generalize renderBlock clientSig userRoot fill b index last = blk at himage ⊢
  generalize fill (b.ibHnpm index last - (blockHeaderSize index + b.used)) = levels
    at himage hhdr
  generalize hm : b.ibHnpm index last = m at *
  -- everything before the page map
  have hbefore : (headerBytes clientSig userRoot levels index m ++ b.items.flatten ++
      List.replicate (m - (blockHeaderSize index + b.used)) 0).length = m := by
    rw [List.length_append, List.length_append, hhdr, List.length_replicate, ← hused]
    omega
  have hlen : blk.length = m + pageMapSize b.items.length := by
    rw [himage, List.length_append, hbefore, hmap]
  rw [pageMap] at himage
  simp only [List.append_assoc] at himage hbefore
  have hfirst : field16 blk 0 = m := by
    have hstart := himage.trans (List.append_assoc (le 2 m) _ _)
    exact field16_of_split (a := []) hstart rfl (by omega)
  have hcount : blk = (headerBytes clientSig userRoot levels index m ++ (b.items.flatten ++
      List.replicate (m - (blockHeaderSize index + b.used)) 0)) ++ (le 2 b.items.length ++
      (le 2 (b.items.countP (·.isEmpty)) ++
        (offsetsFrom (blockHeaderSize index) b.items).flatMap (le 2))) := by
    rw [himage]
    simp only [List.append_assoc]
  refine ⟨by omega, by rw [hfirst, hlen], ?_, ?_, ?_, ?_, ?_⟩
  · rw [hfirst]
    exact field16_of_split hcount hbefore (by omega)
  · have hfree : b.items.countP (·.isEmpty) ≤ b.items.length := List.countP_le_length
    rw [hfirst]
    refine field16_of_split (hcount.trans (List.append_assoc _ _ _).symm) ?_ (by omega)
    rw [List.length_append, hbefore, le_length]
  · intro k hk
    have hoff := getElem_offsetsFrom (blockHeaderSize index) k hk (by omega)
    obtain ⟨hlt, hget⟩ := List.getElem?_eq_some_iff.1 hoff
    have hrow := drop_take_flatMap (f := le 2) (fun n _ => le_length 2 n) hlt
    have htail : blk.drop (m + 4) =
        (offsetsFrom (blockHeaderSize index) b.items).flatMap (le 2) := by
      rw [hcount, ← List.drop_drop, List.drop_left' hbefore, ← List.append_assoc]
      exact List.drop_left' (by rw [List.length_append, le_length, le_length])
    have hle : (b.items.take k).flatten.length ≤ b.items.flatten.length := by
      conv_rhs => rw [← List.take_append_drop k b.items, List.flatten_append, List.length_append]
      omega
    rw [hfirst, field16, slice, ← List.drop_drop, htail, Nat.mul_comm 2 k, hrow, hget,
      fromLe_le_of_lt (by omega)]
  · rw [hfirst, ← hused]
    exact hfront
  · intro k hk
    rw [flatten_split hk] at himage
    simp only [List.append_assoc] at himage
    exact slice_of_split (himage.trans (List.append_assoc _ _ _).symm)
      (by rw [List.length_append, hhdr])

/-- An allocation of the block at `i` is found under its HID. -/
theorem heapItem_of_reads {blocks : List Bytes} {i k header : Nat} {blk item : Bytes}
    {items : List Bytes} (hblk : blocks[i]? = some blk) (hreads : BlockReads blk items header)
    (hitem : items[k]? = some item) (hi : i < 2 ^ 16) (hslots : items.length ≤ 2047) :
    heapItem blocks (makeHid i (k + 1)) = some item := by
  obtain ⟨hk, rfl⟩ := List.getElem?_eq_some_iff.1 hitem
  have hslot : k + 1 < 2 ^ 11 := by omega
  have hstart := hreads.offset k (by omega)
  have hstop := hreads.offset (k + 1) hk
  have hnext : (items.take (k + 1)).flatten.length =
      (items.take k).flatten.length + items[k].length := by
    rw [List.take_succ_eq_append_getElem hk, List.flatten_append, List.length_append]
    simp
  have hat : field16 blk 0 + 2 + 2 * (k + 1) = field16 blk 0 + 4 + 2 * k := by omega
  rw [heapItem, hidBlockIndex_makeHid hi hslot, hidAllocIndex_makeHid hi hslot,
    hnidIsHid_makeHid hi hslot, hblk]
  simp only [Option.bind_eq_bind, Option.bind_some, hreads.cAlloc]
  rw [if_pos ⟨trivial, Nat.succ_pos k, hk⟩, hat, hstart, hstop, hnext, Nat.add_sub_add_left,
    Nat.add_sub_cancel_left, hreads.item k hk]
  rfl

/-- `hidUserRoot`. -/
def heapUserRoot (blocks : List Bytes) : Option Nat :=
  blocks[0]?.map fun blk => fromLe (slice blk 4 4)

/-! ## Packing -/

/-- Every block has room for its page map. -/
def Packed (blocks : List HeapBlock) : Prop := ∀ i (b : HeapBlock), blocks[i]? = some b → b.Roomy i

/-- The allocation that the HID stands for. -/
def HasItem (blocks : List HeapBlock) (hid : Nat) (item : Bytes) : Prop :=
  ∃ i b k, blocks[i]? = some b ∧ b.items[k]? = some item ∧ hid = makeHid i (k + 1)

/-- Blocks as a reader finds them. -/
structure HeapImage (images : List Bytes) (blocks : List HeapBlock) : Prop where
  length : images.length = blocks.length
  reads : ∀ i image b, images[i]? = some image → blocks[i]? = some b →
    BlockReads image b.items (blockHeaderSize i)
  /-- A block that is not the last one takes a whole data block. -/
  whole : ∀ i image, images[i]? = some image → i + 1 < images.length →
    image.length = kMaxBlockData

theorem HeapImage.item {images : List Bytes} {blocks : List HeapBlock} {hid : Nat} {item : Bytes}
    (h : HeapImage images blocks) (hpacked : Packed blocks) (hcount : blocks.length ≤ 2 ^ 16)
    (hitem : HasItem blocks hid item) : heapItem images hid = some item := by
  obtain ⟨i, b, k, hb, hk, rfl⟩ := hitem
  obtain ⟨hi, _⟩ := List.getElem?_eq_some_iff.1 hb
  have hlen := h.length
  have himage := List.getElem?_eq_getElem (l := images) (i := i) (by omega)
  exact heapItem_of_reads himage (h.reads i _ b himage hb) hk (by omega) (hpacked i b hb).slots

/-- Laid end to end and cut into data blocks, the blocks come apart again. -/
theorem HeapImage.pieces_flatten {images : List Bytes} {blocks : List HeapBlock}
    (h : HeapImage images blocks) : pieces kMaxBlockData images.flatten = images := by
  rcases List.eq_nil_or_concat images with rfl | ⟨full, last, rfl⟩
  · exact pieces_nil (by decide)
  rw [List.concat_eq_append] at h ⊢
  have hlen := h.length
  rw [List.length_append] at hlen
  have hlt : full.length < blocks.length := by
    simp only [List.length_singleton] at hlen
    omega
  have hreads := h.reads full.length last _ (by simp) (List.getElem?_eq_getElem hlt)
  have hmap := hreads.map
  rw [List.flatten_append, List.flatten_singleton]
  refine pieces_append_flatten (by decide) ?_ ?_ hreads.size
  · intro image himage
    obtain ⟨i, hi, rfl⟩ := List.mem_iff_getElem.1 himage
    refine h.whole i _ ?_ (by simp; omega)
    rw [List.getElem?_append_left hi, List.getElem?_eq_getElem hi]
  · rintro rfl
    simp only [pageMapSize, List.length_nil] at hmap
    omega

theorem getElem?_renderAll {clientSig : Byte} {userRoot i : Nat} {fill : Nat → Bytes}
    {blocks : List HeapBlock} {b : HeapBlock} (hb : blocks[i]? = some b) :
    (renderAll clientSig userRoot fill blocks)[i]? =
      some (renderBlock clientSig userRoot fill b i (i + 1 = blocks.length)) := by
  simp [renderAll, List.getElem?_map, List.getElem?_zipIdx, hb]

theorem heapUserRoot_renderAll {clientSig : Byte} {userRoot : Nat} {fill : Nat → Bytes}
    {blocks : List HeapBlock} (hp : Packed blocks) (hsome : blocks ≠ [])
    (hfill : ∀ n, (fill n).length = 4) (hroot : userRoot < 2 ^ 32) :
    heapUserRoot (renderAll clientSig userRoot fill blocks) = some userRoot := by
  obtain ⟨b, rest, rfl⟩ := List.exists_cons_of_ne_nil hsome
  have hb : (b :: rest)[0]? = some b := rfl
  have himage := renderBlock_first clientSig userRoot (0 + 1 = (b :: rest).length) (hp 0 b hb) hfill
  rw [hnHdrFront, ← List.append_assoc (le 2 _), List.append_assoc] at himage
  have hslice := slice_of_split himage (show _ = 4 from by simp)
  rw [heapUserRoot, getElem?_renderAll hb, Option.map_some]
  rw [le_length] at hslice
  rw [hslice, fromLe_le_of_lt hroot]

theorem renderAll_image {clientSig : Byte} {userRoot : Nat} {fill : Nat → Bytes}
    {blocks : List HeapBlock} (hp : Packed blocks) (hfill : ∀ n, (fill n).length = 4) :
    HeapImage (renderAll clientSig userRoot fill blocks) blocks := by
  have hlen : (renderAll clientSig userRoot fill blocks).length = blocks.length := by
    simp [renderAll]
  refine ⟨hlen, ?_, ?_⟩
  · intro i image b himage hb
    rw [getElem?_renderAll hb] at himage
    cases himage
    exact renderBlock_reads (hp i b hb) hfill
  · intro i image himage hi
    have hb := List.getElem?_eq_getElem (l := blocks) (i := i) (by omega)
    rw [getElem?_renderAll hb] at himage
    cases himage
    rw [show decide (i + 1 = blocks.length) = false by simp; omega]
    exact renderBlock_whole (hp i _ hb) hfill

namespace HeapNode

/-- Whether the next allocation of `len` octets opens a block. -/
def opens (h : HeapNode) (len : Nat) : Bool :=
  !h.last.fits h.full.length len || 2047 ≤ h.last.items.length

/-- The heap with one allocation more, however many blocks that makes. -/
def add (h : HeapNode) (data : Bytes) : HeapNode :=
  if h.opens data.length then { h with full := h.blocks, last := ({} : HeapBlock).push data }
  else { h with last := h.last.push data }

/-- The HID of the last allocation. -/
def lastHid (h : HeapNode) : Nat := makeHid h.full.length h.last.items.length

theorem alloc_eq_ok {h h' : HeapNode} {data : Bytes} {hid : Nat} :
    alloc data h = .ok hid h' ↔ data.length ≤ maxAllocSize ∧
      (h.opens data.length = true → h.blocks.length ≤ 0xFFFF) ∧ h.add data = h' ∧
      (h.add data).lastHid = hid := by
  unfold alloc add
  by_cases hlen : maxAllocSize < data.length
  · rw [if_pos hlen]
    refine iff_of_false ?_ fun h => absurd h.1 (not_le.2 hlen)
    rintro ⟨⟩
  rw [if_neg hlen]
  by_cases hopen : h.opens data.length = true
  · show (ite (h.opens data.length = true) _ _ : EStateM PstError HeapNode Nat) h = _ ↔ _
    rw [if_pos hopen, if_pos hopen]
    by_cases hcount : 0xFFFF < h.blocks.length
    · show (ite (0xFFFF < h.blocks.length) _ _ : EStateM PstError HeapNode Nat) _ = _ ↔ _
      rw [if_pos hcount]
      refine iff_of_false ?_ fun h => absurd (h.2.1 hopen) (not_le.2 hcount)
      rintro ⟨⟩
    · show (ite (0xFFFF < h.blocks.length) _ _ : EStateM PstError HeapNode Nat) _ = _ ↔ _
      rw [if_neg hcount]
      constructor
      · rintro ⟨⟩
        exact ⟨not_lt.1 hlen, fun _ => not_lt.1 hcount, rfl, rfl⟩
      · rintro ⟨_, _, rfl, rfl⟩
        rfl
  · show (ite (h.opens data.length = true) _ _ : EStateM PstError HeapNode Nat) h = _ ↔ _
    rw [if_neg hopen, if_neg hopen]
    constructor
    · rintro ⟨⟩
      exact ⟨not_lt.1 hlen, fun hopen' => absurd hopen' hopen, rfl, rfl⟩
    · rintro ⟨_, _, rfl, rfl⟩
      rfl

theorem blockHeaderSize_le (index : Nat) : blockHeaderSize index ≤ 66 := by
  unfold blockHeaderSize kHnHdrSize kHnBitmapHdrSize kHnPageHdrSize
  split
  · omega
  · split <;> omega

theorem roomy_empty (index : Nat) : ({} : HeapBlock).Roomy index := by
  refine ⟨?_, Nat.zero_le _⟩
  have hheader := blockHeaderSize_le index
  show blockHeaderSize index + 0 + pageMapSize 0 + 1 ≤ kMaxBlockData
  unfold pageMapSize kMaxBlockData
  omega

theorem roomy_single {index : Nat} {data : Bytes} (h : data.length ≤ maxAllocSize) :
    (({} : HeapBlock).push data).Roomy index := by
  refine ⟨?_, (Nat.le_add_left 1 2046 : 1 ≤ 2047)⟩
  have hheader := blockHeaderSize_le index
  have hmax : maxAllocSize = 8101 := rfl
  show blockHeaderSize index + (0 + data.length) + pageMapSize 1 + 1 ≤ kMaxBlockData
  unfold pageMapSize kMaxBlockData
  omega

theorem roomy_push {h : HeapNode} {data : Bytes} (hopen : ¬h.opens data.length = true) :
    (h.last.push data).Roomy h.full.length := by
  simp only [opens, Bool.or_eq_true, Bool.not_eq_true', decide_eq_true_eq, not_or,
    Bool.not_eq_false, not_le, HeapBlock.fits] at hopen
  obtain ⟨hfits, hslots⟩ := hopen
  have hitems : (h.last.push data).items.length = h.last.items.length + 1 :=
    List.length_append
  refine ⟨?_, by omega⟩
  rw [hitems]
  show blockHeaderSize h.full.length + (h.last.used + data.length) + _ + 1 ≤ _
  omega

theorem getElem?_blocks {full : List HeapBlock} {last b : HeapBlock} {i : Nat} :
    (full ++ [last])[i]? = some b ↔ full[i]? = some b ∨ i = full.length ∧ last = b := by
  rcases lt_trichotomy i full.length with hi | rfl | hi
  · rw [List.getElem?_append_left hi]
    exact ⟨.inl, fun h => h.resolve_right fun ⟨heq, _⟩ => absurd heq hi.ne⟩
  · simp
  · rw [List.getElem?_eq_none (by simp; omega), List.getElem?_eq_none hi.le]
    exact ⟨.inl, fun h => h.resolve_right fun ⟨heq, _⟩ => absurd heq hi.ne'⟩

theorem add_of_opens {h : HeapNode} {data : Bytes} (hopen : h.opens data.length = true) :
    h.add data = { h with full := h.blocks, last := ({} : HeapBlock).push data } := if_pos hopen

theorem add_of_fits {h : HeapNode} {data : Bytes} (hopen : ¬h.opens data.length = true) :
    h.add data = { h with last := h.last.push data } := if_neg hopen

/-- What one allocation preserves. -/
theorem add_packed {h : HeapNode} {data : Bytes} (hp : Packed h.blocks)
    (hlen : data.length ≤ maxAllocSize) : Packed (h.add data).blocks := by
  by_cases hopen : h.opens data.length = true
  · rw [add_of_opens hopen]
    intro i b hb
    rcases getElem?_blocks.1 hb with hb | ⟨_, rfl⟩
    · exact hp i b hb
    · exact roomy_single hlen
  · rw [add_of_fits hopen]
    intro i b hb
    rcases getElem?_blocks.1 hb with hb | ⟨hi, rfl⟩
    · exact hp i b (getElem?_blocks.2 (.inl hb))
    · rw [hi]
      exact roomy_push hopen

theorem hasItem_add {h : HeapNode} {data : Bytes} : HasItem (h.add data).blocks
    (h.add data).lastHid data := by
  by_cases hopen : h.opens data.length = true
  · rw [add_of_opens hopen]
    exact ⟨h.blocks.length, _, 0, getElem?_blocks.2 (.inr ⟨rfl, rfl⟩), rfl, rfl⟩
  · rw [add_of_fits hopen]
    refine ⟨h.full.length, _, h.last.items.length, getElem?_blocks.2 (.inr ⟨rfl, rfl⟩), ?_, ?_⟩
    · exact List.getElem?_concat_length
    · show makeHid _ (h.last.items ++ [data]).length = _
      rw [List.length_append]
      rfl

theorem hasItem_add_of {h : HeapNode} {data item : Bytes} {hid : Nat}
    (hitem : HasItem h.blocks hid item) : HasItem (h.add data).blocks hid item := by
  obtain ⟨i, b, k, hb, hk, rfl⟩ := hitem
  by_cases hopen : h.opens data.length = true
  · rw [add_of_opens hopen]
    exact ⟨i, b, k, getElem?_blocks.2 (.inl hb), hk, rfl⟩
  · rw [add_of_fits hopen]
    rcases getElem?_blocks.1 hb with hb | ⟨hi, rfl⟩
    · exact ⟨i, b, k, getElem?_blocks.2 (.inl hb), hk, rfl⟩
    · refine ⟨i, _, k, getElem?_blocks.2 (.inr ⟨hi, rfl⟩), ?_, rfl⟩
      obtain ⟨hlt, _⟩ := List.getElem?_eq_some_iff.1 hk
      exact (List.getElem?_append_left hlt).trans hk

theorem add_blocks_length_le (h : HeapNode) (data : Bytes) :
    h.blocks.length ≤ (h.add data).blocks.length := by
  by_cases hopen : h.opens data.length = true
  · rw [add_of_opens hopen]
    simp [blocks]
  · rw [add_of_fits hopen]
    simp [blocks]

theorem packed_opened {h : HeapNode} (hp : Packed h.blocks) :
    Packed { h with full := h.blocks, last := {} }.blocks := by
  intro i b hb
  rcases getElem?_blocks.1 hb with hb | ⟨_, rfl⟩
  · exact hp i b hb
  · exact roomy_empty i

theorem packed_new (clientSig : Byte) : Packed ({ clientSig } : HeapNode).blocks := by
  intro i b hb
  cases i with
  | zero => cases hb; exact roomy_empty 0
  | succ i => cases hb

/-! ## The stream -/

theorem setFillNibble_length (fill : Bytes) (k : Nat) (code : Byte) :
    (setFillNibble fill k code).length = fill.length := by
  unfold setFillNibble
  split <;> exact List.length_modify _ _ _

theorem fillLevels_length (nblocks freeBytes : Nat) : (fillLevels nblocks freeBytes).length = 4 := by
  have hfold (ks : List Nat) (fill : Bytes) (code : Nat → Byte) :
      (ks.foldl (fun fill k => setFillNibble fill k (code k)) fill).length = fill.length := by
    induction ks generalizing fill with
    | nil => rfl
    | cons k ks ih => rw [List.foldl_cons, ih, setFillNibble_length]
  exact hfold _ _ _

theorem rendered_image {h : HeapNode} (hp : Packed h.blocks) : HeapImage h.rendered h.blocks :=
  renderAll_image hp (fillLevels_length _)

/-- Cut into data blocks, the stream falls apart into the blocks of the heap. -/
theorem pieces_serialize {h : HeapNode} (hp : Packed h.blocks) :
    pieces kMaxBlockData h.serialize = h.rendered := (rendered_image hp).pieces_flatten

/-! ## What a heap promises while it grows -/

/-- Every allocation can be found, and every block has an index. -/
structure Ok (h : HeapNode) : Prop where
  packed : Packed h.blocks
  count : h.blocks.length ≤ 2 ^ 16

/-- More was allocated, and nothing that was there moved. -/
structure Grows (h h' : HeapNode) : Prop where
  ok : h'.Ok
  items : ∀ hid item, HasItem h.blocks hid item → HasItem h'.blocks hid item
  sig : h'.clientSig = h.clientSig
  root : h'.userRoot = h.userRoot

def SoundlyGrows (h h' : HeapNode) : Prop := h.Ok → h.Grows h'

theorem Grows.refl {h : HeapNode} (hok : h.Ok) : h.Grows h := ⟨hok, fun _ _ hi => hi, rfl, rfl⟩

theorem Grows.trans {h h' h'' : HeapNode} (hg : h.Grows h') (hg' : h'.Grows h'') : h.Grows h'' :=
  ⟨hg'.ok, fun hid item hi => hg'.items hid item (hg.items hid item hi), hg'.sig.trans hg.sig,
    hg'.root.trans hg.root⟩

instance : IsPreorder HeapNode SoundlyGrows where
  refl _ hok := Grows.refl hok
  trans _ _ _ h h' hok := (h hok).trans (h' (h hok).ok)

theorem ok_new (clientSig : Byte) : Ok { clientSig } :=
  ⟨packed_new clientSig, (by decide : 1 ≤ 2 ^ 16)⟩

theorem Ok.setUserRoot {h : HeapNode} (hok : h.Ok) (hid : Nat) : (h.setUserRoot hid).Ok :=
  ⟨hok.packed, hok.count⟩

theorem add_fixed (h : HeapNode) (data : Bytes) :
    (h.add data).clientSig = h.clientSig ∧ (h.add data).userRoot = h.userRoot := by
  by_cases hopen : h.opens data.length = true
  · rw [add_of_opens hopen]
    exact ⟨rfl, rfl⟩
  · rw [add_of_fits hopen]
    exact ⟨rfl, rfl⟩

/-- What `alloc` does. -/
theorem alloc_spec {h h' : HeapNode} {data : Bytes} {hid : Nat}
    (hrun : alloc data h = .ok hid h') (hok : h.Ok) :
    h.Grows h' ∧ HasItem h'.blocks hid data ∧ data.length ≤ maxAllocSize := by
  obtain ⟨hlen, hcount, rfl, rfl⟩ := alloc_eq_ok.1 hrun
  refine ⟨⟨⟨add_packed hok.packed hlen, ?_⟩, fun _ _ hi => hasItem_add_of hi,
    (add_fixed h data).1, (add_fixed h data).2⟩, hasItem_add, hlen⟩
  by_cases hopen : h.opens data.length = true
  · have hfew := hcount hopen
    rw [add_of_opens hopen, blocks, List.length_append, List.length_singleton]
    dsimp only
    omega
  · have hcount' := hok.count
    rw [add_of_fits hopen]
    simp only [blocks, List.length_append, List.length_singleton] at hcount' ⊢
    exact hcount'

theorem alloc_grows (data : Bytes) : Moves SoundlyGrows (alloc data) :=
  fun _ _ _ hrun hok => (alloc_spec hrun hok).1

/-- A reader that finds every allocation. -/
def Finds (item : Nat → Option Bytes) (h : HeapNode) : Prop :=
  ∀ hid data, HasItem h.blocks hid data → item hid = some data

theorem Finds.of_grows {item : Nat → Option Bytes} {h h' : HeapNode} (hf : Finds item h')
    (hg : h.Grows h') : Finds item h := fun hid data hi => hf hid data (hg.items hid data hi)

/-- The HID of an allocation is an HID, not zero, and 32 bits wide. -/
theorem Ok.hid {h : HeapNode} (hok : h.Ok) {hid : Nat} {data : Bytes}
    (hi : HasItem h.blocks hid data) : 0 < hid ∧ hid < 256 ^ 4 ∧ hnidIsHid hid = true := by
  obtain ⟨i, b, k, hb, hk, rfl⟩ := hi
  obtain ⟨hlt, _⟩ := List.getElem?_eq_some_iff.1 hb
  obtain ⟨hslot, _⟩ := List.getElem?_eq_some_iff.1 hk
  have hslots := (hok.packed i b hb).slots
  have hcount := hok.count
  have hi' : i < 2 ^ 16 := by omega
  have hk' : k + 1 < 2 ^ 11 := by omega
  refine ⟨?_, ?_, hnidIsHid_makeHid hi' hk'⟩
  · rw [makeHid_of_lt hi' hk']
    omega
  · rw [makeHid_of_lt hi' hk']
    omega

theorem Ok.hid_range {h : HeapNode} (hok : h.Ok) {hid : Nat} {data : Bytes}
    (hi : HasItem h.blocks hid data) : 0 < hid ∧ hid < 256 ^ 4 :=
  ⟨(hok.hid hi).1, (hok.hid hi).2.1⟩

/-! ## A run of allocations -/

/-- The heap after `items`, however many blocks that makes. -/
def addAll (h : HeapNode) (items : List Bytes) : HeapNode := items.foldl add h

theorem addAll_packed {items : List Bytes} {h : HeapNode} (hp : Packed h.blocks)
    (hlen : ∀ item ∈ items, item.length ≤ maxAllocSize) : Packed (h.addAll items).blocks := by
  induction items generalizing h with
  | nil => exact hp
  | cons item items ih =>
    exact ih (add_packed hp (hlen item List.mem_cons_self)) fun i hi =>
      hlen i (List.mem_cons_of_mem _ hi)

theorem addAll_blocks_length_le (h : HeapNode) (items : List Bytes) :
    h.blocks.length ≤ (h.addAll items).blocks.length := by
  induction items generalizing h with
  | nil => exact le_rfl
  | cons item items ih => exact (add_blocks_length_le h item).trans (ih (h.add item))

theorem hasItem_addAll {h : HeapNode} {items : List Bytes} {item : Bytes} {hid : Nat}
    (hitem : HasItem h.blocks hid item) : HasItem (h.addAll items).blocks hid item := by
  induction items generalizing h with
  | nil => exact hitem
  | cons i items ih => exact ih (hasItem_add_of hitem)

theorem add_opens_length {h : HeapNode} {data : Bytes} (hopen : h.opens data.length = true) :
    (h.add data).blocks.length = h.blocks.length + 1 := by
  rw [add_of_opens hopen]
  simp [blocks]

/-- The HIDs the allocations of `items` get. -/
def hidsOf (h : HeapNode) : List Bytes → List Nat
  | [] => []
  | item :: items => (h.add item).lastHid :: hidsOf (h.add item) items

/-- As long as 65536 blocks do, no allocation is refused. -/
theorem alloc_all {h : HeapNode} {items : List Bytes}
    (hlen : ∀ item ∈ items, item.length ≤ maxAllocSize)
    (hcount : (h.addAll items).blocks.length ≤ 2 ^ 16) :
    each alloc items h = .ok (h.hidsOf items) (h.addAll items) := by
  induction items generalizing h with
  | nil => rfl
  | cons item items ih =>
    have hnext := addAll_blocks_length_le (h.add item) items
    refine each_cons_eq_ok.2 ⟨_, _, _, alloc_eq_ok.2 ⟨hlen item List.mem_cons_self, ?_, rfl, rfl⟩,
      ih (fun i hi => hlen i (List.mem_cons_of_mem _ hi)) hcount, rfl⟩
    intro hopen
    have hone := add_opens_length hopen
    have hall : ((h.add item).addAll items).blocks.length ≤ 2 ^ 16 := hcount
    omega

/-- The blocks hold the allocations in order. -/
theorem addAll_items (h : HeapNode) (items : List Bytes) :
    (h.addAll items).blocks.flatMap (·.items) = h.blocks.flatMap (·.items) ++ items := by
  induction items generalizing h with
  | nil => simp [addAll]
  | cons item items ih =>
    have hone : (h.add item).blocks.flatMap (·.items) = h.blocks.flatMap (·.items) ++ [item] := by
      by_cases hopen : h.opens item.length = true
      · rw [add_of_opens hopen]
        simp [blocks, HeapBlock.push]
      · rw [add_of_fits hopen]
        simp [blocks, HeapBlock.push]
    show ((h.add item).addAll items).blocks.flatMap (·.items) = _
    rw [ih, hone, List.append_assoc]
    rfl

theorem addAll_fixed (h : HeapNode) (items : List Bytes) :
    (h.addAll items).clientSig = h.clientSig ∧ (h.addAll items).userRoot = h.userRoot := by
  induction items generalizing h with
  | nil => exact ⟨rfl, rfl⟩
  | cons item items ih =>
    have hone := add_fixed h item
    obtain ⟨hsig, hroot⟩ := ih (h.add item)
    exact ⟨hsig.trans hone.1, hroot.trans hone.2⟩

theorem hidsOf_length (h : HeapNode) (items : List Bytes) :
    (h.hidsOf items).length = items.length := by
  induction items generalizing h with
  | nil => rfl
  | cons item items ih => rw [hidsOf, List.length_cons, List.length_cons, ih]

/-- Every HID stands for what was allocated under it. -/
theorem hasItem_hidsOf {h : HeapNode} {items : List Bytes} {k hid : Nat} {item : Bytes}
    (hhid : (h.hidsOf items)[k]? = some hid) (hitem : items[k]? = some item) :
    HasItem (h.addAll items).blocks hid item := by
  induction items generalizing h k with
  | nil => cases hitem
  | cons i items ih =>
    cases k with
    | zero =>
      cases hhid
      cases hitem
      exact hasItem_addAll (h := h.add item) hasItem_add
    | succ k => exact ih hhid hitem

end HeapNode

end Pst
end Imap2Pst
