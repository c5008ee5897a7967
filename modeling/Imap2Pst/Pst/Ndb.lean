import Imap2Pst.Pst.Format
import Imap2Pst.Std.File
import Imap2Pst.Std.Machine
import Imap2Pst.Std.Pieces
import Imap2Pst.Std.Sort

/-!
# Pst.Ndb

The node database layer, translated from `pst/ndb.cpp`: the raw file, its allocation maps, the
block store and the two B-trees that index it. The writer is append-only: space comes from a bump
allocator that steps over the fixed page positions, and the B-tree pages, the allocation maps and
the header are written by `finish`.

* `NdbWriter` — the state; its last two fields record history and no operation reads them.
* `writeData`, `writeLeafChunk`, `assembleDataTree`, `writeSubnodes`, `addNode` — the operations.
* `finish` — the B-tree pages, the padding, the fixed pages and the header.

The stream answers each operation as `fate` says, and fails every operation once one has failed.
-/

namespace Imap2Pst
namespace Pst

open CxxStd

structure PstError where
  what : String
  deriving DecidableEq, Repr

/-- One entry of a node's subnode B-tree. -/
structure SubnodeEntry where
  nid : Nat := 0
  data : Nat := 0
  sub : Nat := 0
  deriving DecidableEq, Repr

structure BbtEntry where
  bid : Nat
  ib : Nat
  cb : Nat
  deriving DecidableEq, Repr

structure NbtEntry where
  nid : Nat
  data : Nat
  sub : Nat
  parent : Nat
  deriving DecidableEq, Repr

structure Bref where
  bid : Nat := 0
  ib : Nat := 0
  deriving DecidableEq, Repr

structure BranchEntry where
  key : Nat
  bid : Nat
  ib : Nat
  deriving DecidableEq, Repr

/-- History: a block or a B-tree page that was written. -/
structure Written where
  bid : Nat
  ib : Nat
  image : Bytes
  /-- The payload's size of a block, or the type of a page. -/
  kind : Nat ⊕ Byte
  deriving DecidableEq, Repr

structure NdbWriter where
  file : File := .empty
  good : Bool := true
  /-- What the stream answers to the operations to come. -/
  fate : Nat → Bool
  cursor : Nat := kFirstDataPos
  nextBidIndex : Nat := 1
  finished : Bool := false
  bbt : List BbtEntry := []
  nbt : List NbtEntry := []
  /-- 496-byte bitmaps. -/
  amaps : List Bytes := []
  lastAMapIb : Nat := kFirstAMapPos
  fileEnd : Nat := kFirstDataPos
  amapFree : Nat := 0
  pmapFree : Nat := 0
  /-- History: the blocks and B-tree pages written, in order. -/
  history : List Written := []
  /-- History: an allocation ran past the end of its map. -/
  spilled : Bool := false

abbrev Ndb := EStateM PstError NdbWriter

/-- Calls on an object that writes blocks as it goes. -/
abbrev Streaming (σ α : Type) := EStateM PstError (NdbWriter × σ) α

/-- A call on the block writer. -/
def onNdb {σ α : Type} (x : Ndb α) : Streaming σ α := onto Prod.fst (fun w s => (w, s.2)) x

theorem onNdb_eq_ok {σ α : Type} {x : Ndb α} {w w' : NdbWriter} {s s' : σ} {a : α} :
    (onNdb x : Streaming σ α) (w, s) = .ok a (w', s') ↔ x w = .ok a w' ∧ s = s' := onOuter_eq_ok

/-! ## Space management -/

def isReservedPage (ib : Nat) : Bool :=
  if ib = kDListPos then true
  else if ib < kFirstAMapPos then false
  else if (ib - kFirstAMapPos) % kAMapSpan = 0 then true
  else kFirstPMapPos ≤ ib && (ib - kFirstPMapPos) % kPMapSpan = 0

/-- The first reserved page in the way of `cb` octets at `cursor`. -/
def clash (cursor cb : Nat) : Option Nat :=
  let first := cursor / kPageSize * kPageSize
  ((List.range (passes (cursor + cb - first) kPageSize)).map (first + · * kPageSize)).find?
    fun p => cursor < p + kPageSize && isReservedPage p

/-- The loop of `allocate`. At most two reserved pages lie together, so the third pass finds no
clash (`place_spec`). -/
def placeFrom : Nat → Nat → Nat → Nat
  | 0, cursor, _ => cursor
  | fuel + 1, cursor, cb =>
    match clash cursor cb with
    | none => cursor
    | some p => placeFrom fuel (p + kPageSize) cb

def place (cursor cb : Nat) : Nat := placeFrom 3 cursor cb

/-- `0x80u >> (bit % 8)`. -/
def bitMask (bit : Nat) : Byte := 0x80 >>> (bit % 8).toUInt8

/-- The loop of `markAllocated` over `n` bits from `bit` on; the flag is its early exit, for a
range that spills into the next span. -/
def setBits : Nat → Nat → Bytes → Bytes × Bool
  | 0, _, bits => (bits, false)
  | n + 1, bit, bits =>
    if bits.length ≤ bit / 8 then (bits, true)
    else setBits n (bit + 1) (bits.modify (bit / 8) (· ||| bitMask bit))

namespace NdbWriter

/-- `markAllocated` for a range whose map exists. -/
def markInside (w : NdbWriter) (ib cb : Nat) : NdbWriter :=
  if ib < kFirstAMapPos then w
  else
    let map := (ib - kFirstAMapPos) / kAMapSpan
    let base := kFirstAMapPos + map * kAMapSpan
    let firstBit := (ib - base) / kBlockAlign
    let nbits := alignUp cb kBlockAlign / kBlockAlign
    let (bits, spilled) := setBits nbits firstBit (w.amaps.getD map [])
    { w with
      amaps := w.amaps.set map bits
      spilled := w.spilled || spilled }

/-- The PMap pages in the span of an AMap page other than the first. -/
def pmapsOf (amapIb : Nat) : List Nat :=
  ((List.range (passes (amapIb + kAMapSpan - kFirstPMapPos) kPMapSpan)).map
    (kFirstPMapPos + · * kPMapSpan)).filter fun p => amapIb ≤ p

/-- One pass of the loop of `ensureAMapCount`. The ranges it marks lie in the new span, so
`markAllocated` finds their map in place. -/
def addAMap (w : NdbWriter) : NdbWriter :=
  let index := w.amaps.length
  let amapIb := kFirstAMapPos + index * kAMapSpan
  let w := { w with amaps := w.amaps ++ [List.replicate 496 0], lastAMapIb := amapIb }
  -- an AMap page accounts for itself
  let w := w.markInside amapIb kPageSize
  -- and for any PMap page inside its span
  if index = 0 then w.markInside kFirstPMapPos kPageSize
  else (pmapsOf amapIb).foldl (fun w p => w.markInside p kPageSize) w

def ensureAMapCount (n : Nat) (w : NdbWriter) : NdbWriter := addAMap^[n - w.amaps.length] w

def markAllocated (ib cb : Nat) (w : NdbWriter) : NdbWriter :=
  if ib < kFirstAMapPos then w
  else (w.ensureAMapCount ((ib - kFirstAMapPos) / kAMapSpan + 1)).markInside ib cb

end NdbWriter

def allocate (cb : Nat) : Ndb Nat := do
  let w ← get
  let cb := alignUp cb kBlockAlign
  let ib := place w.cursor cb
  set ({ w with cursor := ib + cb }.markAllocated ib cb)
  return ib

/-- Pages must start on a 512-byte boundary. -/
def allocatePage : Ndb Nat := do
  modify fun w => { w with cursor := alignUp w.cursor kPageSize }
  allocate kPageSize

/-! ## Raw io -/

/-- An operation of the stream that puts `data` at `ib`. Offsets are signed 64-bit numbers. -/
def put (what : String) (ib : Nat) (data : Bytes) : Ndb Unit := do
  let w ← get
  if w.good ∧ w.fate 0 ∧ ib + data.length < 2 ^ 63 then
    set { w with fate := fun k => w.fate (k + 1), file := w.file.write ib data }
  else
    set { w with fate := fun k => w.fate (k + 1), good := false }
    throw ⟨what⟩

def writeAt (ib : Nat) (data : Bytes) : Ndb Unit := put "short write to PST file" ib data

/-- The constructor. -/
def openWriter : Ndb Unit := do
  -- the region below kFirstDataPos is reserved up front
  put "cannot open PST for writing" 0 []
  put "cannot preallocate PST header region" 0 (List.replicate kFirstDataPos 0)
  modify (NdbWriter.ensureAMapCount 1)

/-- `makeBid(next_bid_index_++, internal)`. -/
def takeBid (internal : Bool) : Ndb Nat := do
  let w ← get
  set { w with nextBidIndex := w.nextBidIndex + 1 }
  return makeBid w.nextBidIndex internal

/-! ## Blocks -/

/-- A block with its padding and its trailer. -/
def blockImage (data : Bytes) (ib : Nat) (bid : Nat) : Bytes :=
  let total := alignUp (data.length + 16) kBlockAlign
  data ++ List.replicate (total - 16 - data.length) 0 ++ le 2 data.length ++
    le 2 (computeSig ib bid) ++ le 4 (computeCrc data) ++ le 8 bid

def emitBlock (data : Bytes) (internal : Bool) : Ndb Nat := do
  if kMaxBlockData < data.length then throw ⟨"block payload exceeds 8176 bytes"⟩
  let ib ← allocate (alignUp (data.length + 16) kBlockAlign)
  let bid ← takeBid internal
  let image := blockImage data ib bid
  writeAt ib image
  modify fun w =>
    { w with
      bbt := w.bbt ++ [⟨bid, ib, data.length⟩]
      history := w.history ++ [⟨bid, ib, image, .inl data.length⟩] }
  return bid

/-- XBLOCK / XXBLOCK header is 8 octets, the rest is an array of BIDs. -/
def kXBlockFanout : Nat := (kMaxBlockData - 8) / 8
/-- SLBLOCK header is 8 octets, SLENTRY is 24. -/
def kSlBlockFanout : Nat := (kMaxBlockData - 8) / 24
/-- SIBLOCK header is 8 octets, SIENTRY is 16. -/
def kSiBlockFanout : Nat := (kMaxBlockData - 8) / 16

def xBlockData (children : List Nat) (level totalBytes : Nat) : Bytes :=
  [0x01, level.toUInt8] ++ le 2 children.length ++ le 4 totalBytes ++ children.flatMap (le 8)

def emitXBlock (children : List Nat) (level totalBytes : Nat) : Ndb Nat :=
  emitBlock (xBlockData children level totalBytes) true

def writeLeafChunk (data : Bytes) : Ndb Nat := emitBlock data false

/-- How many of `totalBytes` octets the XBLOCK over `n` leaves from leaf `i` on covers. -/
def coveredBytes (totalBytes i n : Nat) : Nat :=
  min (n * kMaxBlockData) ((totalBytes + wordSize - i * kMaxBlockData) % wordSize) % 2 ^ 32

def assembleDataTree (leaves : List Nat) (totalBytes : Nat) : Ndb Nat :=
  match leaves with
  | [] => emitBlock [] false
  | [leaf] => pure leaf
  | leaves => do
    if 0xFFFFFFFF < totalBytes then throw ⟨"data tree larger than 4 GiB"⟩
    if leaves.length ≤ kXBlockFanout then emitXBlock leaves 1 totalBytes
    else
      let xblocks ← each
        (fun (slice, k) =>
          emitXBlock slice 1 (coveredBytes totalBytes (k * kXBlockFanout) slice.length))
        (pieces kXBlockFanout leaves).zipIdx
      if kXBlockFanout < xblocks.length then
        throw ⟨"data tree needs more than two levels; not supported"⟩
      emitXBlock xblocks 2 totalBytes

def writeData (data : Bytes) : Ndb Nat :=
  if data.length ≤ kMaxBlockData then emitBlock data false
  else do
    let leaves ← each writeLeafChunk (pieces kMaxBlockData data)
    assembleDataTree leaves data.length

def slBlockData (entries : List SubnodeEntry) : Bytes :=
  [0x02, 0x00] ++ le 2 entries.length ++ le 4 0 ++
    entries.flatMap fun e => le 8 e.nid ++ le 8 e.data ++ le 8 e.sub

def siBlockData (children : List (Nat × Nat)) : Bytes :=
  [0x02, 0x01] ++ le 2 children.length ++ le 4 0 ++ children.flatMap fun c => le 8 c.1 ++ le 8 c.2

def emitSl (entries : List SubnodeEntry) : Ndb Nat := emitBlock (slBlockData entries) true

section

variable (std : StdSort)

def writeSubnodes (entries : List SubnodeEntry) : Ndb Nat :=
  if entries = [] then pure 0
  else
    let entries := std.sort (byKey SubnodeEntry.nid) entries
    if entries.length ≤ kSlBlockFanout then emitSl entries
    else do
      let children ← each
        (fun piece => do
          let bid ← emitSl piece
          pure ((piece.headD {}).nid, bid))
        (pieces kSlBlockFanout entries)
      if kSiBlockFanout < children.length then
        throw ⟨"subnode tree needs more than two levels; not supported"⟩
      emitBlock (siBlockData children) true

def addNode (nid : Nat) (data sub : Nat) (parent : Nat) : Ndb Unit :=
  modify fun w => { w with nbt := w.nbt ++ [⟨nid, data, sub, parent⟩] }

/-! ## B-trees -/

/-- Entries that fit in one page. -/
def entriesPerPage (entrySize : Nat) : Nat := kBTPageDataSize / entrySize

/-- A B-tree page before its trailer. -/
def pageBody (entries : List Bytes) (entrySize level : Nat) : Bytes :=
  let data := entries.flatten
  data ++ List.replicate (kBTPageDataSize - data.length) 0 ++
    [entries.length.toUInt8, (entriesPerPage entrySize).toUInt8, entrySize.toUInt8,
      level.toUInt8, 0, 0, 0, 0]

/-- A page: 496 octets and the trailer. -/
def pageImage (body : Bytes) (ptype : Byte) (sig : Nat) (bid : Nat) : Bytes :=
  body ++ [ptype, ptype] ++ le 2 sig ++ le 4 (computeCrc body) ++ le 8 bid

def finishBTPage (body : Bytes) (ptype : Byte) : Ndb Bref := do
  let ib ← allocatePage
  let bid ← takeBid false
  let image := pageImage body ptype (computeSig ib bid) bid
  writeAt ib image
  modify fun w => { w with history := w.history ++ [⟨bid, ib, image, .inr ptype⟩] }
  return ⟨bid, ib⟩

def emitLeafPage (ptype : Byte) (entrySize : Nat) (entries : List Bytes) : Ndb Bref :=
  finishBTPage (pageBody entries entrySize 0) ptype

def branchBytes (e : BranchEntry) : Bytes := le 8 e.key ++ le 8 e.bid ++ le 8 e.ib

def emitBranchPage (ptype : Byte) (entries : List BranchEntry) (level : Nat) : Ndb Bref :=
  finishBTPage (pageBody (entries.map branchBytes) kSizeBTEntry level) ptype

/-- The branch levels over `entries`; the next pages are of level `8 - left`. -/
def growLevels (ptype : Byte) : Nat → List BranchEntry → Ndb (List BranchEntry)
  | left, entries =>
    if entries.length ≤ 1 then pure entries
    else do
      let next ← each
        (fun piece => do
          let child ← emitBranchPage ptype piece (8 - left)
          pure ⟨(piece.headD ⟨0, 0, 0⟩).key, child.bid, child.ib⟩)
        (pieces (entriesPerPage kSizeBTEntry) entries)
      match left with
      | 0 => throw ⟨"B-tree grew beyond 8 levels"⟩
      | left + 1 => growLevels ptype left next

/-- The tree over entries given as their keys and octets. -/
def buildBTree (ptype : Byte) (entrySize : Nat) (entries : List (Nat × Bytes)) : Ndb Bref :=
  -- an empty tree is still one (empty) leaf page
  if entries = [] then emitLeafPage ptype entrySize []
  else do
    let leaves ← each
      (fun piece => do
        let child ← emitLeafPage ptype entrySize (piece.map Prod.snd)
        pure (⟨(piece.headD (0, [])).1, child.bid, child.ib⟩ : BranchEntry))
      (pieces (entriesPerPage entrySize) entries)
    let roots ← growLevels ptype 7 leaves
    let root := roots.headD ⟨0, 0, 0⟩
    return ⟨root.bid, root.ib⟩

def nbtBytes (e : NbtEntry) : Bytes :=
  le 8 e.nid ++ le 8 e.data ++ le 8 e.sub ++ le 4 e.parent ++ le 4 0

/-- `cRef` is 2: one reference plus the implicit one. -/
def bbtBytes (e : BbtEntry) : Bytes := le 8 e.bid ++ le 8 e.ib ++ le 2 e.cb ++ le 2 2 ++ le 4 0

/-! ## Fixed pages -/

/-- The pages at fixed positions that carry their own offset in place of a BID and no
signature. -/
def writeFixedPage (ib : Nat) (ptype : Byte) (body : Bytes) : Ndb Unit :=
  writeAt ib (pageImage body ptype 0 ib)

/-- The clear bits of a map. -/
def freeSlots (bits : Bytes) : Nat :=
  (bits.map fun byte => (List.range 8).countP fun b => byte &&& bitMask b = 0).sum

def emitFixedPages : Ndb Unit := do
  modify fun w => { w with amapFree := (w.amaps.map fun bits => freeSlots bits * kBlockAlign).sum }
  -- the density list, present but empty, is a signed page
  let bid ← takeBid false
  writeAt kDListPos (pageImage (List.replicate 496 0) kPTypeDList (computeSig kDListPos bid) bid)
  let w ← get
  let _ ← each (fun (bits, i) => writeFixedPage (kFirstAMapPos + i * kAMapSpan) kPTypeAMap bits)
    w.amaps.zipIdx
  -- page maps are written fully allocated
  modify fun w => { w with pmapFree := 0 }
  let _ ← each
    (fun k => writeFixedPage (kFirstPMapPos + k * kPMapSpan) kPTypePMap (List.replicate 496 0xFF))
    (List.range (passes (w.fileEnd - kFirstPMapPos) kPMapSpan))

/-- `rgnid`: the next NID index of each node type, never below the reserved range. -/
def nextNidIndex (nbt : List NbtEntry) (type : Nat) : Nat :=
  nbt.foldl
    (fun next e => if nidType e.nid = type then max next (nidIndex e.nid + 1) else next)
    kFirstUserNidIndex

/-- ROOT. -/
def rootBytes (w : NdbWriter) (nbt bbt : Bref) : Bytes :=
  le 4 0 ++ le 8 w.fileEnd ++ le 8 w.lastAMapIb ++ le 8 w.amapFree ++ le 8 w.pmapFree ++
    le 8 nbt.bid ++ le 8 nbt.ib ++ le 8 bbt.bid ++ le 8 bbt.ib ++ [0x02, 0x00] ++ le 2 0

/-- The header from `wMagicClient` to `bidNextB`. -/
def headerCore (w : NdbWriter) (nbt bbt : Bref) : Bytes :=
  let nextBid := makeBid w.nextBidIndex false
  le 2 0x4D53 ++ le 2 23 ++ le 2 19 ++ [0x01, 0x01] ++ List.replicate 8 0 ++ le 8 0 ++
    le 8 nextBid ++ le 4 1 ++ (List.range 32).flatMap (fun t => le 4 (nextNidIndex w.nbt t)) ++
    List.replicate 8 0 ++ rootBytes w nbt bbt ++ List.replicate 4 0 ++
    List.replicate 128 0xFF ++ List.replicate 128 0xFF ++ [0x80, 0x00, 0, 0] ++ le 8 nextBid

def headerImage (w : NdbWriter) (nbt bbt : Bref) : Bytes :=
  let core := headerCore w nbt bbt
  le 4 0x4E444221 ++ le 4 (computeCrc (core.take 471)) ++ core ++ le 4 (computeCrc core) ++
    List.replicate 36 0

def writeHeader (nbt bbt : Bref) : Ndb Unit := do
  let w ← get
  writeAt 0 (headerImage w nbt bbt)

/-- The file is sized to whole spans of the allocation maps. -/
def padFile : Ndb Unit := do
  let w ← get
  let fileEnd := max (kFirstAMapPos + w.amaps.length * kAMapSpan) w.cursor
  set { w with fileEnd }
  if w.cursor < fileEnd then writeAt w.cursor (List.replicate (fileEnd - w.cursor) 0)

def finish : Ndb Unit := do
  let w ← get
  if w.finished then return
  set
    { w with
      finished := true
      bbt := std.sort (byKey BbtEntry.bid) w.bbt
      nbt := std.sort (byKey NbtEntry.nid) w.nbt }
  let w ← get
  let nbtRoot ← buildBTree kPTypeNBT kSizeNBTEntry (w.nbt.map fun e => (e.nid, nbtBytes e))
  let bbtRoot ← buildBTree kPTypeBBT kSizeBBTEntry (w.bbt.map fun e => (e.bid, bbtBytes e))
  padFile
  emitFixedPages
  writeHeader nbtRoot bbtRoot
  -- the flush
  put "failed flushing PST file" 0 []

end

end Pst
end Imap2Pst
