import Imap2Pst.Std.LittleEndian

/-!
# Pst.Format

On-disk constants and small helpers of the Unicode PST format, translated from
`pst/pst_format.h` and `pst/crc.cpp`. Node, block and heap identifiers
(`Nid`, `Bid`, `Hid`) are natural numbers; where the
source's arithmetic on them can wrap, the modulus is written out.
-/

namespace Imap2Pst
namespace Pst

open CxxStd

/-! ## Geometry -/

def kPageSize : Nat := 512
def kBlockAlign : Nat := 64
def kMaxBlockData : Nat := 8176
def kHeaderSize : Nat := 564
def kDListPos : Nat := 0x4200
def kFirstAMapPos : Nat := 0x4400
def kFirstPMapPos : Nat := 0x4600
def kFirstDataPos : Nat := 0x4800
/-- One AMap page maps 496 * 8 * 64 octets. -/
def kAMapSpan : Nat := 496 * 8 * 64
/-- One PMap page maps 496 * 8 * 512 octets. -/
def kPMapSpan : Nat := 496 * 8 * 512

def alignUp (v a : Nat) : Nat := (v + a - 1) / a * a

/-! ## Page types and entry sizes -/

def kPTypeBBT : Byte := 0x80
def kPTypeNBT : Byte := 0x81
def kPTypePMap : Byte := 0x83
def kPTypeAMap : Byte := 0x84
def kPTypeDList : Byte := 0x86

def kSizeBTEntry : Nat := 24
def kSizeBBTEntry : Nat := 24
def kSizeNBTEntry : Nat := 32
def kBTPageDataSize : Nat := 488

/-! ## Identifiers -/

def kNidTypeNormalFolder : Nat := 0x02
def kNidTypeNormalMessage : Nat := 0x04
def kNidTypeAttachment : Nat := 0x05
def kNidTypeReceiveFolderTable : Nat := 0x0B
def kNidTypeOutgoingQueueTable : Nat := 0x0C
def kNidTypeHierarchyTable : Nat := 0x0D
def kNidTypeContentsTable : Nat := 0x0E
def kNidTypeAssocContentsTable : Nat := 0x0F
def kNidTypeSearchContentsTable : Nat := 0x10
def kNidTypeAttachmentTable : Nat := 0x11
def kNidTypeRecipientTable : Nat := 0x12
def kNidTypeLtp : Nat := 0x1F

def makeNid (type : Nat) (index : Nat) : Nat := (index <<< 5 % 2 ^ 32) ||| (type &&& 0x1F)
def nidType (nid : Nat) : Nat := nid &&& 0x1F
def nidIndex (nid : Nat) : Nat := nid >>> 5

def kFirstUserNidIndex : Nat := 0x400

/-- The reserved nodes. -/
def kNidMessageStore : Nat := 0x21
def kNidNameToIdMap : Nat := 0x61
def kNidRootFolder : Nat := 0x122
def kNidSearchManagementQ : Nat := 0x1E1
def kNidSearchActivityList : Nat := 0x201
def kNidSearchDomainObject : Nat := 0x261
def kNidHmpGuidMap : Nat := 0xC01
def kNidHmpIdMap : Nat := 0xE01
/-- Subnodes of a message. -/
def kNidRecipientTable : Nat := 0x692
def kNidAttachmentTable : Nat := 0x671

/-- `b1` marks an internal block (XBLOCK, XXBLOCK, SLBLOCK, SIBLOCK). -/
def makeBid (index : Nat) (internal : Bool) : Nat :=
  (index <<< 2 % 2 ^ 64) ||| (if internal then 2 else 0)
def bidIsInternal (bid : Nat) : Bool := bid &&& 2 ≠ 0

/-! ## Heap identifiers -/

/-- The allocation index is 1-based and 11 bits wide, the block index 16. -/
def makeHid (blockIndex allocIndex : Nat) : Nat :=
  (blockIndex % 2 ^ 16) <<< 16 ||| (allocIndex % 2 ^ 16) <<< 5
def hidAllocIndex (hid : Nat) : Nat := hid >>> 5 &&& 0x7FF
def hidBlockIndex (hid : Nat) : Nat := hid >>> 16
/-- An HNID holds an HID when its low 5 bits are zero, otherwise a NID. -/
def hnidIsHid (v : Nat) : Bool := v &&& 0x1F = 0

/-- `HNHDR.bSig`. -/
def kHnSignature : Byte := 0xEC
def kHnSigHmpGuid : Byte := 0x9C
def kHnSigHmpId : Byte := 0xCC
def kHnSigTC : Byte := 0x7C
def kHnSigBTH : Byte := 0xB5
def kHnSigPC : Byte := 0xBC

/-! ## Signature and checksum -/

/-- The signature of a page or block; both arguments are truncated to 32 bits before mixing. -/
def computeSig (ib bid : Nat) : Nat :=
  let v := bid.toUInt32 ^^^ ib.toUInt32
  (v >>> 16 ^^^ v).toUInt16.toNat

/-- One entry of the table of a reflected CRC-32. -/
def crcStep (c : UInt32) : UInt32 :=
  if c &&& 1 = 1 then c >>> 1 ^^^ 0xEDB88320 else c >>> 1

def makeTable : Array UInt32 := (Array.range 256).map fun i => crcStep^[8] i.toUInt32

def kTable : Array UInt32 := makeTable

def computeCrcFrom (seed : UInt32) (data : Bytes) : UInt32 :=
  data.foldl (fun crc b => kTable.getD ((crc ^^^ b.toUInt32) &&& 0xFF).toNat 0 ^^^ crc >>> 8) seed

/-- Without pre-inversion of the seed and without final inversion. -/
def computeCrc (data : Bytes) : Nat := (computeCrcFrom 0 data).toNat

theorem computeSig_lt (ib bid : Nat) : computeSig ib bid < 256 ^ 2 := by
  unfold computeSig
  exact UInt16.toNat_lt _

theorem computeCrc_lt (data : Bytes) : computeCrc data < 256 ^ 4 := by
  unfold computeCrc
  exact UInt32.toNat_lt _

theorem le_alignUp {v a : Nat} (ha : 0 < a) : v ≤ alignUp v a := by
  have hmod := Nat.mod_lt (v + a - 1) ha
  have hdiv := Nat.div_add_mod (v + a - 1) a
  rw [alignUp, Nat.mul_comm]
  omega

theorem alignUp_lt {v a : Nat} (ha : 0 < a) : alignUp v a < v + a := by
  have hdiv := Nat.div_mul_le_self (v + a - 1) a
  rw [alignUp]
  omega

theorem makeHid_of_lt {block slot : Nat} (hblock : block < 2 ^ 16) (hslot : slot < 2 ^ 11) :
    makeHid block slot = 65536 * block + 32 * slot := by
  unfold makeHid
  rw [Nat.mod_eq_of_lt hblock, Nat.mod_eq_of_lt (by omega : slot < 2 ^ 16),
    ← Nat.shiftLeft_add_eq_or_of_lt (by rw [Nat.shiftLeft_eq]; omega), Nat.shiftLeft_eq,
    Nat.shiftLeft_eq]
  omega

theorem hidAllocIndex_makeHid {block slot : Nat} (hblock : block < 2 ^ 16)
    (hslot : slot < 2 ^ 11) : hidAllocIndex (makeHid block slot) = slot := by
  rw [makeHid_of_lt hblock hslot, hidAllocIndex, show (0x7FF : Nat) = 2 ^ 11 - 1 from rfl,
    Nat.and_two_pow_sub_one_eq_mod, Nat.shiftRight_eq_div_pow]
  omega

theorem hidBlockIndex_makeHid {block slot : Nat} (hblock : block < 2 ^ 16)
    (hslot : slot < 2 ^ 11) : hidBlockIndex (makeHid block slot) = block := by
  rw [makeHid_of_lt hblock hslot, hidBlockIndex, Nat.shiftRight_eq_div_pow]
  omega

theorem hnidIsHid_makeHid {block slot : Nat} (hblock : block < 2 ^ 16) (hslot : slot < 2 ^ 11) :
    hnidIsHid (makeHid block slot) = true := by
  rw [makeHid_of_lt hblock hslot, hnidIsHid, show (0x1F : Nat) = 2 ^ 5 - 1 from rfl,
    Nat.and_two_pow_sub_one_eq_mod]
  simp only [decide_eq_true_eq]
  omega

/-- 27 bits of the index fit beside the type. -/
theorem makeNid_eq {type : Nat} (htype : type < 2 ^ 5) (index : Nat) :
    makeNid type index = 32 * (index % 2 ^ 27) + type := by
  have hmask : type &&& 0x1F = type := by
    rw [show (0x1F : Nat) = 2 ^ 5 - 1 from rfl, Nat.and_two_pow_sub_one_eq_mod,
      Nat.mod_eq_of_lt htype]
  have hwrap : index <<< 5 % 2 ^ 32 = (index % 2 ^ 27) <<< 5 := by
    rw [Nat.shiftLeft_eq, Nat.shiftLeft_eq, show (2 : Nat) ^ 32 = 2 ^ 27 * 2 ^ 5 from rfl,
      Nat.mul_mod_mul_right]
  unfold makeNid
  rw [hmask, hwrap, ← Nat.shiftLeft_add_eq_or_of_lt htype, Nat.shiftLeft_eq, Nat.mul_comm]

theorem makeNid_of_lt {type index : Nat} (htype : type < 2 ^ 5) (hindex : index < 2 ^ 27) :
    makeNid type index = 32 * index + type := by
  rw [makeNid_eq htype, Nat.mod_eq_of_lt hindex]

theorem makeNid_lt (type index : Nat) : makeNid type index < 2 ^ 32 := by
  refine Nat.or_lt_two_pow (Nat.mod_lt _ (by decide)) ?_
  exact Nat.lt_of_le_of_lt Nat.and_le_right (by decide)

/-- The low 5 bits, also of an index that wraps. -/
theorem nidType_makeNid {type : Nat} (htype : type < 2 ^ 5) (index : Nat) :
    nidType (makeNid type index) = type := by
  rw [makeNid_eq htype, nidType, show (0x1F : Nat) = 2 ^ 5 - 1 from rfl,
    Nat.and_two_pow_sub_one_eq_mod]
  omega

theorem hnidIsHid_eq_false {nid : Nat} (h : nidType nid ≠ 0) : hnidIsHid nid = false :=
  decide_eq_false h

theorem dvd_alignUp (v a : Nat) : a ∣ alignUp v a := Nat.dvd_mul_left _ _

end Pst
end Imap2Pst
