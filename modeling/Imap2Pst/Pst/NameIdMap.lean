import Imap2Pst.Pst.Property

/-!
# Pst.NameIdMap

The name-to-id map, translated from `pst/nameid_map.cpp`: property ids from 0x8000 on, each for a
GUID and a name, and the property context that says which.

* `NameIdMap.idForString`, `idForNumeric`, `ensureGuid` — the calls.
* `NameIdMap.buildPropertyContext` — the GUID, entry and string streams, and the hash buckets.
* `readNamed` — what a reader finds for a property id.
-/

namespace Imap2Pst
namespace Pst

open CxxStd

/-! ## GUIDs -/

structure Guid where
  data1 : UInt32
  data2 : UInt16
  data3 : UInt16
  data4 : Vector Byte 8
  deriving DecidableEq, Repr

def kPsMapi : Guid := ⟨0x00020328, 0, 0, #v[0xC0, 0x00, 0, 0, 0, 0, 0, 0x46]⟩
def kPsPublicStrings : Guid := ⟨0x00020329, 0, 0, #v[0xC0, 0x00, 0, 0, 0, 0, 0, 0x46]⟩
def kPsInternetHeaders : Guid := ⟨0x00020386, 0, 0, #v[0xC0, 0x00, 0, 0, 0, 0, 0, 0x46]⟩

namespace Guid

def bytes (g : Guid) : Bytes :=
  le 4 g.data1.toNat ++ le 2 g.data2.toNat ++ le 2 g.data3.toNat ++ g.data4.toList

/-- `operator<`. -/
def less (a b : Guid) : Bool := a.bytes < b.bytes

/-- Neither is less than the other. -/
def same (a b : Guid) : Bool := !a.less b && !b.less a

@[simp] theorem bytes_length (g : Guid) : g.bytes.length = 16 := by
  simp only [bytes, List.length_append, le_length, Vector.length_toList]

theorem bytes_inj {a b : Guid} (h : a.bytes = b.bytes) : a = b := by
  obtain ⟨a₁, a₂, a₃, a₄⟩ := a
  obtain ⟨b₁, b₂, b₃, b₄⟩ := b
  simp only [bytes, List.append_assoc] at h
  obtain ⟨h₁, h⟩ := List.append_inj h (by simp)
  obtain ⟨h₂, h⟩ := List.append_inj h (by simp)
  obtain ⟨h₃, h₄⟩ := List.append_inj h (by simp)
  have hnum {w m n : Nat} (hm : m < 256 ^ w) (hn : n < 256 ^ w) (h : le w m = le w n) : m = n := by
    rw [← fromLe_le_of_lt hm, h, fromLe_le_of_lt hn]
  obtain rfl := UInt32.toNat_inj.1 (hnum a₁.toNat_lt b₁.toNat_lt h₁)
  obtain rfl := UInt16.toNat_inj.1 (hnum a₂.toNat_lt b₂.toNat_lt h₂)
  obtain rfl := UInt16.toNat_inj.1 (hnum a₃.toNat_lt b₃.toNat_lt h₃)
  obtain rfl := Vector.toList_inj.1 h₄
  rfl

theorem same_iff {a b : Guid} : a.same b = true ↔ a = b := by
  constructor
  · intro h
    simp only [same, less, Bool.and_eq_true, Bool.not_eq_true', decide_eq_false_iff_not,
      List.not_lt] at h
    exact bytes_inj (List.le_antisymm h.2 h.1)
  · rintro rfl
    simp [same, less, List.lt_irrefl]

end Guid

/-! ## The map -/

/-- The bucket count is a fixed prime. -/
def kBucketCount : Nat := 251

def foldCase (s : Bytes) : Bytes := lower s

structure NameEntry where
  isString : Bool
  /-- A numeric id, or an offset into the string stream. -/
  numeric : Nat
  guidIndex : Nat
  propIndex : Nat
  hash : Nat
  deriving DecidableEq, Repr

def kFirstNamedId : Nat := 0x8000
def kMaxNames : Nat := 4096

/-- What a property is called, besides its GUID. -/
inductive Name where
  | string (spelling : Bytes)
  | number (id : UInt32)
  deriving DecidableEq, Repr

structure NameIdMap where
  entries : List NameEntry := []
  /-- wGuid 3, 4, 5, ... -/
  extraGuids : List Guid := []
  stringStream : Bytes := []
  byString : List ((Nat × Bytes) × Nat) := []
  byNumeric : List ((Nat × UInt32) × Nat) := []
  deriving DecidableEq, Repr

/-- Zeros up to a multiple of four octets. -/
def padToFour (s : Bytes) : Bytes := s ++ List.replicate (alignUp s.length 4 - s.length) 0

namespace NameIdMap

def guidIndex (guid : Guid) (m : NameIdMap) : Nat × NameIdMap :=
  if guid.same kPsMapi then (1, m)
  else if guid.same kPsPublicStrings then (2, m)
  else
    match m.extraGuids.findIdx? fun g => g.same guid with
    | some i => ((3 + i) % 2 ^ 16, m)
    | none =>
      ((2 + (m.extraGuids.length + 1)) % 2 ^ 16,
        { m with extraGuids := m.extraGuids ++ [guid] })

def lookup (wguid : Nat) (m : NameIdMap) : Name → Option Nat
  | .string spelling => m.byString.lookup (wguid, foldCase spelling)
  | .number id => m.byNumeric.lookup (wguid, id)

def nextPropIndex (m : NameIdMap) : Nat := m.entries.length % 2 ^ 16
def nextId (m : NameIdMap) : Nat := (kFirstNamedId + m.nextPropIndex) % 2 ^ 16

/-- A new entry, and the key it is found by. -/
def mint (wguid : Nat) (m : NameIdMap) : Name → NameIdMap
  | .string spelling =>
    let utf16 := utf8ToUtf16le spelling
    { m with
      stringStream := padToFour (m.stringStream ++ le 4 utf16.length ++ utf16)
      entries := m.entries ++
        [⟨true, m.stringStream.length % 2 ^ 32, wguid, m.nextPropIndex, computeCrc utf16⟩]
      byString := ((wguid, foldCase spelling), m.nextId) :: m.byString }
  | .number id =>
    { m with
      entries := m.entries ++ [⟨false, id.toNat, wguid, m.nextPropIndex, id.toNat⟩]
      byNumeric := ((wguid, id), m.nextId) :: m.byNumeric }

/-- The id under a GUID's number; 0 when the map is full. -/
def idUnder (wguid : Nat) (name : Name) (m : NameIdMap) : Nat × NameIdMap :=
  match m.lookup wguid name with
  | some id => (id, m)
  | none => if kMaxNames ≤ m.entries.length then (0, m) else (m.nextId, m.mint wguid name)

/-- What `idForString` and `idForNumeric` do. -/
def idFor (guid : Guid) (name : Name) (m : NameIdMap) : Nat × NameIdMap :=
  let (wguid, m) := m.guidIndex guid
  m.idUnder wguid name

def idForString (guid : Guid) (name : Bytes) : NameIdMap → Nat × NameIdMap :=
  idFor guid (.string name)

def idForNumeric (guid : Guid) (id : UInt32) : NameIdMap → Nat × NameIdMap :=
  idFor guid (.number id)

def ensureGuid (guid : Guid) (m : NameIdMap) : NameIdMap := (m.guidIndex guid).2

/-! ## On disk -/

def encode (e : NameEntry) : Bytes :=
  le 4 e.numeric ++ le 2 (e.guidIndex <<< 1 ||| if e.isString then 1 else 0) ++ le 2 e.propIndex

def guidStream (m : NameIdMap) : Bytes := m.extraGuids.flatMap Guid.bytes

def entryStream (m : NameIdMap) : Bytes := m.entries.flatMap encode

def bucketOf (e : NameEntry) : Nat := (e.hash ^^^ e.guidIndex) % kBucketCount

/-- The entries of one bucket, in the order they were minted. -/
def bucket (m : NameIdMap) (i : Nat) : Bytes :=
  (m.entries.filter fun e => bucketOf e = i).flatMap encode

/-- The context before its buckets. -/
def streams (m : NameIdMap) : PropertyContext :=
  ({} : PropertyContext).setInt32 PidTagNameidBucketCount kBucketCount
    |>.setBinary PidTagNameidStreamGuid m.guidStream
    |>.setBinary PidTagNameidStreamEntry m.entryStream
    |>.setBinary PidTagNameidStreamString m.stringStream

def buildPropertyContext (m : NameIdMap) : PropertyContext :=
  (List.range kBucketCount).foldl
    (fun pc i =>
      if m.bucket i = [] then pc else pc.setBinary (makeTag (0x1000 + i) kPtBinary) (m.bucket i))
    m.streams

end NameIdMap

/-! ## The reader -/

/-- An entry of the entry stream or of a bucket. -/
structure NameRecord where
  numeric : Nat
  isString : Bool
  wGuid : Nat
  propIndex : Nat
  deriving DecidableEq, Repr

def readRecord (r : Bytes) : NameRecord where
  numeric := fromLe (slice r 0 4)
  isString := fromLe (slice r 4 2) % 2 = 1
  wGuid := fromLe (slice r 4 2) / 2
  propIndex := fromLe (slice r 6 2)

def readRecords (stream : Bytes) : List NameRecord := (pieces 8 stream).map readRecord

/-- The octets of a binary property, none when it is absent. -/
def streamOf (pc : PropertyContext) (id : Nat) : Bytes :=
  match pc.find id with
  | some (_, .bytes b) => b
  | _ => []

def readGuid (stream : Bytes) (wGuid : Nat) : Option Bytes :=
  if wGuid = 1 then some kPsMapi.bytes
  else if wGuid = 2 then some kPsPublicStrings.bytes
  else if 3 ≤ wGuid ∧ 16 * (wGuid - 3) + 16 ≤ stream.length then
    some (slice stream (16 * (wGuid - 3)) 16)
  else none

def readString (stream : Bytes) (offset : Nat) : Option Bytes :=
  let len := fromLe (slice stream offset 4)
  if offset + 4 + len ≤ stream.length then some (slice stream (offset + 4) len) else none

/-- A name as it is stored. -/
inductive StoredName where
  | string (utf16 : Bytes)
  | number (id : Nat)
  deriving DecidableEq, Repr

def readName (strings : Bytes) (r : NameRecord) : Option StoredName :=
  if r.isString then (readString strings r.numeric).map .string else some (.number r.numeric)

/-- The entry with the index of a property id. -/
def readEntry (pc : PropertyContext) (id : Nat) : Option NameRecord :=
  (readRecords (streamOf pc 0x0003)).find? fun r => r.propIndex = id - kFirstNamedId

/-- The GUID and the name of a property id. -/
def readNamed (pc : PropertyContext) (id : Nat) : Option (Bytes × StoredName) := do
  let r ← readEntry pc id
  let guid ← readGuid (streamOf pc 0x0002) r.wGuid
  let name ← readName (streamOf pc 0x0004) r
  pure (guid, name)

/-! ## The streams in the context -/

namespace NameIdMap

theorem find_buckets (m : NameIdMap) (pc : PropertyContext) (id n : Nat) (hn : n ≤ kBucketCount) :
    ((List.range n).foldl
      (fun pc i =>
        if m.bucket i = [] then pc else pc.setBinary (makeTag (0x1000 + i) kPtBinary) (m.bucket i))
      pc).find id =
      if 0x1000 ≤ id ∧ id < 0x1000 + n ∧ m.bucket (id - 0x1000) ≠ [] then
        some (makeTag id kPtBinary, .bytes (m.bucket (id - 0x1000)))
      else pc.find id := by
  induction n with
  | zero =>
    rw [if_neg (by omega)]
    rfl
  | succ n ih =>
    have hcount : kBucketCount = 251 := rfl
    have hid : tagId (makeTag (0x1000 + n) kPtBinary) = 0x1000 + n :=
      tagId_makeTag (by omega) (by decide)
    rw [List.range_succ, List.foldl_append, List.foldl_cons, List.foldl_nil]
    by_cases hnone : m.bucket n = []
    · rw [if_pos hnone, ih (by omega)]
      refine if_congr ⟨fun h => ⟨h.1, by omega, h.2.2⟩, fun h => ⟨h.1, ?_, h.2.2⟩⟩ rfl rfl
      have hne : id - 0x1000 ≠ n := fun heq => h.2.2 (heq ▸ hnone)
      omega
    · rw [if_neg hnone, PropertyContext.setBinary, PropertyContext.find_put, hid, ih (by omega)]
      by_cases heq : id = 0x1000 + n
      · subst heq
        rw [if_pos rfl, Nat.add_sub_cancel_left, if_pos ⟨by omega, by omega, hnone⟩]
      · rw [if_neg heq]
        exact if_congr ⟨fun h => ⟨h.1, by omega, h.2.2⟩, fun h => ⟨h.1, by omega, h.2.2⟩⟩ rfl rfl

theorem find_streams (m : NameIdMap) (id : Nat) :
    m.streams.find id =
      if id = 4 then some (PidTagNameidStreamString, .bytes m.stringStream)
      else if id = 3 then some (PidTagNameidStreamEntry, .bytes m.entryStream)
      else if id = 2 then some (PidTagNameidStreamGuid, .bytes m.guidStream)
      else if id = 1 then some (PidTagNameidBucketCount, .inline kBucketCount)
      else none := by
  unfold streams
  simp only [PropertyContext.setBinary, PropertyContext.setInt32, PropertyContext.find_put]
  rfl

/-- What stands under each id. -/
theorem find_buildPropertyContext (m : NameIdMap) (id : Nat) :
    m.buildPropertyContext.find id =
      if 0x1000 ≤ id ∧ id < 0x1000 + kBucketCount ∧ m.bucket (id - 0x1000) ≠ [] then
        some (makeTag id kPtBinary, .bytes (m.bucket (id - 0x1000)))
      else m.streams.find id := find_buckets m _ _ _ le_rfl

@[simp] theorem streamOf_guids (m : NameIdMap) :
    streamOf m.buildPropertyContext 0x0002 = m.guidStream := by
  rw [streamOf, find_buildPropertyContext, if_neg (by omega), find_streams]
  rfl

@[simp] theorem streamOf_entries (m : NameIdMap) :
    streamOf m.buildPropertyContext 0x0003 = m.entryStream := by
  rw [streamOf, find_buildPropertyContext, if_neg (by omega), find_streams]
  rfl

@[simp] theorem streamOf_strings (m : NameIdMap) :
    streamOf m.buildPropertyContext 0x0004 = m.stringStream := by
  rw [streamOf, find_buildPropertyContext, if_neg (by omega), find_streams]
  rfl

theorem streamOf_bucket (m : NameIdMap) {i : Nat} (hi : i < kBucketCount) :
    streamOf m.buildPropertyContext (0x1000 + i) = m.bucket i := by
  rw [streamOf, find_buildPropertyContext, Nat.add_sub_cancel_left]
  by_cases hnone : m.bucket i = []
  · rw [if_neg fun h => h.2.2 hnone, find_streams, if_neg (by omega), if_neg (by omega),
      if_neg (by omega), if_neg (by omega), hnone]
  · rw [if_pos ⟨by omega, by omega, hnone⟩]

end NameIdMap

end Pst
end Imap2Pst
